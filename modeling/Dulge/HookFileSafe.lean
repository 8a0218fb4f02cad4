import Dulge.HookFile

/-! When a hook file is safe. The sections of a file say which hook `_alpm_hook_parse_cb` makes of
it, and which of the hooks pass the validation. -/

namespace Dulge
open List

/-! ### Sections -/

def optionValues (key : CStr) (entries : List IniEntry) : List (Option CStr) :=
  (entries.filter (·.key = key)).map (·.value)

theorem optionValues_cons (key : CStr) (entry : IniEntry) (entries : List IniEntry) :
    optionValues key (entry :: entries) =
      (if entry.key = key then [entry.value] else []) ++ optionValues key entries := by
  unfold optionValues
  rw [filter_cons]
  by_cases same : entry.key = key
  · simp [same]
  · simp [same]

theorem optionValues_cons_ne_nil (key : CStr) (entry : IniEntry) (entries : List IniEntry) :
    optionValues key (entry :: entries) ≠ [] ↔ entry.key = key ∨ optionValues key entries ≠ [] := by
  rw [optionValues_cons]
  by_cases same : entry.key = key
  · simp [same]
  · simp [same]

structure IniSection.Defines (s : IniSection) (t : TriggerSpec) : Prop where
  targets : t.targets = optionValues (cstr "Target") s.entries
  type : t.type ≠ none ↔ optionValues (cstr "Type") s.entries ≠ []
  op : t.op ≠ 0 ↔ optionValues (cstr "Operation") s.entries ≠ []

/-- The command is the one of the last `Exec`. -/
def lastCommand (cmd : Option (List CStr)) (values : List (Option CStr)) : Option (List CStr) :=
  match values.getLast? with
  | none => cmd
  | some value => wordsplit value

theorem lastCommand_append (cmd : Option (List CStr)) (values later : List (Option CStr)) :
    lastCommand cmd (values ++ later) = lastCommand (lastCommand cmd values) later := by
  unfold lastCommand
  rw [List.getLast?_append]
  cases later.getLast? with
  | none => rfl
  | some value => rfl

section Sections

variable {file : CStr} {st : HookParse}

theorem entry_trigger {entry : IniEntry} {front : List TriggerSpec} {t : TriggerSpec}
    (shape : st.hook.triggers = front ++ [t])
    (zero : (hookParseCb (entry.call file (some (cstr "Trigger"))) st).1 = 0) :
    ∃ t', (hookParseCb (entry.call file (some (cstr "Trigger"))) st).2.hook =
        { st.hook with triggers := front ++ [t'] } ∧
      t.Takes entry.key entry.value t' := by
  have last : st.hook.triggers.getLast?.getD .empty = t := by rw [shape, List.getLast?_concat]; rfl
  have before : st.hook.triggers.dropLast = front := by rw [shape, dropLast_concat]
  rw [hookParseCb_trigger rfl rfl, last, before] at zero ⊢
  exact ⟨_, rfl, (trigger_meets rfl rfl t).changed zero⟩

theorem entries_trigger {entries : List IniEntry} {front : List TriggerSpec} {t : TriggerSpec}
    (shape : st.hook.triggers = front ++ [t]) (done : (callEach hookParseCb
      (entries.map (IniEntry.call file (some (cstr "Trigger")))) st).1 = 0) :
    ∃ t', (callEach hookParseCb (entries.map (IniEntry.call file (some (cstr "Trigger"))))
      st).2.hook =
        { st.hook with triggers := front ++ [t'] } ∧
      t'.targets = t.targets ++ optionValues (cstr "Target") entries ∧
      (t'.type ≠ none ↔ t.type ≠ none ∨ optionValues (cstr "Type") entries ≠ []) ∧
      (t'.op ≠ 0 ↔ t.op ≠ 0 ∨ optionValues (cstr "Operation") entries ≠ []) := by
  induction entries generalizing st t with
  | nil =>
    refine ⟨t, ?_, (append_nil _).symm, ?_, ?_⟩
    · rw [← shape]
      rfl
    · exact (or_iff_left fun some => some rfl).symm
    · exact (or_iff_left fun some => some rfl).symm
  | cons entry entries ih =>
    rw [map_cons] at done ⊢
    obtain ⟨zero, later⟩ := callEach_cons done
    rw [later] at done ⊢
    obtain ⟨next, hook, takes⟩ := entry_trigger shape zero
    obtain ⟨t', hook', targets, type, op⟩ := ih (by rw [hook]) done
    refine ⟨t', ?_, ?_, ?_, ?_⟩
    · rw [hook', hook]
    · rw [targets, takes.targets, optionValues_cons, append_assoc]
    · rw [type, takes.type, optionValues_cons_ne_nil, or_assoc]
    · rw [op, takes.op, optionValues_cons_ne_nil, or_assoc]

theorem entries_action {entries : List IniEntry} (done : (callEach hookParseCb
      (entries.map (IniEntry.call file (some (cstr "Action")))) st).1 = 0) {hook : HookFile}
    (result : (callEach hookParseCb
      (entries.map (IniEntry.call file (some (cstr "Action")))) st).2.hook = hook) :
    hook.triggers = st.hook.triggers ∧
      (hook.when ≠ none ↔ st.hook.when ≠ none ∨ optionValues (cstr "When") entries ≠ []) ∧
      hook.cmd = lastCommand st.hook.cmd (optionValues (cstr "Exec") entries) := by
  induction entries generalizing st with
  | nil =>
    subst result
    exact ⟨rfl, (or_iff_left fun some => some rfl).symm, rfl⟩
  | cons entry entries ih =>
    rw [map_cons] at done result
    obtain ⟨zero, later⟩ := callEach_cons done
    rw [later] at done result
    obtain ⟨triggers, when, cmd⟩ := ih done result
    rw [hookParseCb_action rfl rfl] at zero triggers when cmd
    have takes := (action_meets rfl rfl st.hook).changed zero
    refine ⟨triggers.trans takes.triggers, ?_, ?_⟩
    · rw [when, optionValues_cons_ne_nil, ← or_assoc]
      exact or_congr_left takes.when
    · have command : lastCommand st.hook.cmd (if entry.key = cstr "Exec" then [entry.value] else []) =
          if entry.key = cstr "Exec" then wordsplit entry.value else st.hook.cmd := by
        split
        · rfl
        · rfl
      rw [cmd, optionValues_cons, lastCommand_append, command]
      exact congrArg (lastCommand · _) takes.cmd

def triggerSections (sections : List IniSection) : List IniSection :=
  sections.filter (·.name = cstr "Trigger")

def actionValues (key : CStr) (sections : List IniSection) : List (Option CStr) :=
  (sections.filter (·.name = cstr "Action")).flatMap fun s => optionValues key s.entries

structure HookFile.Reads (sections : List IniSection) (h h' : HookFile) : Prop where
  triggers : ∃ ts, h'.triggers = h.triggers ++ ts ∧
    List.Forall₂ IniSection.Defines (triggerSections sections) ts
  when : h'.when ≠ none ↔ h.when ≠ none ∨ actionValues (cstr "When") sections ≠ []
  cmd : h'.cmd = lastCommand h.cmd (actionValues (cstr "Exec") sections)

theorem HookFile.Reads.append {sections later : List IniSection} {h h' h'' : HookFile}
    (one : h.Reads sections h') (two : h'.Reads later h'') : h.Reads (sections ++ later) h'' := by
  obtain ⟨ts, triggers, defines⟩ := one.triggers
  obtain ⟨ts', triggers', defines'⟩ := two.triggers
  have values (key : CStr) : actionValues key (sections ++ later) =
      actionValues key sections ++ actionValues key later := by
    rw [actionValues, filter_append, flatMap_append]
    rfl
  refine ⟨⟨ts ++ ts', ?_, ?_⟩, ?_, ?_⟩
  · rw [triggers', triggers, append_assoc]
  · rw [triggerSections, filter_append]
    exact rel_append defines defines'
  · rw [two.when, one.when, values, or_assoc, ← not_and_or, ← append_eq_nil_iff]
  · rw [two.cmd, one.cmd, values, lastCommand_append]

theorem trigger_section {s : IniSection} (trigger : s.name = cstr "Trigger") :
    triggerSections [s] = [s] ∧ ∀ key, actionValues key [s] = [] := by
  have other : ¬ cstr "Trigger" = cstr "Action" := by decide
  constructor
  · simp [triggerSections, trigger]
  · simp [actionValues, trigger, other]

theorem action_section {s : IniSection} (action : s.name = cstr "Action") :
    triggerSections [s] = [] ∧ ∀ key, actionValues key [s] = optionValues key s.entries := by
  have other : ¬ cstr "Action" = cstr "Trigger" := by decide
  constructor
  · simp [triggerSections, action, other]
  · simp [actionValues, action]

theorem section_reads {s : IniSection} (done : (callEach hookParseCb (s.calls file) st).1 = 0) :
    st.hook.Reads [s] (callEach hookParseCb (s.calls file) st).2.hook := by
  rw [IniSection.calls] at done ⊢
  obtain ⟨zero, later⟩ := callEach_cons done
  rw [later] at done ⊢
  rw [hookParseCb_header rfl rfl] at zero done ⊢
  by_cases trigger : s.name = cstr "Trigger"
  · obtain ⟨alone, empty⟩ := trigger_section trigger
    rw [if_pos trigger] at done ⊢
    rw [trigger] at done ⊢
    obtain ⟨t, hook, targets, type, op⟩ := entries_trigger rfl done
    have defines : s.Defines t :=
      ⟨targets, type.trans (or_iff_right fun some => some rfl),
        op.trans (or_iff_right fun some => some rfl)⟩
    rw [hook]
    refine ⟨⟨[t], rfl, ?_⟩, ?_, ?_⟩
    · rw [alone]
      exact .cons defines .nil
    · rw [empty]
      exact (or_iff_left fun some => some rfl).symm
    · rw [empty]
      rfl
  rw [if_neg trigger] at zero done ⊢
  by_cases action : s.name = cstr "Action"
  · obtain ⟨without, values⟩ := action_section action
    rw [if_pos action] at done ⊢
    rw [action] at done ⊢
    obtain ⟨triggers, when, cmd⟩ := entries_action done rfl
    refine ⟨⟨[], ?_, ?_⟩, ?_, ?_⟩
    · rw [triggers, append_nil]
    · rw [without]
      exact .nil
    · rw [values]
      exact when
    · rw [values]
      exact cmd
  · rw [if_neg action] at zero
    cases zero

theorem callEach_append_done {calls later : List IniCall}
    (done : (callEach hookParseCb (calls ++ later) st).1 = 0) :
    (callEach hookParseCb calls st).1 = 0 ∧ callEach hookParseCb (calls ++ later) st =
      callEach hookParseCb later (callEach hookParseCb calls st).2 := by
  rw [callEach_append] at done ⊢
  split at done
  next failed => exact absurd done failed
  next passed => exact ⟨not_not.mp passed, if_neg passed⟩

theorem sections_read {sections : List IniSection}
    (done : (callEach hookParseCb (sections.flatMap (IniSection.calls file)) st).1 = 0) :
    st.hook.Reads sections
      (callEach hookParseCb (sections.flatMap (IniSection.calls file)) st).2.hook := by
  induction sections generalizing st with
  | nil =>
    exact ⟨⟨[], (append_nil _).symm, .nil⟩, (or_iff_left fun some => some rfl).symm, rfl⟩
  | cons s sections ih =>
    rw [flatMap_cons] at done ⊢
    obtain ⟨zero, later⟩ := callEach_append_done done
    rw [later] at done ⊢
    exact (section_reads zero).append (ih done)

end Sections

/-! ### The validation -/

theorem require_zero {missing : Bool} {text : CStr} {checked : Int × List HookLog} :
    (require missing text checked).1 = 0 ↔ missing = false ∧ checked.1 = 0 := by
  unfold require
  cases missing with
  | true => simp
  | false => simp

theorem triggerValidate_zero (file : CStr) (t : TriggerSpec) :
    (triggerValidate file t).1 = 0 ↔ t.targets ≠ [] ∧ t.type ≠ none ∧ t.op ≠ 0 := by
  unfold triggerValidate
  simp only [require_zero, beq_eq_false_iff_ne, isEmpty_eq_false_iff, Option.isNone_eq_false_iff,
    Option.isSome_iff_ne_none, and_true]
  tauto

theorem validateTriggers_zero (file : CStr) (triggers : List TriggerSpec)
    (checked : Int × List HookLog) : (validateTriggers file triggers checked).1 = 0 ↔
      checked.1 = 0 ∧ ∀ t ∈ triggers, (triggerValidate file t).1 = 0 := by
  unfold validateTriggers
  induction triggers generalizing checked with
  | nil => simp
  | cons t triggers ih =>
    rw [foldl_cons, ih]
    by_cases fine : (triggerValidate file t).1 = 0
    · simp [fine]
    · simp [fine]

theorem hookValidate_zero (file : CStr) (hook : HookFile) :
    (hookValidate file hook).1 = 0 ↔ hook.triggers = [] ∨
      (∀ t ∈ hook.triggers, t.targets ≠ [] ∧ t.type ≠ none ∧ t.op ≠ 0) ∧
        hook.cmd ≠ none ∧ hook.when ≠ none := by
  unfold hookValidate
  by_cases masking : hook.triggers = []
  · simp [masking]
  rw [if_neg masking, or_iff_right masking]
  by_cases unset : hook.when = none
  · rw [if_pos unset]
    simp [require_zero, unset]
  rw [if_neg unset]
  have fields : (require hook.cmd.isNone (cstr "Missing Exec option in hook: " ++ file)
      (validateTriggers file hook.triggers (0, []))).1 = 0 ↔
      (∀ t ∈ hook.triggers, t.targets ≠ [] ∧ t.type ≠ none ∧ t.op ≠ 0) ∧
        hook.cmd ≠ none ∧ hook.when ≠ none := by
    rw [require_zero, validateTriggers_zero, Option.isNone_eq_false_iff, Option.isSome_iff_ne_none]
    simp only [triggerValidate_zero]
    tauto
  split
  · exact fields
  · exact fields

/-! ### Files that are safe -/

theorem forall₂_partners {α β : Type} {R : α → β → Prop} {xs : List α} {ys : List β}
    (all : List.Forall₂ R xs ys) : (∀ x ∈ xs, ∃ y ∈ ys, R x y) ∧ ∀ y ∈ ys, ∃ x ∈ xs, R x y := by
  induction all with
  | nil => exact ⟨nofun, nofun⟩
  | cons fits _ ih =>
    simp only [forall_mem_cons, exists_mem_cons_iff]
    exact ⟨⟨.inl fits, fun x mem => .inr (ih.1 x mem)⟩,
      .inl fits, fun y mem => .inr (ih.2 y mem)⟩

structure HookFile.Runnable (hook : HookFile) : Prop where
  triggers : ∀ t ∈ hook.triggers, t.type ≠ none ∧ t.op ≠ 0 ∧ t.targets ≠ [] ∧ none ∉ t.targets
  when : hook.when ≠ none
  command : ∃ word words, hook.cmd = some (word :: words)

/-- No missing value is compared or copied, and if the file is accepted and has triggers then its
hook can be run. -/
def HookFileSafe (file text : CStr) : Prop :=
  none ∉ (parseHook file (some text)).2.used ∧
    ((parseHook file (some text)).1 = 0 →
      (hookValidate file (parseHook file (some text)).2.hook).1 = 0 →
      (parseHook file (some text)).2.hook.triggers ≠ [] →
      (parseHook file (some text)).2.hook.Runnable)

namespace IniFile

variable (f : IniFile) (file : CStr)

/-- In front of the first directive or section that is refused, every option that needs a value
has one. -/
def ValuesGiven : Prop :=
  ∀ call ∈ (f.calls file none).takeWhile fun call => !call.refused, call.lacksValue = false

/-- Nothing in the file is refused, and it has all that a hook with triggers needs except for the
command. -/
structure Complete : Prop where
  accepted : ∀ call ∈ f.calls file none, call.refused = false
  triggers : triggerSections f.sections ≠ []
  options : ∀ s ∈ triggerSections f.sections, optionValues (cstr "Target") s.entries ≠ [] ∧
    optionValues (cstr "Type") s.entries ≠ [] ∧ optionValues (cstr "Operation") s.entries ≠ []
  when : actionValues (cstr "When") f.sections ≠ []

/-- The last `Exec` has a value with something in it, if it has one. -/
def CommandGiven : Prop :=
  ∀ value, (actionValues (cstr "Exec") f.sections).getLast? = some (some value) →
    value.dropWhile isspace ≠ []

end IniFile

section Safe

variable {f : IniFile} {file : CStr} {st : HookParse}

theorem file_reads (done : (callEach hookParseCb (f.calls file none) st).1 = 0) :
    st.hook.Reads f.sections (callEach hookParseCb (f.calls file none) st).2.hook := by
  have clean : f.stray = [] := by
    by_contra filled
    obtain ⟨entry, stray, shape⟩ := exists_cons_of_ne_nil filled
    have mem : entry.call file none ∈ f.calls file none := by
      rw [IniFile.calls, shape]
      exact mem_append_left _ mem_cons_self
    exact nomatch callEach_accepted done _ mem
  rw [IniFile.calls, clean] at done ⊢
  exact sections_read done

theorem wordsplit_blank {value : CStr} : wordsplit (some value) = some [] ↔
    value.dropWhile isspace = [] := splitWords_eq_nil

theorem lastCommand_given {values : List (Option CStr)} {cmd : List CStr}
    (last : lastCommand none values = some cmd) :
    ∃ value, values.getLast? = some (some value) ∧ wordsplit (some value) = some cmd := by
  unfold lastCommand at last
  split at last
  · cases last
  next value found =>
    cases value with
    | none => cases last
    | some value => exact ⟨value, found, last⟩

theorem targets_given (given : ∀ call ∈ f.calls file none, call.lacksValue = false)
    {s : IniSection} (mem : s ∈ triggerSections f.sections) {t : TriggerSpec}
    (defines : s.Defines t) : none ∉ t.targets := by
  intro missing
  rw [defines.targets] at missing
  obtain ⟨entry, found, value⟩ := mem_map.mp missing
  obtain ⟨inside, key⟩ := mem_filter.mp found
  obtain ⟨within, trigger⟩ := mem_filter.mp mem
  have trigger : s.name = cstr "Trigger" := of_decide_eq_true trigger
  have key : entry.key = cstr "Target" := of_decide_eq_true key
  have call : entry.call file (some s.name) ∈ f.calls file none :=
    mem_append_right _ (mem_flatMap.mpr ⟨s, within, mem_cons_of_mem _ (mem_map_of_mem inside)⟩)
  have lacks : (entry.call file (some s.name)).lacksValue = true := by
    rw [(trigger_call (congrArg some trigger) rfl).2, key]
    simp [IniEntry.call, value]
  exact nomatch (given _ call).symm.trans lacks

theorem ValuesGiven.all (given : f.ValuesGiven file)
    (accepted : ∀ call ∈ f.calls file none, call.refused = false) :
    ∀ call ∈ f.calls file none, call.lacksValue = false := by
  have whole : (f.calls file none).takeWhile (fun call => !call.refused) = f.calls file none :=
    takeWhile_eq_self_iff.mpr fun call mem => by simp [accepted call mem]
  rw [IniFile.ValuesGiven, whole] at given
  exact given

theorem complete_of_valid {h : HookFile}
    (accepted : ∀ call ∈ f.calls file none, call.refused = false)
    (reads : HookFile.empty.Reads f.sections h) (valid : (hookValidate file h).1 = 0)
    (triggers : h.triggers ≠ []) : f.Complete file := by
  obtain ⟨ts, shape, defines⟩ := reads.triggers
  obtain ⟨whole, -, when⟩ := ((hookValidate_zero file h).mp valid).resolve_left triggers
  rw [shape] at triggers whole
  refine ⟨accepted, ?_, ?_, ?_⟩
  · intro empty
    rw [empty] at defines
    cases defines
    exact triggers rfl
  · intro s mem
    obtain ⟨t, there, fits⟩ := (forall₂_partners defines).1 s mem
    obtain ⟨targets, type, op⟩ := whole t there
    rw [fits.targets] at targets
    exact ⟨targets, fits.type.mp type, fits.op.mp op⟩
  · exact (reads.when.mp when).resolve_left fun set => set rfl

theorem valid_of_complete {h : HookFile} (complete : f.Complete file)
    (reads : HookFile.empty.Reads f.sections h) (cmd : h.cmd ≠ none) :
    h.triggers ≠ [] ∧ (hookValidate file h).1 = 0 := by
  obtain ⟨ts, shape, defines⟩ := reads.triggers
  have partners := forall₂_partners defines
  constructor
  · intro empty
    obtain ⟨s, later, some⟩ := exists_cons_of_ne_nil complete.triggers
    obtain ⟨t, there, -⟩ := partners.1 s (some ▸ mem_cons_self)
    have none : ts = [] := shape.symm.trans empty
    rw [none] at there
    cases there
  · refine (hookValidate_zero file h).mpr (.inr ⟨?_, cmd, reads.when.mpr (.inr complete.when)⟩)
    intro t there
    rw [shape] at there
    obtain ⟨s, mem, fits⟩ := partners.2 t there
    obtain ⟨targets, type, op⟩ := complete.options s mem
    rw [← fits.targets] at targets
    exact ⟨targets, fits.type.mpr type, fits.op.mpr op⟩

end Safe

/-- A hook file is safe if and only if no option in front of the first one that is refused lacks a
value that it needs, and the command of an otherwise complete file is not blank. -/
theorem hookFile_safe_iff (file text : CStr) :
    HookFileSafe file text ↔ (iniText text).ValuesGiven file ∧
      ((iniText text).Complete file → (iniText text).CommandGiven) := by
  have values : none ∉ (parseHook file (some text)).2.used ↔ (iniText text).ValuesGiven file := by
    rw [parseHook, parseIni_calls, callEach_used]
    simp [IniFile.ValuesGiven]
  rw [HookFileSafe, values]
  refine and_congr_right fun given => ?_
  rw [parseHook, parseIni_calls]
  constructor
  · intro runnable complete value last blank
    -- such a file is accepted with triggers, and its command has no words
    have done : (callEach hookParseCb ((iniText text).calls file none) ⟨.empty, [], []⟩).1 = 0 :=
      callEach_done complete.accepted (ValuesGiven.all given complete.accepted)
    have reads := file_reads done
    have cmd : (callEach hookParseCb ((iniText text).calls file none) ⟨.empty, [], []⟩).2.hook.cmd =
        some [] := by
      rw [reads.cmd, lastCommand, last]
      exact wordsplit_blank.mpr blank
    obtain ⟨triggers, valid⟩ := valid_of_complete complete reads (by rw [cmd]; exact nofun)
    obtain ⟨word, words, command⟩ := (runnable done valid triggers).command
    exact nomatch cmd.symm.trans command
  · intro command done valid triggers
    have accepted := callEach_accepted done
    have reads := file_reads done
    have complete := complete_of_valid accepted reads valid triggers
    obtain ⟨whole, some, when⟩ := ((hookValidate_zero file _).mp valid).resolve_left triggers
    refine ⟨?_, when, ?_⟩
    · intro t there
      obtain ⟨targets, type, op⟩ := whole t there
      obtain ⟨ts, shape, defines⟩ := reads.triggers
      rw [shape] at there
      obtain ⟨s, member, fits⟩ := (forall₂_partners defines).2 t there
      exact ⟨type, op, targets, targets_given (ValuesGiven.all given accepted) member fits⟩
    · -- the validation has seen a command, which is the one of the last `Exec`
      obtain ⟨cmd, found⟩ := Option.ne_none_iff_exists'.mp some
      obtain ⟨value, last, split⟩ := lastCommand_given (reads.cmd.symm.trans found)
      cases cmd with
      | nil => exact absurd (wordsplit_blank.mp split) (command complete value last)
      | cons word words => exact ⟨word, words, found⟩

/-! ### Three files -/

def operationText : CStr := cstr "[Trigger]\nOperation\n"

def hookText (target exec : String) : CStr :=
  cstr "[Trigger]\nOperation = Install\nType = Package\n" ++ cstr target ++
    cstr "\n[Action]\nWhen = PostTransaction\nExec =" ++ cstr exec ++ cstr "\n"

def installHook (target : Option CStr) (cmd : List CStr) : HookFile where
  desc := none
  triggers := [⟨HookOp.install, some .package, [target]⟩]
  depends := []
  cmd := some cmd
  when := some .postTransaction
  abortOnFail := false
  needsTargets := false

/-- A missing value is compared; a missing target is copied and the hook is accepted with it; and a
hook with an empty command is accepted. -/
theorem hookFile_unsafe : none ∈ (parseHook (cstr "a.hook") (some operationText)).2.used ∧
    ((parseHook (cstr "a.hook") (some (hookText "Target" " /bin/true"))).1 = 0 ∧
      (parseHook (cstr "a.hook") (some (hookText "Target" " /bin/true"))).2.hook =
        installHook none [cstr "/bin/true"] ∧
      (hookValidate (cstr "a.hook") (installHook none [cstr "/bin/true"])).1 = 0) ∧
    ((parseHook (cstr "a.hook") (some (hookText "Target = *" ""))).1 = 0 ∧
      (parseHook (cstr "a.hook") (some (hookText "Target = *" ""))).2.hook =
        installHook (some (cstr "*")) [] ∧
      (hookValidate (cstr "a.hook") (installHook (some (cstr "*")) [])).1 = 0) := by
  decide +kernel

end Dulge
