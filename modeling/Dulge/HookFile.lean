import Dulge.HookTrigger
import Dulge.IniFile
import Dulge.Wordsplit

/-! The files that define hooks: `_alpm_hook_parse_cb` takes over what `parse_ini` finds in a file,
and `_alpm_hook_validate` looks whether something is missing. Allocations succeed. -/

namespace Dulge
open List

/-! ### Hooks -/

inductive TriggerType where
  | package
  | path
deriving DecidableEq

/-- `struct _alpm_trigger_t`; a target whose directive has no value is `NULL`. -/
structure TriggerSpec where
  op : BitVec 32
  type : Option TriggerType
  targets : List (Option CStr)
deriving DecidableEq

inductive HookWhen where
  | preTransaction
  | postTransaction
deriving DecidableEq

/-- `struct _alpm_hook_t`, as far as a file defines it -/
structure HookFile where
  desc : Option CStr
  triggers : List TriggerSpec
  depends : List (Option CStr)
  cmd : Option (List CStr)
  when : Option HookWhen
  abortOnFail : Bool
  needsTargets : Bool
deriving DecidableEq

inductive HookLog where
  | error (text : CStr)
  | warning (text : CStr)
deriving DecidableEq

/-! ### Options -/

structure OptionResult (τ : Type) where
  ret : Int
  result : τ
  log : List HookLog
  /-- The values that have been compared or copied. -/
  used : List (Option CStr)

section Options

variable {τ : Type} (call : IniCall)

def hookLine (text : CStr) : CStr :=
  cstr "hook " ++ call.file ++ cstr " line " ++ decimal call.linenum ++ cstr ": " ++ text ++
    cstr "\n"

def invalidOption (key : CStr) (x : τ) : OptionResult τ :=
  ⟨1, x, [.error (hookLine call (cstr "invalid option " ++ key))], []⟩

def invalidValue (x : τ) (used : List (Option CStr)) : OptionResult τ :=
  ⟨1, x, [.error (hookLine call (cstr "invalid value " ++ call.value.getD (cstr "(null)")))], used⟩

/-- The value is compared with some texts, each of which stands for a new `x`. What `strcmp` does
with a missing value is not defined; the parser is taken to stop there. -/
def compareValue (x : τ) (choices : List (CStr × τ)) : OptionResult τ :=
  match call.value with
  | none => ⟨1, x, [], [none]⟩
  | some value =>
    match choices.lookup value with
    | some chosen => ⟨0, chosen, [], [some value]⟩
    | none => invalidValue call x [some value]

/-- `STRDUP`, which makes `NULL` of a missing value -/
def copyValue (put : Option CStr → τ) : OptionResult τ := ⟨0, put call.value, [], [call.value]⟩

def warnOverwriting (set : Bool) (key : CStr) (r : OptionResult τ) : OptionResult τ :=
  if set then
    { r with log :=
      .warning (hookLine call (cstr "overwriting previous definition of " ++ key)) :: r.log }
  else r

def triggerOption (key : CStr) (t : TriggerSpec) : OptionResult TriggerSpec :=
  if key = cstr "Operation" then
    compareValue call t
      [(cstr "Install", { t with op := t.op ||| HookOp.install }),
        (cstr "Upgrade", { t with op := t.op ||| HookOp.upgrade }),
        (cstr "Remove", { t with op := t.op ||| HookOp.remove })]
  else if key = cstr "Type" then
    warnOverwriting call t.type.isSome key
      (compareValue call t
        [(cstr "Package", { t with type := some .package }),
          (cstr "Path", { t with type := some .path })])
  else if key = cstr "Target" then
    copyValue call fun value => { t with targets := t.targets ++ [value] }
  else invalidOption call key t

def actionOption (key : CStr) (hook : HookFile) : OptionResult HookFile :=
  if key = cstr "When" then
    warnOverwriting call hook.when.isSome key
      (compareValue call hook
        [(cstr "PreTransaction", { hook with when := some .preTransaction }),
          (cstr "PostTransaction", { hook with when := some .postTransaction })])
  else if key = cstr "Description" then
    warnOverwriting call hook.desc.isSome key
      (copyValue call fun value => { hook with desc := value })
  else if key = cstr "Depends" then
    copyValue call fun value => { hook with depends := hook.depends ++ [value] }
  else if key = cstr "AbortOnFail" then ⟨0, { hook with abortOnFail := true }, [], []⟩
  else if key = cstr "NeedsTargets" then ⟨0, { hook with needsTargets := true }, [], []⟩
  else if key = cstr "Exec" then
    warnOverwriting call hook.cmd.isSome key
      (match wordsplit call.value with
      | some cmd => ⟨0, { hook with cmd := some cmd }, [], []⟩
      | none => invalidValue call { hook with cmd := none } [])
  else invalidOption call key hook

end Options

/-! ### The callback and the validation -/

structure HookParse where
  hook : HookFile
  log : List HookLog
  used : List (Option CStr)

def HookParse.option {τ : Type} (st : HookParse) (r : OptionResult τ) (put : τ → HookFile) :
    Int × HookParse :=
  (r.ret, ⟨put r.result, st.log ++ r.log, st.used ++ r.used⟩)

def HookParse.error (st : HookParse) (text : CStr) : Int × HookParse :=
  (1, { st with log := st.log ++ [.error text] })

def TriggerSpec.empty : TriggerSpec := ⟨0, none, []⟩

/-- `_alpm_hook_parse_cb`. In a `Trigger` section there is a last trigger, which the header of the
section has added. The text for `errno` is left out. -/
def hookParseCb (call : IniCall) (st : HookParse) : Int × HookParse :=
  match call.sectionName, call.key with
  | none, none => st.error (cstr "error while reading hook " ++ call.file ++ cstr "\n")
  | none, some key => st.error (hookLine call (cstr "invalid option " ++ key))
  | some sectionName, none =>
    if sectionName = cstr "Trigger" then
      (0, { st with hook := { st.hook with triggers := st.hook.triggers ++ [.empty] } })
    else if sectionName = cstr "Action" then (0, st)
    else st.error (hookLine call (cstr "invalid section " ++ sectionName))
  | some sectionName, some key =>
    if sectionName = cstr "Trigger" then
      st.option (triggerOption call key (st.hook.triggers.getLast?.getD .empty)) fun t =>
        { st.hook with triggers := st.hook.triggers.dropLast ++ [t] }
    else if sectionName = cstr "Action" then st.option (actionOption call key st.hook) id
    else (0, st)

def HookFile.empty : HookFile := ⟨none, [], [], none, none, false, false⟩

def parseHook (file : CStr) (text : Option CStr) : Int × HookParse :=
  parseIni hookParseCb file text ⟨.empty, [], []⟩

def require (missing : Bool) (text : CStr) (checked : Int × List HookLog) : Int × List HookLog :=
  if missing then (-1, checked.2 ++ [.error (text ++ cstr "\n")]) else checked

def triggerValidate (file : CStr) (t : TriggerSpec) : Int × List HookLog :=
  let checked := require t.targets.isEmpty (cstr "Missing trigger targets in hook: " ++ file) (0, [])
  let checked := require t.type.isNone (cstr "Missing trigger type in hook: " ++ file) checked
  require (t.op == 0) (cstr "Missing trigger operation in hook: " ++ file) checked

def validateTriggers (file : CStr) (triggers : List TriggerSpec) (checked : Int × List HookLog) :
    Int × List HookLog :=
  triggers.foldl
    (fun checked t =>
      (if (triggerValidate file t).1 ≠ 0 then -1 else checked.1,
        checked.2 ++ (triggerValidate file t).2))
    checked

def hookValidate (file : CStr) (hook : HookFile) : Int × List HookLog :=
  if hook.triggers = [] then (0, [])
  else
    let checked := validateTriggers file hook.triggers (0, [])
    let checked := require hook.cmd.isNone (cstr "Missing Exec option in hook: " ++ file) checked
    if hook.when = none then require true (cstr "Missing When option in hook: " ++ file) checked
    else if hook.when ≠ some .preTransaction ∧ hook.abortOnFail then
      (checked.1, checked.2 ++
        [.warning (cstr "AbortOnFail set for PostTransaction hook: " ++ file ++ cstr "\n")])
    else checked

/-! ### What the file says -/

/-- Whether an option of a `Trigger` section is refused with the given value. -/
def triggerRefuses (key : CStr) (value : Option CStr) : Bool :=
  if key = cstr "Operation" then
    value.any fun value => value ∉ [cstr "Install", cstr "Upgrade", cstr "Remove"]
  else if key = cstr "Type" then value.any fun value => value ∉ [cstr "Package", cstr "Path"]
  else key ≠ cstr "Target"

/-- Whether an option of an `Action` section is refused with the given value. -/
def actionRefuses (key : CStr) (value : Option CStr) : Bool :=
  if key = cstr "When" then
    value.any fun value => value ∉ [cstr "PreTransaction", cstr "PostTransaction"]
  else if key = cstr "Exec" then (wordsplit value).isNone
  else
    key ∉ [cstr "Description", cstr "Depends", cstr "AbortOnFail", cstr "NeedsTargets"]

namespace IniCall

variable (call : IniCall)

def refused : Bool :=
  match call.sectionName, call.key with
  | none, _ => true
  | some sectionName, none => sectionName ∉ [cstr "Trigger", cstr "Action"]
  | some sectionName, some key =>
    if sectionName = cstr "Trigger" then triggerRefuses key call.value
    else if sectionName = cstr "Action" then actionRefuses key call.value
    else false

def lacksValue : Bool :=
  match call.sectionName, call.key with
  | some sectionName, some key =>
    call.value.isNone &&
      (sectionName = cstr "Trigger" && key ∈ [cstr "Operation", cstr "Type", cstr "Target"] ||
        sectionName = cstr "Action" && key ∈ [cstr "When", cstr "Description", cstr "Depends"])
  | _, _ => false

end IniCall

/-! ### One option -/

/-- What the answer to an option depends on: whether the file is refused for it, whether it lacks a
value, and what an accepted one makes of its trigger or hook. -/
structure OptionResult.Meets {τ : Type} (r : OptionResult τ) (refuses lacks : Bool)
    (changed : τ → Prop) : Prop where
  refused : refuses = true → r.ret ≠ 0 ∧ none ∉ r.used
  used : refuses = false → (none ∈ r.used ↔ lacks = true)
  stops : refuses = false → r.ret ≠ 0 → lacks = true
  changed : r.ret = 0 → changed r.result

section Options

variable {τ : Type} {call : IniCall}

theorem OptionResult.Meets.imp {r : OptionResult τ} {refuses lacks : Bool} {changed other : τ → Prop}
    (meets : r.Meets refuses lacks changed) (implies : ∀ x, changed x → other x) :
    r.Meets refuses lacks other :=
  ⟨meets.refused, meets.used, meets.stops, fun zero => implies _ (meets.changed zero)⟩

theorem invalidOption_meets (key : CStr) (x : τ) (lacks : Bool) (changed : τ → Prop) :
    (invalidOption call key x).Meets true lacks changed :=
  ⟨fun _ => ⟨one_ne_zero, not_mem_nil⟩, nofun, nofun, nofun⟩

theorem compareValue_meets (x : τ) (choices : List (CStr × τ)) : (compareValue call x choices).Meets
      (call.value.any fun value => value ∉ choices.map Prod.fst) call.value.isNone
      (· ∈ choices.map Prod.snd) := by
  unfold compareValue
  cases call.value with
  | none => exact ⟨nofun, fun _ => by simp, fun _ _ => rfl, nofun⟩
  | some value =>
    dsimp only
    cases found : choices.lookup value with
    | none =>
      have absent : value ∉ choices.map Prod.fst := by
        intro mem
        obtain ⟨choice, inside, rfl⟩ := mem_map.mp mem
        have other := lookup_eq_none_iff.mp found choice inside
        simp at other
      have refuses : (some value).any (fun value => value ∉ choices.map Prod.fst) = true := by
        simpa using absent
      rw [refuses]
      exact ⟨fun _ => ⟨one_ne_zero, by simp [invalidValue]⟩, nofun, nofun, nofun⟩
    | some chosen =>
      obtain ⟨before, after, shape, _⟩ := lookup_eq_some_iff.mp found
      have mem : (value, chosen) ∈ choices := by
        rw [shape]
        exact mem_append_right _ mem_cons_self
      have present : value ∈ choices.map Prod.fst := mem_map_of_mem mem
      have accepts : (some value).any (fun value => value ∉ choices.map Prod.fst) = false := by
        simpa using present
      rw [accepts]
      exact ⟨nofun, fun _ => by simp, fun _ other => absurd rfl other,
        fun _ => mem_map_of_mem mem⟩

theorem copyValue_meets (put : Option CStr → τ) :
    (copyValue call put).Meets false call.value.isNone (· = put call.value) := by
  refine ⟨nofun, fun _ => ?_, fun _ other => absurd rfl other, fun _ => rfl⟩
  rw [copyValue, mem_singleton, Option.isNone_iff_eq_none, eq_comm]

theorem warnOverwriting_meets {r : OptionResult τ} {refuses lacks : Bool} {changed : τ → Prop}
    (set : Bool) (key : CStr) (meets : r.Meets refuses lacks changed) :
    (warnOverwriting call set key r).Meets refuses lacks changed := by
  unfold warnOverwriting
  split
  · exact ⟨meets.refused, meets.used, meets.stops, meets.changed⟩
  · exact meets

structure TriggerSpec.Takes (key : CStr) (value : Option CStr) (t t' : TriggerSpec) : Prop where
  targets : t'.targets = t.targets ++ if key = cstr "Target" then [value] else []
  type : t'.type ≠ none ↔ t.type ≠ none ∨ key = cstr "Type"
  op : t'.op ≠ 0 ↔ t.op ≠ 0 ∨ key = cstr "Operation"

theorem triggerOption_meets (key : CStr) (t : TriggerSpec) :
    (triggerOption call key t).Meets (triggerRefuses key call.value)
      (call.value.isNone && key ∈ [cstr "Operation", cstr "Type", cstr "Target"])
      (t.Takes key call.value) := by
  unfold triggerOption triggerRefuses
  by_cases operation : key = cstr "Operation"
  · rw [if_pos operation, if_pos operation, operation,
      show decide (cstr "Operation" ∈ _) = true from rfl, Bool.and_true]
    refine (compareValue_meets _ _).imp fun t' chosen => ?_
    have bit (op : BitVec 32) (set : op ≠ 0) :
        t.Takes (cstr "Operation") call.value { t with op := t.op ||| op } :=
      ⟨(append_nil _).symm, (or_iff_left (by decide)).symm,
        iff_of_true (fun zero => set (BitVec.or_eq_zero_iff.mp zero).2) (.inr rfl)⟩
    simp only [map_cons, map_nil, mem_cons, not_mem_nil, or_false] at chosen
    rcases chosen with rfl | rfl | rfl
    · exact bit _ (by decide)
    · exact bit _ (by decide)
    · exact bit _ (by decide)
  by_cases type : key = cstr "Type"
  · rw [if_neg operation, if_neg operation, if_pos type, if_pos type, type,
      show decide (cstr "Type" ∈ _) = true from rfl, Bool.and_true]
    refine warnOverwriting_meets _ _ ((compareValue_meets _ _).imp fun t' chosen => ?_)
    have kind (kind : TriggerType) :
        t.Takes (cstr "Type") call.value { t with type := some kind } :=
      ⟨(append_nil _).symm, iff_of_true nofun (.inr rfl), (or_iff_left (by decide)).symm⟩
    simp only [map_cons, map_nil, mem_cons, not_mem_nil, or_false] at chosen
    rcases chosen with rfl | rfl
    · exact kind _
    · exact kind _
  rw [if_neg operation, if_neg operation, if_neg type, if_neg type]
  by_cases target : key = cstr "Target"
  · rw [if_pos target, target, show decide (cstr "Target" ∈ _) = true from rfl, Bool.and_true]
    refine (copyValue_meets _).imp fun t' copied => ?_
    rw [copied]
    exact ⟨rfl, (or_iff_left (by decide)).symm, (or_iff_left (by decide)).symm⟩
  · rw [if_neg target, decide_eq_true target]
    exact invalidOption_meets ..

structure HookFile.Takes (key : CStr) (value : Option CStr) (h h' : HookFile) : Prop where
  triggers : h'.triggers = h.triggers
  when : h'.when ≠ none ↔ h.when ≠ none ∨ key = cstr "When"
  cmd : h'.cmd = if key = cstr "Exec" then wordsplit value else h.cmd

theorem HookFile.Takes.of_same {key : CStr} {value : Option CStr} {h h' : HookFile}
    (triggers : h'.triggers = h.triggers) (when : h'.when = h.when) (cmd : h'.cmd = h.cmd)
    (notWhen : key ≠ cstr "When") (notExec : key ≠ cstr "Exec") : h.Takes key value h' := by
  refine ⟨triggers, ?_, cmd.trans (if_neg notExec).symm⟩
  rw [when]
  exact (or_iff_left notWhen).symm

theorem flag_meets {h' : HookFile} {changed : HookFile → Prop} (holds : changed h') :
    (⟨0, h', [], []⟩ : OptionResult HookFile).Meets false false changed :=
  ⟨nofun, fun _ => by simp, fun _ other => absurd rfl other, fun _ => holds⟩

theorem actionRefuses_known {key : CStr} (value : Option CStr)
    (known : key ∈ [cstr "Description", cstr "Depends", cstr "AbortOnFail", cstr "NeedsTargets"]) :
    actionRefuses key value = false := by
  simp only [mem_cons, not_mem_nil, or_false] at known
  rcases known with rfl | rfl | rfl | rfl
  · rfl
  · rfl
  · rfl
  · rfl

theorem actionOption_meets (key : CStr) (h : HookFile) :
    (actionOption call key h).Meets (actionRefuses key call.value)
      (call.value.isNone && key ∈ [cstr "When", cstr "Description", cstr "Depends"])
      (h.Takes key call.value) := by
  unfold actionOption
  by_cases when : key = cstr "When"
  · rw [if_pos when, actionRefuses, if_pos when, when,
      show decide (cstr "When" ∈ _) = true from rfl, Bool.and_true]
    refine warnOverwriting_meets _ _ ((compareValue_meets _ _).imp fun h' chosen => ?_)
    have set (when : HookWhen) : h.Takes (cstr "When") call.value { h with when := some when } :=
      ⟨rfl, iff_of_true nofun (.inr rfl), rfl⟩
    simp only [map_cons, map_nil, mem_cons, not_mem_nil, or_false] at chosen
    rcases chosen with rfl | rfl
    · exact set _
    · exact set _
  rw [if_neg when]
  by_cases desc : key = cstr "Description"
  · rw [if_pos desc, desc, actionRefuses_known _ (by decide),
      show decide (cstr "Description" ∈ _) = true from rfl, Bool.and_true]
    refine warnOverwriting_meets _ _ ((copyValue_meets _).imp fun h' copied => ?_)
    rw [copied]
    exact .of_same rfl rfl rfl (by decide) (by decide)
  rw [if_neg desc]
  by_cases depends : key = cstr "Depends"
  · rw [if_pos depends, depends, actionRefuses_known _ (by decide),
      show decide (cstr "Depends" ∈ _) = true from rfl, Bool.and_true]
    refine (copyValue_meets _).imp fun h' copied => ?_
    rw [copied]
    exact .of_same rfl rfl rfl (by decide) (by decide)
  rw [if_neg depends]
  by_cases abort : key = cstr "AbortOnFail"
  · rw [if_pos abort, abort, actionRefuses_known _ (by decide),
      show decide (cstr "AbortOnFail" ∈ _) = false from rfl, Bool.and_false]
    exact flag_meets (HookFile.Takes.of_same rfl rfl rfl (by decide) (by decide))
  rw [if_neg abort]
  by_cases needs : key = cstr "NeedsTargets"
  · rw [if_pos needs, needs, actionRefuses_known _ (by decide),
      show decide (cstr "NeedsTargets" ∈ _) = false from rfl, Bool.and_false]
    exact flag_meets (HookFile.Takes.of_same rfl rfl rfl (by decide) (by decide))
  rw [if_neg needs, actionRefuses, if_neg when]
  by_cases exec : key = cstr "Exec"
  · rw [if_pos exec, if_pos exec, exec, show decide (cstr "Exec" ∈ _) = false from rfl,
      Bool.and_false]
    apply warnOverwriting_meets
    cases words : wordsplit call.value with
    | none => exact ⟨fun _ => ⟨one_ne_zero, not_mem_nil⟩, nofun, nofun, nofun⟩
    | some cmd => exact flag_meets ⟨rfl, (or_iff_left (by decide)).symm, words.symm⟩
  · rw [if_neg exec, if_neg exec]
    have unknown : key ∉ [cstr "Description", cstr "Depends", cstr "AbortOnFail",
        cstr "NeedsTargets"] := by
      simp [desc, depends, abort, needs]
    rw [decide_eq_true unknown]
    exact invalidOption_meets ..

end Options

/-! ### One call -/

structure IniCall.Steps (call : IniCall) (st : HookParse) (r : Int × HookParse) : Prop where
  refused : call.refused = true → r.1 ≠ 0 ∧ (none ∈ r.2.used ↔ none ∈ st.used)
  used : call.refused = false → (none ∈ r.2.used ↔ none ∈ st.used ∨ call.lacksValue = true)
  stops : call.refused = false → r.1 ≠ 0 → call.lacksValue = true

section Call

variable {call : IniCall} {st : HookParse}

theorem option_steps {τ : Type} {r : OptionResult τ} {changed : τ → Prop}
    (meets : r.Meets call.refused call.lacksValue changed) (put : τ → HookFile) :
    call.Steps st (st.option r put) := by
  refine ⟨?_, ?_, meets.stops⟩
  · intro refused
    obtain ⟨failed, given⟩ := meets.refused refused
    refine ⟨failed, ?_⟩
    rw [HookParse.option, mem_append]
    exact or_iff_left given
  · intro accepted
    rw [HookParse.option, mem_append, meets.used accepted]

theorem error_steps {text : CStr} (refused : call.refused = true) : call.Steps st (st.error text) :=
  ⟨fun _ => ⟨one_ne_zero, Iff.rfl⟩, fun accepted => (nomatch refused.symm.trans accepted),
    fun accepted => (nomatch refused.symm.trans accepted)⟩

theorem plain_steps {hook : HookFile} (accepted : call.refused = false)
    (given : call.lacksValue = false) : call.Steps st (0, { st with hook := hook }) := by
  refine ⟨fun refused => (nomatch accepted.symm.trans refused), fun _ => ?_,
    fun _ other => absurd rfl other⟩
  rw [given]
  exact (or_iff_left Bool.false_ne_true).symm

theorem trigger_call {key : CStr} (name : call.sectionName = some (cstr "Trigger"))
    (option : call.key = some key) :
    call.refused = triggerRefuses key call.value ∧ call.lacksValue =
      (call.value.isNone && key ∈ [cstr "Operation", cstr "Type", cstr "Target"]) := by
  have other : ¬ cstr "Trigger" = cstr "Action" := by decide
  constructor
  · simp [IniCall.refused, name, option]
  · simp [IniCall.lacksValue, name, option, other]

theorem action_call {key : CStr} (name : call.sectionName = some (cstr "Action"))
    (option : call.key = some key) : call.refused = actionRefuses key call.value ∧ call.lacksValue =
      (call.value.isNone && key ∈ [cstr "When", cstr "Description", cstr "Depends"]) := by
  have other : ¬ cstr "Action" = cstr "Trigger" := by decide
  constructor
  · simp [IniCall.refused, name, option, other]
  · simp [IniCall.lacksValue, name, option, other]

theorem trigger_meets {key : CStr} (name : call.sectionName = some (cstr "Trigger"))
    (option : call.key = some key) (t : TriggerSpec) :
    (triggerOption call key t).Meets call.refused call.lacksValue (t.Takes key call.value) := by
  obtain ⟨refused, lacks⟩ := trigger_call name option
  rw [refused, lacks]
  exact triggerOption_meets key t

theorem action_meets {key : CStr} (name : call.sectionName = some (cstr "Action"))
    (option : call.key = some key) (h : HookFile) :
    (actionOption call key h).Meets call.refused call.lacksValue (h.Takes key call.value) := by
  obtain ⟨refused, lacks⟩ := action_call name option
  rw [refused, lacks]
  exact actionOption_meets key h

theorem hookParseCb_header {name : CStr} (header : call.sectionName = some name)
    (none : call.key = none) : hookParseCb call st = if name = cstr "Trigger" then
        (0, { st with hook := { st.hook with triggers := st.hook.triggers ++ [.empty] } })
      else if name = cstr "Action" then (0, st)
      else st.error (hookLine call (cstr "invalid section " ++ name)) := by
  rw [hookParseCb, header, none]

theorem hookParseCb_trigger {key : CStr} (name : call.sectionName = some (cstr "Trigger"))
    (option : call.key = some key) : hookParseCb call st =
      st.option (triggerOption call key (st.hook.triggers.getLast?.getD .empty)) fun t =>
        { st.hook with triggers := st.hook.triggers.dropLast ++ [t] } := by
  rw [hookParseCb, name, option]
  exact if_pos rfl

theorem hookParseCb_action {key : CStr} (name : call.sectionName = some (cstr "Action"))
    (option : call.key = some key) :
    hookParseCb call st = st.option (actionOption call key st.hook) id := by
  rw [hookParseCb, name, option]
  rfl

variable (st)

theorem hookParseCb_steps (call : IniCall) : call.Steps st (hookParseCb call st) := by
  cases name : call.sectionName with
  | none =>
    have refused : call.refused = true := by rw [IniCall.refused, name]
    cases option : call.key with
    | none =>
      rw [hookParseCb, name, option]
      exact error_steps refused
    | some key =>
      rw [hookParseCb, name, option]
      exact error_steps refused
  | some sectionName =>
    by_cases trigger : sectionName = cstr "Trigger"
    · subst trigger
      cases option : call.key with
      | none =>
        rw [hookParseCb_header name option, if_pos rfl]
        exact plain_steps (by rw [IniCall.refused, name, option]; rfl)
          (by rw [IniCall.lacksValue, name, option])
      | some key =>
        rw [hookParseCb_trigger name option]
        exact option_steps (trigger_meets name option _) _
    by_cases action : sectionName = cstr "Action"
    · subst action
      cases option : call.key with
      | none =>
        rw [hookParseCb_header name option, if_neg trigger, if_pos rfl]
        exact plain_steps (by rw [IniCall.refused, name, option]; rfl)
          (by rw [IniCall.lacksValue, name, option])
      | some key =>
        rw [hookParseCb_action name option]
        exact option_steps (action_meets name option _) _
    cases option : call.key with
    | none =>
      rw [hookParseCb_header name option, if_neg trigger, if_neg action]
      exact error_steps (by simp [IniCall.refused, name, option, trigger, action])
    | some key =>
      rw [hookParseCb, name, option]
      dsimp only
      rw [if_neg trigger, if_neg action]
      exact plain_steps (by simp [IniCall.refused, name, option, trigger, action])
        (by simp [IniCall.lacksValue, name, option, trigger, action])

end Call

/-! ### All calls -/

section Calls

variable {calls : List IniCall} {st : HookParse}

theorem callEach_used (calls : List IniCall) (st : HookParse) :
    none ∈ (callEach hookParseCb calls st).2.used ↔
      none ∈ st.used ∨
        ∃ call ∈ calls.takeWhile fun call => !call.refused, call.lacksValue = true := by
  induction calls generalizing st with
  | nil => simp [callEach]
  | cons call calls ih =>
    have step := hookParseCb_steps st call
    rw [callEach]
    cases refused : call.refused with
    | true =>
      obtain ⟨failed, used⟩ := step.refused refused
      rw [if_pos failed, used, takeWhile_cons_of_neg (by simp [refused])]
      simp
    | false =>
      have used := step.used refused
      rw [takeWhile_cons_of_pos (by simp [refused])]
      simp only [mem_cons, exists_eq_or_imp]
      split
      next failed =>
        -- an option that is not refused only stops the parser if it lacks a value to compare
        have lacks := step.stops refused failed
        rw [used]
        exact iff_of_true (.inr lacks) (.inr (.inl lacks))
      next => rw [ih, used, or_assoc]

theorem callEach_accepted (done : (callEach hookParseCb calls st).1 = 0) :
    ∀ call ∈ calls, call.refused = false := by
  induction calls generalizing st with
  | nil => simp
  | cons call calls ih =>
    rw [callEach] at done
    split at done
    next failed => exact absurd done failed
    next passed =>
      intro other mem
      rcases mem_cons.mp mem with rfl | later
      · refine eq_false_of_ne_true fun refused => passed ?_
        exact ((hookParseCb_steps st other).refused refused).1
      · exact ih done other later

theorem callEach_done (accepted : ∀ call ∈ calls, call.refused = false)
    (given : ∀ call ∈ calls, call.lacksValue = false) : (callEach hookParseCb calls st).1 = 0 := by
  induction calls generalizing st with
  | nil => rfl
  | cons call calls ih =>
    rw [callEach]
    split
    next failed =>
      have lacks := (hookParseCb_steps st call).stops (accepted call mem_cons_self) failed
      rw [given call mem_cons_self] at lacks
      cases lacks
    next =>
      exact ih (fun other mem => accepted other (mem_cons_of_mem _ mem))
        fun other mem => given other (mem_cons_of_mem _ mem)

theorem callEach_cons {call : IniCall} (done : (callEach hookParseCb (call :: calls) st).1 = 0) :
    (hookParseCb call st).1 = 0 ∧ callEach hookParseCb (call :: calls) st =
      callEach hookParseCb calls (hookParseCb call st).2 := by
  rw [callEach] at done ⊢
  split at done
  next failed => exact absurd done failed
  next passed => exact ⟨not_not.mp passed, if_neg passed⟩

end Calls

end Dulge
