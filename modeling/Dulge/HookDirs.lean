import Dulge.HookFileSafe
import Dulge.Lib.Firsts

/-! `_alpm_hook_run`: the hook directories are read from the last to the first, a file whose name a
hook that has been read already has is skipped, and the hooks that the transaction triggers are run
in the order of their names. Log calls and events are left out, and allocations succeed. -/

namespace Dulge
open List

/-! ### Directories -/

/-- What `stat` finds behind the name of an entry. -/
inductive EntryKind where
  | regular
  | directory
  | other
deriving DecidableEq

/-- An entry of a hook directory: `stat` and `fopen` may fail for it. -/
structure HookEntry where
  name : CStr
  kind : Option EntryKind
  text : Option CStr
deriving DecidableEq

/-- A directory that `opendir` opens is read up to its end or up to an error, which leaves some
entries unread. -/
inductive Opendir where
  | missing
  | denied (entries : List HookEntry)
  | opened (entries : List HookEntry) (unread : Option (List HookEntry))

def Opendir.contents : Opendir → List HookEntry
  | .missing => []
  | .denied entries => entries
  | .opened entries unread => entries ++ unread.getD []

/-- A member of `handle->hookdirs`, whose path ends with a slash. -/
structure HookDir where
  path : CStr
  dir : Opendir
  distinct : (dir.contents.map HookEntry.name).Nodup

/-- The entries of a directory that `readdir` gives to the loop. -/
def HookDir.listed (d : HookDir) : List HookEntry :=
  if pathMax ≤ d.path.length then []
  else
    match d.dir with
    | .opened entries _ => entries
    | _ => []

/-! ### Reading the hooks -/

structure FoundHook where
  dir : Nat
  name : CStr
  hook : HookFile
deriving DecidableEq

structure HookSearch where
  hooks : List FoundHook
  ret : Int

def HookSearch.fail (st : HookSearch) : HookSearch := { st with ret := -1 }

def findHook (haystack : List FoundHook) (needle : CStr) : Option FoundHook :=
  haystack.find? fun h => strcmp h.name needle = 0

def hookSuffix : CStr := cstr ".hook"

/-- The name ends with `ALPM_HOOK_SUFFIX`. -/
def hasHookSuffix (name : CStr) : Bool :=
  !(name.length < hookSuffix.length ||
    strcmp (name.drop (name.length - hookSuffix.length)) hookSuffix ≠ 0)

def readEntry (index : Nat) (path : CStr) (st : HookSearch) (entry : HookEntry) : HookSearch :=
  if entry.name = cstr "." ∨ entry.name = cstr ".." then st
  else if pathMax - path.length ≤ entry.name.length then st.fail
  else if hasHookSuffix entry.name = false then st
  else if (findHook st.hooks entry.name).isSome then st
  else
    match entry.kind with
    | none => st.fail
    | some .directory => st
    | some _ =>
      let parsed := parseHook (path ++ entry.name) entry.text
      if parsed.1 ≠ 0 ∨ (hookValidate (path ++ entry.name) parsed.2.hook).1 ≠ 0 then st.fail
      else { st with hooks := st.hooks ++ [⟨index, entry.name, parsed.2.hook⟩] }

def readDir (index : Nat) (d : HookDir) (st : HookSearch) : HookSearch :=
  if pathMax ≤ d.path.length then st.fail
  else
    match d.dir with
    | .missing => st
    | .denied _ => st.fail
    | .opened entries unread =>
      let st := entries.foldl (readEntry index d.path) st
      if unread.isSome then st.fail else st

def readDirs : Nat → List HookDir → HookSearch
  | _, [] => ⟨[], 0⟩
  | index, d :: later => readDir index d (readDirs (index + 1) later)

/-! ### Triggers -/

/-- `_alpm_hook_trigger_match_pkg`, with the hook that it leaves. If the hook does not need its
targets, the first match is the answer. -/
def hookTriggerMatchPkg (handle : HookHandle) (hook : Hook) (t : Trigger) : Bool × Hook :=
  let added := handle.add.filter fun pkg => handle.isTarget t pkg.name
  let install := if hasBit t.op HookOp.install then
    added.filter fun pkg => (handle.oldpkg pkg).isNone else []
  let upgrade := if hasBit t.op HookOp.upgrade then
    added.filter fun pkg => (handle.oldpkg pkg).isSome else []
  let remove := if hasBit t.op HookOp.remove then
    handle.remove.filter fun pkg => handle.isTarget t pkg.name &&
      !handle.add.any fun other => pkgCmp other pkg = 0
  else []
  let found := install ++ upgrade ++ remove
  (!found.isEmpty,
    if hook.needsTargets then { hook with matched := hook.matched ++ found.map Pkg.name } else hook)

structure HookEnv where
  handle : HookHandle
  /-- what `_alpm_hook_run_hook` answers -/
  run : Hook → Int
  /-- What is read through a `NULL` target or dependency is not defined; this stands for it. -/
  undefined : CStr

namespace HookEnv

variable (env : HookEnv)

def trigger (t : TriggerSpec) : Trigger := ⟨t.op, t.targets.map (·.getD env.undefined)⟩

def hook (h : FoundHook) : Hook :=
  ⟨h.name, h.hook.depends.map (·.getD env.undefined), h.hook.needsTargets, []⟩

def hookTriggerMatch (hook : Hook) (t : TriggerSpec) : Bool × Hook :=
  if t.type = some .package then hookTriggerMatchPkg env.handle hook (env.trigger t)
  else hookTriggerMatchFile env.handle hook (env.trigger t)

/-- `_alpm_hook_triggered`, with the hook that it leaves -/
def hookTriggered : List TriggerSpec → Hook → Bool × Hook
  | [], hook => (false, hook)
  | t :: later, hook =>
    let found := env.hookTriggerMatch hook t
    if found.1 then
      if found.2.needsTargets then (true, (hookTriggered later found.2).2) else (true, found.2)
    else hookTriggered later found.2

def concerned (when : HookWhen) (h : FoundHook) : Bool :=
  h.hook.when = some when && (env.hookTriggered h.hook.triggers (env.hook h)).1

end HookEnv

/-! ### Running the hooks -/

def hookCmp (h1 h2 : FoundHook) : Int :=
  let l1 := h1.name.length - hookSuffix.length
  let l2 := h2.name.length - hookSuffix.length
  let ret := strncmp h1.name h2.name (if l1 ≤ l2 then l1 else l2)
  if ret = 0 ∧ l1 ≠ l2 then if l1 < l2 then -1 else 1 else ret

/-- The loop over the triggered hooks: `ret`, and the hooks that have been run. A hook for the time
before the transaction ends it if it is to abort the transaction. -/
def runHooks (env : HookEnv) (when : HookWhen) : Int → List FoundHook → Int × List FoundHook
  | ret, [] => (ret, [])
  | ret, h :: later =>
    let triggered := (env.hookTriggered h.hook.triggers (env.hook h)).2
    let ret := if env.run triggered ≠ 0 ∧ h.hook.abortOnFail then -1 else ret
    if ret ≠ 0 ∧ when = .preTransaction then (ret, [h])
    else
      let rest := runHooks env when ret later
      (rest.1, h :: rest.2)

/-- `_alpm_hook_run`: the answer, and the hooks that have been run -/
def hookRun (env : HookEnv) (when : HookWhen) (hookdirs : List HookDir) : Int × List FoundHook :=
  let found := readDirs 0 hookdirs
  if found.ret ≠ 0 ∧ when = .preTransaction then (found.ret, [])
  else
    let hooks := listMsort hookCmp found.hooks.length found.hooks
    runHooks env when found.ret (hooks.filter (env.concerned when))

/-! ### What the directories define -/

def entryHook (path : CStr) (entry : HookEntry) : Option HookFile :=
  if pathMax - path.length ≤ entry.name.length ∨ hasHookSuffix entry.name = false ∨
      entry.kind = none ∨ entry.kind = some .directory then none
  else
    let parsed := parseHook (path ++ entry.name) entry.text
    if parsed.1 ≠ 0 ∨ (hookValidate (path ++ entry.name) parsed.2.hook).1 ≠ 0 then none
    else some parsed.2.hook

def entryFound (index : Nat) (path : CStr) (entry : HookEntry) : List FoundHook :=
  (entryHook path entry).toList.map fun hook => ⟨index, entry.name, hook⟩

def defined : Nat → List HookDir → List FoundHook
  | _, [] => []
  | index, d :: later => defined (index + 1) later ++ d.listed.flatMap (entryFound index d.path)

section Read

open Firsts

variable {index : Nat} {path : CStr} {st : HookSearch} {entry : HookEntry}

theorem findHook_isSome (hooks : List FoundHook) (name : CStr) :
    (findHook hooks name).isSome = true ↔ ∃ h ∈ hooks, h.name = name := by
  simp [findHook, List.find?_isSome, strcmp_eq_zero]

inductive EntryRead (index : Nat) (path : CStr) (st : HookSearch) (entry : HookEntry) :
    HookSearch → Prop where
  | skipped (undefined : entryHook path entry = none)
      (other : ¬ (hasHookSuffix entry.name = true ∧ entry.kind = some .regular)) :
      EntryRead index path st entry st
  | failed (undefined : entryHook path entry = none) : EntryRead index path st entry st.fail
  | overridden (found : ∃ h ∈ st.hooks, h.name = entry.name) : EntryRead index path st entry st
  | added (hook : HookFile) (defines : entryHook path entry = some hook)
      (new : ¬ ∃ h ∈ st.hooks, h.name = entry.name) :
      EntryRead index path st entry
        { st with hooks := st.hooks ++ [⟨index, entry.name, hook⟩] }

theorem readEntry_reads (index : Nat) (path : CStr) (st : HookSearch) (entry : HookEntry) :
    EntryRead index path st entry (readEntry index path st entry) := by
  have plain (bare : hasHookSuffix entry.name = false) : EntryRead index path st entry st :=
    .skipped (if_pos (.inr (.inl bare))) fun hook => nomatch bare.symm.trans hook.1
  unfold readEntry
  split
  next dots =>
    rcases dots with dots | dots
    · exact plain (by rw [dots]; decide)
    · exact plain (by rw [dots]; decide)
  split
  next long => exact .failed (if_pos (.inl long))
  next fits =>
  split
  next bare => exact plain bare
  next suffixed =>
  split
  next found => exact .overridden ((findHook_isSome _ _).mp found)
  next unknown =>
  have new : ¬ ∃ h ∈ st.hooks, h.name = entry.name :=
    fun found => unknown ((findHook_isSome _ _).mpr found)
  have opened (some : entry.kind ≠ none) (file : entry.kind ≠ .some .directory) :
      entryHook path entry =
        let parsed := parseHook (path ++ entry.name) entry.text
        if parsed.1 ≠ 0 ∨ (hookValidate (path ++ entry.name) parsed.2.hook).1 ≠ 0 then none
        else .some parsed.2.hook :=
    if_neg (by rintro (long | bare | missing | directory) <;> contradiction)
  split
  next missing => exact .failed (if_pos (.inr (.inr (.inl missing))))
  next directory =>
    refine .skipped (if_pos (.inr (.inr (.inr directory)))) fun hook => ?_
    cases directory.symm.trans hook.2
  next kind file found =>
    have defines := opened (by rw [found]; exact nofun)
      (by rw [found]; exact fun same => file (Option.some.inj same))
    dsimp only at defines ⊢
    split
    next invalid => exact .failed (defines.trans (if_pos invalid))
    next valid => exact .added _ (defines.trans (if_neg valid)) new

theorem readEntry_hooks (index : Nat) (path : CStr) (st : HookSearch) (entry : HookEntry) :
    (readEntry index path st entry).hooks =
      (entryFound index path entry).foldl (keep FoundHook.name) st.hooks := by
  have read := readEntry_reads index path st entry
  generalize readEntry index path st entry = after at read
  unfold entryFound
  cases read with
  | skipped undefined => rw [undefined]; rfl
  | failed undefined => rw [undefined]; rfl
  | overridden found =>
    cases entryHook path entry with
    | none => rfl
    | some hook => exact (if_pos found).symm
  | added hook defines new =>
    rw [defines]
    exact (if_neg new).symm

theorem readEntries_hooks (entries : List HookEntry) (st : HookSearch) :
    (entries.foldl (readEntry index path) st).hooks =
      (entries.flatMap (entryFound index path)).foldl (keep FoundHook.name) st.hooks := by
  induction entries generalizing st with
  | nil => rfl
  | cons entry entries ih =>
    rw [foldl_cons, ih, readEntry_hooks, flatMap_cons, foldl_append]

theorem readDir_hooks (index : Nat) (d : HookDir) (st : HookSearch) : (readDir index d st).hooks =
      (d.listed.flatMap (entryFound index d.path)).foldl (keep FoundHook.name) st.hooks := by
  unfold readDir HookDir.listed
  split
  · rfl
  · cases d.dir with
    | missing => rfl
    | denied entries => rfl
    | opened entries unread =>
      dsimp only
      rw [← readEntries_hooks]
      split
      · rfl
      · rfl

theorem readDirs_hooks (index : Nat) (dirs : List HookDir) :
    (readDirs index dirs).hooks = firsts FoundHook.name (defined index dirs) := by
  induction dirs generalizing index with
  | nil => rfl
  | cons d later ih =>
    rw [readDirs, readDir_hooks, ih, firsts, firsts, defined, foldl_append]

theorem mem_defined {dirs : List HookDir} {h : FoundHook} :
    h ∈ defined index dirs ↔ ∃ k d entry, dirs[k]? = some d ∧ h.dir = index + k ∧
      entry ∈ d.listed ∧ entry.name = h.name ∧ entryHook d.path entry = some h.hook := by
  induction dirs generalizing index with
  | nil => simp [defined]
  | cons d later ih =>
    rw [defined, mem_append, ih, mem_flatMap]
    constructor
    · rintro (⟨k, other, entry, there, dir, rest⟩ | ⟨entry, mem, found⟩)
      · exact ⟨k + 1, other, entry, there, by omega, rest⟩
      · obtain ⟨hook, defines, rfl⟩ := mem_map.mp found
        exact ⟨0, d, entry, rfl, rfl, mem, rfl, Option.mem_toList.mp defines⟩
    · rintro ⟨k, other, entry, there, dir, mem, name, defines⟩
      cases k with
      | zero =>
        cases there
        refine .inr ⟨entry, mem, mem_map.mpr ⟨h.hook, Option.mem_toList.mpr defines, ?_⟩⟩
        rw [name, ← Nat.add_zero index, ← dir]
      | succ k => exact .inl ⟨k, other, entry, there, by omega, mem, name, defines⟩

theorem defined_falls (index : Nat) (dirs : List HookDir) :
    (defined index dirs).Pairwise fun a b => b.dir ≤ a.dir := by
  induction dirs generalizing index with
  | nil => exact .nil
  | cons d later ih =>
    have own (h : FoundHook) (mem : h ∈ d.listed.flatMap (entryFound index d.path)) :
        h.dir = index := by
      obtain ⟨entry, _, found⟩ := mem_flatMap.mp mem
      obtain ⟨hook, _, rfl⟩ := mem_map.mp found
      rfl
    refine pairwise_append.mpr ⟨ih (index + 1), ?_, ?_⟩
    · exact pairwise_of_forall_mem_list fun a inA b inB =>
        ((own b inB).trans (own a inA).symm).le
    · intro a inLater b inOwn
      obtain ⟨k, _, _, _, dir, _⟩ := mem_defined.mp inLater
      have low := own b inOwn
      omega

theorem readEntry_ret (zero : (readEntry index path st entry).ret = 0) :
    st.ret = 0 ∧ (hasHookSuffix entry.name = true → entry.kind = some .regular →
      ∃ h ∈ (readEntry index path st entry).hooks, h.name = entry.name) := by
  have read := readEntry_reads index path st entry
  generalize readEntry index path st entry = after at read zero
  cases read with
  | skipped undefined other => exact ⟨zero, fun hook regular => absurd ⟨hook, regular⟩ other⟩
  | failed undefined => cases zero
  | overridden found => exact ⟨zero, fun _ _ => found⟩
  | added hook defines new =>
    exact ⟨zero, fun _ _ => ⟨_, mem_append_right _ mem_cons_self, rfl⟩⟩

theorem readEntries_ret {entries : List HookEntry}
    (zero : (entries.foldl (readEntry index path) st).ret = 0) :
    st.ret = 0 ∧ ∀ entry ∈ entries, hasHookSuffix entry.name = true → entry.kind = some .regular →
      ∃ h ∈ (entries.foldl (readEntry index path) st).hooks, h.name = entry.name := by
  induction entries generalizing st with
  | nil => exact ⟨zero, nofun⟩
  | cons entry entries ih =>
    rw [foldl_cons] at zero ⊢
    obtain ⟨before, found⟩ := ih zero
    obtain ⟨start, own⟩ := readEntry_ret before
    refine ⟨start, fun other mem hook regular => ?_⟩
    rcases mem_cons.mp mem with rfl | later
    · obtain ⟨h, there, name⟩ := own hook regular
      rw [readEntries_hooks]
      exact ⟨h, subset_foldl_keep there, name⟩
    · exact found other later hook regular

theorem readDir_ret {d : HookDir} (zero : (readDir index d st).ret = 0) :
    st.ret = 0 ∧ ∀ entry ∈ d.dir.contents, hasHookSuffix entry.name = true →
      entry.kind = some .regular → ∃ h ∈ (readDir index d st).hooks, h.name = entry.name := by
  unfold readDir at zero ⊢
  split at zero
  next => cases zero
  next fits =>
    rw [if_neg fits]
    cases dir : d.dir with
    | missing =>
      rw [dir] at zero
      exact ⟨zero, nofun⟩
    | denied entries =>
      rw [dir] at zero
      cases zero
    | opened entries unread =>
      rw [dir] at zero
      cases unread with
      | some rest => cases zero
      | none =>
        rw [Opendir.contents, Option.getD_none, append_nil]
        exact readEntries_ret zero

theorem readDirs_ret {dirs : List HookDir} (zero : (readDirs index dirs).ret = 0) {k : Nat}
    {d : HookDir} (there : dirs[k]? = some d) {entry : HookEntry} (mem : entry ∈ d.dir.contents)
    (hook : hasHookSuffix entry.name = true) (regular : entry.kind = some .regular) :
    ∃ h ∈ (readDirs index dirs).hooks, h.name = entry.name ∧ index + k ≤ h.dir := by
  induction dirs generalizing index k with
  | nil => cases there
  | cons first later ih =>
    rw [readDirs] at zero ⊢
    obtain ⟨before, own⟩ := readDir_ret zero
    cases k with
    | zero =>
      cases there
      obtain ⟨h, found, name⟩ := own entry mem hook regular
      refine ⟨h, found, name, ?_⟩
      -- a hook of that name may also come from a later directory, but not from an earlier one
      rw [← readDirs, readDirs_hooks] at found
      obtain ⟨k, _, _, _, dir, _⟩ := mem_defined.mp (mem_of_mem_firsts found)
      omega
    | succ k =>
      obtain ⟨h, found, name, above⟩ := ih before there
      rw [readDir_hooks]
      exact ⟨h, subset_foldl_keep found, name, by omega⟩

end Read

/-! ### Hooks that are masked -/

def Defines (dirs : List HookDir) (h : FoundHook) : Prop :=
  ∃ d entry, dirs[h.dir]? = some d ∧ entry ∈ d.listed ∧ entry.name = h.name ∧
    entryHook d.path entry = some h.hook

def Masked (dirs : List HookDir) (h : FoundHook) : Prop :=
  ∃ k d entry, h.dir < k ∧ dirs[k]? = some d ∧ entry ∈ d.dir.contents ∧ entry.name = h.name ∧
    entry.kind = some .regular

def MasksLower (env : HookEnv) (when : HookWhen) (dirs : List HookDir) : Prop :=
  ∀ h ∈ (hookRun env when dirs).2, ¬ Masked dirs h

/-- For every hook that the transaction triggers in this phase and that is masked, one of the files
of its name in a later directory defines a hook. -/
def MasksDefined (env : HookEnv) (when : HookWhen) (dirs : List HookDir) : Prop :=
  ∀ h, Defines dirs h → env.concerned when h = true → Masked dirs h →
    ∃ h', Defines dirs h' ∧ h'.name = h.name ∧ h.dir < h'.dir

section Run

open Firsts

variable {env : HookEnv} {when : HookWhen} {dirs : List HookDir} {h h' : FoundHook}

theorem mem_defined_iff : h ∈ defined 0 dirs ↔ Defines dirs h := by
  rw [mem_defined]
  constructor
  · rintro ⟨k, d, entry, there, dir, rest⟩
    rw [Nat.zero_add] at dir
    exact ⟨d, entry, dir ▸ there, rest⟩
  · rintro ⟨d, entry, there, rest⟩
    exact ⟨h.dir, d, entry, there, (Nat.zero_add _).symm, rest⟩

theorem listed_subset (d : HookDir) : d.listed ⊆ d.dir.contents := by
  unfold HookDir.listed
  split
  · exact nil_subset _
  · cases d.dir with
    | missing => exact nil_subset _
    | denied entries => exact nil_subset _
    | opened entries unread => exact subset_append_left _ _

theorem Defines.unique (one : Defines dirs h) (two : Defines dirs h') (dir : h.dir = h'.dir)
    (name : h.name = h'.name) : h = h' := by
  obtain ⟨d, entry, there, mem, named, defines⟩ := one
  obtain ⟨d', entry', there', member', named', defines'⟩ := two
  rw [dir] at there
  cases Option.some.inj (there.symm.trans there')
  have same : entry = entry' :=
    inj_on_of_nodup_map d.distinct (listed_subset d mem) (listed_subset d member')
      (named.trans (name.trans named'.symm))
  rw [same] at defines
  have hook : h.hook = h'.hook := Option.some.inj (defines.symm.trans defines')
  cases h
  cases h'
  cases dir
  cases name
  cases hook
  rfl

theorem Defines.suffix (defines : Defines dirs h) : hasHookSuffix h.name = true := by
  obtain ⟨d, entry, -, -, name, some⟩ := defines
  rw [← name]
  unfold entryHook at some
  split at some
  · cases some
  next readable =>
    rw [not_or, not_or] at readable
    exact eq_true_of_ne_false readable.2.1

theorem mem_hooks (kept : h ∈ (readDirs 0 dirs).hooks) :
    Defines dirs h ∧ ∀ h', Defines dirs h' → h'.name = h.name → h'.dir ≤ h.dir := by
  rw [readDirs_hooks] at kept
  refine ⟨mem_defined_iff.mp (mem_of_mem_firsts kept), fun h' other name => ?_⟩
  exact rank_le_firsts (defined_falls 0 dirs) kept (mem_defined_iff.mpr other) name

theorem runHooks_subset (ret : Int) (hooks : List FoundHook) :
    (runHooks env when ret hooks).2 ⊆ hooks := by
  induction hooks generalizing ret with
  | nil => exact List.Subset.refl _
  | cons first later ih =>
    unfold runHooks
    dsimp only
    generalize (if env.run _ ≠ 0 ∧ first.hook.abortOnFail = true then (-1 : Int) else ret) = now
    split
    · exact cons_subset_cons first (nil_subset _)
    · exact cons_subset_cons first (ih _)

theorem runHooks_post (ret : Int) (hooks : List FoundHook) :
    (runHooks env .postTransaction ret hooks).2 = hooks := by
  induction hooks generalizing ret with
  | nil => rfl
  | cons first later ih =>
    unfold runHooks
    dsimp only
    generalize (if env.run _ ≠ 0 ∧ first.hook.abortOnFail = true then (-1 : Int) else ret) = now
    rw [if_neg fun pre => nomatch pre.2]
    exact congrArg (first :: ·) (ih now)

theorem mem_hookRun (ran : h ∈ (hookRun env when dirs).2) :
    h ∈ (readDirs 0 dirs).hooks ∧ env.concerned when h = true ∧
      (when = .preTransaction → (readDirs 0 dirs).ret = 0) := by
  unfold hookRun at ran
  dsimp only at ran
  split at ran
  next => cases ran
  next goes =>
    obtain ⟨sorted, concerned⟩ := mem_filter.mp (runHooks_subset _ _ ran)
    refine ⟨(listMsort_perm _ _ _).mem_iff.mp sorted, concerned, fun pre => ?_⟩
    by_contra failed
    exact goes ⟨failed, pre⟩

theorem hookRun_post (env : HookEnv) (dirs : List HookDir) : (hookRun env .postTransaction dirs).2 =
      (listMsort hookCmp (readDirs 0 dirs).hooks.length (readDirs 0 dirs).hooks).filter
        (env.concerned .postTransaction) := by
  unfold hookRun
  dsimp only
  rw [if_neg fun pre => nomatch pre.2]
  exact runHooks_post _ _

theorem mem_hookRun_post (kept : h ∈ (readDirs 0 dirs).hooks)
    (concerned : env.concerned .postTransaction h = true) :
    h ∈ (hookRun env .postTransaction dirs).2 := by
  rw [hookRun_post]
  exact mem_filter.mpr ⟨(listMsort_perm _ _ _).mem_iff.mpr kept, concerned⟩

end Run

/-- Masked hooks stay masked before the transaction. After it they do if and only if one of the
files above defines a hook. -/
theorem hookRun_masks_iff (env : HookEnv) (when : HookWhen) (dirs : List HookDir) :
    MasksLower env when dirs ↔ when = .preTransaction ∨ MasksDefined env when dirs := by
  constructor
  · intro masks
    cases when with
    | preTransaction => exact .inl rfl
    | postTransaction =>
      refine .inr fun h defines concerned masked => ?_
      by_contra lowest
      -- the hook is the highest of its name, so it is the one that is kept
      have same : ∃ kept ∈ Firsts.firsts FoundHook.name (defined 0 dirs), kept.name = h.name :=
        Firsts.exists_key_firsts (mem_defined_iff.mpr defines)
      obtain ⟨kept, found, name⟩ := same
      rw [← readDirs_hooks] at found
      obtain ⟨definesKept, highest⟩ := mem_hooks found
      have above : h.dir ≤ kept.dir := highest h defines name.symm
      have dir : kept.dir = h.dir := by
        by_contra other
        exact lowest ⟨kept, definesKept, name, by omega⟩
      rw [definesKept.unique defines dir name] at found
      exact masks h (mem_hookRun_post found concerned) masked
  · rintro goes h ran masked
    obtain ⟨found, concerned, clean⟩ := mem_hookRun ran
    obtain ⟨defines, highest⟩ := mem_hooks found
    rcases goes with pre | defined
    · -- nothing has failed, so the file above has led to a hook of its name
      obtain ⟨k, d, entry, above, there, member, name, regular⟩ := masked
      obtain ⟨h', found', name', high⟩ :=
        readDirs_ret (clean pre) there member (name ▸ defines.suffix) regular
      have low := highest h' (mem_hooks found').1 (name'.trans name)
      omega
    · obtain ⟨h', defines', name, above⟩ := defined h defines concerned masked
      have low := highest h' defines' name
      omega

/-! ### A hook below a broken one -/

def oneHook (path text : CStr) : HookDir where
  path := path
  dir := .opened [⟨cstr "a.hook", some .regular, some text⟩] none
  distinct := nodup_singleton _

/-- The hook of the package is to be replaced by one of the administrator, which has a misspelt
operation. -/
def brokenAbove : List HookDir :=
  [oneHook (cstr "/usr/share/libalpm/hooks/") (hookText "Target = *" " /bin/true"),
    oneHook (cstr "/etc/dulge.d/hooks/") (cstr "[Trigger]\nOperation = Instal\n")]

def installing : HookEnv where
  handle :=
    { add := [.bare 1 (cstr "a") (cstr "1")]
      remove := []
      oldpkg := fun _ => none
      files := fun _ => []
      noextract := []
      fnmatch := fun _ _ => true }
  run := fun _ => 0
  undefined := []

def lowerHook : FoundHook :=
  ⟨0, cstr "a.hook", installHook (some (cstr "*")) [cstr "/bin/true"]⟩

/-- The hook of the lower directory is run. -/
theorem hookRun_runs_masked : hookRun installing .postTransaction brokenAbove = (-1, [lowerHook]) ∧
      Masked brokenAbove lowerHook := by
  refine ⟨by decide +kernel, 1, _, _, by decide, rfl, mem_cons_self, rfl, rfl⟩

end Dulge
