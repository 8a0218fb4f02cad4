import Dulge.HookTargets
import Dulge.Lib.SortedPartition

/-! Which files a trigger of type `Path` matches: `_alpm_hook_trigger_match_file`. The paths that
the transaction installs and those that it removes are sorted and parted into the installed,
the upgraded and the removed ones. -/

namespace Dulge
open Comparator SortedPartition List

namespace HookOp

def install : BitVec 32 := 1
def upgrade : BitVec 32 := 2
def remove : BitVec 32 := 4

end HookOp

/-- The operations and the patterns of `struct _alpm_trigger_t`. -/
structure Trigger where
  op : BitVec 32
  targets : List CStr

structure HookHandle where
  add : List Pkg
  remove : List Pkg
  oldpkg : Pkg → Option Pkg
  files : Pkg → List CStr
  noextract : List CStr
  fnmatch : CStr → CStr → Bool

namespace HookHandle

variable (handle : HookHandle) (t : Trigger)

def isTarget (path : CStr) : Bool := fnmatchPatterns handle.fnmatch t.targets path = 0

def isNoExtract (path : CStr) : Bool := fnmatchPatterns handle.fnmatch handle.noextract path = 0

def installList : List CStr :=
  handle.add.flatMap fun pkg =>
    (handle.files pkg).filter fun path => !handle.isNoExtract path && handle.isTarget t path

def removeList : List CStr :=
  (handle.add.flatMap fun spkg =>
    match handle.oldpkg spkg with
    | some pkg => (handle.files pkg).filter (handle.isTarget t)
    | none => []) ++
  handle.remove.flatMap fun pkg => (handle.files pkg).filter (handle.isTarget t)

def fileParts : Parts CStr :=
  let install := handle.installList t
  let remove := handle.removeList t
  part strcmp ⟨.first (listMsort strcmp install.length install), [],
    .first (listMsort strcmp remove.length remove)⟩

end HookHandle

def saveMatches (t : Trigger) (op : BitVec 32) (paths matched : List CStr) : List CStr :=
  if hasBit t.op op ∧ paths ≠ [] then matched ++ paths else matched

/-- `_alpm_hook_trigger_match_file`, with the hook that it leaves. -/
def hookTriggerMatchFile (handle : HookHandle) (hook : Hook) (t : Trigger) : Bool × Hook :=
  let parts := handle.fileParts t
  let install := parts.left.toList
  let upgrade := parts.both
  let remove := parts.right.toList
  let ret := (hasBit t.op HookOp.install ∧ install ≠ []) ∨
    (hasBit t.op HookOp.upgrade ∧ upgrade ≠ []) ∨ (hasBit t.op HookOp.remove ∧ remove ≠ [])
  let matched := saveMatches t HookOp.install install hook.matched
  let matched := saveMatches t HookOp.upgrade upgrade matched
  let matched := saveMatches t HookOp.remove remove matched
  (ret, if hook.needsTargets then { hook with matched := matched } else hook)

/-! ### The three classes of paths -/

section Classes

variable (handle : HookHandle) (t : Trigger)

def installedPaths : Set CStr :=
  {path | (∃ pkg ∈ handle.add, path ∈ handle.files pkg) ∧ handle.isNoExtract path = false ∧
    handle.isTarget t path = true}

def removedPaths : Set CStr :=
  {path | ((∃ spkg ∈ handle.add, ∃ pkg, handle.oldpkg spkg = some pkg ∧ path ∈ handle.files pkg) ∨
    ∃ pkg ∈ handle.remove, path ∈ handle.files pkg) ∧ handle.isTarget t path = true}

theorem mem_installList (path : CStr) :
    path ∈ handle.installList t ↔ path ∈ installedPaths handle t := by
  simp only [HookHandle.installList, installedPaths, mem_flatMap, mem_filter,
    Bool.and_eq_true, Bool.not_eq_true', Set.mem_ofPred_eq]
  constructor
  · rintro ⟨pkg, mem, inFiles, fits⟩
    exact ⟨⟨pkg, mem, inFiles⟩, fits⟩
  · rintro ⟨⟨pkg, mem, inFiles⟩, fits⟩
    exact ⟨pkg, mem, inFiles, fits⟩

theorem mem_removeList (path : CStr) :
    path ∈ handle.removeList t ↔ path ∈ removedPaths handle t := by
  simp only [HookHandle.removeList, removedPaths, mem_append, mem_flatMap,
    mem_filter, Set.mem_ofPred_eq]
  constructor
  · rintro (⟨spkg, mem, inOld⟩ | ⟨pkg, mem, inFiles, fits⟩)
    · split at inOld
      · rename_i pkg old
        obtain ⟨inFiles, fits⟩ := mem_filter.mp inOld
        exact ⟨.inl ⟨spkg, mem, pkg, old, inFiles⟩, fits⟩
      · exact absurd inOld not_mem_nil
    · exact ⟨.inr ⟨pkg, mem, inFiles⟩, fits⟩
  · rintro ⟨⟨spkg, mem, pkg, old, inFiles⟩ | ⟨pkg, mem, inFiles⟩, fits⟩
    · refine .inl ⟨spkg, mem, ?_⟩
      rw [old]
      exact mem_filter.mpr ⟨inFiles, fits⟩
    · exact .inr ⟨pkg, mem, inFiles, fits⟩

theorem fileParts_parted (path : CStr) : (path ∈ (handle.fileParts t).left.toList ↔
      path ∈ installedPaths handle t \ removedPaths handle t) ∧ (path ∈ (handle.fileParts t).both ↔
      path ∈ installedPaths handle t ∩ removedPaths handle t) ∧
    (path ∈ (handle.fileParts t).right.toList ↔
      path ∈ removedPaths handle t \ installedPaths handle t) := by
  have installed : path ∈ listMsort strcmp (handle.installList t).length (handle.installList t) ↔
      path ∈ installedPaths handle t :=
    (listMsort_perm _ _ _).mem_iff.trans (mem_installList handle t path)
  have removed : path ∈ listMsort strcmp (handle.removeList t).length (handle.removeList t) ↔
      path ∈ removedPaths handle t :=
    (listMsort_perm _ _ _).mem_iff.trans (mem_removeList handle t path)
  have parted := part_parted strcmp_lawful
    (listMsort_sorted strcmp_lawful (handle.installList t))
    (listMsort_sorted strcmp_lawful (handle.removeList t))
  have left := parted.left path
  have both := parted.both path
  have right := parted.right path
  simp only [strcmp_eq_zero, ne_eq, exists_eq_right', forall_mem_ne, installed, removed]
    at left both right
  exact ⟨left, both, right⟩

def triggeredPaths : Set CStr :=
  {path | (hasBit t.op HookOp.install = true ∧
      path ∈ installedPaths handle t \ removedPaths handle t) ∨
    (hasBit t.op HookOp.upgrade = true ∧ path ∈ installedPaths handle t ∩ removedPaths handle t) ∨
    (hasBit t.op HookOp.remove = true ∧ path ∈ removedPaths handle t \ installedPaths handle t)}

theorem saveMatches_eq (op : BitVec 32) (paths matched : List CStr) :
    saveMatches t op paths matched = matched ++ if hasBit t.op op then paths else [] := by
  unfold saveMatches
  by_cases bit : hasBit t.op op = true
  · by_cases empty : paths = [] <;> simp [bit, empty]
  · simp [bit]

theorem nonempty_of_mem_iff {paths : List CStr} {set : Set CStr}
    (same : ∀ path, path ∈ paths ↔ path ∈ set) : paths ≠ [] ↔ set.Nonempty := by
  constructor
  · intro some
    obtain ⟨path, mem⟩ := exists_mem_of_ne_nil paths some
    exact ⟨path, (same path).mp mem⟩
  · rintro ⟨path, mem⟩
    exact ne_nil_of_mem ((same path).mpr mem)

/-- A trigger of type `Path` fires exactly when a class of paths whose operation it has is not
empty, and it adds the paths of those classes, and no others, to the matches of a hook that
needs targets. -/
theorem hookTriggerMatchFile_classes (hook : Hook) :
    ((hookTriggerMatchFile handle hook t).1 = true ↔ (hasBit t.op HookOp.install = true ∧
        (installedPaths handle t \ removedPaths handle t).Nonempty) ∨
      (hasBit t.op HookOp.upgrade = true ∧
        (installedPaths handle t ∩ removedPaths handle t).Nonempty) ∨
      (hasBit t.op HookOp.remove = true ∧
        (removedPaths handle t \ installedPaths handle t).Nonempty)) ∧
    (hook.needsTargets = true → ∃ added : List CStr,
      (hookTriggerMatchFile handle hook t).2 = { hook with matched := hook.matched ++ added } ∧
        ∀ path, path ∈ added ↔ path ∈ triggeredPaths handle t) ∧
    (hook.needsTargets = false → (hookTriggerMatchFile handle hook t).2 = hook) := by
  have left := fun path => (fileParts_parted handle t path).1
  have both := fun path => (fileParts_parted handle t path).2.1
  have right := fun path => (fileParts_parted handle t path).2.2
  refine ⟨?_, ?_, ?_⟩
  · rw [← nonempty_of_mem_iff left, ← nonempty_of_mem_iff both, ← nonempty_of_mem_iff right]
    exact decide_eq_true_iff
  · intro needs
    simp only [hookTriggerMatchFile, needs, if_true, saveMatches_eq, append_assoc]
    refine ⟨_, rfl, ?_⟩
    intro path
    simp only [mem_append, mem_ite_nil_right, left, both, right]
    exact Iff.rfl
  · intro none
    simp [hookTriggerMatchFile, none]

end Classes

end Dulge
