import Dulge.AlpmList
import Dulge.Lib.BinarySearch

/-! File lists of packages as `filelist.c` handles them, the backup entries of `backup.c`,
and the matching of paths against the pattern lists of the configuration. -/

namespace Dulge

open Comparator List

/-- `alpm_filelist_t`, which every reader of a package sorts. -/
structure Filelist where
  names : List CStr
  sorted : Sorted strcmp names

variable {front path name : CStr}

theorem strcmp_of_prefix (below : front <+: path) : strcmp front path ≤ 0 := by
  induction front generalizing path with
  | nil => cases path <;> simp [strcmp]
  | cons c cs ih =>
    obtain ⟨rest, rfl⟩ := below
    simpa [strcmp] using ih ⟨rest, rfl⟩

def slash : UInt8 := 47

def endsInSlash (name : CStr) : Bool := name.getLast? = some slash

/-- The type of a file as `lstat` reports it. -/
inductive FileKind where
  | regular | directory | symlink | other
  deriving DecidableEq, Repr

/-- The path that `llstat` hands to `lstat`: without its trailing slashes. -/
def stripSlashes (path : CStr) : CStr :=
  match (path.reverse.dropWhile (· = slash)).reverse with
  | [] => path.take 1
  | stripped => stripped

theorem endsInSlash_append (nonempty : name ≠ []) :
    endsInSlash (front ++ name) = endsInSlash name := by
  unfold endsInSlash
  rw [List.getLast?_append_of_ne_nil front nonempty]

/-- Slashes at the end of a path do not count, for `llstat`. -/
theorem stripSlashes_append (nonempty : front ≠ []) (slashes : ∀ c ∈ name, c = slash) :
    stripSlashes (front ++ name) = stripSlashes front := by
  have dropped : (front ++ name).reverse.dropWhile (· = slash) =
      front.reverse.dropWhile (· = slash) := by
    rw [reverse_append, dropWhile_append_of_pos]
    intro c mem
    exact decide_eq_true (slashes c (mem_reverse.mp mem))
  have first : (front ++ name).take 1 = front.take 1 := by
    cases front with
    | nil => exact absurd rfl nonempty
    | cons c cs => rfl
  unfold stripSlashes
  rw [dropped, first]

theorem stripSlashes_of_plain (plain : endsInSlash path = false) : stripSlashes path = path := by
  cases shape : path.reverse with
  | nil =>
    rw [reverse_eq_nil_iff.mp shape]
    rfl
  | cons last front =>
    have back : path = front.reverse ++ [last] := by
      rw [← reverse_cons, ← shape, reverse_reverse]
    have other : last ≠ slash := by
      simpa [endsInSlash, back] using plain
    have kept : (path.reverse.dropWhile (· = slash)).reverse = path := by
      rw [shape, dropWhile_cons_of_neg (by simpa using other), ← shape, reverse_reverse]
    unfold stripSlashes
    rw [kept, back]
    split
    · rename_i empty
      simp at empty
    · rfl

theorem endsInSlash_of_slashes (ends : endsInSlash front = true) (slashes : ∀ c ∈ name, c = slash) :
    endsInSlash (front ++ name) = true := by
  by_cases empty : name = []
  · rw [empty, append_nil]
    exact ends
  · rw [endsInSlash_append empty, endsInSlash, List.getLast?_eq_some_getLast empty,
      slashes _ (getLast_mem empty)]
    rfl

theorem dropLast_of_endsInSlash (ends : endsInSlash name = true) :
    name.dropLast ++ [slash] = name := by
  simp only [endsInSlash, decide_eq_true_eq] at ends
  exact dropLast_append_getLast? slash ends

def Named (name : CStr) : Prop := ∃ c ∈ name, c ≠ slash

theorem Named.nonempty (named : Named name) : name ≠ [] := by
  rintro rfl
  obtain ⟨c, mem, _⟩ := named
  cases mem

theorem slashes_of_not_named (unnamed : ¬ Named name) : ∀ c ∈ name, c = slash := by
  intro c mem
  by_contra other
  exact unnamed ⟨c, mem, other⟩

def filelistContains (filelist : Option Filelist) (path : CStr) : Bool :=
  match filelist with
  | none => false
  | some filelist =>
    if filelist.names.length = 0 then false
    else (BinarySearch.bsearch strcmp path filelist.names).isSome

theorem filelistContains_some {filelist : Filelist} :
    filelistContains (some filelist) path = true ↔ path ∈ filelist.names := by
  unfold filelistContains
  dsimp only
  split
  · rename_i empty
    simp [length_eq_zero_iff.mp empty]
  · rw [BinarySearch.bsearch_isSome strcmp_lawful filelist.sorted]
    constructor
    · intro ⟨name, mem, equal⟩
      exact strcmp_eq_zero.mp equal ▸ mem
    · intro mem
      exact ⟨path, mem, strcmp_self path⟩

def filelistDifference : List CStr → List CStr → List CStr
  | [], _ => []
  | filesA, [] => filesA
  | a :: filesA, b :: filesB =>
    if strcmp a b < 0 then a :: filelistDifference filesA (b :: filesB)
    else if 0 < strcmp a b then filelistDifference (a :: filesA) filesB
    else filelistDifference filesA filesB
termination_by filesA filesB => filesA.length + filesB.length

/-- The loop is the one of `alpm_list_diff_sorted`. -/
theorem filelistDifference_eq (filesA filesB : List CStr) :
    filelistDifference filesA filesB = (listDiffSorted strcmp filesA filesB).1 := by
  induction filesA, filesB using filelistDifference.induct with
  | case1 filesB => rw [filelistDifference, listDiffSorted]
  | case2 filesA nonempty =>
    rw [filelistDifference, listDiffSorted_nil_right]
    exact nonempty
  | case3 a filesA b filesB less ih =>
    rw [filelistDifference, if_pos less, listDiffSorted_lt less, ih]
  | case4 a filesA b filesB notLess more ih =>
    rw [filelistDifference, if_neg notLess, if_pos more, listDiffSorted_gt more, ih]
  | case5 a filesA b filesB notLess notMore ih =>
    rw [filelistDifference, if_neg notLess, if_neg notMore, listDiffSorted_tie (by omega), ih]

theorem filelistDifference_sublist (filesA filesB : List CStr) :
    (filelistDifference filesA filesB).Sublist filesA := by
  rw [filelistDifference_eq]
  exact listDiffSorted_sublist strcmp filesA filesB

theorem count_filelistDifference {filesA filesB : List CStr} (sortedA : Sorted strcmp filesA)
    (sortedB : Sorted strcmp filesB) (name : CStr) :
    (filelistDifference filesA filesB).count name = filesA.count name - filesB.count name := by
  have same : ties strcmp name = (· == name) := by
    funext other
    rw [Bool.eq_iff_iff, beq_iff_eq, ties, decide_eq_true_iff, strcmp_eq_zero, eq_comm]
  have counts := countP_listDiffSorted strcmp_lawful sortedA sortedB name
  rwa [same, ← filelistDifference_eq] at counts

theorem mem_of_not_mem_difference {filesA filesB : Filelist} (mem : name ∈ filesA.names)
    (left : name ∉ filelistDifference filesA.names filesB.names) : name ∈ filesB.names := by
  have counts := count_filelistDifference filesA.sorted filesB.sorted name
  have there := count_pos_iff.mpr mem
  rw [count_eq_zero.mpr left] at counts
  exact count_pos_iff.mp (by omega)

/-- A `char` as an `int`, where plain `char` is signed; the terminator is 0. -/
def charValue : CStr → Int
  | [] => 0
  | c :: _ => if c < 128 then c.toNat else (c.toNat : Int) - 256

/-- `_alpm_filelist_pathcmp`: a trailing slash on one side only does not count. -/
def filelistPathcmp : CStr → CStr → Int
  | c :: p1, d :: p2 =>
    if c = d then filelistPathcmp p1 p2 else charValue (c :: p1) - charValue (d :: p2)
  | [], d :: p2 =>
    if d = slash then charValue [] - charValue p2 else charValue [] - charValue (d :: p2)
  | c :: p1, [] =>
    if c = slash then charValue p1 - charValue [] else charValue (c :: p1) - charValue []
  | [], [] => 0

def filelistIntersection : List CStr → List CStr → List CStr
  | a :: filesA, b :: filesB =>
    if filelistPathcmp a b < 0 then filelistIntersection filesA (b :: filesB)
    else if 0 < filelistPathcmp a b then filelistIntersection (a :: filesA) filesB
    else if !endsInSlash a || !endsInSlash b then a :: filelistIntersection filesA filesB
    else filelistIntersection filesA filesB
  | _, _ => []
termination_by filesA filesB => filesA.length + filesB.length

/-- `alpm_backup_t` -/
structure Backup where
  name : CStr
  hash : Option CStr
deriving DecidableEq

/-- `_alpm_needbackup` in the backup list of a package -/
def needbackup (file : CStr) (backups : List Backup) : Option Backup :=
  backups.find? fun backup => strcmp file backup.name = 0

theorem needbackup_some {file : CStr} {backups : List Backup} {backup : Backup}
    (found : needbackup file backups = some backup) : backup ∈ backups ∧ backup.name = file := by
  refine ⟨mem_of_find?_eq_some found, ?_⟩
  have equal := List.find?_some found
  simp only [decide_eq_true_eq] at equal
  exact (strcmp_eq_zero.mp equal).symm

theorem needbackup_isSome {file : CStr} {backups : List Backup} :
    (needbackup file backups).isSome = true ↔ ∃ backup ∈ backups, backup.name = file := by
  simp only [needbackup, List.find?_isSome, strcmp_eq_zero, decide_eq_true_eq, @eq_comm _ file]

/-- `_alpm_fnmatch_patterns`, over the patterns from the last to the first: 0 for a match,
1 for an inverted one and -1 for none. -/
def fnmatchReversed (fnmatch : CStr → CStr → Bool) (string : CStr) : List CStr → Int
  | [] => -1
  | pattern :: patterns =>
    let inverted := pattern.head? = some 33
    let plain := if inverted ∨ pattern.head? = some 92 then pattern.tail else pattern
    if fnmatch plain string then if inverted then 1 else 0
    else fnmatchReversed fnmatch string patterns

def fnmatchPatterns (fnmatch : CStr → CStr → Bool) (patterns : List CStr) (string : CStr) : Int :=
  fnmatchReversed fnmatch string patterns.reverse

end Dulge
