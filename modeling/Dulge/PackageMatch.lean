import Dulge.Lib.Matching
import Dulge.LocalDb

/-! The last look at a package file before its transaction: `check_pkg_matches_db` compares what
the file says of itself with what the resolver has read in the sync database. -/

namespace Dulge
open List

/-! ### Lists in any order -/

section

variable {α : Type*}

/-- The loop of `alpm_list_cmp_unsorted` over a common start of both lists. -/
def skipCommon (fn : α → α → Int) : List α → List α → List α × List α
  | l :: left, r :: right => if fn l r = 0 then skipCommon fn left right else (l :: left, r :: right)
  | left, right => (left, right)

/-- `alpm_list_cmp_unsorted`; `memory` says whether the array of marks can be allocated. -/
def listCmpUnsorted (memory : Bool) (left right : List α) (fn : α → α → Int) : Int :=
  if left.length ≠ right.length then 0
  else
    match skipCommon fn left right with
    | ([], _) => 1
    | (left, right) =>
      if memory then
        if Matching.cover (fun l r => fn l r = 0) right left
          (List.replicate right.length false) then 1
        else 0
      else -1

variable {fn : α → α → Int}

theorem skipCommon_length (fn : α → α → Int) {left right : List α}
    (length : left.length = right.length) :
    (skipCommon fn left right).1.length = (skipCommon fn left right).2.length := by
  induction left generalizing right with
  | nil => exact length
  | cons l left ih =>
    cases right with
    | nil => exact length
    | cons r right =>
      rw [skipCommon]
      split
      · exact ih (Nat.succ.inj length)
      · exact length

theorem skipCommon_perm {κ : Type*} {key : α → κ} (keyed : ∀ l r, fn l r = 0 ↔ key l = key r)
    (left right : List α) :
    ((skipCommon fn left right).1.map key).Perm ((skipCommon fn left right).2.map key) ↔
      (left.map key).Perm (right.map key) := by
  induction left generalizing right with
  | nil => rfl
  | cons l left ih =>
    cases right with
    | nil => rfl
    | cons r right =>
      rw [skipCommon]
      split
      · rename_i equal
        rw [ih right, map_cons, map_cons, (keyed l r).mp equal, perm_cons]
      · rfl

/-- If two data compare equal when they have the same key, the lists compare equal when the keys
of one are a permutation of those of the other. -/
theorem listCmpUnsorted_iff {κ : Type*} {key : α → κ} (keyed : ∀ l r, fn l r = 0 ↔ key l = key r)
    (left right : List α) :
    listCmpUnsorted true left right fn = 1 ↔ (left.map key).Perm (right.map key) := by
  unfold listCmpUnsorted
  split
  · rename_i different
    refine iff_of_false (by decide) fun perm => different ?_
    simpa using perm.length_eq
  · rename_i length
    rw [not_not] at length
    rw [← skipCommon_perm keyed left right]
    have same := skipCommon_length fn length
    generalize skipCommon fn left right = rest at same ⊢
    obtain ⟨left, right⟩ := rest
    cases left with
    | nil =>
      rw [length_eq_zero_iff.mp same.symm]
      exact iff_of_true rfl (.refl _)
    | cons l left =>
      have decides : ∀ l r, decide (fn l r = 0) = true ↔ key l = key r := fun l r =>
        decide_eq_true_iff.trans (keyed l r)
      have free := Matching.free_unmarked right
      have covers := Matching.cover_iff_perm decides (l :: left) right
        (List.replicate right.length false) (free.symm ▸ same)
      rw [free] at covers
      rw [← covers]
      change (if Matching.cover _ right (l :: left) _ then 1 else 0 : Int) = 1 ↔ _
      split
      · rename_i found
        exact iff_of_true rfl found
      · rename_i missing
        exact iff_of_false (by decide) missing

end

/-! ### The fields of a package -/

def depNotEqual (left right : Depend) : Int :=
  if left.nameHash ≠ right.nameHash ∨ strcmp left.name right.name ≠ 0 ∨ left.mod ≠ right.mod ∨
      left.version.isNone ≠ right.version.isNone ∨
      (∃ v ∈ left.version, ∃ w ∈ right.version, strcmp v w ≠ 0) then 1
  else 0

def Depend.key (dep : Depend) : CStr × Depmod × Option CStr := (dep.name, dep.mod, dep.version)

theorem depNotEqual_eq_zero (left right : Depend) :
    depNotEqual left right = 0 ↔ left.key = right.key := by
  unfold depNotEqual Depend.key
  rw [Prod.mk.injEq, Prod.mk.injEq]
  split
  · rename_i different
    refine iff_of_false (by decide) ?_
    rintro ⟨name, mod, version⟩
    rcases different with hash | text | kind | missing | ⟨v, hv, w, hw, differ⟩
    · exact hash (by rw [left.hashed, right.hashed, name])
    · exact text (strcmp_eq_zero.mpr name)
    · exact kind mod
    · exact missing (by rw [version])
    · rw [version] at hv
      cases hv.symm.trans hw
      exact differ (strcmp_self v)
  · rename_i equal
    push Not at equal
    obtain ⟨_, text, kind, missing, versions⟩ := equal
    refine iff_of_true rfl ⟨strcmp_eq_zero.mp text, kind, ?_⟩
    cases hv : left.version with
    | none =>
      rw [hv] at missing
      exact (Option.isNone_iff_eq_none.mp missing.symm).symm
    | some v =>
      cases hw : right.version with
      | none =>
        rw [hv, hw] at missing
        cases missing
      | some w => rw [strcmp_eq_zero.mp (versions v hv w hw)]

/-- The fields of `alpm_pkg_t` that are compared. -/
structure PkgRecord where
  name : CStr
  version : CStr
  isize : Int
  depends : List Depend
  conflicts : List Depend
  replaces : List Depend
  provides : List Depend
  groups : List CStr

inductive FieldCheck where
  | equal
  | mismatch (message : CStr)
  | memory

def checkPkgFieldMatchesDb {α : Type} (memory : Bool) (field : CStr) (left right : List α)
    (cmp : α → α → Int) : FieldCheck :=
  match listCmpUnsorted memory left right cmp with
  | 0 => .mismatch (cstr "internal package " ++ field ++ cstr " mismatch\n")
  | 1 => .equal
  | _ => .memory

def mismatch (field expected actual : CStr) : CStr :=
  cstr "internal package " ++ field ++ cstr " mismatch, expected: '" ++ expected ++
    cstr "', actual: '" ++ actual ++ cstr "'\n"

/-- The uses of `CHECK_FIELD`, in their order: a mismatch is noted, and a failed allocation ends
the function. -/
def checkFields : List FieldCheck → Int × List CStr → Int × List CStr
  | [], found => found
  | .equal :: rest, found => checkFields rest found
  | .mismatch message :: rest, found => checkFields rest (1, found.2 ++ [message])
  | .memory :: _, found => (1, found.2)

def valueMismatches (spkg pkgfile : PkgRecord) : List CStr :=
  (if strcmp spkg.name pkgfile.name ≠ 0 then
    [mismatch (cstr "name") spkg.name pkgfile.name] else []) ++
  (if strcmp spkg.version pkgfile.version ≠ 0 then
    [mismatch (cstr "version") spkg.version pkgfile.version] else []) ++
  (if spkg.isize ≠ pkgfile.isize then
    [mismatch (cstr "install size") (signedDecimal spkg.isize) (signedDecimal pkgfile.isize)] else [])

/-- `check_pkg_matches_db`, with what it logs. The `n`-th list field can allocate if `memory n`. -/
def checkPkgMatchesDb (memory : Nat → Bool) (spkg pkgfile : PkgRecord) : Int × List CStr :=
  let messages := valueMismatches spkg pkgfile
  checkFields
    [checkPkgFieldMatchesDb (memory 0) (cstr "depends") spkg.depends pkgfile.depends depNotEqual,
      checkPkgFieldMatchesDb (memory 1) (cstr "conflicts") spkg.conflicts pkgfile.conflicts
        depNotEqual,
      checkPkgFieldMatchesDb (memory 2) (cstr "replaces") spkg.replaces pkgfile.replaces depNotEqual,
      checkPkgFieldMatchesDb (memory 3) (cstr "provides") spkg.provides pkgfile.provides depNotEqual,
      checkPkgFieldMatchesDb (memory 4) (cstr "groups") spkg.groups pkgfile.groups strcmp]
    (if messages = [] then 0 else 1, messages)

theorem valueMismatches_eq_nil (spkg pkgfile : PkgRecord) :
    valueMismatches spkg pkgfile = [] ↔ spkg.name = pkgfile.name ∧
      spkg.version = pkgfile.version ∧ spkg.isize = pkgfile.isize := by
  have noted (p : Prop) [Decidable p] (message : CStr) : (if p then [message] else []) = [] ↔
      ¬ p := by
    split <;> simp [*]
  rw [valueMismatches, append_eq_nil_iff, append_eq_nil_iff, noted, noted, noted, not_not, not_not,
    not_not, strcmp_eq_zero, strcmp_eq_zero, and_assoc]

theorem checkFields_eq_zero (checks : List FieldCheck) (found : Int × List CStr) :
    (checkFields checks found).1 = 0 ↔ found.1 = 0 ∧ ∀ check ∈ checks, check = .equal := by
  induction checks generalizing found with
  | nil => simp [checkFields]
  | cons check checks ih =>
    rw [forall_mem_cons]
    cases check with
    | equal => simp [checkFields, ih]
    | mismatch message => simp [checkFields, ih]
    | memory => simp [checkFields]

theorem checkPkgFieldMatchesDb_equal {α κ : Type} (cmp : α → α → Int) (key : α → κ)
    (keyed : ∀ l r, cmp l r = 0 ↔ key l = key r) (field : CStr) (left right : List α) :
    checkPkgFieldMatchesDb true field left right cmp = .equal ↔
      (left.map key).Perm (right.map key) := by
  rw [← listCmpUnsorted_iff keyed, checkPkgFieldMatchesDb]
  split
  · rename_i different
    rw [different]
    exact iff_of_false FieldCheck.noConfusion (by decide)
  · rename_i equal
    exact iff_of_true rfl equal
  · rename_i equal
    exact iff_of_false FieldCheck.noConfusion equal

/-- The metadata of two packages is the same, up to the order of lists and the descriptions of
dependencies. -/
structure PkgRecord.Matches (spkg pkgfile : PkgRecord) : Prop where
  name : spkg.name = pkgfile.name
  version : spkg.version = pkgfile.version
  isize : spkg.isize = pkgfile.isize
  depends : (spkg.depends.map Depend.key).Perm (pkgfile.depends.map Depend.key)
  conflicts : (spkg.conflicts.map Depend.key).Perm (pkgfile.conflicts.map Depend.key)
  replaces : (spkg.replaces.map Depend.key).Perm (pkgfile.replaces.map Depend.key)
  provides : (spkg.provides.map Depend.key).Perm (pkgfile.provides.map Depend.key)
  groups : spkg.groups.Perm pkgfile.groups

/-- A package file is accepted exactly when its metadata is that of the sync package. -/
theorem checkPkgMatchesDb_iff (memory : Nat → Bool) (allocates : ∀ n, memory n = true)
    (spkg pkgfile : PkgRecord) :
    (checkPkgMatchesDb memory spkg pkgfile).1 = 0 ↔ spkg.Matches pkgfile := by
  have deps := checkPkgFieldMatchesDb_equal depNotEqual Depend.key depNotEqual_eq_zero
  have groups : checkPkgFieldMatchesDb true (cstr "groups") spkg.groups pkgfile.groups strcmp =
    .equal ↔
      spkg.groups.Perm pkgfile.groups := by
    rw [checkPkgFieldMatchesDb_equal strcmp id fun _ _ => strcmp_eq_zero, map_id, map_id]
  have values : (if valueMismatches spkg pkgfile = [] then 0 else 1 : Int) = 0 ↔
      spkg.name = pkgfile.name ∧ spkg.version = pkgfile.version ∧ spkg.isize = pkgfile.isize := by
    rw [← valueMismatches_eq_nil]
    split <;> simp [*]
  unfold checkPkgMatchesDb
  dsimp only
  rw [checkFields_eq_zero, allocates, allocates, allocates, allocates, allocates, forall_mem_cons,
    forall_mem_cons, forall_mem_cons, forall_mem_cons, forall_mem_singleton, deps, deps,
    deps, deps, groups, values]
  constructor
  · rintro ⟨⟨name, version, isize⟩, depends, conflicts, replaces, provides, groups⟩
    exact ⟨name, version, isize, depends, conflicts, replaces, provides, groups⟩
  · rintro ⟨name, version, isize, depends, conflicts, replaces, provides, groups⟩
    exact ⟨⟨name, version, isize⟩, depends, conflicts, replaces, provides, groups⟩

def pkgRecord (depends : List Depend) : PkgRecord where
  name := cstr "p"
  version := cstr "1-1"
  isize := 4096
  depends := depends
  conflicts := []
  replaces := []
  provides := []
  groups := [cstr "base", cstr "devel"]

theorem checkPkgMatchesDb_reordered : (checkPkgMatchesDb (fun _ => true)
      (pkgRecord (["a>=1: needed", "b", "b"].map (depFromString ∘ cstr)))
      (pkgRecord (["b", "a>=1", "b"].map (depFromString ∘ cstr)))).1 = 0 :=
  (checkPkgMatchesDb_iff (fun _ => true) (fun _ => rfl) _ _).mpr
    ⟨rfl, rfl, rfl, by decide +kernel, .refl _, .refl _, .refl _, .refl _⟩

end Dulge
