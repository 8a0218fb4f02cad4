import Dulge.Database
import Dulge.Lib.Loop

/-! Conflicts between packages. A conflict is recorded with duplicates of both
packages, and one whose packages cannot be duplicated is not recorded at all: the
search does not look at what `add_conflict` returns. -/
namespace Dulge
open Loop List

/-- `alpm_conflict_t` -/
structure Conflict where
  package1 : Pkg
  package2 : Pkg
  reason : Depend
  deriving DecidableEq

/-- `conflict_new`, with the count of duplications after it. -/
def conflictNew (handle : Handle) (pkg1 pkg2 : Pkg) (reason : Depend) (dups : Nat) :
    Option Conflict × Nat :=
  if pkgDup handle pkg1 dups = 0 then
    if pkgDup handle pkg2 (dups + 1) = 0 then (some ⟨pkg1, pkg2, reason⟩, dups + 2)
    else (none, dups + 2)
  else (none, dups + 1)

def conflictDup (handle : Handle) (conflict : Conflict) (dups : Nat) : Option Conflict × Nat :=
  conflictNew handle conflict.package1 conflict.package2 conflict.reason dups

def conflictIsin (needle : Conflict) (haystack : List Conflict) : Bool :=
  haystack.any fun conflict =>
    needle.package1.nameHash = conflict.package1.nameHash ∧
      needle.package2.nameHash = conflict.package2.nameHash ∧
      strcmp needle.package1.name conflict.package1.name = 0 ∧
      strcmp needle.package2.name conflict.package2.name = 0

structure Baddeps where
  conflicts : List Conflict
  dups : Nat
  deriving DecidableEq

/-- `add_conflict`; the Boolean is the return value 0. -/
def addConflict (handle : Handle) (pkg1 pkg2 : Pkg) (reason : Depend) (st : Baddeps) :
    Bool × Baddeps :=
  match conflictNew handle pkg1 pkg2 reason st.dups with
  | (none, dups) => (false, { st with dups := dups })
  | (some conflict, dups) =>
    if conflictIsin conflict st.conflicts then (true, { st with dups := dups })
    else (true, ⟨st.conflicts ++ [conflict], dups⟩)

/-- The innermost body of `check_conflict`. -/
def checkPair (handle : Handle) (order : Int) (pkg1 : Pkg) (conflict : Depend) (st : Baddeps)
    (pkg2 : Pkg) : Baddeps :=
  if pkg1.nameHash = pkg2.nameHash ∧ strcmp pkg1.name pkg2.name = 0 then st
  else if depcmp pkg2 conflict then
    if order ≥ 0 then (addConflict handle pkg1 pkg2 conflict st).2
    else (addConflict handle pkg2 pkg1 conflict st).2
  else st

def checkConflict (handle : Handle) (list1 list2 : List Pkg) (order : Int) (st : Baddeps) : Baddeps :=
  list1.foldl (fun st pkg1 =>
    pkg1.conflicts.foldl (fun st conflict => list2.foldl (checkPair handle order pkg1 conflict) st)
      st) st

def innerconflicts (handle : Handle) (packages : List Pkg) (dups : Nat) : Baddeps :=
  checkConflict handle packages packages 0 ⟨[], dups⟩

def outerconflicts (handle : Handle) (db : Db) (packages : List Pkg) (dups : Nat) : Baddeps :=
  let dblist := listDiff pkgCmp (dbGetPkgcache db) packages
  checkConflict handle dblist packages (-1) (checkConflict handle packages dblist 1 ⟨[], dups⟩)

def Clash (pkg1 pkg2 : Pkg) : Prop :=
  pkg1.name ≠ pkg2.name ∧ ∃ conflict ∈ pkg1.conflicts, depcmp pkg2 conflict = true

def Recorded (st : Baddeps) (pkg1 pkg2 : Pkg) : Prop :=
  ∃ c ∈ st.conflicts, c.package1.name = pkg1.name ∧ c.package2.name = pkg2.name

def BothLoad (handle : Handle) (pkg1 pkg2 : Pkg) : Prop :=
  forceLoad handle pkg1 = true ∧ forceLoad handle pkg2 = true

theorem BothLoad.symm {handle : Handle} {pkg1 pkg2 : Pkg} (both : BothLoad handle pkg1 pkg2) :
    BothLoad handle pkg2 pkg1 := And.symm both

theorem sameName_iff {p q : Pkg} :
    p.nameHash = q.nameHash ∧ strcmp p.name q.name = 0 ↔ p.name = q.name := by
  rw [strcmp_eq_zero, and_iff_right_of_imp]
  intro same
  rw [p.hashed, q.hashed, same]

theorem conflictIsin_iff {needle : Conflict} {haystack : List Conflict} :
    conflictIsin needle haystack = true ↔ ∃ c ∈ haystack,
      c.package1.name = needle.package1.name ∧ c.package2.name = needle.package2.name := by
  simp only [conflictIsin, any_eq_true, decide_eq_true_eq]
  refine exists_congr fun c => and_congr_right fun _ => ?_
  rw [← and_assoc, and_and_and_comm, sameName_iff, sameName_iff]
  exact and_congr eq_comm eq_comm

section Search

variable {handle : Handle} {order : Int}

variable {pkg1 pkg2 p q : Pkg} {c : Conflict} {st : Baddeps} {conflict : Depend}
  {list1 list2 : List Pkg}

theorem conflictNew_some {reason : Depend} {dups : Nat}
    (made : (conflictNew handle pkg1 pkg2 reason dups).1 = some c) :
    c = ⟨pkg1, pkg2, reason⟩ ∧ BothLoad handle pkg1 pkg2 := by
  unfold conflictNew at made
  split_ifs at made with first second
  cases made
  exact ⟨rfl, pkgDup_loads first, pkgDup_loads second⟩

theorem conflictNew_of_both (memory : ∀ n, handle.memory n = true)
    (both : BothLoad handle pkg1 pkg2) (reason : Depend) (dups : Nat) :
    conflictNew handle pkg1 pkg2 reason dups = (some ⟨pkg1, pkg2, reason⟩, dups + 2) := by
  have first := (pkgDup_eq_zero memory pkg1 dups).mpr both.1
  have second := (pkgDup_eq_zero memory pkg2 (dups + 1)).mpr both.2
  simp [conflictNew, first, second]

theorem addConflict_keeps (pkg1 pkg2 : Pkg) (reason : Depend) (st : Baddeps) :
    st.conflicts <+: (addConflict handle pkg1 pkg2 reason st).2.conflicts := by
  unfold addConflict
  split
  · exact prefix_rfl
  · split_ifs
    · exact prefix_rfl
    · exact prefix_append _ _

theorem mem_addConflict {reason : Depend}
    (mem : c ∈ (addConflict handle pkg1 pkg2 reason st).2.conflicts) :
    c ∈ st.conflicts ∨ c = ⟨pkg1, pkg2, reason⟩ ∧ BothLoad handle pkg1 pkg2 := by
  unfold addConflict at mem
  split at mem
  · exact .inl mem
  · rename_i made dups new
    split_ifs at mem
    · exact .inl mem
    · rcases mem_append.mp mem with old | last
      · exact .inl old
      · rw [mem_singleton.mp last]
        exact .inr (conflictNew_some (congrArg Prod.fst new))

theorem addConflict_recorded (memory : ∀ n, handle.memory n = true)
    (both : BothLoad handle pkg1 pkg2) (reason : Depend) (st : Baddeps) :
    Recorded (addConflict handle pkg1 pkg2 reason st).2 pkg1 pkg2 := by
  unfold addConflict
  rw [conflictNew_of_both memory both]
  simp only
  split_ifs with known
  · exact conflictIsin_iff.mp known
  · exact ⟨_, mem_append_right _ mem_cons_self, rfl, rfl⟩

theorem mem_checkPair (mem : c ∈ (checkPair handle order pkg1 conflict st pkg2).conflicts) :
    c ∈ st.conflicts ∨ pkg1.name ≠ pkg2.name ∧ depcmp pkg2 conflict = true ∧
      BothLoad handle pkg1 pkg2 ∧
      (0 ≤ order ∧ c = ⟨pkg1, pkg2, conflict⟩ ∨ order < 0 ∧ c = ⟨pkg2, pkg1, conflict⟩) := by
  unfold checkPair at mem
  split_ifs at mem with itself satisfies forward
  · exact .inl mem
  · exact (mem_addConflict mem).imp_right fun new =>
      ⟨fun same => itself (sameName_iff.mpr same), satisfies, new.2, .inl ⟨forward, new.1⟩⟩
  · exact (mem_addConflict mem).imp_right fun new => ⟨fun same => itself (sameName_iff.mpr same),
      satisfies, new.2.symm, .inr ⟨lt_of_not_ge forward, new.1⟩⟩
  · exact .inl mem

theorem checkPair_keeps (pkg1 : Pkg) (conflict : Depend) (st : Baddeps) (pkg2 : Pkg) :
    st.conflicts <+: (checkPair handle order pkg1 conflict st pkg2).conflicts := by
  unfold checkPair
  split_ifs
  · exact prefix_rfl
  · exact addConflict_keeps pkg1 pkg2 conflict st
  · exact addConflict_keeps pkg2 pkg1 conflict st
  · exact prefix_rfl

theorem Recorded.checkPair (recorded : Recorded st p q) :
    Recorded (Dulge.checkPair handle order pkg1 conflict st pkg2) p q := by
  obtain ⟨c, mem, names⟩ := recorded
  exact ⟨c, (checkPair_keeps pkg1 conflict st pkg2).subset mem, names⟩

theorem checkConflict_keeps (inv : Baddeps → Prop)
    (keeps : ∀ pkg1 ∈ list1, ∀ conflict ∈ pkg1.conflicts, ∀ pkg2 ∈ list2, ∀ st, inv st →
      inv (checkPair handle order pkg1 conflict st pkg2)) (start : inv st) :
    inv (checkConflict handle list1 list2 order st) := by
  unfold checkConflict
  refine List.foldlRecOn list1 _ start fun st held pkg1 one => ?_
  refine List.foldlRecOn pkg1.conflicts _ held fun st held conflict asked => ?_
  exact List.foldlRecOn list2 _ held fun st held pkg2 two =>
    keeps pkg1 one conflict asked pkg2 two st held

theorem checkConflict_reaches (goal : Baddeps → Prop) (one : pkg1 ∈ list1) (two : pkg2 ∈ list2)
    (clash : Clash pkg1 pkg2)
    (keeps : ∀ p conflict st q, goal st → goal (checkPair handle order p conflict st q))
    (reaches : ∀ conflict st, depcmp pkg2 conflict = true →
      goal (checkPair handle order pkg1 conflict st pkg2)) (st : Baddeps) :
    goal (checkConflict handle list1 list2 order st) := by
  have inner : ∀ p conflict st, goal st →
      goal (list2.foldl (checkPair handle order p conflict) st) := by
    intro p conflict st held
    exact List.foldlRecOn list2 _ held fun st held q _ => keeps p conflict st q held
  obtain ⟨_, conflict, asked, satisfies⟩ := clash
  unfold checkConflict
  apply foldl_reaches _ one
  · intro st
    apply foldl_reaches _ asked
    · intro st
      apply foldl_reaches _ two
      · exact fun st => reaches conflict st satisfies
      · exact fun st q held => keeps pkg1 conflict st q held
    · exact fun st conflict held => inner pkg1 conflict st held
  · intro st p held
    exact List.foldlRecOn p.conflicts _ held fun st held conflict _ => inner p conflict st held

theorem checkPair_recorded (memory : ∀ n, handle.memory n = true) (names : pkg1.name ≠ pkg2.name)
    (both : BothLoad handle pkg1 pkg2) (satisfies : depcmp pkg2 conflict = true) (st : Baddeps) :
    (0 ≤ order → Recorded (checkPair handle order pkg1 conflict st pkg2) pkg1 pkg2) ∧
      (order < 0 → Recorded (checkPair handle order pkg1 conflict st pkg2) pkg2 pkg1) := by
  unfold checkPair
  simp only [sameName_iff, names, if_false, satisfies, if_true]
  constructor
  · intro forward
    rw [if_pos forward]
    exact addConflict_recorded memory both conflict st
  · intro backward
    rw [if_neg (not_le.mpr backward)]
    exact addConflict_recorded memory both.symm conflict st

theorem checkConflict_recorded (memory : ∀ n, handle.memory n = true) (one : pkg1 ∈ list1)
    (two : pkg2 ∈ list2) (clash : Clash pkg1 pkg2) (both : BothLoad handle pkg1 pkg2) (st : Baddeps) :
    (0 ≤ order → Recorded (checkConflict handle list1 list2 order st) pkg1 pkg2) ∧
      (order < 0 → Recorded (checkConflict handle list1 list2 order st) pkg2 pkg1) := by
  constructor
  · intro forward
    apply checkConflict_reaches (fun st => Recorded st pkg1 pkg2) one two clash
    · exact fun _ _ _ _ recorded => recorded.checkPair
    · exact fun _ st satisfies => (checkPair_recorded memory clash.1 both satisfies st).1 forward
  · intro backward
    apply checkConflict_reaches (fun st => Recorded st pkg2 pkg1) one two clash
    · exact fun _ _ _ _ recorded => recorded.checkPair
    · exact fun _ st satisfies => (checkPair_recorded memory clash.1 both satisfies st).2 backward

theorem innerconflicts_recorded (memory : ∀ n, handle.memory n = true) {packages : List Pkg}
    (one : p ∈ packages) (two : q ∈ packages) (clash : Clash p q) (both : BothLoad handle p q)
    (dups : Nat) : Recorded (innerconflicts handle packages dups) p q :=
  (checkConflict_recorded memory one two clash both _).1 le_rfl

def Conflict.names (c : Conflict) : CStr × CStr := (c.package1.name, c.package2.name)

theorem addConflict_nodup (reason : Depend) (once : (st.conflicts.map Conflict.names).Nodup) :
    ((addConflict handle p q reason st).2.conflicts.map Conflict.names).Nodup := by
  unfold addConflict
  split
  · exact once
  · rename_i c dups new
    split_ifs with known
    · exact once
    · rw [conflictIsin_iff] at known
      rw [map_append]
      refine once.append (nodup_singleton _) (disjoint_singleton.mpr fun listed => known ?_)
      obtain ⟨old, mem, same⟩ := mem_map.mp listed
      exact ⟨old, mem, Prod.mk.inj same⟩

/-- An entry of the list that `alpm_checkconflicts` gives. -/
structure InnerEntry (handle : Handle) (packages : List Pkg) (c : Conflict) : Prop where
  one : c.package1 ∈ packages
  two : c.package2 ∈ packages
  names : c.package1.name ≠ c.package2.name
  asked : c.reason ∈ c.package1.conflicts
  satisfies : depcmp c.package2 c.reason = true
  both : BothLoad handle c.package1 c.package2

/-- `alpm_checkconflicts` lists the clashes among the packages, each ordered pair of names once. -/
theorem innerconflicts_exact (handle : Handle) (packages : List Pkg) (dups : Nat) :
    let found := innerconflicts handle packages dups
    (found.conflicts.map Conflict.names).Nodup ∧
      (∀ c ∈ found.conflicts, InnerEntry handle packages c) ∧
      ((∀ n, handle.memory n = true) → ∀ p ∈ packages, ∀ q ∈ packages,
        Clash p q → BothLoad handle p q → Recorded found p q) := by
  refine ⟨?once, ?entries, fun memory p one q two clash both =>
    innerconflicts_recorded memory one two clash both dups⟩
  case once =>
    refine checkConflict_keeps (fun st => (st.conflicts.map Conflict.names).Nodup) ?_ nodup_nil
    intro p _ conflict _ q _ st once
    unfold checkPair
    split_ifs
    · exact once
    · exact addConflict_nodup conflict once
    · exact addConflict_nodup conflict once
    · exact once
  case entries =>
    refine checkConflict_keeps (fun st => ∀ c ∈ st.conflicts, InnerEntry handle packages c) ?_
      (by simp)
    intro p one conflict asked q two st held c mem
    rcases mem_checkPair mem with old | ⟨names, satisfies, both, ⟨_, rfl⟩ | ⟨backward, _⟩⟩
    · exact held c old
    · exact ⟨one, two, names, asked, satisfies, both⟩
    · exact absurd backward (by decide)

variable {db : Db} {packages : List Pkg}

theorem outerconflicts_recorded (memory : ∀ n, handle.memory n = true) (target : p ∈ packages)
    (there : q ∈ dbGetPkgcache db) (kept : ∀ t ∈ packages, q.name ≠ t.name)
    (clash : Clash p q ∨ Clash q p) (both : BothLoad handle p q) (dups : Nat) :
    Recorded (outerconflicts handle db packages dups) p q := by
  have listed : q ∈ listDiff pkgCmp (dbGetPkgcache db) packages :=
    (mem_listDiff_pkgCmp packages (dbGetPkgcache_names db) q).mpr ⟨there, kept⟩
  unfold outerconflicts
  rcases clash with forward | backward
  · have first := (checkConflict_recorded memory target listed forward both ⟨[], dups⟩).1 zero_le_one
    exact checkConflict_keeps (fun st => Recorded st p q)
      (fun _ _ _ _ _ _ _ recorded => recorded.checkPair) first
  · exact (checkConflict_recorded memory listed target backward both.symm _).2 (by decide)

structure OuterEntry (handle : Handle) (db : Db) (packages : List Pkg) (c : Conflict) : Prop where
  target : c.package1 ∈ packages
  there : c.package2 ∈ dbGetPkgcache db
  kept : ∀ t ∈ packages, c.package2.name ≠ t.name
  clash : Clash c.package1 c.package2 ∨ Clash c.package2 c.package1
  both : BothLoad handle c.package1 c.package2

theorem outerconflicts_entry {dups : Nat}
    (mem : c ∈ (outerconflicts handle db packages dups).conflicts) :
    OuterEntry handle db packages c := by
  have spared : ∀ q ∈ listDiff pkgCmp (dbGetPkgcache db) packages,
      q ∈ dbGetPkgcache db ∧ ∀ t ∈ packages, q.name ≠ t.name :=
    fun q => (mem_listDiff_pkgCmp packages (dbGetPkgcache_names db) q).mp
  refine checkConflict_keeps (fun st => ∀ c ∈ st.conflicts, OuterEntry handle db packages c)
    ?backward (checkConflict_keeps (fun st => ∀ c ∈ st.conflicts, OuterEntry handle db packages c)
      ?forward ?start) c mem
  case backward =>
    intro q listed conflict asked p target st held c mem
    rcases mem_checkPair mem with old | ⟨names, satisfies, both, ⟨forward, _⟩ | ⟨_, rfl⟩⟩
    · exact held c old
    · exact absurd forward (by decide)
    · exact ⟨target, (spared q listed).1, (spared q listed).2,
        .inr ⟨names, conflict, asked, satisfies⟩, both.symm⟩
  case forward =>
    intro p target conflict asked q listed st held c mem
    rcases mem_checkPair mem with old | ⟨names, satisfies, both, ⟨_, rfl⟩ | ⟨backward, _⟩⟩
    · exact held c old
    · exact ⟨target, (spared q listed).1, (spared q listed).2,
        .inl ⟨names, conflict, asked, satisfies⟩, both⟩
    · exact absurd backward (by decide)
  case start =>
    intro c mem
    cases mem

end Search

end Dulge
