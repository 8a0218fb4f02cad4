import Dulge.Database

/-! `alpm_checkdeps`, twice. `checkdeps` is a function of the packages alone and
is what the rest of the development calls. `checkdepsInPlace` runs on package
objects in memory and overwrites `depend->mod` for the time of each test, as the
source does under `NODEPVERSION`; it returns the same list and leaves the memory
as it was. What the check is for is said on sets of packages: a set is closed
when it satisfies every dependency of its members. -/
namespace Dulge
open List

def Satisfied (handle : Handle) (pkgs : Set Pkg) (dep : Depend) : Prop :=
  (∃ p ∈ pkgs, depcmp p dep = true) ∨ depcmpProvides dep handle.assumeinstalled = true

def Closed (handle : Handle) (pkgs : Set Pkg) : Prop :=
  ∀ p ∈ pkgs, ∀ dep ∈ p.depends, Satisfied handle pkgs dep

/-- The packages there are once `rem` is removed and `upgrade` is installed. -/
def afterwards (pkglist rem upgrade : List Pkg) : Set Pkg :=
  {p | (p ∈ pkglist ∧ (∀ q ∈ rem, q.name ≠ p.name) ∧ ∀ q ∈ upgrade, q.name ≠ p.name) ∨ p ∈ upgrade}

variable {handle : Handle} {rem upgrade pkglist : List Pkg} {depend : Depend} {miss : Depmissing}

theorem Satisfied.mono {pkgs pkgs' : Set Pkg} {dep : Depend} (more : pkgs ⊆ pkgs')
    (h : Satisfied handle pkgs dep) : Satisfied handle pkgs' dep := by
  rcases h with ⟨p, mem, satisfies⟩ | assumed
  · exact .inl ⟨p, more mem, satisfies⟩
  · exact .inr assumed

theorem Satisfied.anyVersion {pkgs : Set Pkg} {dep : Depend} (h : Satisfied handle pkgs dep) :
    Satisfied handle pkgs dep.anyVersion := by
  rcases h with ⟨p, mem, satisfies⟩ | assumed
  · exact .inl ⟨p, mem, depcmp_anyVersion satisfies⟩
  · exact .inr (depcmpProvides_anyVersion assumed)

/-- The split of the package list that `alpm_checkdeps` starts with. -/
def isModified (rem upgrade : List Pkg) (pkg : Pkg) : Bool :=
  (pkgFind rem pkg.name).isSome || (pkgFind upgrade pkg.name).isSome

def depSatisfied (handle : Handle) (upgrade dblist : List Pkg) (depend : Depend) : Bool :=
  (findDepSatisfier upgrade depend).isSome || (findDepSatisfier dblist depend).isSome ||
    depcmpProvides depend handle.assumeinstalled

def missingDep (handle : Handle) (upgrade dblist : List Pkg) (tp : Pkg) (depend : Depend) :
    Option Depmissing :=
  if depSatisfied handle upgrade dblist depend then none
  else some { target := tp.name, depend := depend, causingpkg := none }

/-- The test of one dependency of a package that stays: a dependency that nothing
modified satisfied was broken before and is passed over. -/
def brokenDep (handle : Handle) (upgrade dblist modified : List Pkg) (lp : Pkg) (depend : Depend) :
    Option Depmissing :=
  match findDepSatisfier modified depend with
  | none => none
  | some causingpkg =>
    if depSatisfied handle upgrade dblist depend then none
    else some { target := lp.name, depend := depend, causingpkg := some causingpkg.name }

def checkedDepend (handle : Handle) (depend : Depend) : Depend :=
  if noDepVersion handle then depend.anyVersion else depend

def checkdeps (handle : Handle) (pkglist rem upgrade : List Pkg) (reversedeps : Bool) :
    List Depmissing :=
  let modified := pkglist.filter (isModified rem upgrade)
  let dblist := pkglist.filter fun pkg => !isModified rem upgrade pkg
  let missing := upgrade.flatMap fun tp =>
    tp.depends.filterMap fun depend => missingDep handle upgrade dblist tp
      (checkedDepend handle depend)
  let broken := dblist.flatMap fun lp =>
    lp.depends.filterMap fun depend =>
      brokenDep handle upgrade dblist modified lp (checkedDepend handle depend)
  missing ++ if reversedeps then broken else []

theorem isModified_iff {pkg : Pkg} : isModified rem upgrade pkg = true ↔
      (∃ q ∈ rem, q.name = pkg.name) ∨ ∃ q ∈ upgrade, q.name = pkg.name := by
  rw [isModified, Bool.or_eq_true, pkgFind_isSome, pkgFind_isSome]

theorem isModified_eq_false {pkg : Pkg} : isModified rem upgrade pkg = false ↔
      (∀ q ∈ rem, q.name ≠ pkg.name) ∧ ∀ q ∈ upgrade, q.name ≠ pkg.name := by
  rw [← Bool.not_eq_true, isModified_iff]
  simp only [not_or, not_exists, not_and, ne_eq]

theorem mem_afterwards {p : Pkg} : p ∈ afterwards pkglist rem upgrade ↔
      p ∈ upgrade ∨ p ∈ pkglist.filter fun pkg => !isModified rem upgrade pkg := by
  rw [mem_filter, Bool.not_eq_true', isModified_eq_false]
  exact or_comm

theorem depSatisfied_iff :
    depSatisfied handle upgrade (pkglist.filter fun pkg => !isModified rem upgrade pkg) depend
      = true ↔
      Satisfied handle (afterwards pkglist rem upgrade) depend := by
  rw [depSatisfied, Bool.or_eq_true, Bool.or_eq_true, findDepSatisfier_isSome,
    findDepSatisfier_isSome, Satisfied]
  refine or_congr ?_ Iff.rfl
  constructor
  · intro satisfier
    rcases satisfier with ⟨p, mem, satisfies⟩ | ⟨p, mem, satisfies⟩
    · exact ⟨p, mem_afterwards.mpr (.inl mem), satisfies⟩
    · exact ⟨p, mem_afterwards.mpr (.inr mem), satisfies⟩
  · intro satisfier
    obtain ⟨p, mem, satisfies⟩ := satisfier
    rcases mem_afterwards.mp mem with new | old
    · exact .inl ⟨p, new, satisfies⟩
    · exact .inr ⟨p, old, satisfies⟩

theorem missingDep_eq_some {dblist : List Pkg} {tp : Pkg} :
    missingDep handle upgrade dblist tp depend = some miss ↔
      depSatisfied handle upgrade dblist depend = false ∧ miss = ⟨tp.name, depend, none⟩ := by
  unfold missingDep
  split_ifs with satisfied
  · simp [satisfied]
  · simp [satisfied, eq_comm]

theorem brokenDep_eq_some {dblist modified : List Pkg} {lp : Pkg} :
    brokenDep handle upgrade dblist modified lp depend = some miss ↔
      ∃ causingpkg, findDepSatisfier modified depend = some causingpkg ∧
        depSatisfied handle upgrade dblist depend = false ∧
        miss = ⟨lp.name, depend, some causingpkg.name⟩ := by
  unfold brokenDep
  cases findDepSatisfier modified depend with
  | none => simp
  | some causingpkg =>
    simp only
    split_ifs with satisfied
    · simp [satisfied]
    · simp [satisfied, eq_comm]

theorem mem_checkdeps {reversedeps : Bool} :
    miss ∈ checkdeps handle pkglist rem upgrade reversedeps ↔
      (∃ p ∈ upgrade, ∃ dep ∈ p.depends, miss = ⟨p.name, checkedDepend handle dep, none⟩ ∧
        ¬ Satisfied handle (afterwards pkglist rem upgrade) (checkedDepend handle dep)) ∨
      reversedeps = true ∧ ∃ p ∈ pkglist, isModified rem upgrade p = false ∧ ∃ dep ∈ p.depends,
        ∃ cause, findDepSatisfier (pkglist.filter (isModified rem upgrade))
            (checkedDepend handle dep) = some cause ∧
          miss = ⟨p.name, checkedDepend handle dep, some cause.name⟩ ∧
          ¬ Satisfied handle (afterwards pkglist rem upgrade) (checkedDepend handle dep) := by
  have unsatisfied : ∀ dep, depSatisfied handle upgrade
      (pkglist.filter fun pkg => !isModified rem upgrade pkg) dep = false ↔
        ¬ Satisfied handle (afterwards pkglist rem upgrade) dep := by
    intro dep
    rw [← depSatisfied_iff, Bool.not_eq_true]
  simp only [checkdeps, mem_append, mem_flatMap, mem_filterMap, missingDep_eq_some, unsatisfied]
  refine or_congr ?_ ?_
  · simp only [and_comm]
  · cases reversedeps with
    | false => simp
    | true =>
      simp only [if_true, mem_flatMap, mem_filterMap, mem_filter,
        Bool.not_eq_true', brokenDep_eq_some, unsatisfied, true_and, and_assoc]
      simp only [and_comm]

theorem checkdeps_closed (versions : noDepVersion handle = false)
    (closed : Closed handle {p | p ∈ pkglist})
    (empty : checkdeps handle pkglist rem upgrade true = []) :
    Closed handle (afterwards pkglist rem upgrade) := by
  have none : ∀ miss, miss ∉ checkdeps handle pkglist rem upgrade true := by
    simp [empty]
  have same : ∀ dep, checkedDepend handle dep = dep := fun dep => by
    simp [checkedDepend, versions]
  intro p mem dep hdep
  by_contra unsatisfied
  rcases mem_afterwards.mp mem with new | stays
  · exact none _ (mem_checkdeps.mpr (.inl ⟨p, new, dep, hdep, rfl, by rwa [same]⟩))
  · obtain ⟨there, kept⟩ := mem_filter.mp stays
    rcases closed p there dep hdep with ⟨q, old, satisfies⟩ | assumed
    · by_cases changed : isModified rem upgrade q = true
      · have found : (findDepSatisfier (pkglist.filter (isModified rem upgrade)) dep).isSome = true :=
          findDepSatisfier_isSome.mpr ⟨q, mem_filter.mpr ⟨old, changed⟩, satisfies⟩
        obtain ⟨cause, first⟩ := Option.isSome_iff_exists.mp found
        refine none _ (mem_checkdeps.mpr (.inr ⟨rfl, p, there, by simpa using kept, dep, hdep,
          cause, ?_, rfl, ?_⟩))
        · rwa [same]
        · rwa [same]
      · have still : q ∈ afterwards pkglist rem upgrade :=
          mem_afterwards.mpr (.inr (mem_filter.mpr ⟨old, by simpa using changed⟩))
        exact unsatisfied (.inl ⟨q, still, satisfies⟩)
    · exact unsatisfied (.inr assumed)

theorem checkdeps_precise {reversedeps : Bool}
    (entry : miss ∈ checkdeps handle pkglist rem upgrade reversedeps) :
    ∃ p ∈ afterwards pkglist rem upgrade, miss.target = p.name ∧
      ∃ dep ∈ p.depends, miss.depend = checkedDepend handle dep ∧
        ¬ Satisfied handle (afterwards pkglist rem upgrade) dep := by
  have weaker : ∀ {dep}, ¬ Satisfied handle (afterwards pkglist rem upgrade)
      (checkedDepend handle dep) → ¬ Satisfied handle (afterwards pkglist rem upgrade) dep := by
    intro dep unsatisfied satisfied
    apply unsatisfied
    unfold checkedDepend
    split_ifs
    · exact satisfied.anyVersion
    · exact satisfied
  rcases mem_checkdeps.mp entry with ⟨p, new, dep, hdep, rfl, unsatisfied⟩ |
    ⟨_, p, there, kept, dep, hdep, cause, _, rfl, unsatisfied⟩
  · exact ⟨p, mem_afterwards.mpr (.inl new), rfl, dep, hdep, rfl, weaker unsatisfied⟩
  · have stays : p ∈ pkglist.filter fun pkg => !isModified rem upgrade pkg :=
      mem_filter.mpr ⟨there, by rw [kept, Bool.not_false]⟩
    exact ⟨p, mem_afterwards.mpr (.inr stays), rfl, dep, hdep, rfl, weaker unsatisfied⟩

abbrev Heap := Nat → Pkg

/-- `depend->mod = mod` for the `k`-th dependency of the package at `addr`. -/
def Heap.setMod (heap : Heap) (addr k : Nat) (mod : Depmod) : Heap :=
  Function.update heap addr
    { heap addr with depends := (heap addr).depends.modify k fun depend =>
      { depend with mod := mod } }

/-- The body of both dependency loops: save the comparison, clear it under
`NODEPVERSION`, test what `depend` then points to, and write the comparison back. -/
def checkDepend (handle : Handle) (test : Heap → Depend → Option Depmissing) (addr k : Nat)
    (heap : Heap) : Heap × Option Depmissing :=
  match (heap addr).depends[k]? with
  | none => (heap, none)
  | some depend =>
    let origMod := depend.mod
    let heap' := if noDepVersion handle then heap.setMod addr k .any else heap
    let miss := (heap' addr).depends[k]?.bind (test heap')
    (heap'.setMod addr k origMod, miss)

/-- A dependency loop with `n` list nodes to go, the next one at position `k`. -/
def checkDepends (handle : Handle) (test : Heap → Depend → Option Depmissing) (addr : Nat) :
    Nat → Nat → Heap → Heap × List Depmissing
  | 0, _, heap => (heap, [])
  | n + 1, k, heap =>
    let step := checkDepend handle test addr k heap
    let rest := checkDepends handle test addr n (k + 1) step.1
    (rest.1, step.2.toList ++ rest.2)

/-- A package loop, with the test that its dependency loop makes. -/
def checkPackages (handle : Handle) (test : Nat → Heap → Depend → Option Depmissing) :
    List Nat → Heap → Heap × List Depmissing
  | [], heap => (heap, [])
  | addr :: addrs, heap =>
    let step := checkDepends handle (test addr) addr (heap addr).depends.length 0 heap
    let rest := checkPackages handle test addrs step.1
    (rest.1, step.2 ++ rest.2)

/-- `alpm_checkdeps` on package objects. -/
def checkdepsInPlace (handle : Handle) (heap : Heap) (pkglist rem upgrade : List Nat)
    (reversedeps : Bool) : Heap × List Depmissing :=
  let touched := fun addr => isModified (rem.map heap) (upgrade.map heap) (heap addr)
  let modified := pkglist.filter touched
  let dblist := pkglist.filter fun addr => !touched addr
  let missing := checkPackages handle (fun tp heap =>
    missingDep handle (upgrade.map heap) (dblist.map heap) (heap tp)) upgrade heap
  if reversedeps then
    let broken := checkPackages handle (fun lp heap =>
      brokenDep handle (upgrade.map heap) (dblist.map heap) (modified.map heap) (heap lp)) dblist
        missing.1
    (broken.1, missing.2 ++ broken.2)
  else missing

variable {heap heap' : Heap}

theorem Heap.setMod_setMod (heap : Heap) (addr k : Nat) (mod mod' : Depmod) :
    (heap.setMod addr k mod).setMod addr k mod' = heap.setMod addr k mod' := by
  simp only [Heap.setMod, Function.update_self, Function.update_idem, modify_modify_eq]
  rfl

theorem Heap.setMod_self {addr k : Nat} (read : (heap addr).depends[k]? = some depend) :
    heap.setMod addr k depend.mod = heap := by
  have same : (heap addr).depends.modify k (fun d => { d with mod := depend.mod }) =
      (heap addr).depends := by
    apply ext_getElem?
    intro i
    rw [List.getElem?_modify]
    split_ifs with here
    · rw [← here, read]
      rfl
    · simp
  unfold Heap.setMod
  rw [same]
  exact Function.update_eq_self addr heap

theorem Heap.setMod_read {addr k : Nat} (mod : Depmod)
    (read : (heap addr).depends[k]? = some depend) :
    (heap.setMod addr k mod addr).depends[k]? = some { depend with mod := mod } := by
  simp [Heap.setMod, read]

structure Heap.Alike (heap heap' : Heap) : Prop where
  name : ∀ addr, (heap addr).name = (heap' addr).name
  cmp : ∀ addr depend, depcmp (heap addr) depend = depcmp (heap' addr) depend

theorem Heap.setMod_alike (heap : Heap) (addr k : Nat) (mod : Depmod) :
    Heap.Alike (heap.setMod addr k mod) heap := by
  constructor
  · intro other
    by_cases here : other = addr
    · subst here
      simp [Heap.setMod]
    · simp [Heap.setMod, here]
  · intro other depend
    by_cases here : other = addr
    · subst here
      simp [Heap.setMod, depcmp, depcmpLiteral]
    · simp [Heap.setMod, here]

theorem findDepSatisfier_map (heap : Heap) (addrs : List Nat) (depend : Depend) :
    findDepSatisfier (addrs.map heap) depend =
      (addrs.find? fun addr => depcmp (heap addr) depend).map heap := by
  rw [findDepSatisfier, List.find?_map]
  rfl

theorem Heap.Alike.satisfied (alike : heap.Alike heap') (handle : Handle)
    (upgrade dblist : List Nat) (depend : Depend) :
    depSatisfied handle (upgrade.map heap) (dblist.map heap) depend =
      depSatisfied handle (upgrade.map heap') (dblist.map heap') depend := by
  simp [depSatisfied, findDepSatisfier_map, alike.cmp]

theorem Heap.Alike.missing (alike : heap.Alike heap') (handle : Handle) (upgrade dblist : List Nat)
    (tp : Nat) : missingDep handle (upgrade.map heap) (dblist.map heap) (heap tp) =
      missingDep handle (upgrade.map heap') (dblist.map heap') (heap' tp) := by
  funext depend
  simp only [missingDep, alike.satisfied handle upgrade dblist, alike.name]

theorem Heap.Alike.broken (alike : heap.Alike heap') (handle : Handle)
    (upgrade dblist modified : List Nat) (lp : Nat) :
    brokenDep handle (upgrade.map heap) (dblist.map heap) (modified.map heap) (heap lp) =
      brokenDep handle (upgrade.map heap') (dblist.map heap') (modified.map heap') (heap' lp) := by
  funext depend
  simp only [brokenDep, findDepSatisfier_map, alike.cmp, alike.satisfied handle upgrade dblist]
  cases modified.find? fun addr => depcmp (heap' addr) depend with
  | none => rfl
  | some addr => simp only [Option.map_some, alike.name]

section Restore

variable {handle : Handle} {heap : Heap}

theorem checkDepend_eq {test : Heap → Depend → Option Depmissing}
    (blind : ∀ heap', Heap.Alike heap' heap → test heap' = test heap) (addr k : Nat) :
    checkDepend handle test addr k heap =
      (heap, (heap addr).depends[k]?.bind fun depend => test heap (checkedDepend handle depend)) := by
  unfold checkDepend
  cases read : (heap addr).depends[k]? with
  | none => rfl
  | some depend =>
    by_cases any : noDepVersion handle = true
    · simp only [any, if_true, Heap.setMod_setMod, Heap.setMod_self read,
        Heap.setMod_read .any read, blind _ (heap.setMod_alike addr k .any), Option.bind_some]
      simp only [checkedDepend, any, if_true, Depend.anyVersion]
    · simp only [any, Bool.false_eq_true, if_false, Heap.setMod_self read, read, Option.bind_some]
      simp [checkedDepend, any]

theorem checkDepends_eq {test : Heap → Depend → Option Depmissing}
    (blind : ∀ heap', Heap.Alike heap' heap → test heap' = test heap) (addr n k : Nat)
    (left : (heap addr).depends.length = k + n) : checkDepends handle test addr n k heap =
      (heap, ((heap addr).depends.drop k).filterMap fun depend =>
        test heap (checkedDepend handle depend)) := by
  induction n generalizing k with
  | zero =>
    rw [drop_eq_nil_of_le (by omega)]
    rfl
  | succ n ih =>
    have more : k < (heap addr).depends.length := by omega
    simp only [checkDepends, checkDepend_eq blind]
    rw [ih (k + 1) (by omega), drop_eq_getElem_cons more, List.getElem?_eq_getElem more,
      Option.bind_some, filterMap_cons]
    cases test heap (checkedDepend handle (heap addr).depends[k]) with
    | none => rfl
    | some miss => rfl

theorem checkPackages_eq {test : Nat → Heap → Depend → Option Depmissing}
    (blind : ∀ addr heap', Heap.Alike heap' heap → test addr heap' = test addr heap)
    (addrs : List Nat) : checkPackages handle test addrs heap =
      (heap, addrs.flatMap fun addr => (heap addr).depends.filterMap fun depend =>
        test addr heap (checkedDepend handle depend)) := by
  induction addrs with
  | nil => rfl
  | cons addr addrs ih =>
    simp only [checkPackages]
    rw [checkDepends_eq (blind addr) addr _ 0 (Nat.zero_add _).symm]
    simp only [ih, drop_zero, flatMap_cons]

end Restore

theorem checkdepsInPlace_eq (handle : Handle) (heap : Heap) (pkglist rem upgrade : List Nat)
    (reversedeps : Bool) : checkdepsInPlace handle heap pkglist rem upgrade reversedeps =
      (heap, checkdeps handle (pkglist.map heap) (rem.map heap) (upgrade.map heap) reversedeps) := by
  unfold checkdepsInPlace checkdeps
  simp only [filter_map, flatMap_map]
  rw [checkPackages_eq fun addr heap' alike => alike.missing handle _ _ addr]
  cases reversedeps with
  | false => simp [Function.comp_def]
  | true =>
    simp only [if_true]
    rw [checkPackages_eq fun addr heap' alike => alike.broken handle _ _ _ addr]
    simp only [Function.comp_def]

/-- The dependency check is sound and precise, and every comparison it overwrites
is back in place when it returns. -/
theorem checkdeps_sound_and_precise (handle : Handle) (heap : Heap)
    (pkglist rem upgrade : List Nat) (reversedeps : Bool) :
    let result := checkdepsInPlace handle heap pkglist rem upgrade reversedeps
    let after := afterwards (pkglist.map heap) (rem.map heap) (upgrade.map heap)
    (noDepVersion handle = false → reversedeps = true →
      Closed handle {p | p ∈ pkglist.map heap} → result.2 = [] → Closed handle after) ∧
    (∀ miss ∈ result.2, ∃ p ∈ after, miss.target = p.name ∧
      ∃ dep ∈ p.depends, miss.depend = checkedDepend handle dep ∧ ¬ Satisfied handle after dep) ∧
    ∀ addr, (result.1 addr).depends.map Depend.mod = (heap addr).depends.map Depend.mod := by
  intro result after
  have refined : result = _ := checkdepsInPlace_eq handle heap pkglist rem upgrade reversedeps
  rw [refined]
  refine ⟨?_, ?_, fun addr => rfl⟩
  · intro versions both closed empty
    subst both
    exact checkdeps_closed versions closed empty
  · intro miss entry
    exact checkdeps_precise entry

end Dulge
