import Dulge.Checkdeps
import Dulge.Recursedeps

/-! `_alpm_remove_prepare`. Its two repair loops have no bound of their own and
are run with fuel: `none` is a run that is not finished, never a result. What they
repair is breakage, which depends only on the set of names that go, and grows with
that set as long as the broken package itself stays. -/
namespace Dulge
open List Option

def findSatisfier (pkgs : List Pkg) (depstring : CStr) : Option Pkg :=
  findDepSatisfier pkgs (depFromString depstring)

def checkRemoval (handle : Handle) (remove : List Pkg) : List Depmissing :=
  checkdeps handle (dbGetPkgcache handle.dbLocal) remove [] true

/-- One pass of `remove_prepare_cascade` over the missing dependencies. Only an
outright failure to duplicate is one here. -/
def cascadePass (handle : Handle) : List Depmissing → List Pkg → Nat → Targets
  | [], remove, dups => ⟨true, remove, dups⟩
  | miss :: lp, remove, dups =>
    match dbGetPkgfromcache handle.dbLocal miss.target with
    | none => cascadePass handle lp remove dups
    | some info =>
      if (pkgFind remove info.name).isSome then cascadePass handle lp remove dups
      else if pkgDup handle info dups = -1 then ⟨false, remove, dups + 1⟩
      else cascadePass handle lp (remove ++ [info]) (dups + 1)

def removePrepareCascade (handle : Handle) : Nat → List Depmissing → List Pkg → Nat → Option Targets
  | _, [], remove, dups => some ⟨true, remove, dups⟩
  | 0, _ :: _, _, _ => none
  | fuel + 1, miss :: lp, remove, dups =>
    let pass := cascadePass handle (miss :: lp) remove dups
    if pass.ok then
      removePrepareCascade handle fuel (checkRemoval handle pass.targs) pass.targs pass.dups
    else some pass

/-- One pass of `remove_prepare_keep_needed` over the missing dependencies. -/
def keepNeededPass : List Depmissing → List Pkg → List Pkg
  | [], remove => remove
  | miss :: lp, remove =>
    match miss.causingpkg.bind (pkgFind remove) with
    | none => keepNeededPass lp remove
    | some pkg => keepNeededPass lp (listRemove pkgCmp remove pkg).1

def removePrepareKeepNeeded (handle : Handle) : Nat → List Depmissing → List Pkg → Option (List Pkg)
  | _, [], remove => some remove
  | 0, _ :: _, _ => none
  | fuel + 1, miss :: lp, remove =>
    let kept := keepNeededPass (miss :: lp) remove
    removePrepareKeepNeeded handle fuel (checkRemoval handle kept) kept

/-- The events of `remove_notify_needed_optdepends`. -/
def removeNotifyNeededOptdepends (handle : Handle) (lp : List Pkg) : List (Pkg × Depend) :=
  (dbGetPkgcache handle.dbLocal).flatMap fun pkg =>
    if pkg.optdepends ≠ [] ∧ pkgFind lp pkg.name = none then
      (pkg.optdepends.filter fun optdep => (findSatisfier lp (depComputeString optdep)).isSome).map
        fun optdep => (pkg, optdep)
    else []

inductive RemoveError where
  | unsatisfiedDeps (data : List Depmissing)
  | pkgDup
  deriving DecidableEq

/-- The end of `_alpm_remove_prepare`: its return value with the error data, and
the state of the transaction. -/
structure Removal where
  error : Option RemoveError
  remove : List Pkg
  dups : Nat
  events : List (Pkg × Depend)
  deriving DecidableEq

def removePrepareCheck (handle : Handle) (fuel : Nat) (remove : List Pkg) (dups : Nat) :
    Option Removal :=
  let flags := handle.transFlags
  if flags.nodeps then some ⟨none, remove, dups, []⟩
  else
    match checkRemoval handle remove with
    | [] => some ⟨none, remove, dups, []⟩
    | miss :: lp =>
      if flags.cascade then
        (removePrepareCascade handle fuel (miss :: lp) remove dups).map fun cascaded =>
          ⟨if cascaded.ok then none else some .pkgDup, cascaded.targs, cascaded.dups, []⟩
      else if flags.unneeded then
        (removePrepareKeepNeeded handle fuel (miss :: lp) remove).map fun kept =>
          ⟨none, kept, dups, []⟩
      else some ⟨some (.unsatisfiedDeps (miss :: lp)), remove, dups, []⟩

/-- `_alpm_recursedeps` where the flags ask for it. -/
def removePrepareRecurse (handle : Handle) (wanted : Bool) (remove : List Pkg) (dups : Nat) :
    Targets :=
  if wanted then recursedeps handle handle.dbLocal remove handle.transFlags.recurseall dups
  else ⟨true, remove, dups⟩

def removePrepare (handle : Handle) (fuel : Nat) (remove : List Pkg) (dups : Nat) : Option Removal :=
  let flags := handle.transFlags
  let first := removePrepareRecurse handle (flags.recurse && !flags.cascade) remove dups
  if first.ok then
    (removePrepareCheck handle fuel first.targs first.dups).map fun checked =>
      if checked.error.isSome then checked
      else
        let last := removePrepareRecurse handle (flags.cascade && flags.recurse) checked.remove
          checked.dups
        if last.ok then
          { error := none, remove := last.targs, dups := last.dups,
            events := if flags.nodeps then [] else removeNotifyNeededOptdepends handle last.targs }
        else ⟨some .pkgDup, last.targs, last.dups, []⟩
  else some ⟨some .pkgDup, first.targs, first.dups, []⟩

def namesOf (pkgs : List Pkg) : Set CStr := {name | ∃ p ∈ pkgs, p.name = name}

/-- When the packages named in `gone` go, `p` stays and loses the satisfier of one
of its dependencies. -/
structure Breaks (handle : Handle) (gone : Set CStr) (p : Pkg) (dep : Depend) : Prop where
  there : p ∈ dbGetPkgcache handle.dbLocal
  stays : p.name ∉ gone
  needs : dep ∈ p.depends
  lost : ∃ q ∈ dbGetPkgcache handle.dbLocal, q.name ∈ gone ∧ depcmp q dep = true
  unsatisfied : ¬ Satisfied handle {q | q ∈ dbGetPkgcache handle.dbLocal ∧ q.name ∉ gone} dep

def SafeRemoval (handle : Handle) (gone : Set CStr) : Prop := ∀ p dep, ¬ Breaks handle gone p dep

variable {p : Pkg}

theorem Breaks.mono {handle : Handle} {gone gone' : Set CStr} {dep : Depend}
    (breaks : Breaks handle gone p dep) (more : gone ⊆ gone') (stays : p.name ∉ gone') :
    Breaks handle gone' p dep where
  there := breaks.there
  stays := stays
  needs := breaks.needs
  lost := by
    obtain ⟨q, there, goes, satisfies⟩ := breaks.lost
    exact ⟨q, there, more goes, satisfies⟩
  unsatisfied := by
    intro satisfied
    apply breaks.unsatisfied
    exact satisfied.mono fun q kept => ⟨kept.1, fun goes => kept.2 (more goes)⟩

theorem isModified_remove {remove : List Pkg} :
    isModified remove [] p = true ↔ p.name ∈ namesOf remove := by
  rw [isModified_iff]
  simp [namesOf]

theorem afterwards_remove (pkglist remove : List Pkg) :
    afterwards pkglist remove [] = {q | q ∈ pkglist ∧ q.name ∉ namesOf remove} := by
  ext q
  simp [afterwards, namesOf]

section Breakage

variable {handle : Handle} {remove : List Pkg} (versions : handle.transFlags.nodepversion = false)

include versions

theorem checkRemoval_breaks {miss : Depmissing} (entry : miss ∈ checkRemoval handle remove) :
    ∃ p dep, Breaks handle (namesOf remove) p dep ∧ miss.target = p.name ∧
      ∃ cause ∈ namesOf remove, miss.causingpkg = some cause := by
  have same : ∀ dep, checkedDepend handle dep = dep := fun dep => by
    simp [checkedDepend, noDepVersion_eq, versions]
  rcases mem_checkdeps.mp entry with
    ⟨p, new, _⟩ | ⟨_, p, there, kept, dep, hdep, cause, found, rfl, unsatisfied⟩
  · simp at new
  · rw [same, afterwards_remove] at unsatisfied
    rw [same] at found
    obtain ⟨mem, satisfies⟩ := findDepSatisfier_some found
    obtain ⟨old, goes⟩ := mem_filter.mp mem
    have goes := isModified_remove.mp goes
    refine ⟨p, dep, ⟨there, ?_, hdep, ⟨cause, old, goes, satisfies⟩, unsatisfied⟩, rfl,
      cause.name, goes, rfl⟩
    rw [← isModified_remove, kept]
    exact Bool.false_ne_true

theorem Breaks.checkRemoval {p : Pkg} {dep : Depend} (breaks : Breaks handle (namesOf remove) p dep) :
    ∃ miss ∈ checkRemoval handle remove, miss.target = p.name := by
  have same : checkedDepend handle dep = dep := by
    simp [checkedDepend, noDepVersion_eq, versions]
  obtain ⟨q, old, goes, satisfies⟩ := breaks.lost
  have found : (findDepSatisfier
      ((dbGetPkgcache handle.dbLocal).filter (isModified remove [])) dep).isSome = true :=
    findDepSatisfier_isSome.mpr
      ⟨q, mem_filter.mpr ⟨old, isModified_remove.mpr goes⟩, satisfies⟩
  obtain ⟨cause, first⟩ := isSome_iff_exists.mp found
  have kept : isModified remove [] p = false := by
    rw [← Bool.not_eq_true, isModified_remove]
    exact breaks.stays
  refine ⟨⟨p.name, dep, some cause.name⟩, mem_checkdeps.mpr (.inr ⟨rfl, p, breaks.there, kept, dep,
    breaks.needs, cause, ?_, ?_, ?_⟩), rfl⟩
  · rwa [same]
  · rw [same]
  · rw [same, afterwards_remove]
    exact breaks.unsatisfied

theorem checkRemoval_eq_nil :
    checkRemoval handle remove = [] ↔ SafeRemoval handle (namesOf remove) := by
  constructor
  · intro empty p dep breaks
    obtain ⟨miss, entry, _⟩ := breaks.checkRemoval versions
    simp [empty] at entry
  · intro safe
    rw [eq_nil_iff_forall_not_mem]
    intro miss entry
    obtain ⟨p, dep, breaks, _⟩ := checkRemoval_breaks versions entry
    exact safe p dep breaks

omit versions in
theorem SafeRemoval.unneeded {includeExplicit : Bool} (safe : SafeRemoval handle (namesOf remove)) :
    SafeRemoval handle (namesOf (remove ++ unneeded handle.dbLocal remove includeExplicit)) := by
  intro p dep breaks
  have notAppended : ∀ q ∈ dbGetPkgcache handle.dbLocal, depcmp q dep = true →
      q.name ∈ namesOf (remove ++ Dulge.unneeded handle.dbLocal remove includeExplicit) →
      q.name ∈ namesOf remove := by
    rintro q there satisfies ⟨r, mem, same⟩
    rcases mem_append.mp mem with listed | appended
    · exact ⟨r, listed, same⟩
    · -- the appended package is `q` itself, and `p` depends on it
      have eq : r = q := inj_on_of_nodup_map (dbGetPkgcache_names handle.dbLocal)
        (unneeded_local appended) there same
      subst eq
      have independent := not_dependsOn_unneeded breaks.there
        (fun q listed same => breaks.stays ⟨q, listed, same⟩) appended
      rw [pkgDependsOn_iff.mpr ⟨dep, breaks.needs, satisfies⟩] at independent
      cases independent
  refine safe p dep ⟨breaks.there, ?_, breaks.needs, ?_, ?_⟩
  · rintro ⟨q, listed, same⟩
    exact breaks.stays ⟨q, mem_append_left _ listed, same⟩
  · obtain ⟨q, there, goes, satisfies⟩ := breaks.lost
    exact ⟨q, there, notAppended q there satisfies goes, satisfies⟩
  · rintro (⟨q, ⟨there, kept⟩, satisfies⟩ | assumed)
    · exact breaks.unsatisfied (.inl ⟨q,
        ⟨there, fun goes => kept (notAppended q there satisfies goes)⟩, satisfies⟩)
    · exact breaks.unsatisfied (.inr assumed)

end Breakage

theorem namesOf_append_left (pkgs more : List Pkg) : namesOf pkgs ⊆ namesOf (pkgs ++ more) := by
  rintro name ⟨p, mem, same⟩
  exact ⟨p, mem_append_left more mem, same⟩

theorem withoutTargets_shrinks {db : Db} {targs targs' : List Pkg}
    (more : namesOf targs ⊆ namesOf targs') (there : p ∈ withoutTargets db targs)
    (goes : p.name ∈ namesOf targs') :
    (withoutTargets db targs').length < (withoutTargets db targs).length := by
  have gone : p ∉ withoutTargets db targs' := by
    intro kept
    obtain ⟨q, listed, same⟩ := goes
    exact (mem_withoutTargets.mp kept).2 q listed same
  have nodup : (p :: withoutTargets db targs').Nodup :=
    nodup_cons.mpr ⟨gone, withoutTargets_nodup db targs'⟩
  have sub : p :: withoutTargets db targs' ⊆ withoutTargets db targs := by
    intro q mem
    rcases mem_cons.mp mem with rfl | kept
    · exact there
    · obtain ⟨inDb, untouched⟩ := mem_withoutTargets.mp kept
      refine mem_withoutTargets.mpr ⟨inDb, fun targ listed same => ?_⟩
      obtain ⟨r, listed', same'⟩ := more ⟨targ, listed, same⟩
      exact untouched r listed' same'
  exact (nodup.subperm sub).length_le

section Repair

variable {handle : Handle} (deps : handle.transFlags.nodeps = false)
  (versions : handle.transFlags.nodepversion = false)

/-- A pass over missing dependencies has put `added` behind the targets: only packages that a
dependency is missing for and, if it came to its end, every installed one of them. -/
structure CascadeAdds (handle : Handle) (lp : List Depmissing) (remove : List Pkg) (result : Targets)
    (added : List Pkg) : Prop where
  targs : result.targs = remove ++ added
  named : ∀ p ∈ added, ∃ miss ∈ lp, miss.target = p.name
  all : result.ok = true → ∀ miss ∈ lp,
    (∃ p ∈ dbGetPkgcache handle.dbLocal, p.name = miss.target) → miss.target ∈ namesOf result.targs

variable {miss : Depmissing} {lp : List Depmissing} {remove : List Pkg} {dups : Nat}

/-- One missing dependency more, for which the packages `new` were added first. -/
theorem CascadeAdds.cons {handle : Handle} {new added : List Pkg} {result : Targets}
    (adds : CascadeAdds handle lp (remove ++ new) result added)
    (named : ∀ p ∈ new, miss.target = p.name)
    (head : (∃ p ∈ dbGetPkgcache handle.dbLocal, p.name = miss.target) →
      miss.target ∈ namesOf (remove ++ new)) :
    CascadeAdds handle (miss :: lp) remove result (new ++ added) where
  targs := by rw [adds.targs, append_assoc]
  named := by
    intro p mem
    rcases mem_append.mp mem with first | later
    · exact ⟨miss, mem_cons_self, named p first⟩
    · obtain ⟨other, listed, same⟩ := adds.named p later
      exact ⟨other, mem_cons_of_mem miss listed, same⟩
  all := by
    intro ok other listed there
    rcases mem_cons.mp listed with rfl | later
    · rw [adds.targs]
      exact namesOf_append_left _ added (head there)
    · exact adds.all ok other later there

theorem CascadeAdds.skip {handle : Handle} {added : List Pkg} {result : Targets}
    (adds : CascadeAdds handle lp remove result added)
    (head : (∃ p ∈ dbGetPkgcache handle.dbLocal, p.name = miss.target) →
      miss.target ∈ namesOf remove) : CascadeAdds handle (miss :: lp) remove result added := by
  rw [← append_nil remove] at adds head
  exact adds.cons (fun p mem => absurd mem not_mem_nil) head

theorem cascadePass_spec (handle : Handle) (lp : List Depmissing) (remove : List Pkg) (dups : Nat) :
    ∃ added, CascadeAdds handle lp remove (cascadePass handle lp remove dups) added := by
  induction lp generalizing remove dups with
  | nil => exact ⟨[], by simp [cascadePass], by simp, by simp⟩
  | cons miss lp ih =>
    rw [cascadePass]
    cases found : dbGetPkgfromcache handle.dbLocal miss.target with
    | none =>
      rw [dbGetPkgfromcache_eq, pkgFind_none] at found
      obtain ⟨added, adds⟩ := ih remove dups
      refine ⟨added, adds.skip ?_⟩
      rintro ⟨p, mem, same⟩
      exact absurd same (found p mem)
    | some info =>
      rw [dbGetPkgfromcache_eq] at found
      have same : info.name = miss.target := (pkgFind_some found).2
      by_cases listed : (pkgFind remove info.name).isSome = true
      · simp only [listed, if_true]
        obtain ⟨added, adds⟩ := ih remove dups
        exact ⟨added, adds.skip fun _ => same ▸ pkgFind_isSome.mp listed⟩
      · by_cases failed : pkgDup handle info dups = -1
        · simp only [listed, failed, Bool.false_eq_true, if_true, if_false]
          exact ⟨[], (append_nil remove).symm, by simp, by simp⟩
        · simp only [listed, failed, Bool.false_eq_true, if_false]
          obtain ⟨added, adds⟩ := ih (remove ++ [info]) (dups + 1)
          refine ⟨[info] ++ added, adds.cons ?_ fun _ => ⟨info, by simp, same⟩⟩
          intro p mem
          rw [mem_singleton.mp mem, same]

theorem cascadePass_ok (memory : ∀ n, handle.memory n = true) (lp : List Depmissing)
    (remove : List Pkg) (dups : Nat) : (cascadePass handle lp remove dups).ok = true := by
  induction lp generalizing remove dups with
  | nil => rfl
  | cons miss lp ih =>
    rw [cascadePass]
    split
    · exact ih remove dups
    · rename_i info found
      rw [if_neg (pkgDup_ne memory info dups)]
      split_ifs
      · exact ih remove dups
      · exact ih (remove ++ [info]) (dups + 1)

theorem removePrepareCascade_nil (fuel : Nat) (remove : List Pkg) (dups : Nat) :
    removePrepareCascade handle fuel [] remove dups = some ⟨true, remove, dups⟩ := by
  cases fuel with
  | zero => rfl
  | succ fuel => rfl

theorem Breaks.left {p : Pkg} {dep : Depend} (breaks : Breaks handle (namesOf remove) p dep) :
    p ∈ withoutTargets handle.dbLocal remove :=
  mem_withoutTargets.mpr
    ⟨breaks.there, fun targ listed same => breaks.stays ⟨targ, listed, same⟩⟩

theorem cascadePass_grows (lp : List Depmissing) (remove : List Pkg) (dups : Nat) :
    namesOf remove ⊆ namesOf (cascadePass handle lp remove dups).targs := by
  obtain ⟨added, targs, _⟩ := cascadePass_spec handle lp remove dups
  rw [targs]
  exact namesOf_append_left remove added

include versions in
theorem cascadePass_within (remove : List Pkg) (dups : Nat) {gone : Set CStr}
    (sub : namesOf remove ⊆ gone) (safe : SafeRemoval handle gone) :
    namesOf (cascadePass handle (checkRemoval handle remove) remove dups).targs ⊆ gone := by
  obtain ⟨added, targs, named, _⟩ := cascadePass_spec handle (checkRemoval handle remove) remove dups
  rintro name ⟨p, mem, rfl⟩
  rw [targs] at mem
  rcases mem_append.mp mem with old | new
  · exact sub ⟨p, old, rfl⟩
  · obtain ⟨other, listed, same⟩ := named p new
    obtain ⟨q, dep, breaks, target, _⟩ := checkRemoval_breaks versions listed
    rw [← same, target]
    by_contra stays
    exact safe q dep (breaks.mono sub stays)

include versions in
theorem cascadePass_shrinks (broken : checkRemoval handle remove ≠ [])
    (ok : (cascadePass handle (checkRemoval handle remove) remove dups).ok = true) :
    (withoutTargets handle.dbLocal
        (cascadePass handle (checkRemoval handle remove) remove dups).targs).length <
      (withoutTargets handle.dbLocal remove).length := by
  obtain ⟨_, _, _, all⟩ := cascadePass_spec handle (checkRemoval handle remove) remove dups
  obtain ⟨miss, listed⟩ := exists_mem_of_ne_nil _ broken
  obtain ⟨p, dep, breaks, target, _⟩ := checkRemoval_breaks versions listed
  have goes := all ok miss listed ⟨p, breaks.there, target.symm⟩
  exact withoutTargets_shrinks (cascadePass_grows _ remove dups) breaks.left (target ▸ goes)

theorem removePrepareCascade_cons {fuel : Nat} (broken : lp ≠ []) :
    removePrepareCascade handle (fuel + 1) lp remove dups =
      let pass := cascadePass handle lp remove dups
      if pass.ok then
        removePrepareCascade handle fuel (checkRemoval handle pass.targs) pass.targs pass.dups
      else some pass := by
  cases lp with
  | nil => exact absurd rfl broken
  | cons miss lp => rfl

structure Cascaded (handle : Handle) (remove : List Pkg) (result : Targets) : Prop where
  grows : namesOf remove ⊆ namesOf result.targs
  succeeds : (∀ n, handle.memory n = true) → result.ok = true
  safe : result.ok = true → SafeRemoval handle (namesOf result.targs)
  least : ∀ gone, namesOf remove ⊆ gone → SafeRemoval handle gone → namesOf result.targs ⊆ gone

include versions in
theorem removePrepareCascade_safe (safe : SafeRemoval handle (namesOf remove)) (dups : Nat) :
    Cascaded handle remove ⟨true, remove, dups⟩ ∧
      ∀ fuel, removePrepareCascade handle fuel (checkRemoval handle remove) remove dups =
        some ⟨true, remove, dups⟩ := by
  refine ⟨⟨fun _ => id, fun _ => rfl, fun _ => safe, fun _ sub _ => sub⟩, ?_⟩
  intro fuel
  rw [(checkRemoval_eq_nil versions).mpr safe, removePrepareCascade_nil]

include versions in
theorem removePrepareCascade_spec (n : Nat) (remove : List Pkg) (dups : Nat)
    (bound : (withoutTargets handle.dbLocal remove).length ≤ n) :
    ∃ result, Cascaded handle remove result ∧ ∀ fuel, n ≤ fuel →
      removePrepareCascade handle fuel (checkRemoval handle remove) remove dups = some result := by
  induction n generalizing remove dups with
  | zero =>
    have safe : SafeRemoval handle (namesOf remove) := by
      intro p dep breaks
      exact absurd (length_pos_of_mem breaks.left) (by omega)
    obtain ⟨cascaded, finishes⟩ := removePrepareCascade_safe versions safe dups
    exact ⟨_, cascaded, fun fuel _ => finishes fuel⟩
  | succ n ih =>
    by_cases safe : SafeRemoval handle (namesOf remove)
    · obtain ⟨cascaded, finishes⟩ := removePrepareCascade_safe versions safe dups
      exact ⟨_, cascaded, fun fuel _ => finishes fuel⟩
    have broken := mt (checkRemoval_eq_nil versions).mp safe
    have grows : namesOf remove ⊆
        namesOf (cascadePass handle (checkRemoval handle remove) remove dups).targs :=
      cascadePass_grows _ remove dups
    by_cases ok : (cascadePass handle (checkRemoval handle remove) remove dups).ok = true
    · have shorter := cascadePass_shrinks versions broken ok
      obtain ⟨result, cascaded, finishes⟩ := ih
        (cascadePass handle (checkRemoval handle remove) remove dups).targs
        (cascadePass handle (checkRemoval handle remove) remove dups).dups (by omega)
      refine ⟨result, ⟨grows.trans cascaded.grows, cascaded.succeeds, cascaded.safe, ?_⟩, ?_⟩
      · intro gone sub harmless
        exact cascaded.least gone (cascadePass_within versions remove dups sub harmless) harmless
      · intro fuel enough
        obtain ⟨fuel, rfl⟩ : ∃ k, fuel = k + 1 := ⟨fuel - 1, by omega⟩
        rw [removePrepareCascade_cons broken]
        exact (if_pos ok).trans (finishes fuel (by omega))
    · refine ⟨cascadePass handle (checkRemoval handle remove) remove dups,
        ⟨grows, ?_, fun ok' => absurd ok' ok, fun gone => cascadePass_within versions remove dups⟩,
          ?_⟩
      · intro memory
        exact cascadePass_ok memory (checkRemoval handle remove) remove dups
      · intro fuel enough
        obtain ⟨fuel, rfl⟩ : ∃ k, fuel = k + 1 := ⟨fuel - 1, by omega⟩
        rw [removePrepareCascade_cons broken]
        exact if_neg ok

theorem keepNeededPass_sublist (lp : List Depmissing) (remove : List Pkg) :
    (keepNeededPass lp remove).Sublist remove := by
  induction lp generalizing remove with
  | nil => exact List.Sublist.refl remove
  | cons miss lp ih =>
    rw [keepNeededPass]
    cases miss.causingpkg.bind (pkgFind remove) with
    | none => exact ih remove
    | some pkg => exact (ih _).trans (listRemove_sublist pkgCmp remove pkg)

theorem keepNeededPass_shrinks {cause : CStr} (named : miss.causingpkg = some cause)
    (listed : cause ∈ namesOf remove) :
    (keepNeededPass (miss :: lp) remove).length < remove.length := by
  obtain ⟨pkg, found⟩ := isSome_iff_exists.mp (pkgFind_isSome.mpr listed)
  have mem := (pkgFind_some found).1
  have shorter : (listRemove pkgCmp remove pkg).1.length + 1 = remove.length :=
    length_eraseP_add_one mem (by simp [pkgCmp_eq_zero])
  have rest := (keepNeededPass_sublist lp (listRemove pkgCmp remove pkg).1).length_le
  rw [keepNeededPass, named, bind_some, found]
  simp only
  omega

theorem removePrepareKeepNeeded_nil (fuel : Nat) (remove : List Pkg) :
    removePrepareKeepNeeded handle fuel [] remove = some remove := by
  cases fuel with
  | zero => rfl
  | succ fuel => rfl

include versions in
theorem removePrepareKeepNeeded_spec (n : Nat) (remove : List Pkg) (bound : remove.length ≤ n) :
    ∃ kept, (∀ fuel, n ≤ fuel →
        removePrepareKeepNeeded handle fuel (checkRemoval handle remove) remove = some kept) ∧
      kept.Sublist remove ∧ SafeRemoval handle (namesOf kept) := by
  induction n generalizing remove with
  | zero =>
    have none : remove = [] := length_eq_zero_iff.mp (by omega)
    subst none
    have safe : SafeRemoval handle (namesOf []) := by
      intro p dep breaks
      obtain ⟨q, _, ⟨r, listed, _⟩, _⟩ := breaks.lost
      simp at listed
    refine ⟨[], ?_, List.Sublist.refl _, safe⟩
    intro fuel _
    rw [(checkRemoval_eq_nil versions).mpr safe, removePrepareKeepNeeded_nil]
  | succ n ih =>
    cases missing : checkRemoval handle remove with
    | nil =>
      refine ⟨remove, ?_, List.Sublist.refl _, (checkRemoval_eq_nil versions).mp missing⟩
      intro fuel _
      exact removePrepareKeepNeeded_nil fuel remove
    | cons miss lp =>
      obtain ⟨p, dep, _, _, cause, listed, named⟩ :=
        checkRemoval_breaks versions (missing ▸ mem_cons_self)
      have shorter : (keepNeededPass (miss :: lp) remove).length < remove.length :=
        keepNeededPass_shrinks named listed
      obtain ⟨kept, finishes, sub, safe⟩ := ih (keepNeededPass (miss :: lp) remove) (by omega)
      refine ⟨kept, ?_, sub.trans (keepNeededPass_sublist _ _), safe⟩
      intro fuel enough
      obtain ⟨fuel, rfl⟩ : ∃ k, fuel = k + 1 := ⟨fuel - 1, by omega⟩
      rw [removePrepareKeepNeeded]
      exact finishes fuel (by omega)

structure CheckedRemoval (handle : Handle) (remove : List Pkg) (checked : Removal) : Prop where
  safe : checked.error = none → SafeRemoval handle (namesOf checked.remove)
  succeeds : handle.transFlags.cascade = true → (∀ n, handle.memory n = true) → checked.error = none
  grows : handle.transFlags.cascade = true → namesOf remove ⊆ namesOf checked.remove
  least : handle.transFlags.cascade = true → ∀ gone, namesOf remove ⊆ gone →
    SafeRemoval handle gone → namesOf checked.remove ⊆ gone
  sublist : handle.transFlags.cascade = false → checked.remove.Sublist remove
  unchanged : handle.transFlags.cascade = false → handle.transFlags.unneeded = false →
    checked.remove = remove

include deps versions in
theorem removePrepareCheck_spec (remove : List Pkg) (dups : Nat) :
    ∃ checked, CheckedRemoval handle remove checked ∧
      ∀ fuel, remove.length ≤ fuel → (withoutTargets handle.dbLocal remove).length ≤ fuel →
        removePrepareCheck handle fuel remove dups = some checked := by
  unfold removePrepareCheck
  simp only [deps, Bool.false_eq_true, if_false]
  cases missing : checkRemoval handle remove with
  | nil =>
    have safe := (checkRemoval_eq_nil versions).mp missing
    exact ⟨⟨none, remove, dups, []⟩, ⟨fun _ => safe, fun _ _ => rfl, fun _ _ => id,
      fun _ _ sub _ => sub, fun _ => List.Sublist.refl _, fun _ _ => rfl⟩, fun _ _ _ => rfl⟩
  | cons miss lp =>
    cases cascade : handle.transFlags.cascade with
    | true =>
      obtain ⟨result, ⟨grows, succeeds, safe, least⟩, finishes⟩ :=
        removePrepareCascade_spec versions _ remove dups le_rfl
      rw [missing] at finishes
      refine ⟨⟨if result.ok then none else some .pkgDup, result.targs, result.dups, []⟩,
        ⟨?_, ?_, fun _ => grows, fun _ => least, ?_, ?_⟩, ?_⟩
      · intro success
        apply safe
        by_contra failed
        simp [failed] at success
      · intro _ memory
        rw [if_pos (succeeds memory)]
      · simp [cascade]
      · simp [cascade]
      · intro fuel _ enough
        simp [finishes fuel enough]
    | false =>
      cases unneeded : handle.transFlags.unneeded with
      | true =>
        obtain ⟨kept, finishes, sub, safe⟩ :=
          removePrepareKeepNeeded_spec versions _ remove le_rfl
        rw [missing] at finishes
        refine ⟨⟨none, kept, dups, []⟩, ⟨fun _ => safe, fun _ _ => rfl, ?_, ?_, fun _ => sub, ?_⟩, ?_⟩
        · simp [cascade]
        · simp [cascade]
        · simp [unneeded]
        · intro fuel enough _
          simp [finishes fuel enough]
      | false =>
        refine ⟨⟨some (.unsatisfiedDeps (miss :: lp)), remove, dups, []⟩,
          ⟨?_, ?_, ?_, ?_, fun _ => List.Sublist.refl _, fun _ _ => rfl⟩, fun _ _ _ => rfl⟩
        · simp
        · simp [cascade]
        · simp [cascade]
        · simp [cascade]

theorem removePrepareRecurse_ok {wanted : Bool}
    (ok : (removePrepareRecurse handle wanted remove dups).ok = true) :
    (removePrepareRecurse handle wanted remove dups).targs =
      remove ++ if wanted then unneeded handle.dbLocal remove handle.transFlags.recurseall
        else [] := by
  unfold removePrepareRecurse at ok ⊢
  cases wanted with
  | true =>
    simp only [if_true, recursedeps_eq] at ok ⊢
    exact copySelected_ok ok
  | false => simp

theorem withoutTargets_length_le (db : Db) (targs : List Pkg) :
    (withoutTargets db targs).length ≤ (dbGetPkgcache db).length :=
  ((withoutTargets_nodup db targs).subperm
    fun _ mem => (mem_withoutTargets.mp mem).1).length_le

include deps versions in
theorem removePrepare_of_not_recurse (recurse : handle.transFlags.recurse = false)
    (remove : List Pkg) (dups : Nat) :
    ∃ result, CheckedRemoval handle remove result ∧
      ∀ fuel, remove.length + (dbGetPkgcache handle.dbLocal).length ≤ fuel →
        removePrepare handle fuel remove dups = some result := by
  obtain ⟨checked, spec, finishes⟩ := removePrepareCheck_spec deps versions remove dups
  have bound := withoutTargets_length_le handle.dbLocal remove
  have skip : ∀ remove dups, removePrepareRecurse handle false remove dups = ⟨true, remove, dups⟩ :=
    fun _ _ => rfl
  cases failed : checked.error with
  | some error =>
    refine ⟨checked, spec, ?_⟩
    intro fuel enough
    simp [removePrepare, recurse, skip, finishes fuel (by omega) (by omega), failed]
  | none =>
    refine ⟨⟨none, checked.remove, checked.dups,
      removeNotifyNeededOptdepends handle checked.remove⟩, ?_, ?_⟩
    · exact ⟨fun _ => spec.safe failed, fun _ _ => rfl, spec.grows, spec.least, spec.sublist,
        spec.unchanged⟩
    · intro fuel enough
      simp [removePrepare, recurse, skip, deps, finishes fuel (by omega) (by omega), failed]

include deps versions in
theorem removePrepare_of_recurse (recurse : handle.transFlags.recurse = true) (remove : List Pkg)
    (dups : Nat) :
    ∃ result, (result.error = none → SafeRemoval handle (namesOf result.remove)) ∧
      ∀ fuel, remove.length + (dbGetPkgcache handle.dbLocal).length ≤ fuel →
        removePrepare handle fuel remove dups = some result := by
  unfold removePrepare
  simp only [recurse, Bool.true_and, Bool.and_true]
  generalize picked : removePrepareRecurse handle (!handle.transFlags.cascade) remove dups = first
  by_cases ok : first.ok = true
  · have targs : first.targs = _ := picked ▸ removePrepareRecurse_ok (picked ▸ ok)
    have length : first.targs.length ≤ remove.length + (dbGetPkgcache handle.dbLocal).length := by
      have most : (unneeded handle.dbLocal remove handle.transFlags.recurseall).length ≤ _ :=
        (unneeded_nodup.subperm fun _ => unneeded_local).length_le
      rw [targs, length_append]
      split_ifs
      · omega
      · simp
    have bound := withoutTargets_length_le handle.dbLocal first.targs
    obtain ⟨checked, spec, finishes⟩ := removePrepareCheck_spec deps versions first.targs first.dups
    cases failed : checked.error with
    | some error =>
      refine ⟨checked, spec.safe, ?_⟩
      intro fuel enough
      simp [ok, finishes fuel (by omega) (by omega), failed]
    | none =>
      generalize selected : removePrepareRecurse handle handle.transFlags.cascade checked.remove
        checked.dups = last
      by_cases done : last.ok = true
      · refine ⟨⟨none, last.targs, last.dups, removeNotifyNeededOptdepends handle last.targs⟩,
          ?_, ?_⟩
        · intro _
          have appended : last.targs = _ := selected ▸ removePrepareRecurse_ok (selected ▸ done)
          have safe := spec.safe failed
          rw [appended]
          split_ifs
          · exact safe.unneeded
          · simpa using safe
        · intro fuel enough
          simp [ok, finishes fuel (by omega) (by omega), failed, selected, done, deps]
      · refine ⟨⟨some .pkgDup, last.targs, last.dups, []⟩, by simp, ?_⟩
        intro fuel enough
        simp [ok, finishes fuel (by omega) (by omega), failed, selected, done]
  · refine ⟨⟨some .pkgDup, first.targs, first.dups, []⟩, by simp, ?_⟩
    intro fuel _
    simp only [ok, Bool.false_eq_true, if_false]

end Repair

/-- Removal preparation always finishes, and when it succeeds nothing that stays
has lost a dependency. A plain cascade succeeds if there is memory and removes the
least set of packages for which that holds, giving up needed targets only shrinks
the list, and without any of the three flags the list is left alone. -/
theorem removePrepare_safe {handle : Handle} (deps : handle.transFlags.nodeps = false)
    (versions : handle.transFlags.nodepversion = false) (remove : List Pkg) (dups : Nat) :
    ∃ result, (∀ fuel, remove.length + (dbGetPkgcache handle.dbLocal).length ≤ fuel →
        removePrepare handle fuel remove dups = some result) ∧
      (result.error = none → checkRemoval handle result.remove = []) ∧
      (handle.transFlags.cascade = true → handle.transFlags.recurse = false →
        ((∀ n, handle.memory n = true) → result.error = none) ∧ (result.error = none →
          IsLeast {gone | ∃ remove', gone = namesOf remove' ∧ namesOf remove ⊆ gone ∧
            checkRemoval handle remove' = []} (namesOf result.remove))) ∧
      (handle.transFlags.unneeded = true → handle.transFlags.cascade = false →
        handle.transFlags.recurse = false → namesOf result.remove ⊆ namesOf remove) ∧
      (handle.transFlags.cascade = false → handle.transFlags.recurse = false →
        handle.transFlags.unneeded = false → result.remove = remove) := by
  cases recurse : handle.transFlags.recurse with
  | true =>
    obtain ⟨result, safe, finishes⟩ := removePrepare_of_recurse deps versions recurse remove dups
    refine ⟨result, finishes, ?_, ?_, ?_, ?_⟩
    · intro success
      exact (checkRemoval_eq_nil versions).mpr (safe success)
    · simp
    · simp
    · simp
  | false =>
    obtain ⟨result, spec, finishes⟩ :=
      removePrepare_of_not_recurse deps versions recurse remove dups
    refine ⟨result, finishes, ?_, ?_, ?_, ?_⟩
    · intro success
      exact (checkRemoval_eq_nil versions).mpr (spec.safe success)
    · intro cascade _
      refine ⟨spec.succeeds cascade, fun success => ?_⟩
      have empty := (checkRemoval_eq_nil versions).mpr (spec.safe success)
      refine ⟨⟨result.remove, rfl, spec.grows cascade, empty⟩, ?_⟩
      rintro gone ⟨remove', rfl, more, empty'⟩
      exact spec.least cascade _ more ((checkRemoval_eq_nil versions).mp empty')
    · rintro _ cascade _ name ⟨p, mem, same⟩
      exact ⟨p, (spec.sublist cascade).subset mem, same⟩
    · intro cascade _ unneeded
      exact spec.unchanged cascade unneeded

/-- Removing a library under a cascade takes the program along that needs it. -/
theorem removePrepare_safe_cascade : let lib := Pkg.bare 0 (cstr "lib") (cstr "1")
    let prog := (Pkg.bare 1 (cstr "prog") (cstr "1")).needing ["lib"]
    let handle := Handle.quiet (Db.populate [lib, prog]) [] { TransFlags.none with cascade := true }
    handle.transFlags.nodeps = false ∧ handle.transFlags.nodepversion = false ∧
      removePrepare handle 3 [lib] 0 = some ⟨none, [lib, prog], 1, []⟩ ∧
      checkRemoval handle [lib] ≠ [] ∧ checkRemoval handle [lib, prog] = [] := by
  intro lib prog handle
  obtain ⟨result, finishes, safe, _⟩ :=
    removePrepare_safe (show handle.transFlags.nodeps = false from rfl) rfl [lib] 0
  have computed : removePrepare handle 3 [lib] 0 = some ⟨none, [lib, prog], 1, []⟩ := by
    decide +kernel
  have same : result = ⟨none, [lib, prog], 1, []⟩ :=
    Option.some.inj ((finishes 3 (by decide +kernel)).symm.trans computed)
  refine ⟨rfl, rfl, computed, by decide +kernel, ?_⟩
  simpa [same] using safe

end Dulge
