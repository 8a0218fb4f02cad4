import Dulge.Database
import Dulge.Depstring
import Dulge.Lib.Worklist

/-! `_alpm_recursedeps`: which dependencies of the targets nothing kept still
needs. Its three loops move packages between a keep and a removal list while they
walk those lists; each is a worklist run, so the two selections are reachability
sets, one inside the other. -/
namespace Dulge
open Worklist List

def selects (explicit : Bool) (pkg deppkg : Pkg) : Bool :=
  (explicit || deppkg.reason = .depend) && pkgDependsOn pkg deppkg

/-- `_alpm_select_depends`, with both lists as they are afterwards. -/
def selectDepends (source dest : List Pkg) (pkg : Pkg) (explicit : Bool) : List Pkg × List Pkg :=
  if pkg.depends.isEmpty then (source, dest)
  else (source.filter fun deppkg => !selects explicit pkg deppkg,
    dest ++ source.filter (selects explicit pkg))

/-- The loops that walk the list they extend, split at the loop variable. The last
one stops as soon as nothing is left to move. -/
def selectLoop (explicit stop : Bool) (source done : List Pkg) : List Pkg → List Pkg × List Pkg
  | [] => (source, done)
  | pkg :: todo =>
    if stop && source.isEmpty then (source, done ++ pkg :: todo)
    else
      let next := selectDepends source todo pkg explicit
      selectLoop explicit stop next.1 (done ++ [pkg]) next.2
termination_by todo => source.length + todo.length
decreasing_by
  have parts := taken_spared_length (selects explicit) source pkg
  unfold selectDepends
  split_ifs
  · simp
  · simp only [spared, taken] at parts
    simp only [length_append, length_cons]
    omega

structure Targets where
  ok : Bool
  targs : List Pkg
  dups : Nat
  deriving DecidableEq

def copySelected (handle : Handle) : List Pkg → List Pkg → Nat → Targets
  | [], targs, dups => ⟨true, targs, dups⟩
  | pkg :: rem, targs, dups =>
    if pkgDup handle pkg dups ≠ 0 then ⟨false, targs, dups + 1⟩
    else copySelected handle rem (targs ++ [pkg]) (dups + 1)

def withoutTargets (db : Db) (targs : List Pkg) : List Pkg :=
  targs.foldl (fun keep targ => (listRemove pkgCmp keep targ).1) (dbGetPkgcache db)

def selectForRemoval (db : Db) (targs : List Pkg) (includeExplicit : Bool) : List Pkg × List Pkg :=
  let first := targs.foldl (fun lists targ => selectDepends lists.1 lists.2 targ includeExplicit)
    (withoutTargets db targs, [])
  selectLoop includeExplicit false first.1 [] first.2

def recursedeps (handle : Handle) (db : Db) (targs : List Pkg) (includeExplicit : Bool)
    (dups : Nat) : Targets :=
  let lists := selectForRemoval db targs includeExplicit
  copySelected handle (selectLoop true true lists.2 [] lists.1).1 targs dups

theorem selectDepends_eq (source dest : List Pkg) (pkg : Pkg) (explicit : Bool) :
    selectDepends source dest pkg explicit =
      (spared (selects explicit) source pkg, dest ++ taken (selects explicit) source pkg) := by
  unfold selectDepends
  split_ifs with leaf
  · -- without dependencies the loop would move nothing
    have none : ∀ deppkg, selects explicit pkg deppkg = false := by
      intro deppkg
      rw [List.isEmpty_iff] at leaf
      simp [selects, pkgDependsOn, leaf]
    simp [spared, taken, none]
  · rfl

theorem selectLoop_eq (explicit stop : Bool) (source done todo : List Pkg) :
    selectLoop explicit stop source done todo = ((run (selects explicit) source todo).1,
        done ++ todo ++ (run (selects explicit) source todo).2) := by
  induction source, done, todo using selectLoop.induct explicit stop with
  | case1 source done => simp [selectLoop, run]
  | case2 source done pkg todo stopped =>
    have empty : source = [] := by
      rw [Bool.and_eq_true, List.isEmpty_iff] at stopped
      exact stopped.2
    rw [selectLoop, if_pos stopped, empty, run_nil_pool]
    simp
  | case3 source done pkg todo going next ih =>
    have moved : next = _ := selectDepends_eq source todo pkg explicit
    rw [selectLoop, if_neg going, ih, moved, run]
    simp

theorem foldl_selectDepends (explicit : Bool) (targs keep rem : List Pkg) :
    targs.foldl (fun lists targ => selectDepends lists.1 lists.2 targ explicit) (keep, rem) =
      harvest (selects explicit) keep rem targs := by
  induction targs generalizing keep rem with
  | nil => rfl
  | cons targ targs ih =>
    rw [foldl_cons, selectDepends_eq, ih]
    rfl

theorem selectForRemoval_eq (db : Db) (targs : List Pkg) (includeExplicit : Bool) :
    selectForRemoval db targs includeExplicit =
      run (selects includeExplicit) (withoutTargets db targs) targs := by
  unfold selectForRemoval
  simp only [foldl_selectDepends, selectLoop_eq, nil_append]
  rw [run_harvest targs]

theorem foldl_listRemove {keep targs : List Pkg} (names : (keep.map Pkg.name).Nodup) :
    ((targs.foldl (fun keep targ => (listRemove pkgCmp keep targ).1) keep).map Pkg.name).Nodup ∧
      ∀ p, p ∈ targs.foldl (fun keep targ => (listRemove pkgCmp keep targ).1) keep ↔
        p ∈ keep ∧ ∀ targ ∈ targs, targ.name ≠ p.name := by
  induction targs generalizing keep with
  | nil => exact ⟨names, by simp⟩
  | cons targ targs ih =>
    obtain ⟨nodup, members⟩ := ih (((listRemove_sublist pkgCmp keep targ).map _).nodup names)
    refine ⟨nodup, ?_⟩
    intro p
    rw [foldl_cons, members, mem_listRemove names, forall_mem_cons, and_assoc]
    exact and_congr_right fun _ => and_congr_left fun _ => ne_comm

theorem withoutTargets_nodup (db : Db) (targs : List Pkg) : (withoutTargets db targs).Nodup :=
  (foldl_listRemove (dbGetPkgcache_names db)).1.of_map

theorem mem_withoutTargets {db : Db} {targs : List Pkg} {p : Pkg} :
    p ∈ withoutTargets db targs ↔ p ∈ dbGetPkgcache db ∧ ∀ targ ∈ targs, targ.name ≠ p.name :=
  (foldl_listRemove (dbGetPkgcache_names db)).2 p

def Selectable (db : Db) (targs : List Pkg) (includeExplicit : Bool) (p : Pkg) : Prop :=
  p ∈ dbGetPkgcache db ∧ (∀ targ ∈ targs, targ.name ≠ p.name) ∧
    (includeExplicit = true ∨ p.reason = .depend)

def Pulled (db : Db) (targs : List Pkg) (includeExplicit : Bool) (p : Pkg) : Prop :=
  ∃ targ ∈ targs, Relation.TransGen
    (fun q r => pkgDependsOn q r = true ∧ Selectable db targs includeExplicit r) targ p

def StillNeeded (db : Db) (targs : List Pkg) (includeExplicit : Bool) (p : Pkg) : Prop :=
  ∃ k ∈ dbGetPkgcache db, (∀ targ ∈ targs, targ.name ≠ k.name) ∧
    ¬ Pulled db targs includeExplicit k ∧
    Relation.TransGen (fun q r => pkgDependsOn q r = true ∧ Pulled db targs includeExplicit r) k p

section Selection

variable {db : Db} {targs : List Pkg} {includeExplicit : Bool}

theorem step_withoutTargets : Step (selects includeExplicit) (withoutTargets db targs) =
      fun q r => pkgDependsOn q r = true ∧ Selectable db targs includeExplicit r := by
  funext q r
  simp only [Step, selects, mem_withoutTargets, Selectable, Bool.and_eq_true, Bool.or_eq_true,
    decide_eq_true_eq, eq_iff_iff]
  tauto

theorem mem_removal {p : Pkg} :
    p ∈ (selectForRemoval db targs includeExplicit).2 ↔ Pulled db targs includeExplicit p := by
  rw [selectForRemoval_eq, mem_run_moved, step_withoutTargets, Pulled]

theorem mem_keep {p : Pkg} : p ∈ (selectForRemoval db targs includeExplicit).1 ↔
      p ∈ dbGetPkgcache db ∧ (∀ targ ∈ targs, targ.name ≠ p.name) ∧
        ¬ Pulled db targs includeExplicit p := by
  rw [selectForRemoval_eq, mem_run_left (withoutTargets_nodup db targs), step_withoutTargets,
    mem_withoutTargets, and_assoc, Pulled]

theorem removal_nodup : (selectForRemoval db targs includeExplicit).2.Nodup := by
  have parts := run_perm (selects includeExplicit) (withoutTargets db targs) targs
  rw [selectForRemoval_eq]
  exact (nodup_append.mp (parts.nodup_iff.mpr (withoutTargets_nodup db targs))).2.1

def unneeded (db : Db) (targs : List Pkg) (includeExplicit : Bool) : List Pkg :=
  (run (selects true) (selectForRemoval db targs includeExplicit).2
    (selectForRemoval db targs includeExplicit).1).1

theorem mem_unneeded {p : Pkg} : p ∈ unneeded db targs includeExplicit ↔
      Pulled db targs includeExplicit p ∧ ¬ StillNeeded db targs includeExplicit p := by
  have step : Step (selects true) (selectForRemoval db targs includeExplicit).2 =
      fun q r => pkgDependsOn q r = true ∧ Pulled db targs includeExplicit r := by
    funext q r
    simp [Step, selects, mem_removal]
  rw [unneeded, mem_run_left removal_nodup, step, mem_removal]
  refine and_congr_right fun _ => not_congr ?_
  simp only [mem_keep, StillNeeded, and_assoc]

theorem unneeded_nodup : (unneeded db targs includeExplicit).Nodup :=
  (nodup_append.mp ((run_perm _ _ _).nodup_iff.mpr removal_nodup)).1

theorem unneeded_local {p : Pkg} (mem : p ∈ unneeded db targs includeExplicit) :
    p ∈ dbGetPkgcache db := by
  obtain ⟨⟨targ, _, path⟩, _⟩ := mem_unneeded.mp mem
  cases path with
  | single step => exact step.2.1
  | tail _ step => exact step.2.1

theorem not_dependsOn_unneeded {k p : Pkg} (there : k ∈ dbGetPkgcache db)
    (stays : ∀ q ∈ targs ++ unneeded db targs includeExplicit, q.name ≠ k.name)
    (mem : p ∈ unneeded db targs includeExplicit) : pkgDependsOn k p = false := by
  have noTarget : ∀ targ ∈ targs, targ.name ≠ k.name :=
    fun targ listed => stays targ (mem_append_left _ listed)
  have notAppended : k ∉ unneeded db targs includeExplicit :=
    fun appended => stays k (mem_append_right _ appended) rfl
  -- it was kept from the start, or the last loop moved it back
  have onKeep : k ∈ (selectForRemoval db targs includeExplicit).1 ++
      (run (selects true) (selectForRemoval db targs includeExplicit).2
        (selectForRemoval db targs includeExplicit).1).2 := by
    rw [mem_append]
    by_cases pulled : Pulled db targs includeExplicit k
    · have either := (run_perm (selects true) _
        (selectForRemoval db targs includeExplicit).1).mem_iff.mpr (mem_removal.mpr pulled)
      rcases mem_append.mp either with left | moved
      · exact absurd left notAppended
      · exact .inr moved
    · exact .inl (mem_keep.mpr ⟨there, noTarget, pulled⟩)
  simpa [selects] using run_closed _ _ k onKeep p mem

end Selection

theorem copySelected_eq {handle : Handle} (memory : ∀ n, handle.memory n = true)
    (rem targs : List Pkg) (dups : Nat) :
    (copySelected handle rem targs dups).ok = rem.all (forceLoad handle) ∧
      (copySelected handle rem targs dups).targs = targs ++ rem.takeWhile (forceLoad handle) := by
  induction rem generalizing targs dups with
  | nil => simp [copySelected]
  | cons pkg rem ih =>
    rw [copySelected]
    by_cases loads : forceLoad handle pkg = true
    · have copied : pkgDup handle pkg dups = 0 := (pkgDup_eq_zero memory pkg dups).mpr loads
      obtain ⟨ok, kept⟩ := ih (targs ++ [pkg]) (dups + 1)
      simp only [copied, ne_eq, not_true_eq_false, if_false, all_cons, loads, Bool.true_and,
        takeWhile_cons_of_pos]
      refine ⟨ok, ?_⟩
      rw [kept, append_assoc, singleton_append]
    · have failed : pkgDup handle pkg dups ≠ 0 := by
        rwa [ne_eq, pkgDup_eq_zero memory]
      simp [failed, loads]

theorem copySelected_ok {handle : Handle} {rem targs : List Pkg} {dups : Nat}
    (ok : (copySelected handle rem targs dups).ok = true) :
    (copySelected handle rem targs dups).targs = targs ++ rem := by
  induction rem generalizing targs dups with
  | nil => simp [copySelected]
  | cons pkg rem ih =>
    rw [copySelected] at ok ⊢
    split_ifs at ok ⊢ with failed
    rw [ih ok, append_assoc, singleton_append]

theorem recursedeps_eq (handle : Handle) (db : Db) (targs : List Pkg) (includeExplicit : Bool)
    (dups : Nat) : recursedeps handle db targs includeExplicit dups =
      copySelected handle (unneeded db targs includeExplicit) targs dups := by
  simp only [recursedeps, selectLoop_eq, unneeded]

/-- The selected packages are the pulled ones that nothing kept still needs, each
once. They are appended behind the unchanged targets up to the first that cannot be
loaded, and if all can, then nothing outside the list needs one of them. -/
theorem recursedeps_exact {handle : Handle} (memory : ∀ n, handle.memory n = true) (db : Db)
    (targs : List Pkg) (includeExplicit : Bool) (dups : Nat) :
    ∃ selected : List Pkg, selected.Nodup ∧ (∀ p, p ∈ selected ↔
        Pulled db targs includeExplicit p ∧ ¬ StillNeeded db targs includeExplicit p) ∧
      (recursedeps handle db targs includeExplicit dups).targs =
        targs ++ selected.takeWhile (forceLoad handle) ∧
      (recursedeps handle db targs includeExplicit dups).ok = selected.all (forceLoad handle) ∧
      ((∀ p ∈ selected, forceLoad handle p = true) →
        (recursedeps handle db targs includeExplicit dups).targs = targs ++ selected ∧
        ∀ k ∈ dbGetPkgcache db, (∀ q ∈ targs ++ selected, q.name ≠ k.name) →
          ∀ p ∈ selected, pkgDependsOn k p = false) := by
  obtain ⟨ok, kept⟩ := copySelected_eq memory (unneeded db targs includeExplicit) targs dups
  rw [← recursedeps_eq] at ok kept
  refine ⟨unneeded db targs includeExplicit, unneeded_nodup, fun p => mem_unneeded, kept, ok, ?_⟩
  intro loads
  refine ⟨?_, fun k there stays p member => not_dependsOn_unneeded there stays member⟩
  rw [kept, takeWhile_eq_self_iff.mpr loads]

def installed (pkg : Pkg) (reason : Pkgreason) : Pkg :=
  { pkg with origin := .localdb, reason := reason }

def prog : Pkg := installed ((Pkg.bare 0 (cstr "prog") (cstr "1")).needing ["lib", "libc"]) .explicit

def lib : Pkg := installed (Pkg.bare 1 (cstr "lib") (cstr "1")) .depend

def libc : Pkg := installed (Pkg.bare 2 (cstr "libc") (cstr "1")) .depend

def shell : Pkg := installed ((Pkg.bare 3 (cstr "shell") (cstr "1")).needing ["libc"]) .explicit

def progHandle : Handle :=
  Handle.quiet (Db.populate [prog, lib, libc, shell]) [] TransFlags.none

/-- A removed program takes the library along that only it needs, and leaves the
one that another program needs too. -/
theorem recursedeps_exact_chain : (∀ n, progHandle.memory n = true) ∧
      (recursedeps progHandle progHandle.dbLocal [prog] false 0).targs = [prog, lib] ∧
      Pulled progHandle.dbLocal [prog] false lib ∧
      ¬ StillNeeded progHandle.dbLocal [prog] false lib := by
  have memory : ∀ n, progHandle.memory n = true := fun _ => rfl
  have computed : (recursedeps progHandle progHandle.dbLocal [prog] false 0).targs = [prog, lib] := by
    decide +kernel
  obtain ⟨selected, _, exact, targs, _⟩ := recursedeps_exact memory progHandle.dbLocal [prog] false 0
  have member : lib ∈ selected := by
    have only : selected.takeWhile (forceLoad progHandle) = [lib] :=
      (List.cons.inj (targs.symm.trans computed)).2
    have first : lib ∈ selected.takeWhile (forceLoad progHandle) := by
      rw [only]
      exact mem_cons_self
    exact (List.takeWhile_prefix _).subset first
  exact ⟨memory, computed, (exact lib).mp member⟩

/-- If its entry cannot be read, the library is selected but not appended. -/
theorem recursedeps_incomplete : let handle := { progHandle with loads := fun _ => false }
    (∀ n, handle.memory n = true) ∧ Pulled handle.dbLocal [prog] false lib ∧
      ¬ StillNeeded handle.dbLocal [prog] false lib ∧
      (recursedeps handle handle.dbLocal [prog] false 0).targs = [prog] := by
  intro handle
  have selected : lib ∈ unneeded handle.dbLocal [prog] false := by decide +kernel
  obtain ⟨pulled, spared⟩ := mem_unneeded.mp selected
  exact ⟨fun _ => rfl, pulled, spared, by decide +kernel⟩

end Dulge
