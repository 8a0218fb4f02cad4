import Dulge.Lib.BreadthFirst
import Dulge.Recursedeps

/-! Whether `_alpm_recursedeps` keeps the order of a list in which every package stands before its
dependencies. It appends level by level, each level in the order of the database. -/

namespace Dulge
open Worklist

/-- No package stands before one that depends on it. -/
def Ordered (pkgs : List Pkg) : Prop := pkgs.Pairwise fun p q => pkgDependsOn q p = false

instance (pkgs : List Pkg) : Decidable (Ordered pkgs) := inferInstanceAs (Decidable (pkgs.Pairwise _))

variable (db : Db) (targs : List Pkg) (includeExplicit : Bool)

def Removable (p : Pkg) : Prop :=
  Pulled db targs includeExplicit p ∧ ¬ StillNeeded db targs includeExplicit p

/-- Fewer steps lead from the targets to the one package than to the other; or as many, and they
start at an earlier target or, where they part, go on to an earlier package of the database. -/
def PulledEarlier : Pkg → Pkg → Prop :=
  Earlier (fun q r => pkgDependsOn q r = true ∧ Selectable db targs includeExplicit r) targs
    (dbGetPkgcache db).idxOf

structure KeepsLevels : Prop where
  targets : ∀ p, Removable db targs includeExplicit p → ∀ targ ∈ targs, pkgDependsOn p targ = false
  levels : ∀ p q, Removable db targs includeExplicit p → Removable db targs includeExplicit q →
    pkgDependsOn p q = true → ¬ PulledEarlier db targs includeExplicit q p

theorem withoutTargets_sublist : (withoutTargets db targs).Sublist (dbGetPkgcache db) := by
  unfold withoutTargets
  generalize dbGetPkgcache db = keep
  induction targs generalizing keep with
  | nil => exact .refl _
  | cons targ targs ih => exact (ih _).trans (listRemove_sublist pkgCmp keep targ)

theorem unneeded_earlier :
    (unneeded db targs includeExplicit).Pairwise (PulledEarlier db targs includeExplicit) := by
  have places : (dbGetPkgcache db).Pairwise
      ((dbGetPkgcache db).idxOf · < (dbGetPkgcache db).idxOf ·) := by
    rw [List.pairwise_iff_getElem]
    intro i j insideI insideJ less
    rwa [List.Nodup.idxOf_getElem (dbGetPkgcache_names db).of_map,
      List.Nodup.idxOf_getElem (dbGetPkgcache_names db).of_map]
  have apart : ∀ targ ∈ targs, targ ∉ withoutTargets db targs := fun targ listed inside =>
    (mem_withoutTargets.mp inside).2 targ listed rfl
  have moved := run_earlier (selects includeExplicit)
    (places.sublist (withoutTargets_sublist db targs)) apart
  rw [step_withoutTargets, ← selectForRemoval_eq] at moved
  exact moved.sublist (run_left_sublist _ _)

variable {db targs includeExplicit}

theorem unneeded_ordered_iff : Ordered (unneeded db targs includeExplicit) ↔
    ∀ p ∈ unneeded db targs includeExplicit, ∀ q ∈ unneeded db targs includeExplicit,
      pkgDependsOn p q = true → ¬ PulledEarlier db targs includeExplicit q p := by
  have earlier := unneeded_earlier db targs includeExplicit
  constructor
  · intro ordered p memberP q memberQ
    let late (p q : Pkg) : Prop :=
      pkgDependsOn p q = true → ¬ PulledEarlier db targs includeExplicit q p
    have ahead : (unneeded db targs includeExplicit).Pairwise late :=
      earlier.imp fun first _ back => first.asymm back
    have behind : (unneeded db targs includeExplicit).Pairwise (flip late) :=
      ordered.imp fun free needs => absurd needs (Bool.eq_false_iff.mp free)
    exact ahead.forall_of_forall_of_flip (fun p _ _ back => back.asymm back) behind memberP memberQ
  · intro levels
    refine earlier.imp_of_mem fun {p q} memberP memberQ first => ?_
    by_contra needs
    exact levels q memberQ p memberP (Bool.eq_true_of_not_eq_false needs) first

theorem copySelected_front (handle : Handle) (rem targs : List Pkg) (dups : Nat) :
    ∃ front, front <+: rem ∧ (copySelected handle rem targs dups).targs = targs ++ front := by
  induction rem generalizing targs dups with
  | nil => exact ⟨[], List.nil_prefix, (List.append_nil _).symm⟩
  | cons pkg rem ih =>
    rw [copySelected]
    split
    · exact ⟨[], List.nil_prefix, (List.append_nil _).symm⟩
    · obtain ⟨front, copied, same⟩ := ih (targs ++ [pkg]) (dups + 1)
      refine ⟨pkg :: front, List.cons_prefix_cons.mpr ⟨rfl, copied⟩, ?_⟩
      rw [same, List.append_assoc, List.singleton_append]

theorem append_ordered_iff (sorted : Ordered targs) :
    Ordered (targs ++ unneeded db targs includeExplicit) ↔ KeepsLevels db targs includeExplicit := by
  rw [Ordered, List.pairwise_append]
  refine (and_iff_right sorted).trans ?_
  rw [← Ordered, unneeded_ordered_iff]
  simp only [mem_unneeded]
  constructor
  · rintro ⟨levels, targets⟩
    exact ⟨fun p mem targ listed => targets targ listed p mem,
      fun p q memberP memberQ => levels p memberP q memberQ⟩
  · rintro ⟨targets, levels⟩
    exact ⟨fun p memberP q memberQ => levels p q memberP memberQ,
      fun targ listed p mem => targets p mem targ listed⟩

/-- A list in order stays in order if no removable package depends on a target or is needed by one
that is pulled later; if everything can be copied, then only so. -/
theorem recursedeps_ordered_iff (handle : Handle) (db : Db) {targs : List Pkg}
    (includeExplicit : Bool) (dups : Nat) (sorted : Ordered targs) :
    (KeepsLevels db targs includeExplicit →
        Ordered (recursedeps handle db targs includeExplicit dups).targs) ∧
      ((recursedeps handle db targs includeExplicit dups).ok = true →
        Ordered (recursedeps handle db targs includeExplicit dups).targs →
          KeepsLevels db targs includeExplicit) := by
  rw [recursedeps_eq]
  constructor
  · intro keeps
    obtain ⟨front, copied, same⟩ :=
      copySelected_front handle (unneeded db targs includeExplicit) targs dups
    rw [same]
    exact ((append_ordered_iff sorted).mpr keeps).sublist (copied.sublist.append_left targs)
  · intro ok ordered
    rw [copySelected_ok ok] at ordered
    exact (append_ordered_iff sorted).mp ordered

/-- The library that only a program needs is appended behind it. -/
theorem recursedeps_ordered_prog : KeepsLevels progHandle.dbLocal [prog] false :=
  (recursedeps_ordered_iff progHandle progHandle.dbLocal false 0 (by decide)).2 (by decide +kernel)
    (by decide +kernel)

def app : Pkg := installed ((Pkg.bare 0 (cstr "app") (cstr "1")).needing ["base", "core"]) .explicit

def base : Pkg := installed (Pkg.bare 1 (cstr "base") (cstr "1")) .depend

def core : Pkg := installed ((Pkg.bare 2 (cstr "core") (cstr "1")).needing ["base"]) .depend

def appHandle : Handle := Handle.quiet (Db.populate [app, base, core]) [] TransFlags.none

/-- Both dependencies of the target are on the first level, in the order of their names, although
the second needs the first. -/
theorem recursedeps_not_ordered :
    (∀ p, ¬ Relation.TransGen (fun q r => q ∈ dbGetPkgcache appHandle.dbLocal ∧
        r ∈ dbGetPkgcache appHandle.dbLocal ∧ pkgDependsOn q r = true) p p) ∧
      Ordered [app] ∧ (recursedeps appHandle appHandle.dbLocal [app] false 0).ok = true ∧
      ¬ Ordered (recursedeps appHandle appHandle.dbLocal [app] false 0).targs := by
  refine ⟨?_, by decide +kernel⟩
  have fewer : ∀ q ∈ dbGetPkgcache appHandle.dbLocal, ∀ r ∈ dbGetPkgcache appHandle.dbLocal,
      pkgDependsOn q r = true → r.depends.length < q.depends.length := by
    decide +kernel
  have below {p q : Pkg} (path : Relation.TransGen (fun q r => q ∈ dbGetPkgcache appHandle.dbLocal ∧
      r ∈ dbGetPkgcache appHandle.dbLocal ∧ pkgDependsOn q r = true) p q) :
      q.depends.length < p.depends.length := by
    induction path with
    | single step => exact fewer _ step.1 _ step.2.1 step.2.2
    | tail _ step ih => exact (fewer _ step.1 _ step.2.1 step.2.2).trans ih
  intro p cycle
  exact Nat.lt_irrefl _ (below cycle)

end Dulge
