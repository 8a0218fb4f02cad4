import Mathlib

/-! A list that is walked while it grows. Each element walked over pulls the
elements it is related to out of a pool and to the end of the list, so what is
moved in the end is everything the list reaches inside the pool. -/
namespace Worklist
open List

variable {α : Type*} (pull : α → α → Bool)

def taken (pool : List α) (x : α) : List α := pool.filter (pull x)

def spared (pool : List α) (x : α) : List α := pool.filter fun y => !pull x y

theorem taken_spared_length (pool : List α) (x : α) :
    (spared pull pool x).length + (taken pull pool x).length = pool.length := by
  rw [Nat.add_comm]
  exact (length_eq_length_filter_add (pull x)).symm

def run (pool : List α) : List α → List α × List α
  | [] => (pool, [])
  | x :: rest =>
    let next := run (spared pull pool x) (rest ++ taken pull pool x)
    (next.1, taken pull pool x ++ next.2)
termination_by todo => pool.length + todo.length
decreasing_by
  have parts := taken_spared_length pull pool x
  simp only [length_append, length_cons]
  omega

def harvest (pool moved : List α) : List α → List α × List α
  | [] => (pool, moved)
  | x :: sources => harvest (spared pull pool x) (moved ++ taken pull pool x) sources

def Step (pool : List α) (x y : α) : Prop := pull x y = true ∧ y ∈ pool

variable {pull}

variable {pool : List α} {x y : α}

theorem mem_taken : y ∈ taken pull pool x ↔ y ∈ pool ∧ pull x y = true := mem_filter

theorem mem_spared : y ∈ spared pull pool x ↔ y ∈ pool ∧ pull x y = false := by
  simp [spared]

theorem run_nil_pool (todo : List α) : run pull [] todo = ([], []) := by
  induction todo with
  | nil => rw [run]
  | cons x rest ih =>
    rw [run]
    simp [spared, taken, ih]

theorem run_append_harvest (sources todo pool : List α) :
    ∃ hits, (harvest pull pool todo sources).2 = todo ++ hits ∧ run pull pool (sources ++ todo) =
        ((run pull (harvest pull pool todo sources).1 (todo ++ hits)).1,
          hits ++ (run pull (harvest pull pool todo sources).1 (todo ++ hits)).2) := by
  induction sources generalizing pool todo with
  | nil => exact ⟨[], by simp [harvest]⟩
  | cons x sources ih =>
    obtain ⟨hits, moved, same⟩ := ih (todo ++ taken pull pool x) (spared pull pool x)
    refine ⟨taken pull pool x ++ hits, ?_, ?_⟩
    · rw [harvest, moved, append_assoc]
    · rw [cons_append, run, append_assoc, same]
      simp only [harvest, append_assoc]

theorem run_harvest (sources pool : List α) : run pull pool sources =
      ((run pull (harvest pull pool [] sources).1 (harvest pull pool [] sources).2).1,
        (harvest pull pool [] sources).2 ++
          (run pull (harvest pull pool [] sources).1 (harvest pull pool [] sources).2).2) := by
  obtain ⟨hits, moved, same⟩ := @run_append_harvest α pull sources [] pool
  rw [append_nil] at same
  rw [same, moved, nil_append]

theorem run_perm (pull : α → α → Bool) (pool todo : List α) :
    ((run pull pool todo).1 ++ (run pull pool todo).2).Perm pool := by
  induction pool, todo using run.induct pull with
  | case1 pool => simp [run]
  | case2 pool x rest ih =>
    rw [run]
    have swap := perm_append_comm_assoc
      (run pull (spared pull pool x) (rest ++ taken pull pool x)).1 (taken pull pool x)
      (run pull (spared pull pool x) (rest ++ taken pull pool x)).2
    refine swap.trans ((ih.append_left _).trans ?_)
    exact filter_append_perm (pull x) pool

theorem run_closed (pool todo : List α) :
    ∀ x ∈ todo ++ (run pull pool todo).2, ∀ y ∈ (run pull pool todo).1, pull x y = false := by
  induction pool, todo using run.induct pull with
  | case1 pool => simp [run]
  | case2 pool x rest ih =>
    rw [run]
    intro z mem y stays
    have inPool : y ∈ spared pull pool x :=
      (run_perm pull _ _).mem_iff.mp (mem_append_left _ stays)
    rcases mem_cons.mp mem with rfl | later
    · exact (mem_spared.mp inPool).2
    · exact ih z (by simpa using later) y stays

theorem Step.mono {pool' : List α} (sub : pool ⊆ pool')
    (path : Relation.TransGen (Step pull pool) x y) : Relation.TransGen (Step pull pool') x y := by
  induction path with
  | single step => exact .single ⟨step.1, sub step.2⟩
  | tail _ step ih => exact ih.tail ⟨step.1, sub step.2⟩

theorem run_reached (pool todo : List α) :
    ∀ y ∈ (run pull pool todo).2, ∃ x ∈ todo, Relation.TransGen (Step pull pool) x y := by
  induction pool, todo using run.induct pull with
  | case1 pool => simp [run]
  | case2 pool x rest ih =>
    rw [run]
    intro y mem
    rcases mem_append.mp mem with now | later
    · obtain ⟨inPool, pulled⟩ := mem_taken.mp now
      exact ⟨x, mem_cons_self, .single ⟨pulled, inPool⟩⟩
    · obtain ⟨z, source, path⟩ := ih y later
      have path := Step.mono (fun _ spare => (mem_spared.mp spare).1) path
      rcases mem_append.mp source with listed | fresh
      · exact ⟨z, mem_cons_of_mem x listed, path⟩
      · obtain ⟨inPool, pulled⟩ := mem_taken.mp fresh
        exact ⟨x, mem_cons_self, .head ⟨pulled, inPool⟩ path⟩

theorem mem_run_moved {todo : List α} :
    y ∈ (run pull pool todo).2 ↔ ∃ x ∈ todo, Relation.TransGen (Step pull pool) x y := by
  refine ⟨run_reached pool todo y, ?_⟩
  rintro ⟨x, source, path⟩
  have settle : ∀ {a b}, a ∈ todo ++ (run pull pool todo).2 → Step pull pool a b →
      b ∈ (run pull pool todo).2 := by
    intro a b onList step
    rcases mem_append.mp ((run_perm pull pool todo).mem_iff.mpr step.2) with stays | moved
    · have closed := run_closed pool todo a onList b stays
      rw [step.1] at closed
      cases closed
    · exact moved
  induction path with
  | single step => exact settle (mem_append_left _ source) step
  | tail _ step ih => exact settle (mem_append_right _ ih) step

theorem mem_run_left {todo : List α} (nodup : pool.Nodup) : y ∈ (run pull pool todo).1 ↔
      y ∈ pool ∧ ¬ ∃ x ∈ todo, Relation.TransGen (Step pull pool) x y := by
  have perm := run_perm pull pool todo
  have apart := disjoint_of_nodup_append (perm.nodup_iff.mpr nodup)
  rw [← mem_run_moved, ← perm.mem_iff, mem_append]
  constructor
  · intro stays
    exact ⟨.inl stays, fun moved => apart stays moved⟩
  · rintro ⟨stays | moved, notMoved⟩
    · exact stays
    · exact absurd moved notMoved

end Worklist
