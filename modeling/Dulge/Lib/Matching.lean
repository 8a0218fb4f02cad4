import Mathlib.Data.List.Perm.Basic

/-! Matching the elements of two lists one to one. Each element of the left list takes the first
element of the right list that is the same and has not been taken; the places taken are marked. -/

namespace Matching
open List

variable {α β κ : Type*}

/-- The places after `l` has taken the first free one with the same element. -/
def take (same : α → β → Bool) (l : α) : List β → List Bool → Option (List Bool)
  | r :: right, taken :: marks =>
    if taken = false ∧ same l r then some (true :: marks)
    else (take same l right marks).map (taken :: ·)
  | _, _ => none

def cover (same : α → β → Bool) (right : List β) : List α → List Bool → Bool
  | [], _ => true
  | l :: left, marks =>
    match take same l right marks with
    | none => false
    | some marks => cover same right left marks

def free : List β → List Bool → List β
  | r :: right, taken :: marks => if taken then free right marks else r :: free right marks
  | _, _ => []

theorem free_unmarked (right : List β) : free right (List.replicate right.length false) = right := by
  induction right with
  | nil => rfl
  | cons r right ih =>
    rw [length_cons, replicate_succ, free, if_neg Bool.false_ne_true, ih]

section

variable {same : α → β → Bool} {l : α} {right : List β} {marks marks' : List Bool}

theorem take_some (taken : take same l right marks = some marks') :
    ∃ r, same l r = true ∧ (free right marks).Perm (r :: free right marks') := by
  induction right generalizing marks marks' with
  | nil => cases taken
  | cons r right ih =>
    cases marks with
    | nil => cases taken
    | cons mark marks =>
      rw [take] at taken
      split at taken
      · rename_i here
        cases taken
        refine ⟨r, here.2, ?_⟩
        rw [free, free, here.1, if_neg Bool.false_ne_true, if_pos rfl]
      · obtain ⟨later, found, rfl⟩ := Option.map_eq_some_iff.mp taken
        obtain ⟨r', equal, perm⟩ := ih found
        refine ⟨r', equal, ?_⟩
        rw [free, free]
        split
        · exact perm
        · exact (perm.cons r).trans (.swap r' r _)

theorem take_none (missing : take same l right marks = none) :
    ∀ r ∈ free right marks, same l r = false := by
  induction right generalizing marks with
  | nil => exact fun r mem => absurd mem not_mem_nil
  | cons r right ih =>
    cases marks with
    | nil => exact fun r mem => absurd mem not_mem_nil
    | cons mark marks =>
      rw [take] at missing
      split at missing
      · cases missing
      · rename_i other
        have later := ih (Option.map_eq_none_iff.mp missing)
        rw [free]
        split
        · exact later
        · rename_i unmarked
          rw [forall_mem_cons]
          refine ⟨?_, later⟩
          rw [not_and] at other
          exact eq_false_of_ne_true (other (eq_false_of_ne_true unmarked))

end

theorem cover_iff_perm {same : α → β → Bool} {key : α → κ} {key' : β → κ}
    (keyed : ∀ l r, same l r = true ↔ key l = key' r) (left : List α) (right : List β)
    (marks : List Bool) (length : left.length = (free right marks).length) :
    cover same right left marks = true ↔ (left.map key).Perm ((free right marks).map key') := by
  induction left generalizing marks with
  | nil =>
    rw [length_eq_zero_iff.mp length.symm]
    exact iff_of_true rfl (.refl _)
  | cons l left ih =>
    rw [cover]
    cases taken : take same l right marks with
    | none =>
      have missing := take_none taken
      refine iff_of_false Bool.false_ne_true fun perm => ?_
      obtain ⟨r, mem, equal⟩ := mem_map.mp (perm.subset mem_cons_self)
      have found := (keyed l r).mpr equal.symm
      rw [missing r mem] at found
      cases found
    | some later =>
      obtain ⟨r, equal, perm⟩ := take_some taken
      have shorter : left.length = (free right later).length := by
        rw [perm.length_eq] at length
        exact Nat.succ.inj length
      rw [ih later shorter, map_cons, (perm.map key').congr_right, map_cons,
        ← (keyed l r).mp equal, perm_cons]

end Matching
