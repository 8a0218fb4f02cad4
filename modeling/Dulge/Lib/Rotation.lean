import Mathlib.Logic.Function.Basic
import Mathlib.Data.Nat.Init

/-! Numbered slots whose contents are moved up by one, from the last slot that takes part down
to slot 0. A move of an empty slot does nothing, and a move into a slot that is not empty loses
what was there. -/

namespace Rotation
open Function

variable {κ : Type*}

/-- Slot `i` goes to slot `i + 1`. -/
def move (slots : Nat → Option κ) (i : Nat) : Nat → Option κ :=
  match slots i with
  | none => slots
  | some content => update (update slots i none) (i + 1) (some content)

/-- The slots from `n` down to 1 are moved. -/
def shift : Nat → (Nat → Option κ) → Nat → Option κ
  | 0, slots => slots
  | n + 1, slots => shift n (move slots (n + 1))

/-- The slots from `n` down to 0 are moved. -/
def rotate (n : Nat) (slots : Nat → Option κ) : Nat → Option κ := move (shift n slots) 0

theorem rotate_succ (n : Nat) (slots : Nat → Option κ) :
    rotate (n + 1) slots = rotate n (move slots (n + 1)) := rfl

section Move

variable (slots : Nat → Option κ) (i : Nat)

theorem move_of_none {slots : Nat → Option κ} {i : Nat} (empty : slots i = none) :
    move slots i = slots := by
  rw [move, empty]

theorem move_of_some {slots : Nat → Option κ} {i : Nat} {content : κ}
    (there : slots i = some content) :
    move slots i = update (update slots i none) (i + 1) (some content) := by
  rw [move, there]

theorem move_source : move slots i i = none := by
  cases there : slots i with
  | none => rw [move_of_none there, there]
  | some content =>
    have below : i ≠ i + 1 := Nat.ne_of_lt (Nat.lt_succ_self i)
    rw [move_of_some there, update_of_ne below, update_self]

theorem move_target : move slots i (i + 1) = (slots i).or (slots (i + 1)) := by
  cases there : slots i with
  | none => rw [move_of_none there, Option.none_or]
  | some content => rw [move_of_some there, update_self, Option.some_or]

theorem move_other {j : Nat} (source : j ≠ i) (target : j ≠ i + 1) : move slots i j = slots j := by
  cases there : slots i with
  | none => rw [move_of_none there]
  | some content =>
    rw [move_of_some there, update_of_ne target, update_of_ne source]

end Move

theorem shift_zero (n : Nat) (slots : Nat → Option κ) : shift n slots 0 = slots 0 := by
  induction n generalizing slots with
  | zero => rfl
  | succ n ih => exact (ih _).trans (move_other slots (n + 1) (by omega) (by omega))

section Rotate

variable (n : Nat) (slots : Nat → Option κ)

theorem rotate_zero : rotate n slots 0 = none := move_source _ 0

theorem rotate_above {j : Nat} (above : n + 1 < j) : rotate n slots j = slots j := by
  induction n generalizing slots with
  | zero => exact move_other slots 0 (by omega) (by omega)
  | succ n ih =>
    rw [rotate_succ, ih _ (by omega)]
    exact move_other slots (n + 1) (by omega) (by omega)

theorem rotate_top : rotate n slots (n + 1) = (slots n).or (slots (n + 1)) := by
  cases n with
  | zero => exact move_target slots 0
  | succ n =>
    rw [rotate_succ, rotate_above n _ (Nat.lt_succ_self _)]
    exact move_target slots (n + 1)

theorem rotate_inner {j : Nat} (inner : j < n) : rotate n slots (j + 1) = slots j := by
  induction n generalizing slots with
  | zero => omega
  | succ n ih =>
    rw [rotate_succ]
    rcases Nat.lt_succ_iff_lt_or_eq.mp inner with below | rfl
    · rw [ih _ below]
      exact move_other slots (n + 1) (by omega) (by omega)
    · rw [rotate_top, move_source, Option.or_none]
      exact move_other slots (j + 1) (by omega) (by omega)

variable {n slots}

theorem rotate_keeps (free : slots n = none ∨ slots (n + 1) = none) {i : Nat} {content : κ}
    (there : slots i = some content) : ∃ j, 0 < j ∧ rotate n slots j = some content := by
  rcases Nat.lt_trichotomy i n with inner | rfl | above
  · exact ⟨i + 1, Nat.succ_pos i, (rotate_inner n slots inner).trans there⟩
  · refine ⟨i + 1, Nat.succ_pos i, ?_⟩
    rw [rotate_top, there]
    rfl
  · refine ⟨i, Nat.zero_lt_of_lt above, ?_⟩
    rcases Nat.lt_or_eq_of_le above with far | rfl
    · exact (rotate_above n slots far).trans there
    · rcases free with empty | empty
      · rw [rotate_top, empty, there]
        rfl
      · rw [there] at empty
        cases empty

theorem source_of_rotate {a : κ} (last : slots n = some a) {j : Nat} {content : κ}
    (there : rotate n slots j = some content) : ∃ i, i ≠ n + 1 ∧ slots i = some content := by
  cases j with
  | zero =>
    rw [rotate_zero] at there
    cases there
  | succ j =>
    rcases Nat.lt_trichotomy j n with inner | rfl | above
    · rw [rotate_inner n slots inner] at there
      exact ⟨j, by omega, there⟩
    · rw [rotate_top, last] at there
      exact ⟨j, by omega, last.trans there⟩
    · rw [rotate_above n slots (by omega)] at there
      exact ⟨j + 1, by omega, there⟩

end Rotate

end Rotation
