import Mathlib.Data.List.Basic
import Mathlib.Data.List.TakeWhile

/-! A buffer of letters as the function that gives the letter at each place, with the lists written
into it and the strings, ended by a mark, that are read out of it. -/
namespace Buffer
open List

variable {α : Type}

/-- The letters of a list, one behind the other from `offset` on. -/
def write (memory : Nat → α) (offset : Nat) (letters : List α) : Nat → α := fun i =>
  if offset ≤ i then (letters[i - offset]?).getD (memory i) else memory i

/-- The list stands in the buffer from `offset` on. -/
def Holds (memory : Nat → α) (offset : Nat) (letters : List α) : Prop :=
  ∀ i a, letters[i]? = some a → memory (offset + i) = a

/-- The letters in front of the first `mark`, of the first `size` places. -/
def string [DecidableEq α] (mark : α) (memory : Nat → α) (size : Nat) : List α :=
  ((List.range size).map memory).takeWhile (· ≠ mark)

structure Block (α : Type) where
  size : Nat
  stored : List α
deriving DecidableEq

def Block.Inside (block : Block α) : Prop := block.stored.length ≤ block.size

instance (block : Block α) : Decidable block.Inside := inferInstanceAs (Decidable (_ ≤ _))

variable {memory : Nat → α} {offset : Nat} {letters : List α}

theorem holds_write (memory : Nat → α) (offset : Nat) (letters : List α) :
    Holds (write memory offset letters) offset letters := by
  intro i a found
  have place : offset + i - offset = i := by omega
  rw [write, if_pos (Nat.le_add_right offset i), place, found]
  rfl

theorem write_of_outside {i : Nat} (outside : i < offset ∨ offset + letters.length ≤ i) :
    write memory offset letters i = memory i := by
  unfold write
  split
  · rw [List.getElem?_eq_none (by omega), Option.getD_none]
  · rfl

theorem Holds.write_outside (held : Holds memory offset letters) {place : Nat} {other : List α}
    (apart : offset + letters.length ≤ place ∨ place + other.length ≤ offset) :
    Holds (write memory place other) offset letters := by
  intro i a found
  have inside : i < letters.length := (List.getElem?_eq_some_iff.mp found).1
  rw [write_of_outside (by omega)]
  exact held i a found

theorem Holds.append {more : List α} (held : Holds memory offset letters)
    (next : Holds memory (offset + letters.length) more) : Holds memory offset (letters ++ more) := by
  intro i a found
  by_cases inside : i < letters.length
  · rw [List.getElem?_append_left inside] at found
    exact held i a found
  · rw [List.getElem?_append_right (by omega)] at found
    have place : offset + letters.length + (i - letters.length) = offset + i := by omega
    rw [← place]
    exact next _ a found

theorem Holds.extend (held : Holds memory 0 letters) (more : List α) :
    Holds (write memory letters.length more) 0 (letters ++ more) := by
  refine (held.write_outside (.inl (Nat.zero_add _).le)).append ?_
  rw [Nat.zero_add]
  exact holds_write memory letters.length more

theorem Holds.left {more : List α} (held : Holds memory offset (letters ++ more)) :
    Holds memory offset letters := by
  intro i a found
  have inside : i < letters.length := (List.getElem?_eq_some_iff.mp found).1
  exact held i a (by rw [List.getElem?_append_left inside, found])

theorem Holds.middle {before after : List α} {a : α} (held : Holds memory 0 (before ++ a :: after)) :
    memory before.length = a := by
  have found := held before.length a (by simp)
  rwa [Nat.zero_add] at found

theorem string_of_holds [DecidableEq α] {mark : α} {text : List α} {size : Nat}
    (held : Holds memory 0 (text ++ [mark])) (plain : mark ∉ text) (fits : text.length < size) :
    string mark memory size = text := by
  have front : (List.range size).map memory
      = text ++ mark :: ((List.range size).map memory).drop (text.length + 1) := by
    have taken : ((List.range size).map memory).take (text.length + 1) = text ++ [mark] := by
      apply ext_getElem?
      intro i
      by_cases inside : i < text.length + 1
      · have found : (text ++ [mark])[i]? =
            some ((text ++ [mark]).get ⟨i, by simpa using inside⟩) := by simp
        have value := held i _ found
        rw [Nat.zero_add] at value
        rw [found, ← value, List.getElem?_take_of_lt inside, List.getElem?_map,
          List.getElem?_range (by omega)]
        rfl
      · rw [List.getElem?_eq_none (by simp; omega), List.getElem?_eq_none (by simp; omega)]
    have both := take_append_drop (text.length + 1) ((List.range size).map memory)
    rw [taken, append_assoc, singleton_append] at both
    exact both.symm
  have letters : ∀ a ∈ text, decide (a ≠ mark) = true := by
    intro a mem
    rw [decide_eq_true_eq]
    exact ne_of_mem_of_not_mem mem plain
  rw [string, front, takeWhile_append_of_pos letters, takeWhile_cons_of_neg (by simp), append_nil]

end Buffer
