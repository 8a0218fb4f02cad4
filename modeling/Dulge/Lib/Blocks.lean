import Mathlib.Data.List.Basic

/-! A text that comes in blocks, cut into lines. Where a line ends is looked for in one block
at a time; a block without an end of line is the middle of a line, and the last line ends with
the text. -/

/-- A search for the end of a line: what stands before it and what behind it. -/
structure Cutter (α : Type*) where
  cut : List α → Option (List α × List α)
  shorter : ∀ {text parts}, cut text = some parts → parts.2.length < text.length

namespace Cutter
open List

variable {α : Type*} (cutter : Cutter α)

/-- The next line, where `rest` is left of the current block, and what is left behind its end.
There is no end of the last line. -/
def next : List (List α) → List α → List α × Option (List α × List (List α))
  | [], rest =>
    match cutter.cut rest with
    | some parts => (parts.1, some (parts.2, []))
    | none => (rest, none)
  | block :: blocks, rest =>
    match cutter.cut rest with
    | some parts => (parts.1, some (parts.2, block :: blocks))
    | none => (rest ++ (next blocks block).1, (next blocks block).2)

variable {cutter}

variable {rest : List α} {blocks : List (List α)}

theorem next_of_some {parts : List α × List α} (found : cutter.cut rest = some parts)
    (blocks : List (List α)) : cutter.next blocks rest = (parts.1, some (parts.2, blocks)) := by
  cases blocks <;> rw [next, found]

theorem next_nil_of_none (whole : cutter.cut rest = none) : cutter.next [] rest = (rest, none) := by
  rw [next, whole]

theorem next_cons_of_none (whole : cutter.cut rest = none) (block : List α) (blocks : List (List α)) :
    cutter.next (block :: blocks) rest =
      (rest ++ (cutter.next blocks block).1, (cutter.next blocks block).2) := by
  rw [next, whole]

theorem next_length {later : List (List α)} {behind : List α}
    (found : (cutter.next blocks rest).2 = some (behind, later)) :
    (behind ++ later.flatten).length < (rest ++ blocks.flatten).length := by
  induction blocks generalizing rest with
  | nil =>
    cases cut : cutter.cut rest with
    | none =>
      rw [next_nil_of_none cut] at found
      cases found
    | some parts =>
      rw [next_of_some cut] at found
      cases found
      simpa using cutter.shorter cut
  | cons block blocks ih =>
    cases cut : cutter.cut rest with
    | none =>
      rw [next_cons_of_none cut] at found
      have inner := ih found
      simp only [flatten_cons, length_append] at inner ⊢
      omega
    | some parts =>
      rw [next_of_some cut] at found
      cases found
      have shorter := cutter.shorter cut
      simp only [length_append]
      omega

variable (cutter)

def lines (blocks : List (List α)) (rest : List α) : List (List α) :=
  match _found : (cutter.next blocks rest).2 with
  | none => [(cutter.next blocks rest).1]
  | some (behind, later) => (cutter.next blocks rest).1 :: lines later behind
termination_by (rest ++ blocks.flatten).length
decreasing_by exact next_length _found

variable {cutter}

theorem lines_last (ended : (cutter.next blocks rest).2 = none) :
    cutter.lines blocks rest = [(cutter.next blocks rest).1] := by
  rw [lines]
  split
  · rfl
  · rename_i found
    rw [ended] at found
    cases found

theorem lines_cons {later : List (List α)} {behind : List α}
    (found : (cutter.next blocks rest).2 = some (behind, later)) :
    cutter.lines blocks rest = (cutter.next blocks rest).1 :: cutter.lines later behind := by
  rw [lines]
  split
  · rename_i ended
    rw [found] at ended
    cases ended
  · rename_i found'
    rw [found] at found'
    cases found'
    rfl

/-! ### One end of line -/

/-- On texts of the given letters the search finds the first `sep`. -/
structure FindsFirst (cutter : Cutter α) (letters : α → Prop) (sep : α) : Prop where
  found : ∀ {text parts}, (∀ c ∈ text, letters c) → cutter.cut text = some parts →
    text = parts.1 ++ sep :: parts.2 ∧ sep ∉ parts.1
  missed : ∀ {text}, (∀ c ∈ text, letters c) → cutter.cut text = none → sep ∉ text

variable {letters : α → Prop} {sep : α}

theorem next_split (finds : FindsFirst cutter letters sep)
    (plain : ∀ c ∈ rest ++ blocks.flatten, letters c) : sep ∉ (cutter.next blocks rest).1 ∧
      rest ++ blocks.flatten = (cutter.next blocks rest).1 ++ match (cutter.next blocks rest).2 with
        | none => []
        | some (behind, later) => sep :: (behind ++ later.flatten) := by
  have here : ∀ c ∈ rest, letters c := fun c mem => plain c (mem_append_left _ mem)
  induction blocks generalizing rest with
  | nil =>
    cases cut : cutter.cut rest with
    | none =>
      rw [next_nil_of_none cut]
      exact ⟨finds.missed here cut, rfl⟩
    | some parts =>
      obtain ⟨shape, first⟩ := finds.found here cut
      rw [next_of_some cut]
      refine ⟨first, ?_⟩
      conv_lhs => rw [shape]
      simp
  | cons block blocks ih =>
    cases cut : cutter.cut rest with
    | none =>
      rw [next_cons_of_none cut]
      have later : ∀ c ∈ block ++ blocks.flatten, letters c := by
        intro c mem
        exact plain c (mem_append_right _ (by simpa using mem))
      obtain ⟨absent, shape⟩ := ih later fun c mem => later c (mem_append_left _ mem)
      refine ⟨?_, ?_⟩
      · rw [mem_append, not_or]
        exact ⟨finds.missed here cut, absent⟩
      · rw [flatten_cons, shape, append_assoc]
    | some parts =>
      obtain ⟨shape, first⟩ := finds.found here cut
      rw [next_of_some cut]
      refine ⟨first, ?_⟩
      conv_lhs => rw [shape]
      simp

theorem lines_eq_splitOn [DecidableEq α] (finds : FindsFirst cutter letters sep)
    (blocks : List (List α)) (rest : List α) (plain : ∀ c ∈ rest ++ blocks.flatten, letters c) :
    cutter.lines blocks rest = (rest ++ blocks.flatten).splitOn sep := by
  induction blocks, rest using lines.induct cutter with
  | case1 blocks rest ended =>
    obtain ⟨absent, shape⟩ := next_split finds plain
    rw [ended, append_nil] at shape
    rw [lines_last ended, shape, splitOn_eq_singleton absent]
  | case2 blocks rest behind later found ih =>
    obtain ⟨absent, shape⟩ := next_split finds plain
    rw [found] at shape
    have inner : ∀ c ∈ behind ++ later.flatten, letters c := by
      intro c mem
      apply plain
      rw [shape]
      exact mem_append_right _ (mem_cons_of_mem _ mem)
    rw [lines_cons found, ih inner, shape, splitOn_append_cons_self_of_not_mem absent]

end Cutter
