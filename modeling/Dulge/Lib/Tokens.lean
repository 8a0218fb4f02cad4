import Mathlib.Data.List.TakeWhile

/-! Tokens taken off the front of a list, one call after the other, and the same tokens as the
non-empty fields between separators. -/
namespace Tokens
open List

variable {α : Type} (sep : α → Bool)

/-- The next token, and what a later call goes on with: separators in front are skipped, and the one
behind the token is used up. -/
def next? (list : List α) : Option (List α × List α) :=
  match list.dropWhile sep with
  | [] => none
  | a :: text => some (a :: text.takeWhile (!sep ·), (text.dropWhile (!sep ·)).tail)

variable {sep}

theorem next?_length {list token rest : List α} (found : next? sep list = some (token, rest)) :
    rest.length < list.length := by
  unfold next? at found
  split at found
  · cases found
  · rename_i a text shape
    cases found
    calc ((text.dropWhile (!sep ·)).tail).length
      _ ≤ (text.dropWhile (!sep ·)).length := by simp
      _ ≤ text.length := (dropWhile_sublist _).length_le
      _ < (a :: text).length := by simp
      _ = (list.dropWhile sep).length := by rw [shape]
      _ ≤ list.length := (dropWhile_sublist _).length_le

variable (sep) in
def all (list : List α) : List (List α) :=
  match _ : next? sep list with
  | none => []
  | some (token, rest) => token :: all rest
  termination_by list.length
  decreasing_by exact next?_length (by assumption)

theorem next?_sep {a : α} (isSep : sep a = true) (rest : List α) :
    next? sep (a :: rest) = next? sep rest := by
  rw [next?, dropWhile_cons_of_pos isSep, next?]

theorem next?_token {a : α} {token : List α} (plain : ∀ x ∈ a :: token, sep x = false) (rest : List α)
    (ends : ∀ x, rest.head? = some x → sep x = true) :
    next? sep (a :: token ++ rest) = some (a :: token, rest.tail) := by
  have whole : ∀ x ∈ token, (!sep x) = true := fun x mem => by
    rw [plain x (mem_cons_of_mem _ mem)]
    rfl
  have taken : rest.takeWhile (!sep ·) = [] ∧ rest.dropWhile (!sep ·) = rest := by
    cases rest with
    | nil => exact ⟨rfl, rfl⟩
    | cons b rest => simp [ends b rfl]
  rw [next?, cons_append, dropWhile_cons_of_neg (by simp [plain a mem_cons_self])]
  simp only [takeWhile_append_of_pos whole, dropWhile_append_of_pos whole, taken, append_nil]

theorem all_of_next?_none {list : List α} (found : next? sep list = none) : all sep list = [] := by
  rw [all]
  split
  · rfl
  · rename_i other
    rw [found] at other
    cases other

theorem all_of_next? {list token rest : List α} (found : next? sep list = some (token, rest)) :
    all sep list = token :: all sep rest := by
  rw [all]
  split
  · rename_i other
    rw [found] at other
    cases other
  · rename_i other
    rw [found] at other
    cases other
    rfl

theorem all_nil : all sep [] = [] := all_of_next?_none rfl

theorem all_sep {a : α} (isSep : sep a = true) (rest : List α) :
    all sep (a :: rest) = all sep rest := by
  cases found : next? sep rest with
  | none => rw [all_of_next?_none found, all_of_next?_none ((next?_sep isSep rest).trans found)]
  | some next => rw [all_of_next? found, all_of_next? ((next?_sep isSep rest).trans found)]

theorem field_cases (sep : α → Bool) (list : List α) : (∀ x ∈ list, sep x = false) ∨
      ∃ field a rest, list = field ++ a :: rest ∧ (∀ x ∈ field, sep x = false) ∧ sep a = true := by
  have plain : ∀ x ∈ list.takeWhile (!sep ·), sep x = false := fun x mem => by
    simpa using mem_takeWhile_imp mem
  have whole := takeWhile_append_dropWhile (p := (!sep ·)) (l := list)
  cases shape : list.dropWhile (!sep ·) with
  | nil =>
    rw [shape, append_nil] at whole
    exact .inl (whole ▸ plain)
  | cons a rest =>
    rw [shape] at whole
    have stops := List.head?_dropWhile_not (!sep ·) list
    rw [shape] at stops
    exact .inr ⟨_, a, rest, whole.symm, plain, by simpa using stops⟩

theorem all_eq_splitOnP (list : List α) : all sep list = (list.splitOnP sep).filter (!·.isEmpty) := by
  induction length : list.length using Nat.strong_induction_on generalizing list with
  | _ n ih =>
    obtain plain | ⟨field, a, rest, rfl, plain, isSep⟩ := field_cases sep list
    · rw [splitOnP_eq_singleton plain]
      cases list with
      | nil => exact all_nil
      | cons a token =>
        have found := next?_token plain [] (fun x first => by cases first)
        rw [append_nil] at found
        rw [all_of_next? found, tail_nil, all_nil]
        rfl
    · have shorter : rest.length < n := by
        rw [← length, length_append, length_cons]
        omega
      rw [splitOnP_append_cons_of_forall_mem plain a isSep rest]
      cases field with
      | nil => exact (all_sep isSep rest).trans (ih _ shorter rest rfl)
      | cons b token =>
        have found := next?_token plain (a :: rest) (fun x first => by cases first; exact isSep)
        rw [all_of_next? found, tail_cons, ih _ shorter rest rfl]
        rfl

end Tokens
