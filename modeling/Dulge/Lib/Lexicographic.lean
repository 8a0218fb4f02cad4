import Mathlib

/-! Lexicographic comparison of lists, where the comparison of the elements need
not be transitive. Such a comparison is transitive on three lists unless they agree
up to a place whose three elements go round in a circle. -/
namespace Lexicographic
open List

variable {α : Type*}

/-- After places where three lists agree comes one where they take a turn. -/
inductive Meet (same : α → α → Prop) (turn : α → α → α → Prop) :
    List α → List α → List α → Prop
  | here {x y z : α} {xs ys zs : List α} (first : turn x y z) :
      Meet same turn (x :: xs) (y :: ys) (z :: zs)
  | later {x y z : α} {xs ys zs : List α} (left : same x y) (right : same y z)
      (rest : Meet same turn xs ys zs) : Meet same turn (x :: xs) (y :: ys) (z :: zs)

variable {x y z : α} {xs ys : List α}

theorem meet_cons {same : α → α → Prop} {turn : α → α → α → Prop} {zs : List α} :
    Meet same turn (x :: xs) (y :: ys) (z :: zs) ↔
      turn x y z ∨ same x y ∧ same y z ∧ Meet same turn xs ys zs := by
  constructor
  · intro meet
    cases meet with
    | here first => exact .inl first
    | later left right rest => exact .inr ⟨left, right, rest⟩
  · rintro (first | ⟨left, right, rest⟩)
    · exact .here first
    · exact .later left right rest

theorem Meet.exists_turn {same : α → α → Prop} {turn : α → α → α → Prop} {a b c : List α}
    (meet : Meet same turn a b c) : ∃ x ∈ a, ∃ y ∈ b, ∃ z ∈ c, turn x y z := by
  induction meet with
  | here first =>
    exact ⟨_, mem_cons_self, _, mem_cons_self, _, mem_cons_self, first⟩
  | later left right rest ih =>
    obtain ⟨x, inA, y, inB, z, inC, taken⟩ := ih
    exact ⟨x, mem_cons_of_mem _ inA, y, mem_cons_of_mem _ inB, z, mem_cons_of_mem _ inC, taken⟩

def Cyclic (cmp : α → α → Ordering) (x y z : α) : Prop :=
  cmp x y = .lt ∧ cmp y z = .lt ∧ cmp z x = .lt

theorem Cyclic.rotate {cmp : α → α → Ordering} (h : Cyclic cmp x y z) :
    Cyclic cmp y z x := ⟨h.2.1, h.2.2, h.1⟩

structure Coherent (cmp : α → α → Ordering) : Prop where
  swap : ∀ x y, cmp y x = (cmp x y).swap
  congr : ∀ {x y}, cmp x y = .eq → ∀ z, cmp x z = cmp y z

variable {cmp : α → α → Ordering}

theorem Coherent.congr_right (coherent : Coherent cmp) (same : cmp y z = .eq) (x : α) :
    cmp x y = cmp x z := by
  rw [coherent.swap y x, coherent.swap z x, coherent.congr same]

theorem Coherent.lex_swap (coherent : Coherent cmp) (a b : List α) :
    b.compareLex cmp a = (a.compareLex cmp b).swap := by
  induction a generalizing b with
  | nil => cases b with
    | nil => rfl
    | cons y ys => rfl
  | cons x xs ih =>
    cases b with
    | nil => rfl
    | cons y ys =>
      rw [List.compareLex_cons_cons, List.compareLex_cons_cons, coherent.swap x y, ih,
        Ordering.swap_then]

theorem lex_cons_of_ne (differ : cmp x y ≠ .eq) : (x :: xs).compareLex cmp (y :: ys) = cmp x y := by
  rw [List.compareLex_cons_cons]
  cases decided : cmp x y with
  | lt => rfl
  | eq => exact absurd decided differ
  | gt => rfl

theorem lex_cons_of_eq (same : cmp x y = .eq) :
    (x :: xs).compareLex cmp (y :: ys) = xs.compareLex cmp ys := by
  rw [List.compareLex_cons_cons, same, Ordering.eq_then]

theorem Coherent.lex_trans_of_lt (coherent : Coherent cmp) {zs : List α} (xy : cmp x y = .lt) :
    (((y :: ys).compareLex cmp (z :: zs)).isLE → ((x :: xs).compareLex cmp (z :: zs)).isLE) ↔
      ¬ Cyclic cmp x y z := by
  cases yz : cmp y z with
  | gt =>
    rw [lex_cons_of_ne (by simp [yz]), yz]
    exact iff_of_true (fun below => nomatch below) (by simp [Cyclic, yz])
  | eq =>
    have xz : cmp x z = .lt := (coherent.congr_right yz x).symm.trans xy
    rw [lex_cons_of_ne (show cmp x z ≠ .eq by simp [xz]), xz]
    exact iff_of_true (fun _ => rfl) (by simp [Cyclic, yz])
  | lt =>
    have differ : cmp x z ≠ .eq := by
      intro xz
      have back := coherent.congr xz y
      rw [xy, coherent.swap y z, yz] at back
      cases back
    rw [lex_cons_of_ne (by simp [yz]), lex_cons_of_ne differ, yz]
    simp only [Cyclic, xy, yz, coherent.swap x z, true_and]
    cases cmp x z with
    | lt => simp
    | eq => simp
    | gt => simp

theorem Coherent.lex_trans_iff (coherent : Coherent cmp) (a b c : List α) :
    ((a.compareLex cmp b).isLE → (b.compareLex cmp c).isLE → (a.compareLex cmp c).isLE) ↔
      ¬ Meet (fun x y => cmp x y = .eq) (Cyclic cmp) a b c := by
  induction a generalizing b c with
  | nil => exact iff_of_true (fun _ _ => List.isLE_compareLex_nil_left) (fun meet => nomatch meet)
  | cons x xs ih =>
    cases b with
    | nil => exact iff_of_true (fun below => nomatch below) (fun meet => nomatch meet)
    | cons y ys =>
      cases c with
      | nil => exact iff_of_true (fun _ below => nomatch below) (fun meet => nomatch meet)
      | cons z zs =>
        rw [meet_cons]
        cases xy : cmp x y with
        | gt =>
          rw [lex_cons_of_ne (by simp [xy]), xy]
          exact iff_of_true (fun below => nomatch below) (by simp [Cyclic, xy])
        | lt =>
          rw [lex_cons_of_ne (by simp [xy]), xy]
          simpa using coherent.lex_trans_of_lt xy
        | eq =>
          have xz := coherent.congr xy z
          rw [lex_cons_of_eq xy]
          by_cases yz : cmp y z = .eq
          · rw [lex_cons_of_eq yz, lex_cons_of_eq (xz.trans yz), ih]
            simp [Cyclic, xy, yz]
          · rw [lex_cons_of_ne yz, lex_cons_of_ne (xz ▸ yz), xz]
            exact iff_of_true (fun _ below => below) (by simp [Cyclic, xy, yz])

end Lexicographic
