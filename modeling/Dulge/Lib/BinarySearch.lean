import Dulge.Lib.Comparator

/-! Binary search as `bsearch` of the C library does it, over a list sorted by a lawful
comparison. -/

namespace BinarySearch
open Option

/-- The search between `lo` and `hi`, where `probe i` compares the key with element `i`. -/
def search (probe : Nat → Int) (lo hi : Nat) : Option Nat :=
  if lo < hi then
    let mid := (lo + hi) / 2
    if probe mid < 0 then search probe lo mid
    else if 0 < probe mid then search probe (mid + 1) hi
    else some mid
  else none
termination_by hi - lo

/-- The key is below all elements behind one that it is below, and above all elements in
front of one that it is above. -/
structure Falling (probe : Nat → Int) (count : Nat) : Prop where
  below : ∀ i j, i ≤ j → j < count → probe i < 0 → probe j < 0
  above : ∀ i j, i ≤ j → j < count → 0 < probe j → 0 < probe i

theorem search_sound {probe : Nat → Int} {lo hi i : Nat} (found : search probe lo hi = some i) :
    i < hi ∧ probe i = 0 := by
  induction lo, hi using search.induct probe with
  | case1 lo hi inside mid less ih =>
    rw [search, if_pos inside, if_pos less] at found
    obtain ⟨before, equal⟩ := ih found
    exact ⟨by omega, equal⟩
  | case2 lo hi inside mid notLess more ih =>
    rw [search, if_pos inside, if_neg notLess, if_pos more] at found
    exact ih found
  | case3 lo hi inside mid notLess notMore =>
    rw [search, if_pos inside, if_neg notLess, if_neg notMore] at found
    cases found
    have equal : probe mid = 0 := by omega
    exact ⟨by omega, equal⟩
  | case4 lo hi outside =>
    rw [search, if_neg outside] at found
    cases found

theorem search_complete {probe : Nat → Int} {count lo hi k : Nat} (falling : Falling probe count)
    (bound : hi ≤ count) (from_ : lo ≤ k) (upto : k < hi) (equal : probe k = 0) :
    (search probe lo hi).isSome = true := by
  induction lo, hi using search.induct probe with
  | case1 lo hi inside mid less ih =>
    rw [search, if_pos inside, if_pos less]
    have before : k < mid := by
      by_contra behind
      have := falling.below mid k (by omega) (by omega) less
      omega
    exact ih (by omega) from_ before
  | case2 lo hi inside mid notLess more ih =>
    rw [search, if_pos inside, if_neg notLess, if_pos more]
    have behind : mid < k := by
      by_contra before
      have := falling.above k mid (by omega) (by omega) more
      omega
    exact ih bound behind upto
  | case3 lo hi inside mid notLess notMore =>
    rw [search, if_pos inside, if_neg notLess, if_neg notMore]
    rfl
  | case4 lo hi outside => omega

variable {α : Type*}

/-- `bsearch` over the elements of a list -/
def bsearch (fn : α → α → Int) (key : α) (list : List α) : Option α :=
  (search (fun i => (list[i]?.map (fn key)).getD 0) 0 list.length).bind fun i => list[i]?

variable {fn : α → α → Int} {list : List α}

theorem bsearch_sound {key found : α} (hit : bsearch fn key list = some found) :
    found ∈ list ∧ fn key found = 0 := by
  obtain ⟨i, searched, element⟩ := bind_eq_some_iff.mp hit
  have equal := (search_sound searched).2
  rw [element] at equal
  exact ⟨List.mem_of_getElem? element, equal⟩

theorem falling_of_sorted (lawful : Comparator.Lawful fn) (sorted : Comparator.Sorted fn list)
    (key : α) : Falling (fun i => (list[i]?.map (fn key)).getD 0) list.length := by
  have ordered : ∀ i j, i ≤ j → ∀ (first : i < list.length) (before : j < list.length),
      fn list[i] list[j] ≤ 0 := by
    intro i j le first before
    rcases Nat.lt_or_eq_of_le le with lt | rfl
    · exact List.pairwise_iff_getElem.mp sorted i j first before lt
    · exact (lawful.refl _).le
  constructor
  · intro i j le before less
    have first : i < list.length := by omega
    simp only [List.getElem?_eq_getElem first, List.getElem?_eq_getElem before, map_some,
      getD_some] at less ⊢
    have step := ordered i j le first before
    by_contra more
    have back := lawful.swap list[j] key
    have turn := lawful.swap list[i] key
    have chain : fn list[i] key ≤ 0 := lawful.trans step (by omega)
    omega
  · intro i j le before more
    have first : i < list.length := by omega
    simp only [List.getElem?_eq_getElem first, List.getElem?_eq_getElem before, map_some,
      getD_some] at more ⊢
    have step := ordered i j le first before
    by_contra less
    have chain : fn key list[j] ≤ 0 := lawful.trans (by omega) step
    omega

theorem bsearch_isSome (lawful : Comparator.Lawful fn) (sorted : Comparator.Sorted fn list)
    {key : α} : (bsearch fn key list).isSome = true ↔ ∃ x ∈ list, fn key x = 0 := by
  constructor
  · intro found
    obtain ⟨x, hit⟩ := isSome_iff_exists.mp found
    exact ⟨x, bsearch_sound hit⟩
  · intro ⟨x, mem, equal⟩
    obtain ⟨k, before, rfl⟩ := List.mem_iff_getElem.mp mem
    have here : ((list[k]?).map (fn key)).getD 0 = 0 := by
      rw [List.getElem?_eq_getElem before]
      exact equal
    obtain ⟨i, searched⟩ := isSome_iff_exists.mp
      (search_complete (falling_of_sorted lawful sorted key) le_rfl (Nat.zero_le k) before here)
    rw [bsearch, searched, bind_some, List.getElem?_eq_getElem (search_sound searched).1]
    rfl

end BinarySearch
