import Mathlib

/-! Three-way comparison functions with integer results, of which only the sign
counts, and lists sorted by them. -/
namespace Comparator
open List

variable {α : Type*} {fn : α → α → Int}

structure Lawful (fn : α → α → Int) : Prop where
  swap : ∀ a b, fn b a < 0 ↔ 0 < fn a b
  trans : ∀ {a b c}, fn a b ≤ 0 → fn b c ≤ 0 → fn a c ≤ 0

theorem Lawful.refl (h : Lawful fn) (a : α) : fn a a = 0 := by
  have self := h.swap a a
  omega

theorem Lawful.total (h : Lawful fn) (a b : α) : fn a b ≤ 0 ∨ fn b a ≤ 0 := by
  have left := h.swap a b
  have right := h.swap b a
  omega

variable {a b c : α} {l : List α}

theorem Lawful.eq_zero_comm (h : Lawful fn) : fn a b = 0 ↔ fn b a = 0 := by
  have left := h.swap a b
  have right := h.swap b a
  omega

theorem Lawful.eq_zero_trans (h : Lawful fn) (ab : fn a b = 0) (bc : fn b c = 0) : fn a c = 0 := by
  have low : fn a c ≤ 0 := h.trans ab.le bc.le
  have back : fn c a ≤ 0 := h.trans (h.eq_zero_comm.mp bc).le (h.eq_zero_comm.mp ab).le
  have swapped := h.swap c a
  omega

theorem Lawful.lt_of_lt_of_le (h : Lawful fn) (ab : fn a b < 0) (bc : fn b c ≤ 0) : fn a c < 0 := by
  by_contra above
  have back := h.swap c a
  have turn := h.swap a c
  have swapped := h.swap b a
  have : fn b a ≤ 0 := h.trans bc (by omega)
  omega

theorem Lawful.lt_of_le_of_lt (h : Lawful fn) (ab : fn a b ≤ 0) (bc : fn b c < 0) : fn a c < 0 := by
  by_contra above
  have back := h.swap c a
  have turn := h.swap a c
  have swapped := h.swap c b
  have : fn c b ≤ 0 := h.trans (by omega) ab
  omega

theorem isLE_compare_zero {i : Int} : (compare i 0).isLE = true ↔ i ≤ 0 := by
  rw [Ordering.isLE_iff_ne_gt, compare_gt_iff_gt, not_lt]

theorem compare_neg (i : Int) : compare (-i) 0 = (compare i 0).swap := by
  rcases lt_trichotomy i 0 with low | rfl | high
  · rw [compare_lt_iff_lt.mpr low, compare_gt_iff_gt.mpr (by omega)]
    rfl
  · rfl
  · rw [compare_gt_iff_gt.mpr high, compare_lt_iff_lt.mpr (by omega)]
    rfl

theorem Lawful.transCmp (h : Lawful fn) : Std.TransCmp fun a b => compare (fn a b) 0 where
  eq_swap := by
    intro a b
    rcases lt_trichotomy (fn b a) 0 with low | same | high
    · rw [compare_lt_iff_lt.mpr low, compare_gt_iff_gt.mpr ((h.swap a b).mp low)]
      rfl
    · rw [same, h.eq_zero_comm.mp same]
      rfl
    · rw [compare_gt_iff_gt.mpr high, compare_lt_iff_lt.mpr ((h.swap b a).mpr high)]
      rfl
  isLE_trans := by
    intro a b c
    simp only [isLE_compare_zero]
    exact h.trans

def Sorted (fn : α → α → Int) (l : List α) : Prop := l.Pairwise fun a b => fn a b ≤ 0

theorem Sorted.merge (h : Lawful fn) {r : List α} (hl : Sorted fn l) (hr : Sorted fn r) :
    Sorted fn (l.merge r fun a b => fn a b ≤ 0) := by
  have merged := @pairwise_merge _ (fun a b => decide (fn a b ≤ 0))
    (fun a b c hab hbc => by
      simp only [decide_eq_true_eq] at hab hbc ⊢
      exact h.trans hab hbc)
    (fun a b => by simpa using h.total a b) l r (by simpa [Sorted] using hl)
    (by simpa [Sorted] using hr)
  simpa [Sorted] using merged

theorem Sorted.mergeSort (h : Lawful fn) (l : List α) :
    Sorted fn (l.mergeSort fun a b => fn a b ≤ 0) := by
  have sorted := @pairwise_mergeSort _ (fun a b => decide (fn a b ≤ 0))
    (fun a b c hab hbc => by
      simp only [decide_eq_true_eq] at hab hbc ⊢
      exact h.trans hab hbc)
    (fun a b => by simpa using h.total a b) l
  simpa [Sorted] using sorted

theorem Sorted.cons (h : Lawful fn) (le : fn a b ≤ 0) (sorted : Sorted fn (b :: l)) :
    Sorted fn (a :: b :: l) := by
  refine pairwise_cons.mpr ⟨?_, sorted⟩
  intro c mem
  rcases mem_cons.mp mem with rfl | later
  · exact le
  · exact h.trans le (rel_of_pairwise_cons sorted later)

/-- The elements that compare equal to `x`. -/
def ties (fn : α → α → Int) (x y : α) : Bool := fn x y = 0

theorem Sorted.no_ties (h : Lawful fn) {x : α} (sorted : Sorted fn (b :: l)) (below : fn a b < 0)
    (tie : fn x a = 0) : (b :: l).filter (ties fn x) = [] := by
  rw [filter_eq_nil_iff]
  intro y mem
  have le : fn b y ≤ 0 := by
    rcases mem_cons.mp mem with rfl | later
    · exact (h.refl y).le
    · exact rel_of_pairwise_cons sorted later
  have less : fn x y < 0 := h.lt_of_le_of_lt tie.le (h.lt_of_lt_of_le below le)
  simpa [ties] using less.ne

theorem Sorted.merge_ties (h : Lawful fn) {r : List α} (hl : Sorted fn l) (hr : Sorted fn r) (x : α) :
    (l.merge r fun a b => fn a b ≤ 0).filter (ties fn x) =
      l.filter (ties fn x) ++ r.filter (ties fn x) := by
  induction l generalizing r with
  | nil => simp
  | cons a l ihl =>
  induction r with
  | nil => simp
  | cons b r ihr =>
    rw [cons_merge_cons]
    split_ifs with le
    · have rest := ihl hl.of_cons hr
      by_cases tie : ties fn x a = true
      · rw [filter_cons_of_pos tie, filter_cons_of_pos tie, rest, cons_append]
      · rw [filter_cons_of_neg tie, filter_cons_of_neg tie, rest]
    · have rest := ihr hr.of_cons
      by_cases tie : ties fn x b = true
      · have gt : fn b a < 0 := (h.swap a b).mpr (by simpa using le)
        have none := Sorted.no_ties h hl gt (of_decide_eq_true tie)
        rw [filter_cons_of_pos tie, filter_cons_of_pos tie, rest, none]
        rfl
      · rw [filter_cons_of_neg tie, filter_cons_of_neg tie, rest]

theorem Lawful.pair_sublist_of_ties (h : Lawful fn) {ms ns : List α}
    (same : ∀ x, ms.filter (ties fn x) = ns.filter (ties fn x)) (tie : fn a b = 0)
    (inOrder : [a, b].Sublist ns) : [a, b].Sublist ms := by
  have both : [a, b].filter (ties fn a) = [a, b] := by
    rw [filter_eq_self]
    intro y mem
    rcases mem_pair.mp mem with rfl | rfl
    · exact decide_eq_true (h.refl y)
    · exact decide_eq_true tie
  have kept := inOrder.filter (ties fn a)
  rw [both, ← same a] at kept
  exact kept.trans filter_sublist

theorem Sorted.below_head (h : Lawful fn) (sorted : Sorted fn (b :: l)) (below : fn a b < 0) :
    ∀ y ∈ b :: l, fn a y < 0 := by
  intro y mem
  rcases mem_cons.mp mem with rfl | later
  · exact below
  · exact h.lt_of_lt_of_le below (rel_of_pairwise_cons sorted later)

theorem holds_or_mem_dropWhile {p : α → Bool} {x : α} (mem : x ∈ l) :
    p x = true ∨ x ∈ l.dropWhile p := by
  rw [← takeWhile_append_dropWhile (p := p) (l := l)] at mem
  rcases mem_append.mp mem with taken | later
  · exact .inl (mem_takeWhile_imp taken)
  · exact .inr later

/-- If nothing of a sorted list is below `a`, what stands behind the ties with `a` is above it. -/
theorem Sorted.above_ties (h : Lawful fn) (sorted : Sorted fn l) (low : ∀ y ∈ l, fn a y ≤ 0) :
    ∀ y ∈ l.dropWhile (fun y => fn a y = 0), fn a y < 0 := by
  have later : (l.dropWhile fun y => fn a y = 0) <:+ l := dropWhile_suffix _
  cases shape : l.dropWhile fun y => fn a y = 0 with
  | nil => exact fun y mem => absurd mem not_mem_nil
  | cons b rest =>
    rw [shape] at later
    have stops : ¬ fn a b = 0 := by
      have head := head_dropWhile_not (fun y => decide (fn a y = 0)) (l := l)
        (by rw [shape]; exact cons_ne_nil b rest)
      simp only [shape, head_cons] at head
      exact of_decide_eq_false head
    have le := low b (later.subset mem_cons_self)
    have sortedRest : Sorted fn (b :: rest) := sorted.sublist later.sublist
    exact sortedRest.below_head h (by omega)

end Comparator
