import Dulge.Package
import Dulge.Lib.Comparator

/-! The list functions of `alpm_list.c` on data sequences. Node identity is kept
where the source relies on it, in the package hash; everywhere else a list is the
sequence of its data pointers. -/
namespace Dulge
open Comparator List

variable {α : Type*}

/-- `alpm_list_mmerge`: ties are taken from the left list. -/
def listMmerge (fn : α → α → Int) : List α → List α → List α
  | [], right => right
  | left, [] => left
  | l :: left, r :: right =>
    if fn l r ≤ 0 then l :: listMmerge fn left (r :: right)
    else r :: listMmerge fn (l :: left) right
termination_by left right => left.length + right.length

theorem listMmerge_eq (fn : α → α → Int) (left right : List α) :
    listMmerge fn left right = left.merge right fun a b => fn a b ≤ 0 := by
  induction left, right using listMmerge.induct fn with
  | case1 right => simp [listMmerge]
  | case2 left nonempty => cases left <;> simp [listMmerge]
  | case3 l left r right le ih => simp [listMmerge, le, ih]
  | case4 l left r right gt ih => simp [listMmerge, gt, ih]

/-- `alpm_list_msort` on the first `n` nodes, where the caller passes the length. -/
def listMsort (fn : α → α → Int) (n : Nat) (list : List α) : List α :=
  if 1 < n then
    listMmerge fn (listMsort fn (n / 2) (list.take (n / 2)))
      (listMsort fn (n - n / 2) (list.drop (n / 2)))
  else list
termination_by n
decreasing_by all_goals omega

/-- `alpm_list_diff_sorted`: the data found only left and only right. -/
def listDiffSorted (fn : α → α → Int) : List α → List α → List α × List α
  | [], right => ([], right)
  | left, [] => (left, [])
  | l :: left, r :: right =>
    let cmp := fn l r
    if cmp < 0 then
      let rest := listDiffSorted fn left (r :: right)
      (l :: rest.1, rest.2)
    else if cmp > 0 then
      let rest := listDiffSorted fn (l :: left) right
      (rest.1, r :: rest.2)
    else listDiffSorted fn left right
termination_by left right => left.length + right.length

def listDiff (fn : α → α → Int) (lhs rhs : List α) : List α :=
  (listDiffSorted fn (listMsort fn lhs.length lhs) (listMsort fn rhs.length rhs)).1

/-- `alpm_list_remove` of the first element that compares equal, with the element. -/
def listRemove (fn : α → α → Int) (haystack : List α) (needle : α) : List α × Option α :=
  (haystack.eraseP fun x => fn x needle = 0, haystack.find? fun x => fn x needle = 0)

theorem listMsort_perm (fn : α → α → Int) (n : Nat) (list : List α) :
    (listMsort fn n list).Perm list := by
  induction n using Nat.strong_induction_on generalizing list with
  | _ n ih =>
    rw [listMsort]
    split_ifs with more
    · have halves := (ih (n / 2) (by omega) (list.take (n / 2))).append
        (ih (n - n / 2) (by omega) (list.drop (n / 2)))
      rw [take_append_drop] at halves
      rw [listMmerge_eq]
      exact (merge_perm_append _).trans halves
    · exact List.Perm.refl _

variable {fn : α → α → Int}

theorem listMsort_sorted (h : Lawful fn) (list : List α) :
    Sorted fn (listMsort fn list.length list) := by
  induction hn : list.length using Nat.strong_induction_on generalizing list with
  | _ n ih =>
    rw [listMsort]
    split_ifs with more
    · rw [listMmerge_eq]
      apply Sorted.merge h
      · have half := ih (n / 2) (by omega) (list.take (n / 2)) (by simp; omega)
        exact half
      · have half := ih (n - n / 2) (by omega) (list.drop (n / 2)) (by simp; omega)
        exact half
    · match list, hn with
      | [], _ => exact List.Pairwise.nil
      | [x], _ => exact pairwise_singleton _ x
      | _ :: _ :: _, hn =>
        simp only [length_cons] at hn
        omega

theorem listMsort_ties (h : Lawful fn) (list : List α) (x : α) :
    (listMsort fn list.length list).filter (ties fn x) = list.filter (ties fn x) := by
  induction hn : list.length using Nat.strong_induction_on generalizing list with
  | _ n ih =>
    rw [listMsort]
    split_ifs with more
    · have leftLength : (list.take (n / 2)).length = n / 2 := by
        rw [length_take]
        omega
      have rightLength : (list.drop (n / 2)).length = n - n / 2 := by
        rw [length_drop, hn]
      have leftSorted := listMsort_sorted h (list.take (n / 2))
      have rightSorted := listMsort_sorted h (list.drop (n / 2))
      rw [leftLength] at leftSorted
      rw [rightLength] at rightSorted
      rw [listMmerge_eq, leftSorted.merge_ties h rightSorted,
        ih (n / 2) (by omega) _ leftLength, ih (n - n / 2) (by omega) _ rightLength,
        ← filter_append, take_append_drop]
    · rfl

section Heads

variable {fn : α → α → Int} {l r : α} {left right : List α}

theorem listDiffSorted_lt (lt : fn l r < 0) : (listDiffSorted fn (l :: left) (r :: right)).1 =
      l :: (listDiffSorted fn left (r :: right)).1 := by
  rw [listDiffSorted]
  simp only [lt, if_true]

theorem listDiffSorted_gt (gt : 0 < fn l r) :
    (listDiffSorted fn (l :: left) (r :: right)).1 = (listDiffSorted fn (l :: left) right).1 := by
  rw [listDiffSorted]
  simp [show ¬ fn l r < 0 by omega, show fn l r > 0 from gt]

theorem listDiffSorted_tie (tie : fn l r = 0) :
    (listDiffSorted fn (l :: left) (r :: right)).1 = (listDiffSorted fn left right).1 := by
  rw [listDiffSorted]
  simp only [tie, lt_self_iff_false, if_false]

end Heads

theorem listDiffSorted_nil_right (fn : α → α → Int) (left : List α) :
    (listDiffSorted fn left []).1 = left := by
  cases left <;> simp [listDiffSorted]

theorem listDiffSorted_sublist (fn : α → α → Int) (left right : List α) :
    (listDiffSorted fn left right).1.Sublist left := by
  induction left, right using listDiffSorted.induct fn with
  | case1 right => simp [listDiffSorted]
  | case2 left nonempty => cases left <;> simp [listDiffSorted]
  | case3 l left r right cmp lt ih =>
    rw [listDiffSorted_lt lt]
    exact ih.cons_cons l
  | case4 l left r right cmp notLt gt ih =>
    rw [listDiffSorted_gt gt]
    exact ih
  | case5 l left r right cmp notLt notGt ih =>
    rw [listDiffSorted_tie (show fn l r = 0 by omega)]
    exact ih.cons l

theorem ties_eq_of_tie (h : Lawful fn) {a b : α} (tie : fn a b = 0) (x : α) :
    ties fn x a = ties fn x b := by
  rw [Bool.eq_iff_iff, ties, ties, decide_eq_true_iff, decide_eq_true_iff]
  constructor
  · exact fun same => h.eq_zero_trans same tie
  · exact fun same => h.eq_zero_trans same (h.eq_zero_comm.mp tie)

/-- Of each class the sorted difference keeps as many elements as the left list has more of. -/
theorem countP_listDiffSorted (h : Lawful fn) {left right : List α} (sortedLeft : Sorted fn left)
    (sortedRight : Sorted fn right) (x : α) : (listDiffSorted fn left right).1.countP (ties fn x) =
      left.countP (ties fn x) - right.countP (ties fn x) := by
  induction left, right using listDiffSorted.induct fn with
  | case1 right => simp [listDiffSorted]
  | case2 left nonempty => cases left <;> simp [listDiffSorted]
  | case3 l left r right cmp lt ih =>
    rw [listDiffSorted_lt lt, countP_cons, countP_cons (l := left),
      ih sortedLeft.of_cons sortedRight]
    by_cases tie : ties fn x l = true
    · -- whatever ties with `l` is below the whole right list
      have none : (r :: right).countP (ties fn x) = 0 := by
        rw [countP_eq_length_filter, sortedRight.no_ties h lt (of_decide_eq_true tie)]
        rfl
      rw [none]
      omega
    · rw [if_neg tie]
      omega
  | case4 l left r right cmp notLt gt ih =>
    rw [listDiffSorted_gt gt, ih sortedLeft sortedRight.of_cons]
    by_cases tie : ties fn x r = true
    · have none : (l :: left).countP (ties fn x) = 0 := by
        rw [countP_eq_length_filter,
          sortedLeft.no_ties h ((h.swap l r).mpr gt) (of_decide_eq_true tie)]
        rfl
      rw [none]
      omega
    · rw [countP_cons_of_neg tie]
  | case5 l left r right cmp notLt notGt ih =>
    have tie : fn l r = 0 := show fn l r = 0 by omega
    rw [listDiffSorted_tie tie, ih sortedLeft.of_cons sortedRight.of_cons, countP_cons,
      countP_cons, ties_eq_of_tie h tie x]
    omega

theorem listDiff_sorted (h : Lawful fn) (lhs rhs : List α) : Sorted fn (listDiff fn lhs rhs) :=
  (listMsort_sorted h lhs).sublist (listDiffSorted_sublist fn _ _)

theorem listDiff_subset (fn : α → α → Int) (lhs rhs : List α) : listDiff fn lhs rhs ⊆ lhs := by
  intro d mem
  exact (listMsort_perm fn lhs.length lhs).subset ((listDiffSorted_sublist fn _ _).subset mem)

theorem countP_listDiff (h : Lawful fn) (lhs rhs : List α) (x : α) :
    (listDiff fn lhs rhs).countP (ties fn x) = lhs.countP (ties fn x) - rhs.countP (ties fn x) := by
  rw [listDiff, countP_listDiffSorted h (listMsort_sorted h lhs) (listMsort_sorted h rhs),
    (listMsort_perm fn _ lhs).countP_eq, (listMsort_perm fn _ rhs).countP_eq]

/-- `alpm_list_diff` of a list without ties, as a set. -/
theorem mem_listDiff (h : Lawful fn) {lhs : List α} (rhs : List α)
    (distinct : lhs.Pairwise fun a b => fn a b ≠ 0) (x : α) :
    x ∈ listDiff fn lhs rhs ↔ x ∈ lhs ∧ ∀ y ∈ rhs, fn x y ≠ 0 := by
  have counts := countP_listDiff h lhs rhs x
  have self : ties fn x x = true := decide_eq_true (h.refl x)
  have apart : rhs.countP (ties fn x) = 0 ↔ ∀ y ∈ rhs, fn x y ≠ 0 := by simp [countP_eq_zero, ties]
  -- the left list has no other element that ties with `x`
  have only (mem : x ∈ lhs) : lhs.filter (ties fn x) = [x] := by
    have mine := mem_filter.mpr ⟨mem, self⟩
    have differ := distinct.filter (ties fn x)
    have tied : ∀ y ∈ lhs.filter (ties fn x), fn x y = 0 :=
      fun y hit => of_decide_eq_true (mem_filter.mp hit).2
    rcases shape : lhs.filter (ties fn x) with _ | ⟨a, _ | ⟨b, rest⟩⟩
    · simp [shape] at mine
    · rw [shape, mem_singleton] at mine
      rw [mine]
    · rw [shape] at tied differ
      have equal := h.eq_zero_trans (h.eq_zero_comm.mp (tied a mem_cons_self)) (tied b (by simp))
      exact absurd equal (rel_of_pairwise_cons differ mem_cons_self)
  rw [countP_eq_length_filter (l := lhs)] at counts
  constructor
  · intro mem
    have inside := listDiff_subset fn lhs rhs mem
    have kept : 0 < (listDiff fn lhs rhs).countP (ties fn x) := countP_pos_iff.mpr ⟨x, mem, self⟩
    rw [counts, only inside, length_singleton] at kept
    exact ⟨inside, apart.mp (by omega)⟩
  · rintro ⟨mem, none⟩
    rw [apart.mpr none, only mem, length_singleton] at counts
    obtain ⟨y, kept, tie⟩ := countP_pos_iff.mp (by rw [counts]; exact Nat.one_pos)
    have hit := mem_filter.mpr ⟨listDiff_subset fn lhs rhs kept, tie⟩
    rw [only mem, mem_singleton] at hit
    exact hit ▸ kept

theorem strcmp_lawful : Lawful strcmp := by
  refine ⟨?_, fun hab hbc => strcmp_trans hab hbc⟩
  intro a b
  rw [strcmp_swap a b]
  omega

theorem pkgCmp_lawful : Lawful pkgCmp :=
  ⟨fun a b => strcmp_lawful.swap a.name b.name, strcmp_lawful.trans⟩

theorem pkgCmp_eq_zero {a b : Pkg} : pkgCmp a b = 0 ↔ a.name = b.name := strcmp_eq_zero

theorem mem_listDiff_pkgCmp {lhs : List Pkg} (rhs : List Pkg) (names : (lhs.map Pkg.name).Nodup)
    (p : Pkg) : p ∈ listDiff pkgCmp lhs rhs ↔ p ∈ lhs ∧ ∀ q ∈ rhs, p.name ≠ q.name := by
  have distinct : lhs.Pairwise fun a b => pkgCmp a b ≠ 0 := by
    simpa only [ne_eq, pkgCmp_eq_zero, List.Nodup, pairwise_map] using names
  simpa only [ne_eq, pkgCmp_eq_zero] using mem_listDiff pkgCmp_lawful rhs distinct p

theorem listDiff_names {lhs : List Pkg} (rhs : List Pkg) (names : (lhs.map Pkg.name).Nodup) :
    ((listDiff pkgCmp lhs rhs).map Pkg.name).Nodup := by
  have sorted := ((listMsort_perm pkgCmp lhs.length lhs).map Pkg.name).nodup_iff.mpr names
  exact ((listDiffSorted_sublist pkgCmp _ _).map Pkg.name).nodup sorted

theorem mem_listRemove {pkgs : List Pkg} (names : (pkgs.map Pkg.name).Nodup) (needle p : Pkg) :
    p ∈ (listRemove pkgCmp pkgs needle).1 ↔ p ∈ pkgs ∧ p.name ≠ needle.name := by
  unfold listRemove
  simp only [pkgCmp_eq_zero]
  induction pkgs with
  | nil => simp
  | cons q pkgs ih =>
    have others := nodup_cons.mp names
    rw [eraseP_cons]
    by_cases same : q.name = needle.name
    · simp only [same, decide_true, cond_true, mem_cons]
      constructor
      · intro mem
        refine ⟨.inr mem, fun again => others.1 ?_⟩
        rw [same, ← again]
        exact mem_map_of_mem mem
      · rintro ⟨rfl | mem, differs⟩
        · exact absurd same differs
        · exact mem
    · simp only [same, decide_false, cond_false, mem_cons, ih others.2]
      constructor
      · rintro (rfl | ⟨mem, differs⟩)
        · exact ⟨.inl rfl, same⟩
        · exact ⟨.inr mem, differs⟩
      · rintro ⟨rfl | mem, differs⟩
        · exact .inl rfl
        · exact .inr ⟨mem, differs⟩

theorem listRemove_sublist {α : Type*} (fn : α → α → Int) (haystack : List α) (needle : α) :
    (listRemove fn haystack needle).1.Sublist haystack := eraseP_sublist

end Dulge
