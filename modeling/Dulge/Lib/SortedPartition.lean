import Dulge.Lib.Comparator

/-! Two sorted sequences are parted in place into what only the first has, what both have and
what only the second has. A pointer runs through each sequence; what both have is taken out of
them with all its repetitions. -/

namespace SortedPartition
open Comparator List

variable {α : Type*}

structure Cursor (α : Type*) where
  before : List α
  after : List α
  deriving DecidableEq, Repr

namespace Cursor

def first (list : List α) : Cursor α := ⟨[], list⟩

def toList (c : Cursor α) : List α := c.before ++ c.after

def skip (p : α → Bool) (c : Cursor α) : Cursor α :=
  ⟨c.before ++ c.after.takeWhile p, c.after.dropWhile p⟩

def takeOut (p : α → Bool) (c : Cursor α) : Cursor α := ⟨c.before, c.after.dropWhile p⟩

@[simp] theorem toList_skip (p : α → Bool) (c : Cursor α) : (c.skip p).toList = c.toList := by
  rw [toList, skip, append_assoc, takeWhile_append_dropWhile]
  rfl

theorem stops_skip {p : α → Bool} {c : Cursor α} {x : α} {rest : List α}
    (here : (c.skip p).after = x :: rest) : p x = false := by
  have shape : c.after.dropWhile p = x :: rest := here
  have head := head_dropWhile_not p (l := c.after) (shape ▸ cons_ne_nil x rest)
  simpa only [shape, head_cons] using head

theorem mem_toList {c : Cursor α} {x : α} : x ∈ c.toList ↔ x ∈ c.before ∨ x ∈ c.after :=
  mem_append

theorem toList_takeOut_sublist (p : α → Bool) (c : Cursor α) :
    (c.takeOut p).toList.Sublist c.toList :=
  (List.Sublist.refl _).append (dropWhile_sublist _)

end Cursor

structure Parts (α : Type*) where
  left : Cursor α
  both : List α
  right : Cursor α
  deriving DecidableEq, Repr

variable (fn : α → α → Int)

/-- The loop: the right pointer passes what is below the left element; on a tie both sequences
lose the element, otherwise the left pointer moves on. -/
def part (s : Parts α) : Parts α :=
  match _here : s.left.after with
  | [] => s
  | i :: left =>
    let right := s.right.skip fun j => fn i j > 0
    match right.after with
    | [] => { s with right := right }
    | j :: _ =>
      if fn i j = 0 then
        -- the left element is the first of its ties
        part ⟨⟨s.left.before, left.dropWhile fun x => fn x i = 0⟩, s.both ++ [i],
          right.takeOut fun x => fn x i = 0⟩
      else part ⟨⟨s.left.before ++ [i], left⟩, s.both, right⟩
termination_by s.left.after.length
decreasing_by
  · rw [_here, length_cons]
    exact Nat.lt_succ_of_le (length_dropWhile_le _ _)
  · rw [_here, length_cons]
    exact Nat.lt_succ_self _

variable {fn}

/-- One of the sequences against what it was at first: it has lost exactly the ties of the
elements found in both. -/
structure Side (fn : α → α → Int) (both all : List α) (c : Cursor α) : Prop where
  sublist : c.toList.Sublist all
  found : ∀ z ∈ both, (∃ x ∈ all, fn x z = 0) ∧ ∀ x ∈ c.toList, fn x z ≠ 0
  kept : ∀ x ∈ all, x ∈ c.toList ∨ ∃ z ∈ both, fn x z = 0

theorem Side.first (all : List α) : Side fn [] all (.first all) where
  sublist := List.Sublist.refl _
  found := fun _ mem => absurd mem not_mem_nil
  kept := fun _ => .inl

variable {both all : List α} {c : Cursor α}

theorem Side.of_toList {c' : Cursor α} (side : Side fn both all c) (same : c'.toList = c.toList) :
    Side fn both all c' := by
  refine ⟨?_, ?_, ?_⟩
  · rw [same]
    exact side.sublist
  · rw [same]
    exact side.found
  · rw [same]
    exact side.kept

theorem Side.sorted_after (side : Side fn both all c) (sorted : Sorted fn all) :
    Sorted fn c.after :=
  (sorted.sublist side.sublist).sublist (sublist_append_right _ _)

theorem ties_comm (h : Lawful fn) (a : α) :
    (fun x => decide (fn x a = 0)) = fun x => decide (fn a x = 0) := by
  funext x
  rw [decide_eq_decide]
  exact h.eq_zero_comm

/-- An element that has a tie under the pointer and none in front of it is taken out. -/
theorem Side.takeOut (h : Lawful fn) {i j : α} {rest : List α} (sorted : Sorted fn all)
    (side : Side fn both all c) (before : ∀ x ∈ c.before, fn x i ≠ 0) (here : c.after = j :: rest)
    (tie : fn i j = 0) : Side fn (both ++ [i]) all (c.takeOut fun x => fn x i = 0) := by
  have sortedAfter := side.sorted_after sorted
  have after : ∀ x ∈ c.after.dropWhile (fun x => fn x i = 0), fn i x < 0 := by
    rw [ties_comm h]
    refine Sorted.above_ties h sortedAfter ?_
    rw [here] at sortedAfter ⊢
    exact forall_mem_cons.mpr ⟨tie.le, fun y later =>
      h.trans tie.le (rel_of_pairwise_cons sortedAfter later)⟩
  have shrinks := c.toList_takeOut_sublist fun x => fn x i = 0
  refine ⟨shrinks.trans side.sublist, ?_, ?_⟩
  · intro z mem
    rcases mem_append.mp mem with earlier | now
    · obtain ⟨inAll, apart⟩ := side.found z earlier
      exact ⟨inAll, fun x inside => apart x (shrinks.subset inside)⟩
    · cases mem_singleton.mp now
      have under : j ∈ c.toList := Cursor.mem_toList.mpr (.inr (here ▸ mem_cons_self))
      refine ⟨⟨j, side.sublist.subset under, h.eq_zero_comm.mp tie⟩, ?_⟩
      intro x inside
      rcases Cursor.mem_toList.mp inside with front | behind
      · exact before x front
      · have swapped := h.swap x i
        have above := after x behind
        omega
  · intro x inAll
    rcases side.kept x inAll with inside | ⟨z, mem, equal⟩
    · rcases Cursor.mem_toList.mp inside with front | behind
      · exact .inl (Cursor.mem_toList.mpr (.inl front))
      · rcases holds_or_mem_dropWhile (p := fun x => fn x i = 0) behind with equal | later
        · exact .inr ⟨i, mem_append_right _ mem_cons_self, of_decide_eq_true equal⟩
        · exact .inl (Cursor.mem_toList.mpr (.inr later))
    · exact .inr ⟨z, mem_append_left _ mem, equal⟩

/-- What the loop keeps: no element in front of the left pointer has a tie on the right, and
what the right pointer has passed is below the rest of the left. -/
structure Parting (fn : α → α → Int) (I D : List α) (s : Parts α) : Prop where
  left : Side fn s.both I s.left
  right : Side fn s.both D s.right
  passed : ∀ x ∈ s.left.before, ∀ y ∈ s.right.toList, fn x y ≠ 0
  below : ∀ y ∈ s.right.before, ∀ x ∈ s.left.after, fn y x < 0

theorem Parting.start (I D : List α) : Parting fn I D ⟨.first I, [], .first D⟩ where
  left := .first I
  right := .first D
  passed := fun _ mem => absurd mem not_mem_nil
  below := fun _ mem => absurd mem not_mem_nil

section Steps

variable {I D : List α} {s : Parts α} {i j : α} {left right : List α}

theorem Parting.skip (h : Lawful fn) (sortedLeft : Sorted fn I) (parting : Parting fn I D s)
    (here : s.left.after = i :: left) :
    Parting fn I D { s with right := s.right.skip fun j => fn i j > 0 } := by
  have sorted : Sorted fn (i :: left) := here ▸ parting.left.sorted_after sortedLeft
  refine ⟨parting.left, parting.right.of_toList (Cursor.toList_skip _ _), ?_, ?_⟩
  · rw [Cursor.toList_skip]
    exact parting.passed
  · intro y mem x inLeft
    rcases mem_append.mp mem with earlier | now
    · exact parting.below y earlier x inLeft
    · have above : fn i y > 0 := by simpa using mem_takeWhile_imp now
      rw [here] at inLeft
      exact sorted.below_head h ((h.swap i y).mpr above) x inLeft

theorem Parting.move (h : Lawful fn) (sortedRight : Sorted fn D) (parting : Parting fn I D s)
    (here : s.left.after = i :: left) (there : s.right.after = j :: right) (low : fn i j < 0) :
    Parting fn I D { s with left := ⟨s.left.before ++ [i], left⟩ } := by
  have sorted : Sorted fn (j :: right) := there ▸ parting.right.sorted_after sortedRight
  refine ⟨parting.left.of_toList ?_, parting.right, ?_, ?_⟩
  · simp [Cursor.toList, here]
  · intro x mem y inRight
    rcases mem_append.mp mem with earlier | now
    · exact parting.passed x earlier y inRight
    · cases mem_singleton.mp now
      rcases Cursor.mem_toList.mp inRight with passed | ahead
      · have under := parting.below y passed i (here ▸ mem_cons_self)
        have swapped := h.swap i y
        omega
      · exact (sorted.below_head h low y (there ▸ ahead)).ne
  · intro y mem x inLeft
    exact parting.below y mem x (here ▸ mem_cons_of_mem i inLeft)

theorem Parting.tie (h : Lawful fn) (sortedLeft : Sorted fn I) (sortedRight : Sorted fn D)
    (parting : Parting fn I D s) (here : s.left.after = i :: left)
    (there : s.right.after = j :: right) (tie : fn i j = 0) :
    Parting fn I D ⟨⟨s.left.before, left.dropWhile fun x => fn x i = 0⟩, s.both ++ [i],
      s.right.takeOut fun x => fn x i = 0⟩ := by
  have taken : (⟨s.left.before, left.dropWhile fun x => fn x i = 0⟩ : Cursor α) =
      s.left.takeOut fun x => fn x i = 0 := by
    simp [Cursor.takeOut, here, h.refl i]
  have under : j ∈ s.right.toList := Cursor.mem_toList.mpr (.inr (there ▸ mem_cons_self))
  rw [taken]
  refine ⟨?_, ?_, ?_, ?_⟩
  · refine parting.left.takeOut h sortedLeft ?_ here (h.refl i)
    exact fun x mem equal => parting.passed x mem j under (h.eq_zero_trans equal tie)
  · refine parting.right.takeOut h sortedRight ?_ there tie
    exact fun y mem => (parting.below y mem i (here ▸ mem_cons_self)).ne
  · intro x mem y inRight
    exact parting.passed x mem y ((s.right.toList_takeOut_sublist _).subset inRight)
  · intro y mem x inLeft
    exact parting.below y mem x ((dropWhile_sublist _).subset inLeft)

theorem Parting.end (parting : Parting fn I D s) (done : s.left.after = [] ∨ s.right.after = [])
    (h : Lawful fn) : ∀ x ∈ s.left.toList, ∀ y ∈ s.right.toList, fn x y ≠ 0 := by
  intro x inLeft y inRight
  rcases Cursor.mem_toList.mp inLeft with front | behind
  · exact parting.passed x front y inRight
  · rcases done with none | none
    · exact absurd (none ▸ behind) not_mem_nil
    · rcases Cursor.mem_toList.mp inRight with passed | ahead
      · have under := parting.below y passed x behind
        have swapped := h.swap x y
        omega
      · exact absurd (none ▸ ahead) not_mem_nil

theorem part_parting (h : Lawful fn) (sortedLeft : Sorted fn I) (sortedRight : Sorted fn D)
    (parting : Parting fn I D s) : Parting fn I D (part fn s) ∧
      ((part fn s).left.after = [] ∨ (part fn s).right.after = []) := by
  fun_induction part fn s with
  | case1 s none => exact ⟨parting, .inl none⟩
  | case2 s i left here right none => exact ⟨parting.skip h sortedLeft here, .inr none⟩
  | case3 s i left here right j rest there tie ih =>
    exact ih ((parting.skip h sortedLeft here).tie h sortedLeft sortedRight here there tie)
  | case4 s i left here right j rest there apart ih =>
    refine ih ((parting.skip h sortedLeft here).move h sortedRight here there ?_)
    have stops : ¬ fn i j > 0 := of_decide_eq_false
      (Cursor.stops_skip (p := fun j => fn i j > 0) there)
    omega

end Steps

structure Parted (fn : α → α → Int) (I D : List α) (s : Parts α) : Prop where
  left : ∀ x, x ∈ s.left.toList ↔ x ∈ I ∧ ∀ y ∈ D, fn x y ≠ 0
  both : ∀ x, (∃ z ∈ s.both, fn x z = 0) ↔ (∃ a ∈ I, fn x a = 0) ∧ ∃ b ∈ D, fn x b = 0
  right : ∀ y, y ∈ s.right.toList ↔ y ∈ D ∧ ∀ x ∈ I, fn y x ≠ 0

theorem Side.mem_iff (h : Lawful fn) {other : List α} {d : Cursor α} (side : Side fn both all c)
    (opposite : Side fn both other d) (apart : ∀ x ∈ c.toList, ∀ y ∈ d.toList, fn x y ≠ 0) (x : α) :
    x ∈ c.toList ↔ x ∈ all ∧ ∀ y ∈ other, fn x y ≠ 0 := by
  constructor
  · intro inside
    refine ⟨side.sublist.subset inside, fun y mem equal => ?_⟩
    rcases opposite.kept y mem with there | ⟨z, found, tie⟩
    · exact apart x inside y there equal
    · exact (side.found z found).2 x inside (h.eq_zero_trans equal tie)
  · rintro ⟨mem, alone⟩
    rcases side.kept x mem with inside | ⟨z, found, tie⟩
    · exact inside
    · obtain ⟨y, there, equal⟩ := (opposite.found z found).1
      exact absurd (h.eq_zero_trans tie (h.eq_zero_comm.mp equal)) (alone y there)

theorem part_parted (h : Lawful fn) {I D : List α} (sortedLeft : Sorted fn I)
    (sortedRight : Sorted fn D) : Parted fn I D (part fn ⟨.first I, [], .first D⟩) := by
  obtain ⟨parting, done⟩ := part_parting h sortedLeft sortedRight (.start I D)
  have apart := parting.end done h
  refine ⟨parting.left.mem_iff h parting.right apart, ?_, ?_⟩
  · intro x
    constructor
    · rintro ⟨z, found, tie⟩
      obtain ⟨a, inI, left⟩ := (parting.left.found z found).1
      obtain ⟨b, inD, right⟩ := (parting.right.found z found).1
      exact ⟨⟨a, inI, h.eq_zero_trans tie (h.eq_zero_comm.mp left)⟩,
        ⟨b, inD, h.eq_zero_trans tie (h.eq_zero_comm.mp right)⟩⟩
    · rintro ⟨⟨a, inI, left⟩, ⟨b, inD, right⟩⟩
      rcases parting.left.kept a inI with inside | ⟨z, found, tie⟩
      · have alone := ((parting.left.mem_iff h parting.right apart a).mp inside).2 b inD
        exact absurd (h.eq_zero_trans (h.eq_zero_comm.mp left) right) alone
      · exact ⟨z, found, h.eq_zero_trans left tie⟩
  · refine parting.right.mem_iff h parting.left ?_
    exact fun y inRight x inLeft equal => apart x inLeft y inRight (h.eq_zero_comm.mp equal)

end SortedPartition
