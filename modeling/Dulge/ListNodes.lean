import Dulge.Lib.NodeList
import Mathlib.Data.Int.Basic

/-! The list functions of `alpm_list.c` on list nodes in a heap. `none` is a read or a write
through a bad pointer, or a loop that has not ended after the given number of turns. -/

namespace Dulge
open NodeList List Option
open Prod (fst snd)

variable {ρ α : Type}

def alpmListLast (h : Heap ρ α) (list : Option ρ) : Option (Option ρ) :=
  match list with
  | none => some none
  | some _ => do
      let node ← h.read list
      return node.prev

def alpmListPrevious (h : Heap ρ α) (list : Option ρ) : Option (Option ρ) :=
  match list with
  | none => some none
  | some _ => do
      let node ← h.read list
      let prev ← h.read node.prev
      return if prev.next.isSome then node.prev else none

variable [DecidableEq ρ] (m : Allocator ρ α)

/-- `alpm_list_append`: the new node, what `*list` is afterwards, and the heap. -/
def alpmListAppend (h : Heap ρ α) (list : Option ρ) (data : α) :
    Option (Option ρ × Option ρ × Heap ρ α) :=
  match m.malloc h with
  | none => some (none, list, h)
  | some ptr => do
      let h := h.set ptr (some ⟨data, none, none⟩)
      match list with
      | none =>
        let h ← h.setPrev (some ptr) (some ptr)
        return (some ptr, some ptr, h)
      | some _ =>
        let lp ← alpmListLast h list
        let h ← h.setNext lp (some ptr)
        let h ← h.setPrev (some ptr) lp
        let h ← h.setPrev list (some ptr)
        return (some ptr, list, h)

def alpmListAdd (h : Heap ρ α) (list : Option ρ) (data : α) : Option (Option ρ × Heap ρ α) := do
  let (_, list, h) ← alpmListAppend m h list data
  return (list, h)

omit [DecidableEq ρ] in
/-- The loop of `alpm_list_add_sorted` that finds the insertion point, between `prev` and
`next`. -/
def insertionPoint (h : Heap ρ α) (data : α) (fn : α → α → Int) :
    Nat → Option ρ → Option ρ → Option (Option ρ × Option ρ)
  | _, prev, none => some (prev, none)
  | 0, _, some _ => none
  | turns + 1, prev, some next => do
      let node ← h.read (some next)
      if fn data node.data ≤ 0 then return (prev, some next)
      insertionPoint h data fn turns (some next) node.next

/-- The part of `alpm_list_add_sorted` that inserts the node `add` at the insertion point. -/
def insertNode (h : Heap ρ α) (list add prev next : Option ρ) : Option (Option ρ × Heap ρ α) :=
  match prev, next with
  | none, _ => do
      let first ← h.read list
      let h ← h.setPrev add first.prev
      let h ← h.setNext add list
      let h ← h.setPrev list add
      return (add, h)
  | some _, none => do
      let h ← h.setPrev add prev
      let h ← h.setNext add none
      let h ← h.setNext prev add
      let h ← h.setPrev list add
      return (list, h)
  | some _, some _ => do
      let h ← h.setPrev add prev
      let h ← h.setNext add next
      let h ← h.setPrev next add
      let h ← h.setNext prev add
      return (list, h)

/-- `alpm_list_add_sorted`; the comparison function may be missing. -/
def alpmListAddSorted (turns : Nat) (h : Heap ρ α) (list : Option ρ) (data : α)
    (fn : Option (α → α → Int)) : Option (Option ρ × Heap ρ α) :=
  match fn, list with
  | some fn, some _ =>
    match m.malloc h with
    | none => some (list, h)
    | some add => do
        let h := h.set add (some ⟨data, none, none⟩)
        let (prev, next) ← insertionPoint h data fn turns none list
        insertNode h list (some add) prev next
  | _, _ => alpmListAdd m h list data

def alpmListJoin (h : Heap ρ α) (first second : Option ρ) : Option (Option ρ × Heap ρ α) :=
  match first, second with
  | none, _ => some (second, h)
  | some _, none => some (first, h)
  | some _, some _ => do
      let head ← h.read first
      let tmp := head.prev
      let h ← h.setNext tmp second
      let head ← h.read second
      let h ← h.setPrev first head.prev
      let h ← h.setPrev second tmp
      return (first, h)

def alpmListRemoveItem (h : Heap ρ α) (haystack item : Option ρ) : Option (Option ρ × Heap ρ α) :=
  match haystack, item with
  | some _, some _ => do
      let node ← h.read item
      if item = haystack then
        let haystack := node.next
        let h ← if haystack.isSome then h.setPrev haystack node.prev else some h
        let h ← h.setPrev item none
        return (haystack, h)
      let first ← h.read haystack
      if item = first.prev then
        if node.prev.isSome then
          let h ← h.setNext node.prev node.next
          let h ← h.setPrev haystack node.prev
          let h ← h.setPrev item none
          return (haystack, h)
        return (haystack, h)
      let h ← if node.next.isSome then h.setPrev node.next node.prev else some h
      let h ← if node.prev.isSome then h.setNext node.prev node.next else some h
      return (haystack, h)
  | _, _ => some (haystack, h)

/-- The nodes that repeated `alpm_list_previous` visits. -/
def previousNodes (h : Heap ρ α) : Nat → Option ρ → Option (List ρ)
  | _, none => some []
  | 0, some _ => none
  | turns + 1, some node => do
      let previous ← alpmListPrevious h (some node)
      let rest ← previousNodes h turns previous
      return node :: rest

section Last

omit [DecidableEq ρ]

variable {h : Heap ρ α} {list : Option ρ} {ns : List (ρ × α)}

theorem alpmListLast_eq (wf : WellFormed h list ns) : alpmListLast h list = some (back none ns) := by
  rw [wf.head]
  cases ns with
  | nil => rfl
  | cons n ns =>
    rw [front_cons, alpmListLast, wf.read_head]
    rfl

theorem alpmListPrevious_eq {xs ys : List (ρ × α)} {x : ρ × α}
    (wf : WellFormed h list (xs ++ x :: ys)) :
    alpmListPrevious h (some x.1) = some (back none xs) := by
  simp only [alpmListPrevious, wf.read_middle, bind_eq_bind, bind_some]
  obtain rfl | ⟨init, w, rfl⟩ := eq_nil_or_concat xs
  · -- the last node ends the list, so the head has no predecessor
    obtain none | ⟨init, last, shape⟩ := eq_nil_or_concat (x :: ys)
    · cases none
    rw [nil_append, shape, concat_eq_append] at wf
    rw [nil_append, shape, concat_eq_append, back_nil, back_append, back_cons, back_nil,
      wf.read_middle]
    rfl
  · rw [concat_eq_append] at wf ⊢
    simp only [back_append, back_cons, back_nil]
    rw [append_assoc] at wf
    simp only [wf.read_middle]
    rfl

theorem previousNodes_eq {xs ys : List (ρ × α)} (wf : WellFormed h list (xs ++ ys)) {turns : Nat}
    (enough : xs.length ≤ turns) :
    previousNodes h turns (back none xs) = some (xs.map fst).reverse := by
  induction xs using List.reverseRecOn generalizing ys turns with
  | nil => cases turns <;> rfl
  | append_singleton xs x ih =>
    rw [length_append, length_singleton] at enough
    rw [append_assoc] at wf
    obtain ⟨turns, rfl⟩ : ∃ more, turns = more + 1 := ⟨turns - 1, by omega⟩
    rw [back_append, back_cons, back_nil]
    have rest := ih wf (Nat.le_of_succ_le_succ enough)
    simp only [previousNodes, alpmListPrevious_eq wf, rest, bind_eq_bind,
      Option.bind_some, Option.pure_def, map_append, reverse_append]
    rfl

end Last

section Append

variable {m} {h : Heap ρ α} {list : Option ρ} {ns : List (ρ × α)} {p : ρ}

theorem alpmListAppend_spec (wf : WellFormed h list ns) (given : m.malloc h = some p) (data : α) :
    ∃ list' h', alpmListAppend m h list data = some (some p, list', h') ∧
      WellFormed h' list' (ns ++ [(p, data)]) ∧ Keeps h h' (ns.map fst) := by
  have fresh := m.fresh h p given
  have apart := wf.disjoint_fresh fresh
  simp only [alpmListAppend, given]
  have new := segment_set h p data none none
  have kept : Keeps h (h.set p (some ⟨data, none, none⟩)) (ns.map fst ++ [p]) :=
    keeps_set (by simp) _
  have old := wf.kept (keeps_set mem_cons_self (some ⟨data, none, none⟩)) apart
  generalize h.set p (some ⟨data, none, none⟩) = h₁ at new kept old ⊢
  cases ns with
  | nil =>
    obtain ⟨h₂, wrote, new, changed⟩ := new.setPrev_head (some p)
    refine ⟨some p, h₂, ?_, ⟨new, rfl⟩, (kept.trans changed).of_fresh fresh⟩
    simp [wf.head, front_nil, wrote]
  | cons n ns =>
    have last := alpmListLast_eq old
    obtain ⟨h₂, linked, old, changed₂⟩ := old.setNext_last (cons_ne_nil n ns) (some p)
    have new := new.kept changed₂ apart.symm
    obtain ⟨h₃, linkedBack, new, changed₃⟩ := new.setPrev_head (back none (n :: ns))
    have old := old.kept changed₃ apart
    obtain ⟨h₄, closed, old, changed₄⟩ := old.setPrev_head (some p)
    have new := new.kept changed₄ apart.symm
    refine ⟨some n.1, h₄, ?_, ⟨?_, rfl⟩, Keeps.of_fresh ?_ fresh⟩
    · simp only [wf.head, front_cons] at last ⊢
      simp only [last, linked, linkedBack, closed, Option.bind_eq_bind, Option.bind_some,
        Option.pure_def]
    · rw [back_append, back_cons, back_nil]
      exact old.append new apart
    · have more₂ := changed₂.mono (subset_append_left _ [p])
      have more₃ := changed₃.mono (subset_append_right ((n :: ns).map fst) _)
      have more₄ := changed₄.mono (subset_append_left _ [p])
      exact ((kept.trans more₂).trans more₃).trans more₄

end Append

section Join

variable {h : Heap ρ α} {first second : Option ρ} {ns ms : List (ρ × α)}

theorem alpmListJoin_spec (wf : WellFormed h first ns) (wf' : WellFormed h second ms)
    (apart : (ns.map fst).Disjoint (ms.map fst)) :
    ∃ list' h', alpmListJoin h first second = some (list', h') ∧ WellFormed h' list' (ns ++ ms) ∧
      Keeps h h' ((ns ++ ms).map fst) := by
  cases ns with
  | nil =>
    refine ⟨second, h, ?_, wf', Keeps.refl h _⟩
    rw [wf.head]
    rfl
  | cons n ns =>
  cases ms with
  | nil =>
    refine ⟨first, h, ?_, (append_nil (n :: ns)).symm ▸ wf, Keeps.refl h _⟩
    rw [wf.head, wf'.head]
    rfl
  | cons k ms =>
    have left := wf.toSegment
    have right := wf'.toSegment
    obtain ⟨h₂, linked, left, changed₂⟩ := left.setNext_last (cons_ne_nil n ns) (some k.1)
    have right := right.kept changed₂ apart.symm
    have tail := right.read_head
    obtain ⟨h₃, closed, left, changed₃⟩ := left.setPrev_head (back none (k :: ms))
    have right := right.kept changed₃ apart.symm
    obtain ⟨h₄, linkedBack, right, changed₄⟩ := right.setPrev_head (back none (n :: ns))
    have left := left.kept changed₄ apart
    refine ⟨some n.1, h₄, ?_, ⟨?_, rfl⟩, ?_⟩
    · simp only [alpmListJoin, wf.head, wf'.head, front_cons, wf.read_head, linked, tail, closed,
        linkedBack, Option.bind_eq_bind, Option.bind_some, Option.pure_def]
    · rw [back_append]
      exact left.append right apart
    · rw [map_append]
      have more₂ := changed₂.mono (subset_append_left _ ((k :: ms).map fst))
      have more₃ := changed₃.mono (subset_append_left _ ((k :: ms).map fst))
      have more₄ := changed₄.mono (subset_append_right ((n :: ns).map fst) _)
      exact (more₂.trans more₃).trans more₄

end Join

section AddSorted

variable {m} {h : Heap ρ α} {list : Option ρ} {ns : List (ρ × α)} {p : ρ}

/-- The elements that are smaller than `data`. -/
def below (fn : α → α → Int) (data : α) (n : ρ × α) : Bool := 0 < fn data n.2

omit [DecidableEq ρ] in
theorem insertionPoint_eq {before : Option ρ} (segment : Segment h before ns none) {turns : Nat}
    (enough : ns.length ≤ turns) (data : α) (fn : α → α → Int) (prev : Option ρ) :
    insertionPoint h data fn turns prev (front ns none) =
      some (back prev (ns.takeWhile (below fn data)), front (ns.dropWhile (below fn data)) none) := by
  induction ns generalizing before turns prev with
  | nil => cases turns <;> rfl
  | cons n ns ih =>
    rw [length_cons] at enough
    obtain ⟨turns, rfl⟩ : ∃ more, turns = more + 1 := ⟨turns - 1, by omega⟩
    have later := ih segment.tail (Nat.le_of_succ_le_succ enough) (some n.1)
    simp only [insertionPoint, front_cons, segment.read_head, bind_eq_bind, bind_some]
    by_cases stop : fn data n.2 ≤ 0
    · have least : ¬ below fn data n = true := by simpa [below] using stop
      rw [if_pos stop, takeWhile_cons_of_neg least, dropWhile_cons_of_neg least]
      rfl
    · have less : below fn data n = true := by simpa [below] using stop
      rw [if_neg stop, takeWhile_cons_of_pos less, dropWhile_cons_of_pos less]
      exact later

/-- The two writes to the new node. -/
theorem setLinks_spec {data : α} (new : Segment h none [(p, data)] none) (prev next : Option ρ) :
    ∃ h₂ h₃, h.setPrev (some p) prev = some h₂ ∧ h₂.setNext (some p) next = some h₃ ∧
      Segment h₃ prev [(p, data)] next ∧ Keeps h h₃ [p] := by
  obtain ⟨h₂, wrote₂, new, changed₂⟩ := new.setPrev_head prev
  obtain ⟨h₃, wrote₃, new, changed₃⟩ := new.setNext_last (cons_ne_nil _ _) next
  exact ⟨h₂, h₃, wrote₂, wrote₃, new, changed₂.trans changed₃⟩

/-- The new node comes between `xs` and `ys`. -/
theorem insertNode_spec {xs ys : List (ρ × α)} {data : α} (wf : WellFormed h list (xs ++ ys))
    (nonempty : xs ++ ys ≠ []) (new : Segment h none [(p, data)] none)
    (apart : ((xs ++ ys).map fst).Disjoint [p]) :
    ∃ list' h', insertNode h list (some p) (back none xs) (front ys none) = some (list', h') ∧
      WellFormed h' list' (xs ++ (p, data) :: ys) ∧
      Keeps h h' ((xs ++ ys).map fst ++ [p]) := by
  have olds : ((xs ++ ys).map fst) ⊆ (xs ++ ys).map fst ++ [p] :=
    subset_append_left _ _
  have news : [p] ⊆ (xs ++ ys).map fst ++ [p] := subset_append_right _ _
  match xs, ys with
  | [], [] => exact absurd rfl nonempty
  | [], y :: ys =>
    have old := wf.toSegment
    obtain ⟨h₂, h₃, wrote₂, wrote₃, new, changed₃⟩ :=
      setLinks_spec new (back none (y :: ys)) (some y.1)
    have old := old.kept changed₃ apart
    obtain ⟨h₄, wrote₄, old, changed₄⟩ := old.setPrev_head (some p)
    have new := new.kept changed₄ apart.symm
    have whole : Segment h₄ (back none (y :: ys)) ([(p, data)] ++ y :: ys) none :=
      new.append old apart.symm
    refine ⟨some p, h₄, ?_, ⟨whole, rfl⟩, ?_⟩
    · simp only [back_cons] at wrote₂
      simp [insertNode, wf.head, front_cons, wf.read_head, back_cons, back_nil, wrote₂, wrote₃,
        wrote₄]
    · exact (changed₃.mono news).trans (changed₄.mono olds)
  | x :: xs, [] =>
    rw [append_nil] at wf apart olds news ⊢
    obtain ⟨last, -, isLast⟩ := exists_back none (cons_ne_nil x xs)
    have old := wf.toSegment
    obtain ⟨h₂, h₃, wrote₂, wrote₃, new, changed₃⟩ := setLinks_spec new (back none (x :: xs)) none
    have old := old.kept changed₃ apart
    obtain ⟨h₄, wrote₄, old, changed₄⟩ := old.setNext_last (cons_ne_nil x xs) (some p)
    have new := new.kept changed₄ apart.symm
    obtain ⟨h₅, wrote₅, old, changed₅⟩ := old.setPrev_head (some p)
    have new := new.kept changed₅ apart.symm
    refine ⟨some x.1, h₅, ?_, ⟨?_, rfl⟩, ?_⟩
    · rw [isLast] at wrote₂ wrote₄
      simp [insertNode, isLast, wf.head, front_cons, front_nil, wrote₂, wrote₃, wrote₄, wrote₅]
    · rw [back_append, back_cons, back_nil]
      exact old.append new apart
    · exact ((changed₃.mono news).trans (changed₄.mono olds)).trans (changed₅.mono olds)
  | x :: xs, y :: ys =>
    obtain ⟨last, -, isLast⟩ := exists_back none (cons_ne_nil x xs)
    have left := wf.left
    have right := wf.right
    have between := wf.disjoint
    rw [map_append, disjoint_append_left] at apart
    obtain ⟨h₂, h₃, wrote₂, wrote₃, new, changed₃⟩ :=
      setLinks_spec new (back none (x :: xs)) (some y.1)
    have left := left.kept changed₃ apart.1
    have right := right.kept changed₃ apart.2
    obtain ⟨h₄, wrote₄, right, changed₄⟩ := right.setPrev_head (some p)
    have left := left.kept changed₄ between
    have new := new.kept changed₄ apart.2.symm
    obtain ⟨h₅, wrote₅, left, changed₅⟩ := left.setNext_last (cons_ne_nil x xs) (some p)
    have right := right.kept changed₅ between.symm
    have new := new.kept changed₅ apart.1.symm
    have behind : Segment h₅ (back (back none (x :: xs ++ y :: ys)) (x :: xs))
        ([(p, data)] ++ y :: ys) none := new.append right apart.2.symm
    refine ⟨some x.1, h₅, ?_, ⟨?_, rfl⟩, ?_⟩
    · rw [isLast] at wrote₂ wrote₅
      simp [insertNode, isLast, wf.head, front_cons, wrote₂, wrote₃, wrote₄, wrote₅]
    · have ends : back none ((x :: xs) ++ (p, data) :: y :: ys) =
          back none ((x :: xs) ++ y :: ys) := by
        rw [back_append, back_append]
        rfl
      rw [ends]
      apply left.append behind
      rw [map_append, disjoint_append_right]
      exact ⟨apart.1, between⟩
    · rw [map_append] at olds news ⊢
      have lefts := List.Subset.trans (subset_append_left ((x :: xs).map fst) _) olds
      have rights := List.Subset.trans (subset_append_right _ ((y :: ys).map fst)) olds
      exact ((changed₃.mono news).trans (changed₄.mono rights)).trans (changed₅.mono lefts)

theorem alpmListAddSorted_empty (m : Allocator ρ α) (turns : Nat) (h : Heap ρ α) (data : α)
    (fn : α → α → Int) :
    alpmListAddSorted m turns h none data (some fn) = alpmListAdd m h none data := rfl

theorem alpmListAddSorted_spec (wf : WellFormed h list ns) (given : m.malloc h = some p)
    {turns : Nat} (enough : ns.length ≤ turns) (data : α) (fn : α → α → Int) :
    ∃ list' h', alpmListAddSorted m turns h list data (some fn) = some (list', h') ∧
      WellFormed h' list'
        (ns.takeWhile (below fn data) ++ (p, data) :: ns.dropWhile (below fn data)) ∧
      Keeps h h' (ns.map fst) := by
  cases shape : ns with
  | nil =>
    subst shape
    obtain ⟨list', h', added, formed, keeps⟩ := alpmListAppend_spec wf given data
    refine ⟨list', h', ?_, formed, keeps⟩
    rw [wf.head, front_nil] at added ⊢
    simp [alpmListAddSorted_empty, alpmListAdd, added]
  | cons n rest =>
    have fresh := m.fresh h p given
    have apart := wf.disjoint_fresh fresh
    have there : list = some n.1 := by
      rw [wf.head, shape]
      rfl
    have new := segment_set h p data none none
    have kept : Keeps h (h.set p (some ⟨data, none, none⟩)) (ns.map fst ++ [p]) :=
      keeps_set (by simp) _
    have old := wf.kept (keeps_set mem_cons_self (some ⟨data, none, none⟩)) apart
    have place := insertionPoint_eq old.toSegment enough data fn none
    rw [← old.head] at place
    have parts : ns.takeWhile (below fn data) ++ ns.dropWhile (below fn data) = ns :=
      takeWhile_append_dropWhile
    rw [← parts] at old apart kept
    have nonempty : ns.takeWhile (below fn data) ++ ns.dropWhile (below fn data) ≠ [] := by
      rw [parts, shape]
      exact cons_ne_nil n rest
    obtain ⟨list', h', inserted, formed, keeps⟩ := insertNode_spec old nonempty new apart
    rw [← shape]
    refine ⟨list', h', ?_, formed, ?_⟩
    · rw [there] at place inserted ⊢
      simp [alpmListAddSorted, given, place, inserted]
    · have both := (kept.trans keeps).of_fresh fresh
      rwa [parts] at both

end AddSorted

section Remove

variable {h : Heap ρ α} {list : Option ρ} {xs ys : List (ρ × α)} {item : ρ × α}

theorem alpmListRemoveItem_head (wf : WellFormed h list (item :: ys)) :
    ∃ h', alpmListRemoveItem h list (some item.1) = some (front ys none, h') ∧
      WellFormed h' (front ys none) ys ∧ Keeps h h' ((item :: ys).map fst) := by
  simp only [alpmListRemoveItem, wf.head, front_cons, wf.read_head, bind_eq_bind,
    bind_some, if_true]
  cases ys with
  | nil =>
    obtain ⟨h₁, wrote₁, -, changed₁⟩ := wf.setPrev_head none
    refine ⟨h₁, ?_, ⟨segment_nil, rfl⟩, changed₁⟩
    simp [front_nil, wrote₁]
  | cons y ys =>
    have pieces : Segment h (back none (item :: y :: ys)) ([item] ++ y :: ys) none := wf.toSegment
    obtain ⟨h₁, wrote₁, rest, changed₁⟩ := pieces.right.setPrev_head (back none (item :: y :: ys))
    have single := pieces.left.kept changed₁ pieces.disjoint
    obtain ⟨h₂, wrote₂, -, changed₂⟩ := single.setPrev_head none
    have rest := rest.kept changed₂ pieces.disjoint.symm
    refine ⟨h₂, ?_, ⟨rest, rfl⟩, ?_⟩
    · simp only [front_cons, Option.isSome_some, if_true, wrote₁, wrote₂, Option.bind_some,
        Option.pure_def]
    · have node : [item].map fst ⊆ (item :: y :: ys).map fst :=
        cons_subset_cons item.1 (nil_subset _)
      have others := subset_cons_self item.1 ((y :: ys).map fst)
      exact (changed₁.mono others).trans (changed₂.mono node)

theorem alpmListRemoveItem_tail {x : ρ × α} (wf : WellFormed h list (x :: xs ++ [item])) :
    ∃ h', alpmListRemoveItem h list (some item.1) = some (list, h') ∧
      WellFormed h' list (x :: xs) ∧ Keeps h h' ((x :: xs ++ [item]).map fst) := by
  obtain ⟨last, -, isLast⟩ := exists_back none (cons_ne_nil x xs)
  have other : item.1 ≠ x.1 := by
    intro same
    exact wf.disjoint (same ▸ mem_cons_self) mem_cons_self
  have node : h.read (some item.1) = some ⟨item.2, back none (x :: xs), none⟩ := wf.read_middle
  have first : h.read (some x.1) = some ⟨x.2, some item.1, front (xs ++ [item]) none⟩ := by
    have read := wf.toSegment.read_head
    rwa [back_append] at read
  obtain ⟨h₁, wrote₁, left, changed₁⟩ := wf.left.setNext_last (cons_ne_nil x xs) none
  have single := wf.right.kept changed₁ wf.disjoint.symm
  obtain ⟨h₂, wrote₂, left, changed₂⟩ := left.setPrev_head (back none (x :: xs))
  have single := single.kept changed₂ wf.disjoint.symm
  obtain ⟨h₃, wrote₃, -, changed₃⟩ := single.setPrev_head none
  have left := left.kept changed₃ wf.disjoint
  have there : list = some x.1 := wf.head
  refine ⟨h₃, ?_, ⟨left, there⟩, ?_⟩
  · rw [isLast] at wrote₁ wrote₂ node
    simp [alpmListRemoveItem, there, node, first, other, wrote₁, wrote₂, wrote₃]
  · have lefts := map_subset fst (subset_append_left (x :: xs) [item])
    have rights := map_subset fst (subset_append_right (x :: xs) [item])
    exact ((changed₁.mono lefts).trans (changed₂.mono lefts)).trans (changed₃.mono rights)

theorem alpmListRemoveItem_middle {x y : ρ × α}
    (wf : WellFormed h list (x :: xs ++ item :: y :: ys)) :
    ∃ h', alpmListRemoveItem h list (some item.1) = some (list, h') ∧
      WellFormed h' list (x :: xs ++ y :: ys) ∧
      Keeps h h' ((x :: xs ++ item :: y :: ys).map fst) := by
  obtain ⟨last, -, isLast⟩ := exists_back none (cons_ne_nil x xs)
  obtain ⟨tail, inRest, isTail⟩ := exists_back none (cons_ne_nil y ys)
  have other : item.1 ≠ x.1 := by
    intro same
    exact wf.disjoint (same ▸ mem_cons_self) mem_cons_self
  have inner : item.1 ≠ tail := by
    rintro rfl
    exact wf.right.head_notMem inRest
  have node : h.read (some item.1) = some ⟨item.2, back none (x :: xs), some y.1⟩ := wf.read_middle
  have first : h.read (some x.1) = some ⟨x.2, some tail, front (xs ++ item :: y :: ys) none⟩ := by
    have read := wf.toSegment.read_head
    have ends : back none (x :: xs ++ item :: y :: ys) = back none (y :: ys) := by
      rw [back_append]
      rfl
    rwa [ends, isTail] at read
  have apart : ((x :: xs).map fst).Disjoint (item.1 :: (y :: ys).map fst) := wf.disjoint
  have between := (disjoint_cons_right.mp apart).2
  obtain ⟨h₁, wrote₁, right, changed₁⟩ := wf.right.tail.setPrev_head (back none (x :: xs))
  have left := wf.left.kept changed₁ between
  obtain ⟨h₂, wrote₂, left, changed₂⟩ := left.setNext_last (cons_ne_nil x xs) (some y.1)
  have right := right.kept changed₂ between.symm
  have there : list = some x.1 := wf.head
  refine ⟨h₂, ?_, ⟨?_, there⟩, ?_⟩
  · rw [isLast] at wrote₁ wrote₂ node
    simp [alpmListRemoveItem, there, node, first, other, inner, wrote₁, wrote₂]
  · rw [back_append] at left ⊢
    exact left.append right between
  · have lefts := map_subset fst (subset_append_left (x :: xs) (item :: y :: ys))
    have rights : (y :: ys).map fst ⊆ (x :: xs ++ item :: y :: ys).map fst :=
      map_subset fst fun q mem => by simp [mem_cons.mp mem]
    exact (changed₁.mono rights).trans (changed₂.mono lefts)

theorem alpmListRemoveItem_spec (wf : WellFormed h list (xs ++ item :: ys)) :
    ∃ list' h', alpmListRemoveItem h list (some item.1) = some (list', h') ∧
      WellFormed h' list' (xs ++ ys) ∧ Keeps h h' ((xs ++ item :: ys).map fst) := by
  match xs, ys with
  | [], ys => exact ⟨_, alpmListRemoveItem_head wf⟩
  | x :: xs, [] =>
    rw [append_nil]
    exact ⟨list, alpmListRemoveItem_tail wf⟩
  | x :: xs, y :: ys => exact ⟨list, alpmListRemoveItem_middle wf⟩

end Remove

end Dulge
