import Mathlib.Data.Finset.Insert
import Mathlib.Data.List.Induction
import Mathlib.Data.List.Nodup
import Mathlib.Logic.Function.Basic

/-! Lists whose nodes stand in a heap. Forwards such a list ends with a null pointer; backwards it
is a ring, since the head points back to the last node. A read or a write fails at a null pointer
and at an address that holds no node. -/

namespace NodeList
open List
open Prod (fst snd)

variable {ρ α : Type*}

structure Cell (ρ α : Type*) where
  data : α
  prev : Option ρ
  next : Option ρ

structure Heap (ρ α : Type*) where
  cell : ρ → Option (Cell ρ α)
  used : Finset ρ
  unused : ∀ p, p ∉ used → cell p = none

namespace Heap

variable (h : Heap ρ α)

def read (p : Option ρ) : Option (Cell ρ α) := p.bind h.cell

def data (p : ρ) : Option α := (h.cell p).map Cell.data

def prev (p : ρ) : Option (Option ρ) := (h.cell p).map Cell.prev

def next (p : ρ) : Option (Option ρ) := (h.cell p).map Cell.next

variable [DecidableEq ρ]

def set (p : ρ) (c : Option (Cell ρ α)) : Heap ρ α where
  cell := Function.update h.cell p c
  used := insert p h.used
  unused := by
    intro q outside
    rw [Finset.mem_insert, not_or] at outside
    rw [Function.update_of_ne outside.1]
    exact h.unused q outside.2

def withPrev (p : ρ) (v : Option ρ) : Heap ρ α :=
  h.set p ((h.cell p).map fun c => { c with prev := v })

def withNext (p : ρ) (v : Option ρ) : Heap ρ α :=
  h.set p ((h.cell p).map fun c => { c with next := v })

def setPrev : Option ρ → Option ρ → Option (Heap ρ α)
  | none, _ => none
  | some p, v => if (h.cell p).isSome then some (h.withPrev p v) else none

def setNext : Option ρ → Option ρ → Option (Heap ρ α)
  | none, _ => none
  | some p, v => if (h.cell p).isSome then some (h.withNext p v) else none

def free : Option ρ → Option (Heap ρ α)
  | none => none
  | some p => if (h.cell p).isSome then some (h.set p none) else none

variable {h}

theorem cell_set (p q : ρ) (c : Option (Cell ρ α)) :
    (h.set p c).cell q = if q = p then c else h.cell q := by
  simp only [set, Function.update_apply]

variable {p q : ρ} {d : α}

theorem cell_set_of_ne (other : q ≠ p) (c : Option (Cell ρ α)) : (h.set p c).cell q = h.cell q := by
  rw [cell_set, if_neg other]

theorem map_cell_set {β : Type*} (field : Cell ρ α → β) (f : Cell ρ α → Cell ρ α)
    (same : ∀ c, field (f c) = field c) (p q : ρ) :
    ((h.set p ((h.cell p).map f)).cell q).map field = (h.cell q).map field := by
  rw [cell_set]
  split_ifs with here
  · rw [here, Option.map_map]
    exact congrArg (fun g => (h.cell p).map g) (funext same)
  · rfl

@[simp] theorem data_withPrev (p q : ρ) (v : Option ρ) : (h.withPrev p v).data q = h.data q :=
  map_cell_set Cell.data (fun c => { c with prev := v }) (fun _ => rfl) p q

@[simp] theorem next_withPrev (p q : ρ) (v : Option ρ) : (h.withPrev p v).next q = h.next q :=
  map_cell_set Cell.next (fun c => { c with prev := v }) (fun _ => rfl) p q

@[simp] theorem data_withNext (p q : ρ) (v : Option ρ) : (h.withNext p v).data q = h.data q :=
  map_cell_set Cell.data (fun c => { c with next := v }) (fun _ => rfl) p q

@[simp] theorem prev_withNext (p q : ρ) (v : Option ρ) : (h.withNext p v).prev q = h.prev q :=
  map_cell_set Cell.prev (fun c => { c with next := v }) (fun _ => rfl) p q

theorem prev_withPrev_of_ne (other : q ≠ p) (v : Option ρ) :
    (h.withPrev p v).prev q = h.prev q := by
  rw [prev, withPrev, cell_set_of_ne other]
  rfl

theorem next_withNext_of_ne (other : q ≠ p) (v : Option ρ) :
    (h.withNext p v).next q = h.next q := by
  rw [next, withNext, cell_set_of_ne other]
  rfl

omit [DecidableEq ρ] in
theorem isSome_of_data (there : h.data p = some d) : (h.cell p).isSome := by
  obtain ⟨c, found, -⟩ := Option.map_eq_some_iff.mp there
  rw [found]
  rfl

theorem prev_withPrev_self (there : h.data p = some d) (v : Option ρ) :
    (h.withPrev p v).prev p = some v := by
  obtain ⟨c, found⟩ := Option.isSome_iff_exists.mp (isSome_of_data there)
  rw [prev, withPrev, cell_set, if_pos rfl, found]
  rfl

theorem next_withNext_self (there : h.data p = some d) (v : Option ρ) :
    (h.withNext p v).next p = some v := by
  obtain ⟨c, found⟩ := Option.isSome_iff_exists.mp (isSome_of_data there)
  rw [next, withNext, cell_set, if_pos rfl, found]
  rfl

theorem setPrev_some (there : h.data p = some d) (v : Option ρ) :
    h.setPrev (some p) v = some (h.withPrev p v) := if_pos (isSome_of_data there)

theorem setNext_some (there : h.data p = some d) (v : Option ρ) :
    h.setNext (some p) v = some (h.withNext p v) := if_pos (isSome_of_data there)

theorem free_some (there : h.data p = some d) :
    h.free (some p) = some (h.set p none) := if_pos (isSome_of_data there)

omit [DecidableEq ρ] in
theorem read_some {b n : Option ρ} (holds : h.data p = some d) (behind : h.prev p = some b)
    (ahead : h.next p = some n) : h.read (some p) = some ⟨d, b, n⟩ := by
  obtain ⟨c, found⟩ := Option.isSome_iff_exists.mp (isSome_of_data holds)
  simp only [data, prev, next, found, Option.map_some, Option.some.injEq] at holds behind ahead
  subst holds behind ahead
  exact found

end Heap

structure Allocator (ρ α : Type*) where
  malloc : Heap ρ α → Option ρ
  fresh : ∀ h p, malloc h = some p → h.cell p = none

def Allocator.Plentiful (m : Allocator ρ α) : Prop := ∀ h, (m.malloc h).isSome

def front : List (ρ × α) → Option ρ → Option ρ
  | [], after => after
  | n :: _, _ => some n.1

def back : Option ρ → List (ρ × α) → Option ρ
  | before, [] => before
  | _, n :: ns => back (some n.1) ns

/-- The nodes are linked forwards, and the last one to `after`. -/
def Forward (h : Heap ρ α) : List (ρ × α) → Option ρ → Prop
  | [], _ => True
  | n :: ns, after => h.next n.1 = some (front ns after) ∧ Forward h ns after

/-- The nodes are linked backwards, and the first one to `before`. -/
def Backward (h : Heap ρ α) : Option ρ → List (ρ × α) → Prop
  | _, [] => True
  | before, n :: ns => h.prev n.1 = some before ∧ Backward h (some n.1) ns

structure Segment (h : Heap ρ α) (before : Option ρ) (ns : List (ρ × α)) (after : Option ρ) :
    Prop where
  distinct : (ns.map fst).Nodup
  data : ∀ n ∈ ns, h.data n.1 = some n.2
  forward : Forward h ns after
  backward : Backward h before ns

/-- Going on from `p` in one direction visits these nodes and ends. -/
def Walk (h : Heap ρ α) (dir : Cell ρ α → Option ρ) : Option ρ → List (ρ × α) → Prop
  | p, [] => p = none
  | p, n :: ns => p = some n.1 ∧ ∃ c, h.cell n.1 = some c ∧ c.data = n.2 ∧ Walk h dir (dir c) ns

/-- The nodes form the list at `list`: the head points back to the last node and every other node
to its predecessor, and the last node ends the list. -/
structure WellFormed (h : Heap ρ α) (list : Option ρ) (ns : List (ρ × α)) : Prop
    extends Segment h (back none ns) ns none where
  head : list = front ns none

section Ends

variable {ns ms : List (ρ × α)} {n : ρ × α} {before after : Option ρ}

@[simp] theorem front_nil : front ([] : List (ρ × α)) after = after := rfl

@[simp] theorem front_cons : front (n :: ns) after = some n.1 := rfl

@[simp] theorem back_nil : back before ([] : List (ρ × α)) = before := rfl

@[simp] theorem back_cons : back before (n :: ns) = back (some n.1) ns := rfl

@[simp] theorem front_append : front (ns ++ ms) after = front ns (front ms after) := by
  cases ns <;> rfl

@[simp] theorem back_append : back before (ns ++ ms) = back (back before ns) ms := by
  induction ns generalizing before with
  | nil => rfl
  | cons n ns ih => exact ih

theorem back_of_ne_nil (nonempty : ns ≠ []) : back before ns = back after ns := by
  cases ns with
  | nil => exact absurd rfl nonempty
  | cons n ns => rfl

theorem back_suffix (behind : ms <:+ ns) (nonempty : ms ≠ []) : back before ns = back none ms := by
  obtain ⟨front, rfl⟩ := behind
  rw [back_append]
  exact back_of_ne_nil nonempty

theorem exists_back (before : Option ρ) (nonempty : ns ≠ []) :
    ∃ p ∈ ns.map fst, back before ns = some p := by
  obtain rfl | ⟨init, last, rfl⟩ := eq_nil_or_concat ns
  · exact absurd rfl nonempty
  rw [concat_eq_append, back_append]
  exact ⟨last.1, by simp, rfl⟩

variable {h h' : Heap ρ α}

theorem forward_append :
    Forward h (ns ++ ms) after ↔ Forward h ns (front ms after) ∧ Forward h ms after := by
  induction ns with
  | nil => simp [Forward]
  | cons n ns ih => simp only [cons_append, Forward, ih, front_append, and_assoc]

theorem backward_append :
    Backward h before (ns ++ ms) ↔ Backward h before ns ∧ Backward h (back before ns) ms := by
  induction ns generalizing before with
  | nil => simp [Backward]
  | cons n ns ih => simp only [cons_append, Backward, ih, back_cons, and_assoc]

theorem Forward.congr (linked : Forward h ns after)
    (same : ∀ n ∈ ns, h'.next n.1 = h.next n.1) : Forward h' ns after := by
  induction ns with
  | nil => trivial
  | cons n ns ih =>
    rw [forall_mem_cons] at same
    exact ⟨same.1.trans linked.1, ih linked.2 same.2⟩

theorem Backward.congr (linked : Backward h before ns)
    (same : ∀ n ∈ ns, h'.prev n.1 = h.prev n.1) : Backward h' before ns := by
  induction ns generalizing before with
  | nil => trivial
  | cons n ns ih =>
    rw [forall_mem_cons] at same
    exact ⟨same.1.trans linked.1, ih linked.2 same.2⟩

end Ends

section Segments

variable {h : Heap ρ α} {ns ms : List (ρ × α)} {n : ρ × α} {before after : Option ρ}

theorem segment_nil : Segment h before [] after := ⟨nodup_nil, nofun, trivial, trivial⟩

theorem wellFormed_nil (h : Heap ρ α) : WellFormed h none [] := ⟨segment_nil, rfl⟩

theorem Segment.append (first : Segment h before ns (front ms after))
    (second : Segment h (back before ns) ms after)
    (apart : (ns.map fst).Disjoint (ms.map fst)) : Segment h before (ns ++ ms) after where
  distinct := by
    rw [map_append]
    exact first.distinct.append second.distinct apart
  data := forall_mem_append.mpr ⟨first.data, second.data⟩
  forward := forward_append.mpr ⟨first.forward, second.forward⟩
  backward := backward_append.mpr ⟨first.backward, second.backward⟩

theorem Segment.left (whole : Segment h before (ns ++ ms) after) :
    Segment h before ns (front ms after) where
  distinct := (nodup_append'.mp (map_append ▸ whole.distinct)).1
  data := (forall_mem_append.mp whole.data).1
  forward := (forward_append.mp whole.forward).1
  backward := (backward_append.mp whole.backward).1

theorem Segment.right (whole : Segment h before (ns ++ ms) after) :
    Segment h (back before ns) ms after where
  distinct := (nodup_append'.mp (map_append ▸ whole.distinct)).2.1
  data := (forall_mem_append.mp whole.data).2
  forward := (forward_append.mp whole.forward).2
  backward := (backward_append.mp whole.backward).2

theorem Segment.disjoint (whole : Segment h before (ns ++ ms) after) :
    (ns.map fst).Disjoint (ms.map fst) :=
  (nodup_append'.mp (map_append ▸ whole.distinct)).2.2

theorem Segment.tail (segment : Segment h before (n :: ns) after) :
    Segment h (some n.1) ns after := by
  have split : Segment h before ([n] ++ ns) after := segment
  exact split.right

theorem Segment.head_notMem (segment : Segment h before (n :: ns) after) :
    n.1 ∉ ns.map fst := (nodup_cons.mp segment.distinct).1

theorem Segment.head_data (segment : Segment h before (n :: ns) after) :
    h.data n.1 = some n.2 := segment.data n mem_cons_self

theorem Segment.read_head (segment : Segment h before (n :: ns) after) :
    h.read (some n.1) = some ⟨n.2, before, front ns after⟩ :=
  Heap.read_some segment.head_data segment.backward.1 segment.forward.1

theorem Segment.read_middle (segment : Segment h before (ns ++ n :: ms) after) :
    h.read (some n.1) = some ⟨n.2, back before ns, front ms after⟩ := segment.right.read_head

theorem Segment.read_last (segment : Segment h before ns after) (nonempty : ns ≠ []) :
    ∃ c, h.read (back none ns) = some c ∧ c.next = after := by
  obtain rfl | ⟨init, last, rfl⟩ := eq_nil_or_concat ns
  · exact absurd rfl nonempty
  rw [concat_eq_append] at segment ⊢
  rw [back_append, back_cons, back_nil, segment.read_middle]
  exact ⟨_, rfl, rfl⟩

theorem Segment.walk_next (segment : Segment h before ns none) :
    Walk h Cell.next (front ns none) ns := by
  induction ns generalizing before with
  | nil => rfl
  | cons n ns ih =>
    exact ⟨rfl, _, segment.read_head, rfl, ih segment.tail⟩

theorem Segment.walk_prev (segment : Segment h none ns after) :
    Walk h Cell.prev (back none ns) ns.reverse := by
  induction ns using List.reverseRecOn generalizing after with
  | nil => rfl
  | append_singleton ns n ih =>
    rw [reverse_append, back_append]
    exact ⟨rfl, _, segment.right.read_head, rfl, ih segment.left⟩

theorem Segment.congr {h' : Heap ρ α} (segment : Segment h before ns after)
    (same : ∀ n ∈ ns, h'.cell n.1 = h.cell n.1) : Segment h' before ns after where
  distinct := segment.distinct
  data n member := (congrArg (Option.map Cell.data) (same n member)).trans (segment.data n member)
  forward := segment.forward.congr fun n member => congrArg (Option.map Cell.next) (same n member)
  backward := segment.backward.congr fun n member => congrArg (Option.map Cell.prev) (same n member)

variable [DecidableEq ρ]

theorem Segment.set_apart (segment : Segment h before ns after) {p : ρ}
    (apart : p ∉ ns.map fst) (c : Option (Cell ρ α)) :
    Segment (h.set p c) before ns after := by
  apply segment.congr
  intro n mem
  apply Heap.cell_set_of_ne
  rintro rfl
  exact apart (mem_map_of_mem mem)

theorem Segment.withPrev_head (segment : Segment h before (n :: ns) after) (v : Option ρ) :
    Segment (h.withPrev n.1 v) v (n :: ns) after where
  distinct := segment.distinct
  data m member := (Heap.data_withPrev n.1 m.1 v).trans (segment.data m member)
  forward := segment.forward.congr fun m _ => Heap.next_withPrev n.1 m.1 v
  backward := by
    refine ⟨Heap.prev_withPrev_self segment.head_data v, segment.backward.2.congr ?_⟩
    intro m member
    apply Heap.prev_withPrev_of_ne
    rintro same
    exact segment.head_notMem (same ▸ mem_map_of_mem member)

theorem Segment.withNext_last (segment : Segment h before (ns ++ [n]) after) (v : Option ρ) :
    Segment (h.withNext n.1 v) before (ns ++ [n]) v where
  distinct := segment.distinct
  data m member := (Heap.data_withNext n.1 m.1 v).trans (segment.data m member)
  forward := by
    refine forward_append.mpr ⟨segment.left.forward.congr ?_,
      Heap.next_withNext_self segment.right.head_data v, trivial⟩
    intro m member
    apply Heap.next_withNext_of_ne
    intro same
    exact segment.disjoint (mem_map_of_mem member) (by simp [same])
  backward := segment.backward.congr fun m _ => Heap.prev_withNext n.1 m.1 v

end Segments

/-- Every node of `h` outside the given addresses is the same in `h'`. -/
def Keeps (h h' : Heap ρ α) (ps : List ρ) : Prop :=
  ∀ p, p ∉ ps → (h.cell p).isSome → h'.cell p = h.cell p

section Keeps

variable {h h' h'' : Heap ρ α} {ps qs : List ρ}

theorem Keeps.refl (h : Heap ρ α) (ps : List ρ) : Keeps h h ps := fun _ _ _ => rfl

theorem Keeps.trans (first : Keeps h h' ps) (second : Keeps h' h'' ps) : Keeps h h'' ps := by
  intro p outside there
  have same := first p outside there
  rw [second p outside (same ▸ there), same]

theorem Keeps.mono (keeps : Keeps h h' ps) (more : ps ⊆ qs) : Keeps h h' qs :=
  fun p outside there => keeps p (fun mem => outside (more mem)) there

variable {ns : List (ρ × α)}

theorem Segment.kept {before after : Option ρ} (segment : Segment h before ns after)
    (keeps : Keeps h h' ps) (apart : (ns.map fst).Disjoint ps) :
    Segment h' before ns after := by
  apply segment.congr
  intro n mem
  exact keeps n.1 (fun changed => apart (mem_map_of_mem mem) changed)
    (Heap.isSome_of_data (segment.data n mem))

theorem WellFormed.kept {list : Option ρ} (wf : WellFormed h list ns) (keeps : Keeps h h' ps)
    (apart : (ns.map fst).Disjoint ps) : WellFormed h' list ns :=
  ⟨wf.toSegment.kept keeps apart, wf.head⟩

theorem Walk.kept {dir : Cell ρ α → Option ρ} {p : Option ρ} (walk : Walk h dir p ns)
    (keeps : Keeps h h' ps) (apart : (ns.map fst).Disjoint ps) : Walk h' dir p ns := by
  induction ns generalizing p with
  | nil => exact walk
  | cons n ns ih =>
    obtain ⟨here, c, there, holds, rest⟩ := walk
    rw [map_cons, disjoint_cons_left] at apart
    refine ⟨here, c, ?_, holds, ih rest apart.2⟩
    rw [keeps n.1 apart.1 (there ▸ rfl), there]

variable [DecidableEq ρ]

theorem keeps_set {p : ρ} (mem : p ∈ ps) (c : Option (Cell ρ α)) : Keeps h (h.set p c) ps := by
  intro q outside _
  apply Heap.cell_set_of_ne
  rintro rfl
  exact outside mem

omit [DecidableEq ρ] in
theorem Keeps.of_fresh {p : ρ} (keeps : Keeps h h' (ps ++ [p])) (fresh : h.cell p = none) :
    Keeps h h' ps := by
  intro q outside there
  apply keeps q _ there
  rw [mem_append, mem_singleton]
  rintro (mem | rfl)
  · exact outside mem
  · rw [fresh] at there
    cases there

end Keeps

section Fresh

variable {h h' : Heap ρ α} {ns ms : List (ρ × α)} {before after : Option ρ} {ps : List ρ}

/-- The nodes stand at addresses that hold none in `h`. -/
def Fresh (h : Heap ρ α) (ns : List (ρ × α)) : Prop := ∀ n ∈ ns, h.cell n.1 = none

theorem Segment.disjoint_of_fresh (segment : Segment h before ns after) (fresh : Fresh h ms) :
    (ns.map fst).Disjoint (ms.map fst) := by
  intro p old new
  obtain ⟨n, inside, rfl⟩ := mem_map.mp old
  obtain ⟨k, among, same⟩ := mem_map.mp new
  have there := Heap.isSome_of_data (segment.data n inside)
  rw [← same, fresh k among] at there
  cases there

theorem Walk.disjoint_fresh {dir : Cell ρ α → Option ρ} {p : Option ρ} (walk : Walk h dir p ns)
    {q : ρ} (fresh : h.cell q = none) : (ns.map fst).Disjoint [q] := by
  induction ns generalizing p with
  | nil => exact disjoint_nil_left _
  | cons n ns ih =>
    obtain ⟨-, c, there, -, rest⟩ := walk
    rw [map_cons, disjoint_cons_left]
    refine ⟨?_, ih rest⟩
    rw [mem_singleton]
    rintro rfl
    rw [fresh] at there
    cases there

theorem Fresh.of_keeps (fresh : Fresh h' ms) (keeps : Keeps h h' (ns.map fst))
    (segment : Segment h' before ns after) : Fresh h ms := by
  intro k among
  by_contra there
  have outside : k.1 ∉ ns.map fst := fun mem =>
    segment.disjoint_of_fresh fresh mem (mem_map_of_mem among)
  have same := keeps k.1 outside (Option.isSome_iff_ne_none.mpr there)
  exact there (same ▸ fresh k among)

/-- One node is added behind `ns`, then others: none of them was there before. -/
theorem Fresh.cons_of_keeps {h₁ : Heap ρ α} {n : ρ × α} {list : Option ρ} (fresh : h.cell n.1 = none)
    (first : Keeps h h₁ (ns.map fst)) (wf : WellFormed h₁ list (ns ++ [n]))
    (later : Fresh h₁ ms) (keeps : Keeps h₁ h' ((ns ++ [n]).map fst)) :
    Fresh h (n :: ms) ∧ Keeps h h' (ns.map fst) := by
  constructor
  · exact forall_mem_cons.mpr ⟨fresh, later.of_keeps first wf.left⟩
  · rw [map_append] at keeps
    exact ((first.mono (subset_append_left _ _)).trans keeps).of_fresh fresh

/-- Nodes that are fresh in `h` are no loss to it. -/
theorem Keeps.of_fresh_nodes (keeps : Keeps h h' (ns.map fst)) (fresh : Fresh h ns) :
    Keeps h h' [] := by
  intro p _ there
  refine keeps p ?_ there
  intro mem
  obtain ⟨n, inside, rfl⟩ := mem_map.mp mem
  rw [fresh n inside] at there
  cases there

variable [DecidableEq ρ]

theorem Keeps.restore_prev {p : ρ} {c : Cell ρ α} {v : Option ρ} (there : h.cell p = some c)
    (keeps : Keeps (h.withPrev p v) h' []) : Keeps h (h'.withPrev p c.prev) [] := by
  intro q _ present
  by_cases same : q = p
  · have written : (h.withPrev p v).cell p = some { c with prev := v } := by
      rw [Heap.withPrev, Heap.cell_set, if_pos rfl, there]
      rfl
    have kept := keeps p not_mem_nil (written ▸ rfl)
    rw [same, there, Heap.withPrev, Heap.cell_set, if_pos rfl, kept, written]
    rfl
  · have apart : (h.withPrev p v).cell q = h.cell q := Heap.cell_set_of_ne same _
    rw [Heap.withPrev, Heap.cell_set_of_ne same, keeps q not_mem_nil (apart ▸ present), apart]

end Fresh

section Statements

variable [DecidableEq ρ] {h : Heap ρ α} {ns : List (ρ × α)} {n : ρ × α} {before after : Option ρ}

/-- An assignment to the `prev` of the first node. -/
theorem Segment.setPrev_head (segment : Segment h before (n :: ns) after) (v : Option ρ) :
    ∃ h', h.setPrev (some n.1) v = some h' ∧ Segment h' v (n :: ns) after ∧
      Keeps h h' ((n :: ns).map fst) :=
  ⟨h.withPrev n.1 v, Heap.setPrev_some segment.head_data v, segment.withPrev_head v,
    keeps_set mem_cons_self _⟩

/-- An assignment to the `next` of the last node. -/
theorem Segment.setNext_last (segment : Segment h before ns after) (nonempty : ns ≠ [])
    (v : Option ρ) : ∃ h', h.setNext (back none ns) v = some h' ∧ Segment h' before ns v ∧
      Keeps h h' (ns.map fst) := by
  obtain rfl | ⟨init, last, rfl⟩ := eq_nil_or_concat ns
  · exact absurd rfl nonempty
  rw [concat_eq_append] at segment ⊢
  refine ⟨h.withNext last.1 v, ?_, segment.withNext_last v, keeps_set ?_ _⟩
  · rw [back_append, back_cons, back_nil]
    exact Heap.setNext_some segment.right.head_data v
  · exact mem_map_of_mem (by simp)

theorem Segment.detach_head (segment : Segment h before (n :: ns) none) :
    ∃ h₁ h₂, h.setPrev (some n.1) none = some h₁ ∧ h₁.setNext (some n.1) none = some h₂ ∧
      Segment h₂ none [n] none ∧ Segment h₂ (some n.1) ns none ∧
      Keeps h h₂ ((n :: ns).map fst) := by
  obtain ⟨h₁, wrote₁, segment, changed₁⟩ := segment.setPrev_head none
  have pieces : Segment h₁ none ([n] ++ ns) none := segment
  obtain ⟨h₂, wrote₂, single, changed₂⟩ := pieces.left.setNext_last (cons_ne_nil n []) none
  have rest := pieces.right.kept changed₂ pieces.disjoint.symm
  refine ⟨h₁, h₂, wrote₁, wrote₂, single, rest, changed₁.trans (changed₂.mono ?_)⟩
  exact cons_subset_cons n.1 (nil_subset _)

theorem segment_set (h : Heap ρ α) (p : ρ) (d : α) (before after : Option ρ) :
    Segment (h.set p (some ⟨d, before, after⟩)) before [(p, d)] after := by
  refine ⟨nodup_singleton p, ?_, ⟨?_, trivial⟩, ⟨?_, trivial⟩⟩
  · intro n mem
    rw [mem_singleton] at mem
    rw [mem, Heap.data, Heap.cell_set, if_pos rfl]
    rfl
  · rw [Heap.next, Heap.cell_set, if_pos rfl]
    rfl
  · rw [Heap.prev, Heap.cell_set, if_pos rfl]
    rfl

omit [DecidableEq ρ] in
theorem Segment.disjoint_fresh (segment : Segment h before ns after) {p : ρ}
    (fresh : h.cell p = none) : (ns.map fst).Disjoint [p] := by
  rw [disjoint_singleton]
  intro mem
  obtain ⟨n, inside, rfl⟩ := mem_map.mp mem
  have there := Heap.isSome_of_data (segment.data n inside)
  rw [fresh] at there
  cases there

end Statements

section Layout

variable [DecidableEq ρ]

def Heap.empty : Heap ρ α := ⟨fun _ => none, ∅, fun _ _ => rfl⟩

def Heap.place (h : Heap ρ α) : Option ρ → List (ρ × α) → Option ρ → Heap ρ α
  | _, [], _ => h
  | before, n :: ns, after =>
    (h.place (some n.1) ns after).set n.1 (some ⟨n.2, before, front ns after⟩)

def Heap.laid (ns : List (ρ × α)) : Heap ρ α := Heap.empty.place (back none ns) ns none

theorem segment_place (h : Heap ρ α) {ns : List (ρ × α)} (distinct : (ns.map fst).Nodup)
    (before after : Option ρ) : Segment (h.place before ns after) before ns after := by
  induction ns generalizing before with
  | nil => exact segment_nil
  | cons n ns ih =>
    rw [map_cons, nodup_cons] at distinct
    have rest := (ih distinct.2 (some n.1)).set_apart distinct.1
      (some ⟨n.2, before, front ns after⟩)
    have single := segment_set (h.place (some n.1) ns after) n.1 n.2 before (front ns after)
    have whole : Segment (h.place before (n :: ns) after) before ([n] ++ ns) after :=
      single.append rest (singleton_disjoint.mpr distinct.1)
    exact whole

theorem keeps_place (h : Heap ρ α) (ns : List (ρ × α)) (before after : Option ρ) :
    Keeps h (h.place before ns after) (ns.map fst) := by
  induction ns generalizing before with
  | nil => exact Keeps.refl h _
  | cons n ns ih =>
    exact ((ih (some n.1)).mono (subset_cons_self _ _)).trans (keeps_set mem_cons_self _)

theorem wellFormed_laid {ns : List (ρ × α)} (distinct : (ns.map fst).Nodup) :
    WellFormed (Heap.laid ns) (front ns none) ns := ⟨segment_place _ distinct _ _, rfl⟩

end Layout

end NodeList
