import Mathlib

/-! Depth-first search as a machine that walks a graph by parent pointers and by
an iterator on each vertex, with no stack. The path from the current vertex up to
the root of its tree is only in the proofs. Whatever the graph, cycles included,
the machine finishes every vertex once, and a child of a finished vertex was
finished before it or leads back to it. -/
namespace DepthFirst
open List Function

variable {V : Type*}

inductive Mark where
  | unprocessed | processing | processed
  deriving DecidableEq, Repr

/-- `rest` is the list of roots from the loop variable on; the machine has stopped
when it is empty. -/
structure State (V : Type*) where
  mark : V → Mark
  iter : V → List V
  parent : V → Option V
  order : List V
  vertex : V
  rest : List V

def start (children : V → List V) (vertex : V) (rest : List V) : State V where
  mark := fun _ => .unprocessed
  iter := children
  parent := fun _ => none
  order := []
  vertex := vertex
  rest := vertex :: rest

def nextChild (mark : V → Mark) : List V → Option V × List V
  | [] => (none, [])
  | child :: iter => if mark child = .unprocessed then (some child, iter) else nextChild mark iter

theorem nextChild_some {mark : V → Mark} {iter post : List V} {child : V}
    (h : nextChild mark iter = (some child, post)) : mark child = .unprocessed ∧
      ∃ pre, iter = pre ++ child :: post ∧ ∀ x ∈ pre, mark x ≠ .unprocessed := by
  induction iter with
  | nil => cases h
  | cons x iter ih =>
    rw [nextChild] at h
    split_ifs at h with fresh
    · cases h
      exact ⟨fresh, [], rfl, by simp⟩
    · obtain ⟨unprocessed, pre, same, old⟩ := ih h
      refine ⟨unprocessed, x :: pre, by rw [same, cons_append], ?_⟩
      exact forall_mem_cons.mpr ⟨fresh, old⟩

theorem nextChild_none {mark : V → Mark} {iter post : List V}
    (h : nextChild mark iter = (none, post)) : ∀ x ∈ iter, mark x ≠ .unprocessed := by
  induction iter with
  | nil => simp
  | cons x iter ih =>
    rw [nextChild] at h
    split_ifs at h with fresh
    · cases h
    · exact forall_mem_cons.mpr ⟨fresh, ih h⟩

section Reach

variable (children : V → List V)

abbrev Reach : V → V → Prop := Relation.ReflTransGen fun u v => v ∈ children u

inductive Chain (parent : V → Option V) : List V → Prop
  | root {v} : parent v = none → Chain parent [v]
  | push {child v path} : parent child = some v → child ∈ children v → Chain parent (v :: path) →
      Chain parent (child :: v :: path)

def Settled (order : List V) : Prop :=
  ∀ before u after, order = before ++ u :: after →
    ∀ child ∈ children u, child ∈ before ∨ Reach children child u

variable {children}

theorem Chain.reach {parent : V → Option V} {v : V} {path : List V}
    (chain : Chain children parent (v :: path)) : ∀ u ∈ v :: path, Reach children u v := by
  generalize same : v :: path = whole at chain
  induction chain generalizing v path with
  | root =>
    cases same
    intro u mem
    rw [mem_singleton.mp mem]
  | push _ edge _ ih =>
    cases same
    intro u mem
    rcases mem_cons.mp mem with rfl | above
    · exact .refl
    · exact (ih rfl u above).tail edge

theorem Chain.congr {parent parent' : V → Option V} {path : List V}
    (chain : Chain children parent path) (same : ∀ v ∈ path, parent' v = parent v) :
    Chain children parent' path := by
  induction chain with
  | root none =>
    exact .root ((same _ mem_cons_self).trans none)
  | push link edge _ ih =>
    refine .push ((same _ mem_cons_self).trans link) edge (ih ?_)
    intro v mem
    exact same v (mem_cons_of_mem _ mem)

theorem Settled.snoc {order : List V} {v : V} (settled : Settled children order)
    (last : ∀ child ∈ children v, child ∈ order ∨ Reach children child v) :
    Settled children (order ++ [v]) := by
  intro before u after split child edge
  rcases eq_nil_or_concat after with rfl | ⟨after, w, rfl⟩
  · obtain ⟨same, single⟩ := append_inj' split rfl
    cases single
    subst same
    exact last child edge
  · rw [concat_eq_append, ← cons_append, ← append_assoc] at split
    exact settled before u after (append_inj' split rfl).1 child edge

end Reach

def Before (l : List V) (a b : V) : Prop := [a, b].Sublist l

theorem Before.trans {l : List V} {a b c : V} (nodup : l.Nodup) (ab : Before l a b)
    (bc : Before l b c) : Before l a c := by
  unfold Before at ab bc ⊢
  induction l with
  | nil => cases ab
  | cons x l ih =>
    obtain ⟨notLater, nodup⟩ := nodup_cons.mp nodup
    cases bc with
    | cons _ bc =>
      cases ab with
      | cons _ ab => exact (ih nodup ab bc).cons x
      | cons_cons _ _ =>
        have later : c ∈ l := bc.subset (by simp)
        exact (singleton_sublist.mpr later).cons_cons a
    | cons_cons _ _ =>
      have later : b ∈ l := by
        cases ab with
        | cons _ ab => exact ab.subset (by simp)
        | cons_cons _ ab => exact ab.subset (by simp)
      exact absurd later notLater

section Order

variable {children : V → List V} {order : List V}

theorem Settled.before_edge (settled : Settled children order) {u child : V} (mem : u ∈ order)
    (edge : child ∈ children u) (oneWay : ¬ Reach children child u) : Before order child u := by
  obtain ⟨before, after, rfl⟩ := append_of_mem mem
  have first := (settled before u after rfl child edge).resolve_right oneWay
  have split : [child].Sublist before := singleton_sublist.mpr first
  exact split.append (singleton_sublist.mpr mem_cons_self)

theorem Settled.before_path (settled : Settled children order) (nodup : order.Nodup)
    (closed : ∀ v ∈ order, ∀ c ∈ children v, c ∈ order)
    (acyclic : ∀ u ∈ order, ∀ v, Reach children u v → Reach children v u → u = v)
    {u v : V} (mem : u ∈ order) (path : Reach children u v) : u = v ∨ Before order v u := by
  induction path using Relation.ReflTransGen.head_induction_on with
  | refl => exact .inl rfl
  | @head u w edge path ih =>
    have edge : w ∈ children u := edge
    have inside := closed u mem w edge
    by_cases back : Reach children w u
    · obtain rfl := acyclic u mem w (.single edge) back
      exact ih inside
    · have first := settled.before_edge mem edge back
      rcases ih inside with rfl | later
      · exact .inr first
      · exact .inr (later.trans nodup first)

end Order

section Invariant

variable {children : V → List V} {verts : List V} {s : State V} {path : List V}

/-- The invariant of the outer loop, with the path as a ghost. The current vertex
is marked only when its turn starts, so it alone may be on the path unmarked. -/
structure Inv (children : V → List V) (verts : List V) (s : State V) (path : List V) : Prop where
  chain : Chain children s.parent path
  top : path.head? = some s.vertex
  root : path.getLast? = s.rest.head?
  nodup : (path ++ s.order).Nodup
  within : ∀ v ∈ path ++ s.order, v ∈ verts
  processed : ∀ v, s.mark v = .processed ↔ v ∈ s.order
  processing : ∀ v, s.mark v = .processing → v ∈ path
  opened : ∀ v ∈ path.tail, s.mark v = .processing
  consumed : ∀ v, ∀ child ∈ children v,
    child ∈ s.iter v ∨ s.mark child ≠ .unprocessed ∨ child = s.vertex
  iters : ∀ v, s.iter v ⊆ children v
  parentless : ∀ v, v ∉ path → v ∉ s.order → s.parent v = none
  visited : ∃ done, verts = done ++ s.rest ∧ ∀ v ∈ done, v ∈ s.order
  settled : Settled children s.order

structure Finished (children : V → List V) (verts : List V) (s : State V) : Prop where
  stopped : s.rest = []
  nodup : s.order.Nodup
  mem : ∀ v, v ∈ s.order ↔ v ∈ verts
  settled : Settled children s.order

theorem Inv.start {v : V} {rest : List V} :
    Inv children (v :: rest) (start children v rest) [v] where
  chain := .root rfl
  top := rfl
  root := rfl
  nodup := by simp [DepthFirst.start]
  within := by simp [DepthFirst.start]
  processed := by simp [DepthFirst.start]
  processing := by simp [DepthFirst.start]
  opened := by simp
  consumed := fun v child edge => .inl edge
  iters := fun _ => List.Subset.refl _
  parentless := fun _ _ _ => rfl
  visited := ⟨[], rfl, by simp⟩
  settled := by
    intro before u after split
    simp [DepthFirst.start] at split

theorem Inv.length_le (inv : Inv children verts s path) :
    path.length + s.order.length ≤ verts.length := by
  rw [← length_append]
  exact (inv.nodup.subperm inv.within).length_le

theorem Inv.path_eq (inv : Inv children verts s path) : ∃ above, path = s.vertex :: above := by
  cases path with
  | nil => cases inv.top
  | cons v above =>
    cases inv.top
    exact ⟨above, rfl⟩

theorem Inv.rest_ne_nil (inv : Inv children verts s path) : s.rest ≠ [] := by
  intro stopped
  obtain ⟨above, rfl⟩ := inv.path_eq
  have root := inv.root
  rw [stopped, List.head?_nil, List.getLast?_eq_none_iff] at root
  cases root

theorem left_perm (v : V) (above order : List V) :
    (above ++ (order ++ [v])).Perm (v :: above ++ order) := by
  rw [← append_assoc]
  exact perm_append_singleton v (above ++ order)

end Invariant

variable [DecidableEq V]

/-- The vertex is finished and its children are used up; go on at its parent or,
at the top of a tree, at the next root that is still unprocessed. -/
def leave (s : State V) : State V :=
  let mark := update s.mark s.vertex .processed
  match s.parent s.vertex with
  | some parent =>
    { s with mark := mark, iter := update s.iter s.vertex [],
             order := s.order ++ [s.vertex], vertex := parent }
  | none =>
    let rest := s.rest.tail.dropWhile fun v => mark v ≠ .unprocessed
    { s with mark := mark, iter := update s.iter s.vertex [],
             order := s.order ++ [s.vertex], vertex := rest.headD s.vertex, rest := rest }

def enter (s : State V) (child : V) (iter : List V) : State V :=
  { s with mark := update s.mark s.vertex .processing,
           iter := update s.iter s.vertex iter,
           parent := update s.parent child (some s.vertex), vertex := child }

def step (s : State V) : State V :=
  match nextChild (update s.mark s.vertex .processing) (s.iter s.vertex) with
  | (some child, iter) => enter s child iter
  | (none, _) => leave s

def run : Nat → State V → Option (State V)
  | fuel, s =>
    if s.rest = [] then some s
    else
      match fuel with
      | 0 => none
      | fuel + 1 => run fuel (step s)

theorem run_of_stopped {fuel : Nat} {s : State V} (stopped : s.rest = []) :
    run fuel s = some s := by
  cases fuel with
  | zero => rw [run, if_pos stopped]
  | succ fuel => rw [run, if_pos stopped]

section Turn

variable {children : V → List V} {verts : List V} {s : State V} {path : List V}

variable {child : V} {pre post : List V}

/-- A turn that starts at `s` passes over these children. -/
def Seen (s : State V) (vs : List V) : Prop :=
  ∀ v ∈ vs, update s.mark s.vertex .processing v ≠ .unprocessed

theorem Inv.fresh_child (inv : Inv children verts s path)
    (fresh : update s.mark s.vertex .processing child = .unprocessed) :
    child ∉ path ++ s.order := by
  obtain ⟨above, rfl⟩ := inv.path_eq
  have other : child ≠ s.vertex := by
    rintro rfl
    simp at fresh
  rw [update_of_ne other] at fresh
  intro mem
  rcases mem_append.mp mem with onPath | done
  · rcases mem_cons.mp onPath with same | up
    · exact other same
    · rw [inv.opened child up] at fresh
      cases fresh
  · rw [(inv.processed child).mpr done] at fresh
    cases fresh

theorem Inv.opened_marks {above : List V} (inv : Inv children verts s (s.vertex :: above)) :
    (∀ v, update s.mark s.vertex .processing v = .processed ↔ v ∈ s.order) ∧
      (∀ v, update s.mark s.vertex .processing v = .processing → v ∈ s.vertex :: above) ∧
      ∀ v ∈ s.vertex :: above, update s.mark s.vertex .processing v = .processing := by
  have vertexOpen : s.vertex ∉ s.order := by
    intro done
    have nodup := inv.nodup
    rw [cons_append, nodup_cons] at nodup
    exact nodup.1 (mem_append_right _ done)
  refine ⟨?_, ?_, ?_⟩
  · intro v
    by_cases same : v = s.vertex
    · subst same
      simp [vertexOpen]
    · simp [same, inv.processed]
  · intro v busy
    by_cases same : v = s.vertex
    · simp [same]
    · rw [update_of_ne same] at busy
      exact inv.processing v busy
  · intro v mem
    by_cases same : v = s.vertex
    · simp [same]
    · rw [update_of_ne same]
      exact inv.opened v ((mem_cons.mp mem).resolve_left same)

theorem Inv.enter_consumed (inv : Inv children verts s path)
    (split : s.iter s.vertex = pre ++ child :: post) (old : Seen s pre) :
    ∀ v, ∀ c ∈ children v, c ∈ update s.iter s.vertex post v ∨
      update s.mark s.vertex .processing c ≠ .unprocessed ∨ c = child := by
  intro v c edge
  by_cases same : c = s.vertex
  · exact .inr (.inl (by simp [same]))
  rcases inv.consumed v c edge with left | seen | rfl
  · by_cases at' : v = s.vertex
    · subst at'
      rw [split] at left
      rcases mem_append.mp left with before | behind
      · exact .inr (.inl (old c before))
      · rcases mem_cons.mp behind with rfl | after
        · exact .inr (.inr rfl)
        · exact .inl (by simpa using after)
    · exact .inl (by simpa [at'] using left)
  · exact .inr (.inl (by simpa [same] using seen))
  · exact absurd rfl same

theorem Inv.enter_iters (inv : Inv children verts s path)
    (split : s.iter s.vertex = pre ++ child :: post) (v : V) :
    update s.iter s.vertex post v ⊆ children v := by
  by_cases same : v = s.vertex
  · subst same
    intro c later
    rw [update_self] at later
    exact inv.iters _ (by rw [split]; simp [later])
  · rw [update_of_ne same]
    exact inv.iters v

theorem Inv.enter (inv : Inv children verts s path)
    (closed : ∀ v ∈ verts, ∀ c ∈ children v, c ∈ verts)
    (fresh : update s.mark s.vertex .processing child = .unprocessed)
    (split : s.iter s.vertex = pre ++ child :: post) (old : Seen s pre) :
    Inv children verts (enter s child post) (child :: path) := by
  have new := inv.fresh_child fresh
  obtain ⟨above, rfl⟩ := inv.path_eq
  have edge : child ∈ children s.vertex := inv.iters _ (by rw [split]; simp)
  have here : s.vertex ∈ s.vertex :: above ++ s.order := by simp
  obtain ⟨processed, processing, opened⟩ := inv.opened_marks
  refine ⟨?_, rfl, ?_, ?_, ?_, processed, ?_, opened, inv.enter_consumed split old,
    inv.enter_iters split, ?_, inv.visited, inv.settled⟩
  · refine .push (update_self ..) edge (inv.chain.congr ?_)
    intro v mem
    have apart : v ≠ child := fun same => new (same ▸ mem_append_left _ mem)
    exact update_of_ne apart ..
  · rw [List.getLast?_cons_cons]
    exact inv.root
  · rw [cons_append, nodup_cons]
    exact ⟨new, inv.nodup⟩
  · intro v mem
    rcases mem_cons.mp mem with rfl | old
    · exact closed _ (inv.within _ here) _ edge
    · exact inv.within v old
  · intro v busy
    exact mem_cons_of_mem _ (processing v busy)
  · intro v notOnPath notOrder
    have apart : v ≠ child := fun same => notOnPath (same ▸ mem_cons_self)
    simp only [DepthFirst.enter, update_of_ne apart]
    exact inv.parentless v (fun up => notOnPath (mem_cons_of_mem _ up)) notOrder

theorem Inv.settle (inv : Inv children verts s path) (used : Seen s (s.iter s.vertex)) :
    ∀ child ∈ children s.vertex, child ∈ s.order ∨ Reach children child s.vertex := by
  intro child edge
  obtain ⟨above, rfl⟩ := inv.path_eq
  by_cases same : child = s.vertex
  · exact .inr (same ▸ .refl)
  · have seen : s.mark child ≠ .unprocessed := by
      rcases inv.consumed s.vertex child edge with left | seen | rfl
      · simpa [same] using used child left
      · exact seen
      · exact absurd rfl same
    cases mark : s.mark child with
    | unprocessed => exact absurd mark seen
    | processing => exact .inr (inv.chain.reach child (inv.processing child mark))
    | processed => exact .inl ((inv.processed child).mp mark)

theorem Inv.left_marks {above : List V} (inv : Inv children verts s (s.vertex :: above)) :
    (∀ v, update s.mark s.vertex .processed v = .processed ↔ v ∈ s.order ++ [s.vertex]) ∧
      ∀ v, update s.mark s.vertex .processed v = .processing → v ∈ above := by
  constructor
  · intro v
    by_cases same : v = s.vertex
    · simp [same]
    · simp [same, inv.processed]
  · intro v busy
    by_cases same : v = s.vertex
    · simp [same] at busy
    · rw [update_of_ne same] at busy
      exact (mem_cons.mp (inv.processing v busy)).resolve_left same

theorem Inv.left_consumed (inv : Inv children verts s path) (used : Seen s (s.iter s.vertex)) :
    ∀ v, ∀ child ∈ children v, child ∈ update s.iter s.vertex [] v ∨
      update s.mark s.vertex .processed child ≠ .unprocessed := by
  intro v child edge
  by_cases same : child = s.vertex
  · exact .inr (by simp [same])
  · rcases inv.consumed v child edge with left | seen | rfl
    · by_cases at' : v = s.vertex
      · subst at'
        exact .inr (by simpa [same] using used child left)
      · exact .inl (by simpa [at'] using left)
    · exact .inr (by simpa [same] using seen)
    · exact absurd rfl same

theorem Inv.left_iters (inv : Inv children verts s path) (v : V) :
    update s.iter s.vertex [] v ⊆ children v := by
  by_cases same : v = s.vertex
  · simp [same]
  · rw [update_of_ne same]
    exact inv.iters v

theorem Inv.leave_up {parent : V} (inv : Inv children verts s path)
    (used : Seen s (s.iter s.vertex))
    (up : s.parent s.vertex = some parent) :
    ∃ above, path = s.vertex :: above ∧ Inv children verts (leave s) above := by
  obtain ⟨above, rfl⟩ := inv.path_eq
  refine ⟨above, rfl, ?_⟩
  have settled := inv.settled.snoc (inv.settle used)
  have marks := inv.left_marks
  have perm := left_perm s.vertex above s.order
  have consumed := inv.left_consumed used
  have chain := inv.chain
  cases chain with
  | root none =>
    rw [none] at up
    cases up
  | @push _ v rest link edge tail =>
    rw [link] at up
    cases up
    have apart : ∀ u ∈ rest, u ≠ s.vertex := by
      rintro u mem rfl
      have nodup := inv.nodup
      simp only [cons_append, nodup_cons, mem_cons, mem_append] at nodup
      exact nodup.1 (.inr (.inl mem))
    unfold leave
    simp only [link]
    refine ⟨tail, rfl, ?_, perm.nodup_iff.mpr inv.nodup, ?_, marks.1, marks.2, ?_, ?_,
      inv.left_iters, ?_, ?_, settled⟩
    · rw [← inv.root, List.getLast?_cons_cons]
    · intro u mem
      exact inv.within u (perm.mem_iff.mp mem)
    · intro u mem
      exact (update_of_ne (apart u mem) ..).trans
        (inv.opened u (mem_cons_of_mem _ mem))
    · intro u child edge
      rcases consumed u child edge with left | seen
      · exact .inl left
      · exact .inr (.inl seen)
    · intro u notPath notOrder
      have apart : u ≠ s.vertex := fun same => notOrder (by simp [same])
      refine inv.parentless u ?_ (fun old => notOrder (mem_append_left _ old))
      rw [mem_cons, not_or]
      exact ⟨apart, notPath⟩
    · obtain ⟨done, same, all⟩ := inv.visited
      exact ⟨done, same, fun u mem => mem_append_left _ (all u mem)⟩

theorem Inv.left_finished (inv : Inv children verts s [s.vertex]) {v : V}
    (seen : update s.mark s.vertex .processed v ≠ .unprocessed) : v ∈ s.order ++ [s.vertex] := by
  obtain ⟨processed, processing⟩ := inv.left_marks
  cases mark : update s.mark s.vertex .processed v with
  | unprocessed => exact absurd mark seen
  | processing => exact absurd (processing v mark) not_mem_nil
  | processed => exact (processed v).mp mark

theorem Inv.left_visited (inv : Inv children verts s [s.vertex]) :
    ∃ done, verts = done ++ s.rest.tail.dropWhile (fun v =>
        update s.mark s.vertex .processed v ≠ .unprocessed) ∧
      ∀ v ∈ done, v ∈ s.order ++ [s.vertex] := by
  have head : s.rest.head? = some s.vertex := inv.root.symm
  have rest := cons_head?_tail head
  obtain ⟨done, same, all⟩ := inv.visited
  refine ⟨done ++ s.vertex :: s.rest.tail.takeWhile (fun v =>
    update s.mark s.vertex .processed v ≠ .unprocessed), ?_, ?_⟩
  · rw [append_assoc, cons_append, takeWhile_append_dropWhile, rest]
    exact same
  · intro v mem
    rcases mem_append.mp mem with old | later
    · exact mem_append_left _ (all v old)
    · rcases mem_cons.mp later with rfl | passed
      · simp
      · exact inv.left_finished (by simpa using mem_takeWhile_imp passed)

theorem leave_of_top (top : s.parent s.vertex = none) : leave s = { s with
      mark := update s.mark s.vertex .processed
      iter := update s.iter s.vertex []
      order := s.order ++ [s.vertex]
      rest := s.rest.tail.dropWhile fun v => update s.mark s.vertex .processed v ≠ .unprocessed
      vertex := (s.rest.tail.dropWhile fun v =>
        update s.mark s.vertex .processed v ≠ .unprocessed).headD s.vertex } := by
  simp only [leave, top]

theorem Inv.leave_last (inv : Inv children verts s [s.vertex]) (used : Seen s (s.iter s.vertex))
    (top : s.parent s.vertex = none) (next : s.rest.tail.dropWhile (fun v =>
      update s.mark s.vertex .processed v ≠ .unprocessed) = []) :
    Finished children verts (leave s) := by
  have perm := left_perm s.vertex [] s.order
  obtain ⟨done, same, all⟩ := inv.left_visited
  rw [next, append_nil] at same
  rw [leave_of_top top, next]
  refine ⟨rfl, perm.nodup_iff.mpr inv.nodup, ?_, inv.settled.snoc (inv.settle used)⟩
  intro v
  exact ⟨fun mem => inv.within v (perm.mem_iff.mp mem), fun mem => all v (same ▸ mem)⟩

theorem Inv.leave_next {w : V} {roots : List V} (inv : Inv children verts s [s.vertex])
    (used : Seen s (s.iter s.vertex))
    (top : s.parent s.vertex = none) (next : s.rest.tail.dropWhile (fun v =>
      update s.mark s.vertex .processed v ≠ .unprocessed) = w :: roots) :
    Inv children verts (leave s) [w] := by
  have marks := inv.left_marks
  have perm := left_perm s.vertex [] s.order
  have visited := inv.left_visited
  have fresh : update s.mark s.vertex .processed w = .unprocessed := by
    have stop := List.head?_dropWhile_not (fun v =>
      decide (update s.mark s.vertex .processed v ≠ .unprocessed)) s.rest.tail
    rw [next] at stop
    simpa using stop
  have notOrder : w ∉ s.order ++ [s.vertex] := by
    intro mem
    rw [(marks.1 w).mpr mem] at fresh
    cases fresh
  have parentless : ∀ u, u ∉ s.order ++ [s.vertex] → s.parent u = none := by
    intro u notDone
    have apart : u ≠ s.vertex := fun same => notDone (by simp [same])
    exact inv.parentless u (by simpa using apart) (fun old => notDone (mem_append_left _ old))
  rw [next] at visited
  rw [leave_of_top top, next]
  refine ⟨.root (parentless w notOrder), rfl, rfl, ?_, ?_, marks.1, ?_, by simp, ?_, inv.left_iters,
    ?_,
    visited, inv.settled.snoc (inv.settle used)⟩
  · rw [singleton_append, nodup_cons]
    exact ⟨notOrder, perm.nodup_iff.mpr inv.nodup⟩
  · intro u mem
    rcases mem_cons.mp mem with rfl | old
    · obtain ⟨done, same, _⟩ := visited
      rw [same]
      simp
    · exact inv.within u (perm.mem_iff.mp old)
  · intro u busy
    exact absurd (marks.2 u busy) not_mem_nil
  · intro u child edge
    rcases inv.left_consumed used u child edge with left | seen
    · exact .inl left
    · exact .inr (.inl seen)
  · exact fun u _ notDone => parentless u notDone

theorem Inv.leave_top (inv : Inv children verts s path) (used : Seen s (s.iter s.vertex))
    (top : s.parent s.vertex = none) : path = [s.vertex] ∧
      ((∃ w, Inv children verts (leave s) [w]) ∨ Finished children verts (leave s)) := by
  obtain ⟨above, rfl⟩ := inv.path_eq
  have alone : above = [] := by
    cases inv.chain with
    | root _ => rfl
    | push link _ _ =>
      rw [top] at link
      cases link
  subst alone
  refine ⟨rfl, ?_⟩
  cases next : s.rest.tail.dropWhile (fun v =>
      update s.mark s.vertex .processed v ≠ .unprocessed) with
  | nil => exact .inr (inv.leave_last used top next)
  | cons w roots => exact .inl ⟨w, inv.leave_next used top next⟩

/-- One turn keeps the invariant, with one vertex more entered or left, or stops
the machine. -/
theorem Inv.step (inv : Inv children verts s path)
    (closed : ∀ v ∈ verts, ∀ c ∈ children v, c ∈ verts) :
    (∃ path', Inv children verts (step s) path' ∧
      2 * s.order.length + path.length < 2 * (step s).order.length + path'.length) ∨
      Finished children verts (step s) := by
  unfold DepthFirst.step
  cases found : nextChild (update s.mark s.vertex .processing) (s.iter s.vertex) with
  | mk next post =>
    cases next with
    | some child =>
      obtain ⟨fresh, pre, split, old⟩ := nextChild_some found
      refine .inl ⟨child :: path, inv.enter closed fresh split old, ?_⟩
      simp [DepthFirst.enter]
    | none =>
      have used := nextChild_none found
      have grown : (leave s).order = s.order ++ [s.vertex] := by
        unfold leave
        cases s.parent s.vertex with
        | none => rfl
        | some parent => rfl
      simp only [grown, length_append, length_singleton]
      cases up : s.parent s.vertex with
      | some parent =>
        obtain ⟨above, rfl, left⟩ := inv.leave_up used up
        refine .inl ⟨above, left, ?_⟩
        simp only [length_cons]
        omega
      | none =>
        obtain ⟨rfl, ⟨w, left⟩ | finished⟩ := inv.leave_top used up
        · refine .inl ⟨[w], left, ?_⟩
          simp only [length_singleton]
          omega
        · exact .inr finished

theorem Inv.run (inv : Inv children verts s path)
    (closed : ∀ v ∈ verts, ∀ c ∈ children v, c ∈ verts) (fuel : Nat)
    (enough : 2 * verts.length < fuel + 2 * s.order.length + path.length) :
    ∃ final, run fuel s = some final ∧ Finished children verts final := by
  induction fuel generalizing s path with
  | zero =>
    have most := inv.length_le
    obtain ⟨above, rfl⟩ := inv.path_eq
    simp only [length_cons] at most enough
    omega
  | succ fuel ih =>
    rw [DepthFirst.run, if_neg inv.rest_ne_nil]
    rcases inv.step closed with ⟨path', next, more⟩ | finished
    · exact ih next (by omega)
    · exact ⟨DepthFirst.step s, run_of_stopped finished.stopped, finished⟩

theorem run_mono {fuel fuel' : Nat} {s t : State V} (done : run fuel s = some t)
    (more : fuel ≤ fuel') : run fuel' s = some t := by
  induction fuel generalizing s fuel' with
  | zero =>
    rw [run] at done
    split_ifs at done with stopped
    · cases done
      exact run_of_stopped stopped
  | succ fuel ih =>
    obtain ⟨k, rfl⟩ : ∃ k, fuel' = k + 1 := ⟨fuel' - 1, by omega⟩
    rw [run] at done ⊢
    split_ifs at done ⊢ with stopped
    · exact done
    · exact ih done (by omega)

abbrev Turns : State V → State V → Prop :=
  Relation.ReflTransGen fun s t => s.rest ≠ [] ∧ t = DepthFirst.step s

theorem Inv.turns (inv : Inv children verts s path)
    (closed : ∀ v ∈ verts, ∀ c ∈ children v, c ∈ verts) {t : State V} (turns : Turns s t) :
    (∃ path', Inv children verts t path') ∨ Finished children verts t := by
  induction turns with
  | refl => exact .inl ⟨path, inv⟩
  | tail _ turn ih =>
    obtain ⟨running, rfl⟩ := turn
    rcases ih with ⟨path', inv'⟩ | finished
    · rcases inv'.step closed with ⟨next, inv'', _⟩ | finished
      · exact .inl ⟨next, inv''⟩
      · exact .inr finished
    · exact absurd finished.stopped running

end Turn

end DepthFirst
