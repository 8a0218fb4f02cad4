import Dulge.Database
import Dulge.Depstring
import Dulge.Lib.DepthFirst
import Dulge.Lib.Worklist

/-! `_alpm_sortbydeps`: a dependency graph over the targets and the local packages
they lead to, and a depth-first search over it. Vertices are known by their place
in the vertex list, which grows while the edges are computed. -/
namespace Dulge
open DepthFirst List

/-- The part of `alpm_graph_t` that is fixed once the graph is built. -/
structure GraphVertex where
  data : Pkg
  children : List Nat

/-- The children of a vertex: first the vertices there are, then the local packages
that become vertices because of it. -/
def GraphVertex.new (vertices : List Pkg) (p : Pkg) (pulled : List Pkg) : GraphVertex where
  data := p
  children := (List.range vertices.length).filter (fun j => vertices[j]?.any (pkgDependsOn p)) ++
    (List.range pulled.length).map (vertices.length + ·)

def graphData (vertices : List GraphVertex) : List Pkg := vertices.map GraphVertex.data

/-- The edge loop of `dep_graph_init` over the vertices still to visit. -/
def depGraphEdges (done : List GraphVertex) (localpkgs : List Pkg) : List Pkg → List GraphVertex
  | [] => done
  | p :: todo =>
    let pulled := Worklist.taken pkgDependsOn localpkgs p
    depGraphEdges (done ++ [.new (graphData done ++ p :: todo) p pulled])
      (Worklist.spared pkgDependsOn localpkgs p) (todo ++ pulled)
termination_by todo => localpkgs.length + todo.length
decreasing_by
  have parts := Worklist.taken_spared_length pkgDependsOn localpkgs p
  simp only [length_append, length_cons]
  omega

def depGraphLocals (handle : Handle) (targets ignore : List Pkg) : List Pkg :=
  let localpkgs := listDiff pkgCmp (dbGetPkgcache handle.dbLocal) targets
  if ignore.isEmpty then localpkgs else listDiff pkgCmp localpkgs ignore

def depGraphInit (handle : Handle) (targets ignore : List Pkg) : List GraphVertex :=
  depGraphEdges [] (depGraphLocals handle targets ignore) targets

def graphChildren (graph : List GraphVertex) (i : Nat) : List Nat :=
  match graph[i]? with
  | none => []
  | some vertex => vertex.children

def targetData (graph : List GraphVertex) (targets : List Pkg) (i : Nat) : Option Pkg :=
  match graph[i]? with
  | none => none
  | some vertex => if vertex.data ∈ targets then some vertex.data else none

/-- The ancestor loop of `_alpm_warn_dep_cycle`: the nearest ancestor that is part
of the transaction. `none` is a walk that is not finished. -/
def nearestTarget (graph : List GraphVertex) (targets : List Pkg) (parent : Nat → Option Nat) :
    Nat → Option Nat → Option (Option Nat)
  | _, none => some none
  | 0, some _ => none
  | fuel + 1, some ancestor =>
    if (targetData graph targets ancestor).isSome then some (some ancestor)
    else nearestTarget graph targets parent fuel (parent ancestor)

/-- `_alpm_warn_dep_cycle`: the two packages it names in its message, if any. -/
def warnDepCycle (graph : List GraphVertex) (targets : List Pkg) (parent : Nat → Option Nat)
    (fuel ancestor vertex : Nat) : Option (Option (Pkg × Pkg)) :=
  match targetData graph targets vertex with
  | none => some none
  | some childpkg =>
    (nearestTarget graph targets parent fuel (some ancestor)).map fun nearest =>
      match nearest with
      | none => none
      | some ancestor =>
        if ancestor = vertex then none
        else (targetData graph targets ancestor).map fun ancestorpkg => (ancestorpkg, childpkg)

/-- The search of `_alpm_sortbydeps` before its first turn. -/
def sortStart (graph : List GraphVertex) : State Nat :=
  start (graphChildren graph) 0 ((List.range graph.length).tail)

/-- `_alpm_sortbydeps`. The search lists every vertex as it leaves it; only the
targets among them are put on the new list. -/
def sortbydeps (handle : Handle) (fuel : Nat) (targets ignore : List Pkg) (reverse : Bool) :
    Option (List Pkg) :=
  if targets.isEmpty then some []
  else
    let graph := depGraphInit handle targets ignore
    (run fuel (sortStart graph)).map fun final =>
      let newtargs := final.order.filterMap (targetData graph targets)
      if reverse then newtargs.reverse else newtargs

def GraphVertex.Linked (vertices : List Pkg) (vertex : GraphVertex) : Prop :=
  ∀ j, j ∈ vertex.children ↔ ∃ q, vertices[j]? = some q ∧ pkgDependsOn vertex.data q = true

theorem GraphVertex.Linked.append {vertices pulled : List Pkg} {vertex : GraphVertex}
    (linked : vertex.Linked vertices) (none : ∀ q ∈ pulled, pkgDependsOn vertex.data q = false) :
    vertex.Linked (vertices ++ pulled) := by
  intro j
  rw [linked]
  constructor
  · rintro ⟨q, there, depends⟩
    obtain ⟨lt, _⟩ := List.getElem?_eq_some_iff.mp there
    exact ⟨q, by rwa [List.getElem?_append_left lt], depends⟩
  · rintro ⟨q, there, depends⟩
    by_cases lt : j < vertices.length
    · rw [List.getElem?_append_left lt] at there
      exact ⟨q, there, depends⟩
    · rw [List.getElem?_append_right (by omega)] at there
      rw [none q (mem_of_getElem? there)] at depends
      cases depends

theorem GraphVertex.new_linked (p : Pkg) (vertices pulled : List Pkg)
    (all : ∀ q ∈ pulled, pkgDependsOn p q = true) :
    (GraphVertex.new vertices p pulled).Linked (vertices ++ pulled) := by
  intro j
  simp only [GraphVertex.new, mem_append, mem_filter, mem_range, mem_map, Option.any_eq_true]
  constructor
  · rintro (⟨lt, q, there, depends⟩ | ⟨i, lt, rfl⟩)
    · exact ⟨q, by rwa [List.getElem?_append_left lt], depends⟩
    · refine ⟨pulled[i], ?_, all _ (getElem_mem lt)⟩
      rw [List.getElem?_append_right (by omega), Nat.add_sub_cancel_left,
        List.getElem?_eq_getElem lt]
  · rintro ⟨q, there, depends⟩
    by_cases lt : j < vertices.length
    · rw [List.getElem?_append_left lt] at there
      exact .inl ⟨lt, q, there, depends⟩
    · rw [List.getElem?_append_right (by omega)] at there
      obtain ⟨lt, _⟩ := List.getElem?_eq_some_iff.mp there
      exact .inr ⟨j - vertices.length, lt, by omega⟩

/-- The graph has the vertices of a worklist run, all of them linked. A vertex that
is done depends on nothing that is still outside. -/
theorem depGraphEdges_spec (done : List GraphVertex) (localpkgs todo : List Pkg)
    (linked : ∀ v ∈ done, v.Linked (graphData done ++ todo))
    (outside : ∀ v ∈ done, ∀ q ∈ localpkgs, pkgDependsOn v.data q = false) :
    graphData (depGraphEdges done localpkgs todo) =
        graphData done ++ todo ++ (Worklist.run pkgDependsOn localpkgs todo).2 ∧
      ∀ v ∈ depGraphEdges done localpkgs todo,
        v.Linked (graphData (depGraphEdges done localpkgs todo)) := by
  induction done, localpkgs, todo using depGraphEdges.induct with
  | case1 done localpkgs =>
    rw [depGraphEdges, Worklist.run]
    simpa using linked
  | case2 done localpkgs p todo pulled ih =>
    generalize made : GraphVertex.new (graphData done ++ p :: todo) p pulled = vertex at ih
    have data : vertex.data = p := by
      rw [← made]
      rfl
    have grown : graphData (done ++ [vertex]) ++ (todo ++ pulled) =
        graphData done ++ p :: todo ++ pulled := by
      simp [graphData, data]
    have linked' : ∀ v ∈ done ++ [vertex],
        v.Linked (graphData (done ++ [vertex]) ++ (todo ++ pulled)) := by
      intro v mem
      rw [grown]
      rcases mem_append.mp mem with before | last
      · refine (linked v before).append fun q taken => ?_
        exact outside v before q (Worklist.mem_taken.mp taken).1
      · rw [mem_singleton.mp last, ← made]
        exact GraphVertex.new_linked p _ pulled fun q taken => (Worklist.mem_taken.mp taken).2
    have outside' : ∀ v ∈ done ++ [vertex],
        ∀ q ∈ Worklist.spared pkgDependsOn localpkgs p, pkgDependsOn v.data q = false := by
      intro v mem q spared
      obtain ⟨there, notPulled⟩ := Worklist.mem_spared.mp spared
      rcases mem_append.mp mem with before | last
      · exact outside v before q there
      · rw [mem_singleton.mp last, data]
        exact notPulled
    obtain ⟨whole, links⟩ := ih linked' outside'
    have next : depGraphEdges done localpkgs (p :: todo) = depGraphEdges (done ++ [vertex])
        (Worklist.spared pkgDependsOn localpkgs p) (todo ++ pulled) := by
      rw [depGraphEdges, ← made]
    rw [next, Worklist.run]
    refine ⟨?_, links⟩
    rw [whole, grown]
    simp [pulled]

section Graph

variable {handle : Handle} {targets ignore : List Pkg}

def graphPkgs (handle : Handle) (targets ignore : List Pkg) : List Pkg :=
  targets ++ (Worklist.run pkgDependsOn (depGraphLocals handle targets ignore) targets).2

theorem depGraphInit_data :
    graphData (depGraphInit handle targets ignore) = graphPkgs handle targets ignore :=
  (depGraphEdges_spec [] _ targets (by simp) (by simp)).1

theorem depGraphInit_linked : ∀ v ∈ depGraphInit handle targets ignore,
    v.Linked (graphPkgs handle targets ignore) := by
  rw [← depGraphInit_data]
  exact (depGraphEdges_spec [] _ targets (by simp) (by simp)).2

variable {p q : Pkg} {i j : Nat}

theorem mem_depGraphLocals :
    p ∈ depGraphLocals handle targets ignore ↔ p ∈ dbGetPkgcache handle.dbLocal ∧
      (∀ t ∈ targets, p.name ≠ t.name) ∧ ∀ q ∈ ignore, p.name ≠ q.name := by
  have names := dbGetPkgcache_names handle.dbLocal
  unfold depGraphLocals
  simp only
  split_ifs with none
  · rw [List.isEmpty_iff] at none
    simp [mem_listDiff_pkgCmp targets names, none]
  · rw [mem_listDiff_pkgCmp ignore (listDiff_names targets names),
      mem_listDiff_pkgCmp targets names, and_assoc]

theorem depGraphLocals_nodup : (depGraphLocals handle targets ignore).Nodup := by
  have names := dbGetPkgcache_names handle.dbLocal
  unfold depGraphLocals
  simp only
  split_ifs with none
  · exact (listDiff_names targets names).of_map
  · exact (listDiff_names ignore (listDiff_names targets names)).of_map

def graphNodes (handle : Handle) (targets ignore : List Pkg) : Set Pkg :=
  {p | p ∈ targets ∨ p ∈ depGraphLocals handle targets ignore}

def Depends (handle : Handle) (targets ignore : List Pkg) : Pkg → Pkg → Prop :=
  Relation.ReflTransGen fun p q => pkgDependsOn p q = true ∧
    p ∈ graphNodes handle targets ignore ∧ q ∈ graphNodes handle targets ignore

theorem graphPkgs_subset (mem : p ∈ graphPkgs handle targets ignore) :
    p ∈ graphNodes handle targets ignore := by
  rcases mem_append.mp mem with target | pulled
  · exact .inl target
  · exact .inr ((Worklist.run_perm _ _ _).mem_iff.mp (mem_append_right _ pulled))

theorem graphPkgs_closed (mem : p ∈ graphPkgs handle targets ignore)
    (node : q ∈ graphNodes handle targets ignore) (depends : pkgDependsOn p q = true) :
    q ∈ graphPkgs handle targets ignore := by
  rcases node with target | outside
  · exact mem_append_left _ target
  · have either := (Worklist.run_perm pkgDependsOn _ targets).mem_iff.mpr outside
    rcases mem_append.mp either with stays | pulled
    · have closed := Worklist.run_closed _ targets p mem q stays
      rw [depends] at closed
      cases closed
    · exact mem_append_right _ pulled

theorem graphPkgs_nodup (distinct : targets.Nodup) : (graphPkgs handle targets ignore).Nodup := by
  have pulled := (Worklist.run_perm pkgDependsOn (depGraphLocals handle targets ignore)
    targets).nodup_iff.mpr depGraphLocals_nodup
  refine nodup_append.mpr ⟨distinct, (nodup_append.mp pulled).2.1, ?_⟩
  rintro t target q mem rfl
  have outside := (Worklist.run_perm _ _ _).mem_iff.mp (mem_append_right _ mem)
  exact (mem_depGraphLocals.mp outside).2.1 t target rfl

theorem length_depGraphInit :
    (depGraphInit handle targets ignore).length = (graphPkgs handle targets ignore).length := by
  rw [← depGraphInit_data, graphData, length_map]

theorem mem_graphChildren : j ∈ graphChildren (depGraphInit handle targets ignore) i ↔
      ∃ p q, (graphPkgs handle targets ignore)[i]? = some p ∧
        (graphPkgs handle targets ignore)[j]? = some q ∧ pkgDependsOn p q = true := by
  unfold graphChildren
  have read : (graphPkgs handle targets ignore)[i]? =
      (depGraphInit handle targets ignore)[i]?.map GraphVertex.data := by
    rw [← depGraphInit_data, graphData, List.getElem?_map]
  rw [read]
  cases found : (depGraphInit handle targets ignore)[i]? with
  | none => simp
  | some v =>
    have linked := depGraphInit_linked v (mem_of_getElem? found) j
    rw [Option.map_some]
    constructor
    · intro child
      obtain ⟨q, there, depends⟩ := linked.mp child
      exact ⟨v.data, q, rfl, there, depends⟩
    · rintro ⟨p, q, ⟨⟩, there, depends⟩
      exact linked.mpr ⟨q, there, depends⟩

theorem reach_lower (path : Reach (graphChildren (depGraphInit handle targets ignore)) i j)
    (at' : (graphPkgs handle targets ignore)[i]? = some p) :
    ∃ q, (graphPkgs handle targets ignore)[j]? = some q ∧ Depends handle targets ignore p q := by
  induction path with
  | refl => exact ⟨p, at', .refl⟩
  | tail _ edge ih =>
    obtain ⟨q, there, depends⟩ := ih
    obtain ⟨q', r, there', next, needs⟩ := mem_graphChildren.mp edge
    rw [there] at there'
    cases there'
    exact ⟨r, next, depends.tail ⟨needs, graphPkgs_subset (mem_of_getElem? there),
      graphPkgs_subset (mem_of_getElem? next)⟩⟩

theorem reach_lift (path : Depends handle targets ignore p q)
    (at' : (graphPkgs handle targets ignore)[i]? = some p) :
    ∃ j, (graphPkgs handle targets ignore)[j]? = some q ∧
      Reach (graphChildren (depGraphInit handle targets ignore)) i j := by
  induction path with
  | refl => exact ⟨i, at', .refl⟩
  | tail _ edge ih =>
    obtain ⟨j, there, reached⟩ := ih
    obtain ⟨needs, _, node⟩ := edge
    have inside := graphPkgs_closed (mem_of_getElem? there) node needs
    obtain ⟨k, next⟩ := mem_iff_getElem?.mp inside
    exact ⟨k, next, reached.tail (mem_graphChildren.mpr ⟨_, _, there, next, needs⟩)⟩

theorem reach_iff (distinct : targets.Nodup) (hp : (graphPkgs handle targets ignore)[i]? = some p)
    (hq : (graphPkgs handle targets ignore)[j]? = some q) :
    Reach (graphChildren (depGraphInit handle targets ignore)) i j ↔
      Depends handle targets ignore p q := by
  constructor
  · intro path
    obtain ⟨q', there, depends⟩ := reach_lower path hp
    rw [hq] at there
    cases there
    exact depends
  · intro depends
    obtain ⟨k, there, path⟩ := reach_lift depends hp
    obtain ⟨lt, _⟩ := List.getElem?_eq_some_iff.mp hq
    have same : j = k :=
      (List.getElem?_inj lt (graphPkgs_nodup distinct)).mp (hq.trans there.symm)
    rwa [same]

theorem targetData_eq_some : targetData (depGraphInit handle targets ignore) targets i = some p ↔
      (graphPkgs handle targets ignore)[i]? = some p ∧ p ∈ targets := by
  unfold targetData
  rw [← depGraphInit_data, graphData, List.getElem?_map]
  cases (depGraphInit handle targets ignore)[i]? with
  | none => simp
  | some v =>
    simp only [Option.map_some, Option.some.injEq]
    split_ifs with target
    · constructor
      · rintro ⟨⟩
        exact ⟨rfl, target⟩
      · rintro ⟨rfl, _⟩
        rfl
    · simp only [false_iff, not_and]
      rintro rfl
      exact target

theorem nearestTarget_isSome {graph : List GraphVertex} {children : Nat → List Nat}
    {parent : Nat → Option Nat} {v : Nat} {path : List Nat}
    (chain : Chain children parent (v :: path)) {fuel : Nat} (enough : path.length < fuel) :
    (nearestTarget graph targets parent fuel (some v)).isSome = true := by
  induction fuel generalizing v path with
  | zero => omega
  | succ fuel ih =>
    rw [nearestTarget]
    split_ifs with target
    · rfl
    · cases chain with
      | root top => simp [top, nearestTarget]
      | push link _ tail =>
        rw [link]
        exact ih tail (by simpa using enough)

theorem graphPkgs_reached (mem : p ∈ graphPkgs handle targets ignore) :
    ∃ t ∈ targets, Depends handle targets ignore t p := by
  rcases mem_append.mp mem with target | pulled
  · exact ⟨p, target, .refl⟩
  · obtain ⟨t, target, path⟩ := Worklist.mem_run_moved.mp pulled
    refine ⟨t, target, ?_⟩
    -- each step of the run leaves the targets or a vertex it moved before
    have lift : ∀ {q}, Relation.TransGen
        (Worklist.Step pkgDependsOn (depGraphLocals handle targets ignore)) t q →
        Depends handle targets ignore t q ∧ q ∈ graphNodes handle targets ignore := by
      intro q path
      induction path with
      | single step =>
        exact ⟨.single ⟨step.1, .inl target, .inr step.2⟩, .inr step.2⟩
      | tail _ step ih =>
        exact ⟨ih.1.tail ⟨step.1, ih.2, .inr step.2⟩, .inr step.2⟩
    exact (lift path).1

theorem graphChildren_closed : ∀ v ∈ List.range (depGraphInit handle targets ignore).length,
    ∀ c ∈ graphChildren (depGraphInit handle targets ignore) v,
      c ∈ List.range (depGraphInit handle targets ignore).length := by
  intro v _ c child
  obtain ⟨p, q, _, there, _⟩ := mem_graphChildren.mp child
  obtain ⟨lt, _⟩ := List.getElem?_eq_some_iff.mp there
  rw [mem_range, length_depGraphInit]
  exact lt

theorem sortStart_inv (handle : Handle) (ignore : List Pkg) (nonempty : targets ≠ []) :
    Inv (graphChildren (depGraphInit handle targets ignore))
      (List.range (depGraphInit handle targets ignore).length)
      (sortStart (depGraphInit handle targets ignore)) [0] := by
  have some : 0 < (depGraphInit handle targets ignore).length := by
    rw [length_depGraphInit, graphPkgs, length_append]
    exact Nat.add_pos_left (length_pos_iff.mpr nonempty) _
  obtain ⟨n, size⟩ : ∃ n, (depGraphInit handle targets ignore).length = n + 1 :=
    ⟨(depGraphInit handle targets ignore).length - 1, by omega⟩
  unfold sortStart
  rw [size, range_succ_eq_map, tail_cons]
  exact Inv.start

theorem sort_finishes (handle : Handle) (ignore : List Pkg) (nonempty : targets ≠ []) :
    ∃ final, Finished (graphChildren (depGraphInit handle targets ignore))
        (List.range (depGraphInit handle targets ignore).length) final ∧
      ∀ fuel, 2 * (depGraphInit handle targets ignore).length ≤ fuel →
        run fuel (sortStart (depGraphInit handle targets ignore)) = some final := by
  obtain ⟨final, done, finished⟩ := (sortStart_inv handle ignore nonempty).run graphChildren_closed
    (2 * (depGraphInit handle targets ignore).length)
    (by simp [sortStart, start])
  exact ⟨final, finished, fun fuel enough => run_mono done enough⟩

theorem newtargs_perm (distinct : targets.Nodup) {final : State Nat}
    (finished : Finished (graphChildren (depGraphInit handle targets ignore))
      (List.range (depGraphInit handle targets ignore).length) final) :
    (final.order.filterMap (targetData (depGraphInit handle targets ignore) targets)).Perm
      targets := by
  have nodup : (graphPkgs handle targets ignore).Nodup := graphPkgs_nodup distinct
  apply (perm_ext_iff_of_nodup ?_ distinct).mpr
  · intro p
    simp only [mem_filterMap, targetData_eq_some, finished.mem, mem_range, length_depGraphInit]
    constructor
    · rintro ⟨i, _, _, target⟩
      exact target
    · intro target
      obtain ⟨i, there⟩ := mem_iff_getElem?.mp
        (mem_append_left _ target : p ∈ graphPkgs handle targets ignore)
      obtain ⟨lt, _⟩ := List.getElem?_eq_some_iff.mp there
      exact ⟨i, lt, there, target⟩
  · refine List.Nodup.filterMap ?_ finished.nodup
    intro i j p atI atJ
    obtain ⟨hi, _⟩ := targetData_eq_some.mp atI
    obtain ⟨hj, _⟩ := targetData_eq_some.mp atJ
    obtain ⟨lt, _⟩ := List.getElem?_eq_some_iff.mp hi
    exact (List.getElem?_inj lt nodup).mp (hi.trans hj.symm)

/-- The graph that the targets lead to has no cycle, except that a package may
depend on itself. -/
def AcyclicFrom (handle : Handle) (targets ignore : List Pkg) : Prop :=
  ∀ t ∈ targets, ∀ u v, Depends handle targets ignore t u → Depends handle targets ignore u v →
    Depends handle targets ignore v u → u = v

/-- A dependency that does not lead back comes first on the new list, and without
cycles so does every indirect one. -/
theorem newtargs_before (distinct : targets.Nodup) {final : State Nat}
    (finished : Finished (graphChildren (depGraphInit handle targets ignore))
      (List.range (depGraphInit handle targets ignore).length) final)
    {a b : Pkg} (ha : a ∈ targets) (hb : b ∈ targets) (reached : Depends handle targets ignore a b)
    (oneWay : ¬ Depends handle targets ignore b a)
    (direct : pkgDependsOn a b = true ∨ AcyclicFrom handle targets ignore) :
    Before (final.order.filterMap (targetData (depGraphInit handle targets ignore) targets)) b a := by
  obtain ⟨i, hi⟩ := mem_iff_getElem?.mp
    (mem_append_left _ ha : a ∈ graphPkgs handle targets ignore)
  obtain ⟨j, hj⟩ := mem_iff_getElem?.mp
    (mem_append_left _ hb : b ∈ graphPkgs handle targets ignore)
  have mem : i ∈ final.order := by
    obtain ⟨lt, _⟩ := List.getElem?_eq_some_iff.mp hi
    rw [finished.mem, mem_range, length_depGraphInit]
    exact lt
  have noReturn : ¬ Reach (graphChildren (depGraphInit handle targets ignore)) j i := by
    rwa [reach_iff distinct hj hi]
  have first : Before final.order j i := by
    rcases direct with depends | acyclic
    · exact finished.settled.before_edge mem
        (mem_graphChildren.mpr ⟨a, b, hi, hj, depends⟩) noReturn
    · have path := (reach_iff distinct hi hj).mpr reached
      refine (finished.settled.before_path finished.nodup ?_ ?_ mem path).resolve_left ?_
      · intro v there c child
        rw [finished.mem] at there ⊢
        exact graphChildren_closed v there c child
      · intro u there v forth back
        rw [finished.mem, mem_range, length_depGraphInit] at there
        have atU := List.getElem?_eq_getElem there
        obtain ⟨q, atV, forth⟩ := reach_lower forth atU
        obtain ⟨t, target, from'⟩ := graphPkgs_reached (getElem_mem there)
        have same := acyclic t target _ _ from' forth ((reach_iff distinct atV atU).mp back)
        rw [same, ← atV] at atU
        exact (List.getElem?_inj there (graphPkgs_nodup distinct)).mp atU
      · rintro rfl
        exact noReturn .refl
  have moved := List.Sublist.filterMap
    (targetData (depGraphInit handle targets ignore) targets) first
  simpa [Before, targetData_eq_some.mpr ⟨hi, ha⟩, targetData_eq_some.mpr ⟨hj, hb⟩] using moved

end Graph

/-- The sort always finishes, lists each target once, and puts a target behind what
it depends on, or before it when the order is reversed. The walk up the parents
that reports a cycle ends as well, in every turn of the search. -/
theorem sortbydeps_order (handle : Handle) {targets : List Pkg} (ignore : List Pkg) (reverse : Bool)
    (nonempty : targets ≠ []) (names : (targets.map Pkg.name).Nodup) :
    ∃ result, (∀ fuel, 2 * (depGraphInit handle targets ignore).length ≤ fuel →
        sortbydeps handle fuel targets ignore reverse = some result) ∧ result.Perm targets ∧
      (∀ a ∈ targets, ∀ b ∈ targets, Depends handle targets ignore a b →
        ¬ Depends handle targets ignore b a →
        pkgDependsOn a b = true ∨ AcyclicFrom handle targets ignore →
          if reverse then Before result a b else Before result b a) ∧
      ∀ s, Turns (sortStart (depGraphInit handle targets ignore)) s → s.rest ≠ [] → ∀ child,
        (warnDepCycle (depGraphInit handle targets ignore) targets s.parent
          (depGraphInit handle targets ignore).length s.vertex child).isSome = true := by
  have distinct : targets.Nodup := names.of_map
  obtain ⟨final, finished, finishes⟩ := sort_finishes handle ignore nonempty
  have perm := newtargs_perm distinct finished
  generalize sorted : final.order.filterMap
    (targetData (depGraphInit handle targets ignore) targets) = newtargs at perm
  refine ⟨if reverse then newtargs.reverse else newtargs, ?_, ?_, ?_, ?_⟩
  · intro fuel enough
    have some : targets.isEmpty = false := by simpa using nonempty
    simp [sortbydeps, some, finishes fuel enough, sorted]
  · split_ifs
    · exact (reverse_perm newtargs).trans perm
    · exact perm
  · intro a ha b hb reached oneWay direct
    have first : Before newtargs b a :=
      sorted ▸ newtargs_before distinct finished ha hb reached oneWay direct
    split_ifs
    · simpa [Before] using first.reverse
    · exact first
  · intro s turns running child
    rcases (sortStart_inv handle ignore nonempty).turns graphChildren_closed turns with
      ⟨path, inv⟩ | finished
    · obtain ⟨above, rfl⟩ := inv.path_eq
      have most := inv.length_le
      rw [length_range, length_cons] at most
      unfold warnDepCycle
      cases targetData (depGraphInit handle targets ignore) targets child with
      | none => rfl
      | some childpkg =>
        rw [Option.isSome_map]
        exact nearestTarget_isSome inv.chain (by omega)
    · exact absurd finished.stopped running

/-- The library that two programs need, one of them through a local package, comes
first. -/
theorem sortbydeps_order_local : let lib := Pkg.bare 0 (cstr "lib") (cstr "1")
    let prog := (Pkg.bare 1 (cstr "prog") (cstr "1")).needing ["lib"]
    let plugin := (Pkg.bare 2 (cstr "plugin") (cstr "1")).needing ["host"]
    let host := (Pkg.bare 3 (cstr "host") (cstr "1")).needing ["lib"]
    let handle := Handle.quiet (Db.populate [host]) [] TransFlags.none
    [plugin, prog, lib] ≠ [] ∧ ([plugin, prog, lib].map Pkg.name).Nodup ∧
      sortbydeps handle 8 [plugin, prog, lib] [] false = some [lib, plugin, prog] ∧
      [lib, plugin, prog].Perm [plugin, prog, lib] := by
  intro lib prog plugin host handle
  have nonempty : [plugin, prog, lib] ≠ [] := cons_ne_nil _ _
  have names : ([plugin, prog, lib].map Pkg.name).Nodup := by decide
  obtain ⟨result, finishes, perm, _⟩ := sortbydeps_order handle [] false nonempty names
  have computed : sortbydeps handle 8 [plugin, prog, lib] [] false = some [lib, plugin, prog] := by
    decide +kernel
  have same : result = [lib, plugin, prog] :=
    Option.some.inj ((finishes 8 (by decide +kernel)).symm.trans computed)
  exact ⟨nonempty, names, computed, same ▸ perm⟩

end Dulge
