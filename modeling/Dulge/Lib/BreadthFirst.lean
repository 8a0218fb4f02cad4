import Dulge.Lib.Worklist

/-! The order in which a worklist moves the elements of its pool. Each has chains of pulls that lead
to it from the list. The shortest chain decides, and among those of one length the one that starts,
and then goes on, at the earlier places. -/
namespace Worklist
open List

/-- Chains of places are written from their end, so that a pull adds a place in front. -/
inductive Below : List Nat → List Nat → Prop
  | shorter {n : Nat} {l : List Nat} : Below [] (n :: l)
  | start {m n : Nat} {k l : List Nat} : Below k l → Below (m :: k) (n :: l)
  | last {m n : Nat} {k : List Nat} : m < n → Below (m :: k) (n :: k)

section Chains

variable {k l m : List Nat}

theorem below_cons (n : Nat) (k : List Nat) : Below k (n :: k) := by
  induction k generalizing n with
  | nil => exact .shorter
  | cons m k ih => exact .start (ih m)

theorem below_cons_of_tail {n : Nat} (below : Below k.tail l) : Below k (n :: l) := by
  cases k with
  | nil => exact .shorter
  | cons m k => exact .start below

theorem Below.trans (first : Below k l) (second : Below l m) : Below k m := by
  induction first generalizing m with
  | shorter =>
    cases second with
    | start _ => exact .shorter
    | last _ => exact .shorter
  | start below ih =>
    cases second with
    | start above => exact .start (ih above)
    | last _ => exact .start below
  | last less =>
    cases second with
    | start above => exact .start above
    | last more => exact .last (less.trans more)

theorem Below.irrefl : ¬ Below k k := by
  induction k with
  | nil => exact nofun
  | cons n k ih =>
    intro below
    cases below with
    | start below => exact ih below
    | last less => exact Nat.lt_irrefl n less

end Chains

section Order

variable {α : Type*} (step : α → α → Prop) (sources : List α) (place : α → Nat)

inductive Reaches : List Nat → α → Prop
  | source {i : Nat} {x : α} : sources[i]? = some x → Reaches [i] x
  | pull {chain : List Nat} {x y : α} : Reaches chain x → step x y → Reaches (place y :: chain) y

def Earlier (x y : α) : Prop :=
  ∃ chain, Reaches step sources place chain x ∧
    ∀ other, Reaches step sources place other y → Below chain other

variable {step sources place}

theorem Earlier.asymm {x y : α} (earlier : Earlier step sources place x y) :
    ¬ Earlier step sources place y x := by
  obtain ⟨chain, reaches, least⟩ := earlier
  rintro ⟨other, back, below⟩
  exact Below.irrefl ((least other back).trans (below chain reaches))

variable {pull : α → α → Bool}

/-- The elements of a list that is worked on, and those that it moves, with chains that reach them.
The chains grow along the list, and no pull is below the chain of what it moved. -/
theorem run_chains {pool heads : List α} {todo : List (α × List Nat)}
    (shape : todo.map Prod.fst = heads) (places : pool.Pairwise (place · < place ·))
    (within : ∀ x y, Step pull pool x y → step x y)
    (known : ∀ u ∈ todo, Reaches step sources place u.2 u.1)
    (sorted : todo.Pairwise (Below ·.2 ·.2)) (recent : ∀ u ∈ todo, ∀ v ∈ todo, Below u.2.tail v.2) :
    ∃ moved : List (α × List Nat), moved.map Prod.fst = (run pull pool heads).2 ∧
      (todo ++ moved).Pairwise (Below ·.2 ·.2) ∧ (∀ v ∈ moved, Reaches step sources place v.2 v.1) ∧
      ∀ u ∈ todo ++ moved, ∀ y, Step pull pool u.1 y →
        ∃ v ∈ moved, v.1 = y ∧ (v.2 = place y :: u.2 ∨ Below v.2 (place y :: u.2)) := by
  induction pool, heads using run.induct pull generalizing todo with
  | case1 pool =>
    rw [map_eq_nil_iff.mp shape, run]
    exact ⟨[], rfl, List.Pairwise.nil, by simp, by simp⟩
  | case2 pool x rest ih =>
    obtain ⟨⟨x, chain⟩, more, rfl, rfl, rfl⟩ := map_eq_cons_iff.mp shape
    obtain ⟨ahead, sorted⟩ := pairwise_cons.mp sorted
    obtain ⟨reaches, known⟩ := forall_mem_cons.mp known
    let new := (taken pull pool x).map fun y => (y, place y :: chain)
    have fresh {v : α × List Nat} (mem : v ∈ new) :
        Step pull pool x v.1 ∧ v.2 = place v.1 :: chain := by
      obtain ⟨y, hit, rfl⟩ := mem_map.mp mem
      exact ⟨(mem_taken.mp hit).symm, rfl⟩
    have behind : ∀ v ∈ more ++ new, Below chain v.2 := by
      intro v mem
      rcases mem_append.mp mem with old | mem
      · exact ahead v old
      · rw [(fresh mem).2]
        exact below_cons _ _
    have tails : ∀ u ∈ more, Below u.2.tail chain := fun u mem =>
      recent u (mem_cons_of_mem _ mem) _ mem_cons_self
    have shape' : (more ++ new).map Prod.fst = more.map Prod.fst ++ taken pull pool x := by
      rw [map_append, map_map]
      exact congrArg (_ ++ ·) (map_id _)
    have known' : ∀ u ∈ more ++ new, Reaches step sources place u.2 u.1 := by
      intro v mem
      rcases mem_append.mp mem with old | now
      · exact known v old
      · rw [(fresh now).2]
        exact reaches.pull (within _ _ (fresh now).1)
    have sorted' : (more ++ new).Pairwise (Below ·.2 ·.2) := by
      refine pairwise_append.mpr ⟨sorted, ?_, ?_⟩
      · exact pairwise_map.mpr ((places.filter _).imp fun less => .last less)
      · intro u old v now
        rw [(fresh now).2]
        exact below_cons_of_tail (tails u old)
    have recent' : ∀ u ∈ more ++ new, ∀ v ∈ more ++ new, Below u.2.tail v.2 := by
      intro u mem v listed
      rcases mem_append.mp mem with old | now
      · exact (tails u old).trans (behind v listed)
      · rw [(fresh now).2]
        exact behind v listed
    obtain ⟨moved, names, order, reached, closed⟩ := ih shape' (places.filter _)
      (fun y z pulled => within y z ⟨pulled.1, (mem_spared.mp pulled.2).1⟩) known' sorted' recent'
    have above : ∀ v ∈ (more ++ new) ++ moved, Below chain v.2 := by
      intro v mem
      rcases mem_append.mp mem with listed | later
      · exact behind v listed
      · cases start : more ++ new with
        | nil =>
          obtain ⟨rfl, none⟩ := append_eq_nil_iff.mp start
          rw [map_eq_nil_iff.mp none, map_nil, nil_append, run] at names
          rw [map_eq_nil_iff.mp names] at later
          cases later
        | cons w others =>
          rw [start] at order behind
          exact (behind w mem_cons_self).trans
            ((pairwise_cons.mp order).1 v (mem_append_right others later))
    refine ⟨new ++ moved, ?_, ?_, ?_, ?_⟩
    · rw [map_append, names, run, map_map]
      exact congrArg (· ++ _) (map_id _)
    · rw [← append_assoc]
      exact pairwise_cons.mpr ⟨above, order⟩
    · intro v mem
      rcases mem_append.mp mem with now | later
      · exact known' v (mem_append_right more now)
      · exact reached v later
    · rw [← append_assoc]
      intro u mem y pulled
      by_cases here : pull x y = true
      · refine ⟨(y, place y :: chain), ?_, rfl, ?_⟩
        · exact mem_append_left _ (mem_map.mpr ⟨y, mem_taken.mpr ⟨pulled.2, here⟩, rfl⟩)
        · rcases mem_cons.mp mem with rfl | later
          · exact .inl rfl
          · exact .inr (.start (above u later))
      · rcases mem_cons.mp mem with rfl | later
        · exact absurd pulled.1 here
        · have spare : y ∈ spared pull pool x :=
            mem_spared.mpr ⟨pulled.2, Bool.eq_false_of_not_eq_true here⟩
          obtain ⟨v, listed, same⟩ := closed u later y ⟨pulled.1, spare⟩
          exact ⟨v, mem_append_right _ listed, same⟩

/-- What a worklist moves stands in the order of the least chains. -/
theorem run_earlier (pull : α → α → Bool) {pool : List α}
    (places : pool.Pairwise (place · < place ·)) (apart : ∀ x ∈ sources, x ∉ pool) :
    (run pull pool sources).2.Pairwise (Earlier (Step pull pool) sources place) := by
  let todo := sources.mapIdx fun i x => (x, [i])
  have listed {u : α × List Nat} (mem : u ∈ todo) :
      u.1 ∈ sources ∧ u.2.tail = [] ∧ Reaches (Step pull pool) sources place u.2 u.1 := by
    obtain ⟨i, inside, rfl⟩ := mem_mapIdx.mp mem
    exact ⟨getElem_mem inside, rfl, .source (List.getElem?_eq_getElem inside)⟩
  have sorted : todo.Pairwise (Below ·.2 ·.2) := by
    rw [pairwise_iff_getElem]
    intro i j insideI insideJ less
    rw [getElem_mapIdx, getElem_mapIdx]
    exact .last less
  have shape : todo.map Prod.fst = sources := by
    apply ext_getElem?
    intro i
    rw [List.getElem?_map, List.getElem?_mapIdx, Option.map_map]
    exact Option.map_id'
  have recent : ∀ u ∈ todo, ∀ v ∈ todo, Below u.2.tail v.2 := by
    intro u mem v other
    rw [(listed mem).2.1]
    obtain ⟨j, inside, rfl⟩ := mem_mapIdx.mp other
    exact .shorter
  obtain ⟨moved, names, order, reached, closed⟩ := run_chains shape places (fun _ _ => id)
    (fun u mem => (listed mem).2.2) sorted recent
  have least {other : List Nat} {y : α} (reaches : Reaches (Step pull pool) sources place other y) :
      ∃ w ∈ todo ++ moved, w.1 = y ∧ (w.2 = other ∨ Below w.2 other) := by
    induction reaches with
    | @source i x found =>
      obtain ⟨inside, rfl⟩ := List.getElem?_eq_some_iff.mp found
      have listed : (sources[i], [i]) ∈ todo := mem_mapIdx.mpr ⟨i, inside, rfl⟩
      exact ⟨_, mem_append_left _ listed, rfl, .inl rfl⟩
    | @pull chain x y _ step ih =>
      obtain ⟨w, mem, rfl, low⟩ := ih
      obtain ⟨v, late, same, chained⟩ := closed w mem y step
      refine ⟨v, mem_append_right _ late, same, ?_⟩
      rcases low with rfl | low
      · exact chained
      · rcases chained with chained | below
        · exact .inr (chained ▸ .start low)
        · exact .inr (below.trans (.start low))
  have nodup : (moved.map Prod.fst).Nodup := by
    have distinct : pool.Nodup := places.imp fun less same => (same ▸ less).ne rfl
    rw [names]
    exact (nodup_append.mp ((run_perm pull pool sources).nodup_iff.mpr distinct)).2.1
  rw [← names, pairwise_map]
  refine (pairwise_append.mp order).2.1.imp_of_mem fun {u v} first second below => ?_
  refine ⟨u.2, reached u first, fun other reaches => ?_⟩
  obtain ⟨w, mem, same, low⟩ := least reaches
  have whole : w = v := by
    rcases mem_append.mp mem with source | late
    · have inPool : v.1 ∈ pool := (run_perm pull pool sources).subset
        (mem_append_right _ (names ▸ mem_map_of_mem second))
      exact absurd (same ▸ inPool) (apart _ (listed source).1)
    · exact inj_on_of_nodup_map nodup late second same
  subst whole
  rcases low with rfl | low
  · exact below
  · exact below.trans low

theorem run_left_sublist (pool todo : List α) : (run pull pool todo).1.Sublist pool := by
  induction pool, todo using run.induct pull with
  | case1 pool => simp [run]
  | case2 pool x rest ih =>
    rw [run]
    exact ih.trans filter_sublist

end Order

end Worklist
