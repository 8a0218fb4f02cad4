import Dulge.Pkghash

/-! The package hash is a finite map. `Stored` is what every intermediate state of
an operation keeps, `Valid` adds the probe chains, and a `Run` pairs a table with
the map its history denotes. -/
namespace Dulge
open Cyclic List Function Option

def Node.home (buckets : Nat) (node : Node) : Nat := node.data.nameHash % buckets

structure Pkghash.Stored (h : Pkghash) : Prop where
  holds : Holds h.buckets h.hashTable h.list
  names : (h.list.map fun node => node.data.name).Nodup
  addrs : (h.list.map Node.addr).Nodup
  count : h.entries = h.list.length
  load : h.entries ≤ h.limit
  room : h.limit < h.buckets

structure Pkghash.Valid (h : Pkghash) : Prop extends h.Stored where
  chained : Chained h.buckets (Node.home h.buckets) h.hashTable

theorem Node.home_lt {buckets : Nat} (pos : 0 < buckets) (node : Node) :
    node.home buckets < buckets := Nat.mod_lt _ pos

variable {h : Pkghash} {pkg : Pkg} {hole len : Nat}

theorem Pkghash.Stored.exists_free (stored : h.Stored) : ∃ i < h.buckets, h.hashTable i = none := by
  apply stored.holds.exists_free
  have count := stored.count
  have load := stored.load
  have room := stored.room
  omega

theorem Pkghash.Stored.pos (stored : h.Stored) : 0 < h.buckets :=
  Nat.lt_of_le_of_lt (Nat.zero_le _) stored.room

theorem Pkghash.Stored.eq_of_name (stored : h.Stored) {x y : Node} (hx : x ∈ h.list)
    (hy : y ∈ h.list) (same : x.data.name = y.data.name) : x = y :=
  inj_on_of_nodup_map stored.names hx hy same

theorem pkghashCreate_spec {size : Nat} (created : pkghashCreate size = some h) :
    size * 50 / 29 + 1 < h.buckets ∧ h.limit = h.buckets * 17 / 25 ∧
      h.hashTable = (fun _ => none) ∧ h.list = [] ∧ h.entries = 0 := by
  unfold pkghashCreate at created
  simp only [] at created
  split_ifs at created with range
  cases created
  refine ⟨?_, rfl, rfl, rfl, rfl⟩
  cases found : primeList.find? (· > size * 50 / 29 + 1) with
  | none => simp [found] at range
  | some prime => simpa using List.find?_some found

theorem pkghashCreate_valid {size : Nat} (created : pkghashCreate size = some h) : h.Valid := by
  obtain ⟨large, limit, table, list, entries⟩ := pkghashCreate_spec created
  refine ⟨⟨?_, ?_, ?_, ?_, ?_, ?_⟩, ?_⟩
  · rw [table, list]
    exact Holds.nil
  · simp [list]
  · simp [list]
  · simp [list, entries]
  · omega
  · omega
  · intro i _ a hit
    rw [table] at hit
    cases hit

theorem getHashPosition_some {i : Nat} (hi : i < h.buckets) (free : h.hashTable i = none)
    (nameHash : Nat) :
    ∃ k < h.buckets, getHashPosition nameHash h = some (walk h.buckets (nameHash % h.buckets) k) ∧
      h.hashTable (walk h.buckets (nameHash % h.buckets) k) = none ∧
      ∀ j < k, h.hashTable (walk h.buckets (nameHash % h.buckets) j) ≠ none :=
  firstFree_some (Nat.mod_lt _ (Nat.lt_of_le_of_lt (Nat.zero_le i) hi)) hi free

section Rehash

variable {old : Pkghash}

theorem rebin_spec (old : Pkghash) (is : List Nat) (new : Pkghash) (l : List Node)
    (holds : Holds new.buckets new.hashTable l)
    (chained : Chained new.buckets (Node.home new.buckets) new.hashTable)
    (fresh : (l ++ is.filterMap old.hashTable).Nodup)
    (room : (l ++ is.filterMap old.hashTable).length < new.buckets) :
    ∃ new', rebin old is new = some new' ∧ new'.buckets = new.buckets ∧ new'.limit = new.limit ∧
      (∃ l', Holds new.buckets new'.hashTable l' ∧
        ∀ a, a ∈ l' ↔ a ∈ l ++ is.filterMap old.hashTable) ∧
      Chained new.buckets (Node.home new.buckets) new'.hashTable := by
  induction is generalizing new l with
  | nil => exact ⟨new, rfl, rfl, rfl, ⟨l, holds, by simp⟩, chained⟩
  | cons i is ih =>
    cases slot : old.hashTable i with
    | none =>
      rw [filterMap_cons_none slot] at fresh room ⊢
      simp only [rebin, slot]
      exact ih new l holds chained fresh room
    | some node =>
      rw [filterMap_cons_some slot] at fresh room ⊢
      have away : node ∉ l := by
        intro member
        exact disjoint_of_nodup_append fresh member mem_cons_self
      obtain ⟨free, free_lt, isFree⟩ := holds.exists_free (by
        simp only [length_append, length_cons] at room
        omega)
      obtain ⟨k, hk, found, empty, taken⟩ :=
        getHashPosition_some free_lt isFree node.data.nameHash
      have pos : 0 < new.buckets := Nat.lt_of_le_of_lt (Nat.zero_le _) free_lt
      have move : (node :: l ++ is.filterMap old.hashTable).Perm
          (l ++ node :: is.filterMap old.hashTable) := perm_middle.symm
      obtain ⟨new', done, buckets, limit, ⟨l', holds', mem⟩, chained'⟩ :=
        ih (new.store (walk new.buckets (node.home new.buckets) k) (some node)) (node :: l)
          (holds.insert (walk_lt (Node.home_lt pos node) hk.le) empty away)
          (chained.insert (Node.home_lt pos node) hk taken)
          (move.nodup_iff.mpr fresh) (by rw [move.length_eq]; exact room)
      refine ⟨new', ?_, buckets, limit, ⟨l', holds', fun a => ?_⟩, chained'⟩
      · simp only [rebin, slot, found, bind_eq_bind, bind_some]
        exact done
      · rw [mem, move.mem_iff]

theorem Pkghash.Stored.slots_perm (stored : old.Stored) :
    ((List.range old.buckets).filterMap old.hashTable).Perm old.list := by
  have nodup : ((List.range old.buckets).filterMap old.hashTable).Nodup := by
    rw [List.Nodup, pairwise_filterMap]
    refine nodup_range.imp_of_mem ?_
    intro i j hi hj apart a ha b hb same
    simp only [mem_range] at hi hj
    subst same
    exact apart (stored.holds.once i hi j hj a ha hb)
  rw [perm_ext_iff_of_nodup nodup (List.Nodup.of_map _ stored.addrs)]
  intro a
  rw [stored.holds.mem]
  simp [mem_filterMap]

/-- A rehash that finds a larger prime keeps everything and makes room for one more. -/
theorem rehash_spec (valid : old.Valid) :
    (rehash old = none ∧ pkghashCreate (rehashSize old.buckets) = none) ∨
      ∃ new, rehash old = some new ∧ new.Valid ∧ new.list = old.list ∧ new.entries < new.limit := by
  cases created : pkghashCreate (rehashSize old.buckets) with
  | none => exact .inl ⟨by simp [rehash, created], rfl⟩
  | some new =>
    obtain ⟨large, limit, table, list, entries⟩ := pkghashCreate_spec created
    have size : old.buckets ≤ rehashSize old.buckets := by
      unfold rehashSize
      split_ifs <;> omega
    have perm := valid.slots_perm
    have count := valid.count
    have load := valid.load
    have room := valid.room
    have grow : old.buckets ≤ new.limit := by omega
    obtain ⟨new', done, buckets, limit', ⟨l', holds, mem⟩, chained⟩ :=
      rebin_spec old (List.range old.buckets) new [] (by rw [table]; exact Holds.nil)
        (pkghashCreate_valid created).chained
        (perm.nodup_iff.mpr (List.Nodup.of_map _ valid.addrs))
        (by simp only [nil_append, perm.length_eq]; omega)
    refine .inr ⟨{ new' with list := old.list, entries := old.entries }, ?_, ?_, rfl, ?_⟩
    · simp [rehash, created, done]
    · refine ⟨⟨?_, valid.names, valid.addrs, valid.count, ?_, ?_⟩, ?_⟩
      · simp only [buckets]
        refine holds.perm fun a => ?_
        rw [mem, nil_append, perm.mem_iff]
      · simp only [limit']
        omega
      · simp only [limit', buckets]
        omega
      · simp only [buckets]
        exact chained
    · simp only [limit']
      omega

theorem makeRoom_spec (valid : old.Valid) : (makeRoom old = none ∧ old.limit ≤ old.entries ∧
        pkghashCreate (rehashSize old.buckets) = none) ∨
      ∃ new, makeRoom old = some new ∧ new.Valid ∧ new.list = old.list ∧
        new.entries < new.limit := by
  unfold makeRoom
  split_ifs with full
  · rcases rehash_spec valid with ⟨failed, large⟩ | grown
    · exact .inl ⟨failed, full, large⟩
    · exact .inr grown
  · exact .inr ⟨old, rfl, valid, rfl, Nat.lt_of_not_le full⟩

end Rehash

/-- What a run of the operations denotes: the package last added under a name and
not removed since. -/
abbrev PkgMap := CStr → Option Pkg

def Pkghash.Denotes (h : Pkghash) (m : PkgMap) : Prop :=
  ∀ name p, m name = some p ↔ p.name = name ∧ ∃ node ∈ h.list, node.data = p

variable {m : PkgMap}

theorem Pkghash.Denotes.none_iff (denotes : h.Denotes m) (name : CStr) :
    m name = none ↔ ∀ node ∈ h.list, node.data.name ≠ name := by
  constructor
  · intro absent node mem same
    have present := (denotes name node.data).mpr ⟨same, node, mem, rfl⟩
    rw [absent] at present
    cases present
  · intro absent
    cases stored : m name with
    | none => rfl
    | some p =>
      obtain ⟨same, node, mem, rfl⟩ := (denotes name p).mp stored
      exact absurd same (absent node mem)

/-- Adding a package keeps the table valid; it fails only when no prime is large
enough for the table to grow. -/
theorem pkghashAddPkg_spec (valid : h.Valid) {addr : Nat}
    (newName : ∀ node ∈ h.list, node.data.name ≠ pkg.name)
    (newAddr : ∀ node ∈ h.list, node.addr ≠ addr) (sorted : Bool) :
    (pkghashAddPkg h addr pkg sorted = none ∧ h.limit ≤ h.entries ∧
        pkghashCreate (rehashSize h.buckets) = none) ∨
      ∃ h', pkghashAddPkg h addr pkg sorted = some h' ∧ h'.Valid ∧
        ∀ node, node ∈ h'.list ↔ node ∈ h.list ∨ node = ⟨addr, pkg⟩ := by
  rcases makeRoom_spec valid with ⟨failed, full, large⟩ | ⟨g, done, valid', list, load⟩
  · exact .inl ⟨by simp [pkghashAddPkg, failed], full, large⟩
  · right
    obtain ⟨i, hi, free⟩ := valid'.exists_free
    obtain ⟨k, hk, found, empty, taken⟩ := getHashPosition_some hi free pkg.nameHash
    have pos := valid'.pos
    have fresh : (⟨addr, pkg⟩ : Node) ∉ g.list := by
      rw [list]
      intro mem
      exact newName _ mem rfl
    -- both list operations insert the one new node
    obtain ⟨l', listed, perm⟩ : ∃ l', (if sorted then
        listMmerge (fun a b => pkgCmp a.data b.data) g.list [⟨addr, pkg⟩]
        else g.list ++ [⟨addr, pkg⟩]) = l' ∧ l'.Perm (⟨addr, pkg⟩ :: g.list) := by
      refine ⟨_, rfl, ?_⟩
      have single : (g.list ++ [(⟨addr, pkg⟩ : Node)]).Perm (⟨addr, pkg⟩ :: g.list) :=
        perm_append_singleton _ _
      split_ifs
      · rw [listMmerge_eq]
        exact (merge_perm_append _).trans single
      · exact single
    refine ⟨{ g.store (walk g.buckets (pkg.nameHash % g.buckets) k) (some ⟨addr, pkg⟩) with
      list := l', entries := g.entries + 1 }, ?_, ?_, ?_⟩
    · simp [pkghashAddPkg, done, found, ← listed]
    · refine ⟨⟨?_, ?_, ?_, ?_, load, valid'.room⟩, ?_⟩
      · refine Holds.perm ?_ fun a => perm.mem_iff
        exact valid'.holds.insert (walk_lt (Nat.mod_lt _ pos) hk.le) empty fresh
      · refine (perm.map _).nodup_iff.mpr ?_
        rw [map_cons, nodup_cons, list]
        refine ⟨?_, valid.names⟩
        simpa using newName
      · refine (perm.map _).nodup_iff.mpr ?_
        rw [map_cons, nodup_cons, list]
        refine ⟨?_, valid.addrs⟩
        simpa using newAddr
      · simp only [perm.length_eq, length_cons, valid'.count]
      · exact valid'.chained.insert (a := (⟨addr, pkg⟩ : Node)) (Nat.mod_lt _ pos) hk taken
    · intro node
      rw [perm.mem_iff, mem_cons, list]
      exact or_comm

theorem probe_spec (valid : h.Valid) (name : CStr) :
    ∃ position < h.buckets, probe h (hashSdbm name) name = some position ∧
      ((h.hashTable position = none ∧ ∀ node ∈ h.list, node.data.name ≠ name) ∨
        ∃ node, h.hashTable position = some node ∧ node.data.name = name) := by
  have pos := valid.pos
  have start_lt : hashSdbm name % h.buckets < h.buckets := Nat.mod_lt _ pos
  obtain ⟨free, free_lt, isFree⟩ := valid.exists_free
  have stops : probeStops h (hashSdbm name) name free = true := by simp [probeStops, isFree]
  have matching : ∀ i node, h.hashTable i = some node →
      (probeStops h (hashSdbm name) name i = true ↔ node.data.name = name) := by
    intro i node hit
    simp only [probeStops, hit, strcmp_eq_zero, decide_eq_true_eq]
    exact ⟨And.right, fun same => ⟨same ▸ node.data.hashed, same⟩⟩
  obtain ⟨k, hk, found, hit, before⟩ := scan_hit start_lt free_lt stops
  have k_lt : k < h.buckets := lt_of_le_of_lt hk (dist_lt start_lt free_lt)
  refine ⟨_, walk_lt start_lt k_lt.le, found, ?_⟩
  cases slot : h.hashTable (walk h.buckets (hashSdbm name % h.buckets) k) with
  | some node => exact .inr ⟨node, rfl, (matching _ node slot).mp hit⟩
  | none =>
    refine .inl ⟨rfl, ?_⟩
    intro node mem same
    obtain ⟨i, hi, stored⟩ := (valid.holds.mem node).mp mem
    have home : node.home h.buckets = hashSdbm name % h.buckets := by
      rw [Node.home, node.data.hashed, same]
    -- the free slot cannot lie before the node, and the probe would stop at the node
    rcases Nat.lt_or_ge k (dist h.buckets (hashSdbm name % h.buckets) i) with early | late
    · refine valid.chained i hi node stored k ?_ ?_
      · rwa [home]
      · rw [home, slot]
    · have place := walk_dist start_lt hi
      rcases Nat.lt_or_eq_of_le late with late | same'
      · have passed := before _ late
        rw [place, (matching i node stored).mpr same] at passed
        cases passed
      · rw [← same', place, stored] at slot
        cases slot

/-- The state of a removal while a hole is open: the chains are intact but for
the hole, which is followed by `len` taken slots and then another free one. -/
structure Pkghash.Gap (h : Pkghash) (hole len : Nat) : Prop extends h.Stored where
  but : ChainedBut h.buckets (Node.home h.buckets) hole h.hashTable
  run : Run h.buckets h.hashTable hole len
  free : h.hashTable hole = none

/-- Moving the entry `m` slots behind the hole into it opens the hole there. -/
theorem Pkghash.Gap.move {m : Nat} (gap : h.Gap hole len) (low : 1 ≤ m) (high : m ≤ len) {a : Node}
    (hit : h.hashTable (walk h.buckets hole m) = some a)
    (cross : Crosses h.buckets (Node.home h.buckets) hole (walk h.buckets hole m) a) :
    ((h.store hole (some a)).store (walk h.buckets hole m) none).Gap (walk h.buckets hole m)
      (len - m) := by
  have hole_lt := gap.run.hole_lt
  have bound := gap.run.bound
  have slot_lt : walk h.buckets hole m < h.buckets := walk_lt hole_lt (by omega)
  -- a slot behind the new hole is neither the old hole nor the new one
  have same : ∀ j, 1 ≤ j → j ≤ len - m + 1 →
      ((h.store hole (some a)).store (walk h.buckets hole m) none).hashTable
        (walk h.buckets (walk h.buckets hole m) j) =
      h.hashTable (walk h.buckets hole (m + j)) := by
    intro j hj bound'
    rw [walk_walk hole_lt (by omega)]
    have apart : ∀ i, i < h.buckets → i ≠ m + j →
        walk h.buckets hole (m + j) ≠ walk h.buckets hole i :=
      fun i hi other eq => other (walk_inj hole_lt (by omega) hi eq).symm
    have notHole := apart 0 (by omega) (by omega)
    rw [walk_zero hole_lt] at notHole
    simp only [Pkghash.store]
    rw [update_of_ne (apart m (by omega) (by omega)), update_of_ne notHole]
  refine ⟨⟨?_, gap.names, gap.addrs, gap.count, gap.load, gap.room⟩, ?_, ?_, ?_⟩
  · exact gap.holds.move hole_lt gap.free slot_lt hit
  · exact gap.but.move slot_lt hit cross
  · refine ⟨slot_lt, ?_, ?_, ?_⟩
    · simp only [Pkghash.store]
      omega
    · intro k hk hk'
      rw [show ((h.store hole (some a)).store (walk h.buckets hole m) none).buckets = h.buckets
        from rfl, same k hk (by omega)]
      exact gap.run.taken (m + k) (by omega) (by omega)
    · rw [show ((h.store hole (some a)).store (walk h.buckets hole m) none).buckets = h.buckets
        from rfl, same (len - m + 1) (by omega) (by omega)]
      rw [show m + (len - m + 1) = len + 1 by omega]
      exact gap.run.free
  · exact update_self ..

/-- The walk back from the end of the run stops: at the hole when nothing crosses
it, else after the one move it makes. -/
theorem moveOneEntry_spec (gap : h.Gap hole len) (k fuel : Nat) (hk : k ≤ len) (enough : k < fuel)
    (settled : ∀ m, k < m → m ≤ len → ∀ a, h.hashTable (walk h.buckets hole m) = some a →
      ¬ Crosses h.buckets (Node.home h.buckets) hole (walk h.buckets hole m) a) :
    ∃ h' prev, moveOneEntry h hole fuel (walk h.buckets hole k) = some (h', prev) ∧
      h'.list = h.list ∧ h'.buckets = h.buckets ∧ (prev = hole ∧ h'.Valid ∨
        ∃ m, 1 ≤ m ∧ m ≤ len ∧ prev = walk h.buckets hole m ∧ h'.Gap prev (len - m)) := by
  have hole_lt := gap.run.hole_lt
  have bound := gap.run.bound
  induction k generalizing fuel with
  | zero =>
    cases fuel with
    | zero => omega
    | succ fuel =>
      refine ⟨h, hole, ?_, rfl, rfl, .inl ⟨rfl, gap.toStored, ?_⟩⟩
      · simp [moveOneEntry, walk_zero hole_lt]
      · exact gap.but.chained gap.run (fun a => Node.home_lt gap.pos a) settled
  | succ k ih =>
    cases fuel with
    | zero => omega
    | succ fuel =>
      have stop_ne : walk h.buckets hole (k + 1) ≠ hole := walk_ne (by omega) (by omega)
      cases hit : h.hashTable (walk h.buckets hole (k + 1)) with
      | none => exact absurd hit (gap.run.taken (k + 1) (by omega) hk)
      | some a =>
        obtain ⟨pos, found, atHole⟩ := gap.but.firstFree_hole gap.run gap.free
          (Node.home_lt gap.pos a) (by omega) hk hit
        have position : getHashPosition a.data.nameHash h = some pos := found
        simp only [moveOneEntry, stop_ne, if_false, hit, position, bind_eq_bind, bind_some]
        by_cases moved : pos = hole
        · rw [if_pos moved]
          exact ⟨_, _, rfl, rfl, rfl, .inr ⟨k + 1, by omega, hk, rfl,
            gap.move (by omega) hk hit (atHole.mp moved)⟩⟩
        · rw [if_neg moved, show stride = 1 from rfl, walk_back hole_lt (by omega)]
          refine ih fuel (by omega) (by omega) ?_
          intro m hm hm' b hb
          rcases Nat.lt_or_eq_of_le hm with above | rfl
          · exact settled m above hm' b hb
          · rw [hit] at hb
            cases hb
            exact fun cross => moved (atHole.mpr cross)

theorem plugHoles_spec (gap : h.Gap hole len) (fuel : Nat) (enough : len < fuel) :
    ∃ h', plugHoles (walk h.buckets hole len) fuel h hole = some h' ∧ h'.list = h.list ∧
      h'.Valid := by
  induction fuel generalizing h hole len with
  | zero => omega
  | succ fuel ih =>
    have bound := gap.run.bound
    obtain ⟨h', prev, done, list, buckets, ⟨rfl, valid⟩ | ⟨m, low, high, rfl, gap'⟩⟩ :=
      moveOneEntry_spec gap len h.buckets le_rfl (by omega) (fun m above high => by omega)
    · exact ⟨h', by simp [plugHoles, done], list, valid⟩
    · have stop_ne : walk h.buckets hole m ≠ hole := walk_ne low (by omega)
      have stop : walk h.buckets hole len = walk h'.buckets (walk h.buckets hole m) (len - m) := by
        rw [buckets, walk_walk gap.run.hole_lt (by omega), show m + (len - m) = len by omega]
      obtain ⟨h'', rest, list', valid⟩ := ih gap' (by omega)
      refine ⟨h'', ?_, list'.trans list, valid⟩
      simp only [plugHoles, done, bind_eq_bind, bind_some, ne_eq, stop_ne,
        not_false_eq_true, if_true]
      rw [stop]
      exact rest

theorem listRemoveItem_eq_erase (stored : h.Stored) {node : Node} (mem : node ∈ h.list) :
    listRemoveItem h.list node = h.list.erase node := by
  rw [(List.Nodup.of_map _ stored.addrs).erase_eq_filter]
  refine filter_congr fun x hx => ?_
  by_cases same : x = node
  · simp [same]
  · have apart : x.addr ≠ node.addr := fun eq =>
      same (inj_on_of_nodup_map stored.addrs hx mem eq)
    simp [same, apart]

theorem Pkghash.Valid.take_out (valid : h.Valid) {position : Nat} {node : Node}
    (lt : position < h.buckets) (hit : h.hashTable position = some node) :
    (h.takeOut position node).Stored := by
  have mem : node ∈ h.list := (valid.holds.mem node).mpr ⟨position, lt, hit⟩
  have nodup := List.Nodup.of_map _ valid.addrs
  have load := valid.load
  have list : (h.takeOut position node).list = h.list.erase node :=
    listRemoveItem_eq_erase valid.toStored mem
  refine ⟨?_, ?_, ?_, ?_, ?_, valid.room⟩
  · refine valid.holds.remove lt hit fun b => ?_
    rw [list, nodup.mem_erase_iff]
    exact and_comm
  · rw [list]
    exact valid.names.sublist (erase_sublist.map _)
  · rw [list]
    exact valid.addrs.sublist (erase_sublist.map _)
  · rw [list, length_erase_of_mem mem, ← valid.count]
    rfl
  · simp only [Pkghash.takeOut]
    omega

theorem scan_run {n position : Nat} {t : Nat → Option Node} (lt : position < n)
    {free : Nat} (free_lt : free < n) (isFree : t free = none) (other : free ≠ position) :
    ∃ len, scan n (fun s => (t s).isNone || s = position) n (walk n position stride) =
        some (walk n position (len + 1)) ∧ Run n t position len := by
  have start_lt : walk n position stride < n := walk_lt lt (by unfold stride; omega)
  have far : 1 ≤ Cyclic.dist n position free := by
    unfold Cyclic.dist
    split_ifs <;> omega
  have free_dist := Cyclic.dist_lt lt free_lt
  have shift : ∀ j, j + 1 ≤ n → walk n (walk n position stride) j = walk n position (j + 1) := by
    intro j hj
    rw [walk_walk lt (by unfold stride; omega), Nat.add_comm]
    rfl
  have nearer : Cyclic.dist n (walk n position stride) free = Cyclic.dist n position free - 1 := by
    have place := shift (Cyclic.dist n position free - 1) (by omega)
    rw [Nat.sub_add_cancel far, walk_dist lt free_lt] at place
    have back := dist_walk start_lt (by omega : Cyclic.dist n position free - 1 < n)
    rwa [place] at back
  obtain ⟨k, hk, found, hit, before⟩ :=
    scan_hit (p := fun s => (t s).isNone || s = position) start_lt free_lt (by simp [isFree])
  have k_bound : k + 1 < n := by omega
  refine ⟨k, ?_, lt, k_bound, ?_, ?_⟩
  · rw [found, shift k (by omega)]
  · intro j low high empty
    have passed := before (j - 1) (by omega)
    rw [shift (j - 1) (by omega), Nat.sub_add_cancel low] at passed
    simp [empty] at passed
  · rw [shift k (by omega)] at hit
    simpa [walk_ne (by omega : 1 ≤ k + 1) k_bound] using hit

/-- Removing a name always returns, takes out the node of that name and nothing
else, and leaves a valid table. -/
theorem pkghashRemove_spec (valid : h.Valid) (pkg : Pkg) :
    ∃ h' data, pkghashRemove h pkg = some (h', data) ∧ h'.Valid ∧
      (∀ node, node ∈ h'.list ↔ node ∈ h.list ∧ node.data.name ≠ pkg.name) ∧
      ∀ p, data = some p ↔ p.name = pkg.name ∧ ∃ node ∈ h.list, node.data = p := by
  obtain ⟨position, lt, probed, ⟨empty, absent⟩ | ⟨node, hit, named⟩⟩ := probe_spec valid pkg.name
  · refine ⟨h, none, ?_, valid, ?_, ?_⟩
    · simp [pkghashRemove, pkg.hashed, probed, empty]
    · exact fun node => ⟨fun mem => ⟨mem, absent node mem⟩, And.left⟩
    · intro p
      simp only [reduceCtorEq, false_iff]
      rintro ⟨same, node, mem, rfl⟩
      exact absent node mem same
  · have mem : node ∈ h.list := (valid.holds.mem node).mpr ⟨position, lt, hit⟩
    have out := valid.take_out lt hit
    obtain ⟨free, free_lt, isFree⟩ := valid.exists_free
    have other : free ≠ position := by
      rintro rfl
      rw [isFree] at hit
      cases hit
    obtain ⟨len, found, run⟩ := scan_run (t := update h.hashTable position none) lt free_lt
      (by rwa [update_of_ne other]) other
    obtain ⟨h', plugged, list, valid'⟩ := plugHoles_spec
      (h := h.takeOut position node)
      ⟨out, valid.chained.remove position, run, update_self ..⟩ h.buckets
      (by have bound := run.bound; omega)
    refine ⟨h', some node.data, ?_, valid', ?_, ?_⟩
    · have back : (h.buckets + walk h.buckets position (len + 1) - stride) % h.buckets =
          walk h.buckets position len := walk_back lt (by have bound := run.bound; omega)
      have next : scan h.buckets (fun s => ((h.takeOut position node).hashTable s).isNone ||
          decide (s = position)) h.buckets (walk h.buckets position stride) =
          some (walk h.buckets position (len + 1)) := found
      have closed : plugHoles (walk h.buckets position len) h.buckets (h.takeOut position node)
          position = some h' := plugged
      simp [pkghashRemove, pkg.hashed, probed, hit, next, back, closed]
    · intro x
      rw [list, show (h.takeOut position node).list = h.list.erase node from
        listRemoveItem_eq_erase valid.toStored mem, (List.Nodup.of_map _ valid.addrs).mem_erase_iff]
      refine and_comm.trans (and_congr_right fun hx => not_congr ?_)
      exact ⟨fun same => same ▸ named, fun same =>
        valid.eq_of_name hx mem (same.trans named.symm)⟩
    · intro p
      constructor
      · rintro ⟨⟩
        exact ⟨named, node, mem, rfl⟩
      · rintro ⟨same, x, hx, rfl⟩
        rw [valid.eq_of_name hx mem (same.trans named.symm)]

/-- Every finite history of the three mutators on a created table, with the map
it denotes. A new node gets an address that no node of the table has. -/
inductive Pkghash.Run : Pkghash → PkgMap → Prop
  | create {size h} : pkghashCreate size = some h → Run h fun _ => none
  | add {h m h' addr pkg} : Run h m → m pkg.name = none → (∀ node ∈ h.list, node.addr ≠ addr) →
      pkghashAdd h addr pkg = some h' → Run h' (update m pkg.name (some pkg))
  | addSorted {h m h' addr pkg} : Run h m → m pkg.name = none →
      (∀ node ∈ h.list, node.addr ≠ addr) → pkghashAddSorted h addr pkg = some h' →
      Run h' (update m pkg.name (some pkg))
  | remove {h m h' pkg data} : Run h m → pkghashRemove h pkg = some (h', data) →
      Run h' (update m pkg.name none)

theorem Pkghash.Denotes.add {h' : Pkghash} (denotes : h.Denotes m) {addr : Nat}
    (absent : m pkg.name = none) (mem : ∀ node, node ∈ h'.list ↔
      node ∈ h.list ∨ node = ⟨addr, pkg⟩) :
    h'.Denotes (update m pkg.name (some pkg)) := by
  intro name p
  by_cases same : name = pkg.name
  · subst same
    rw [update_self]
    constructor
    · rintro ⟨⟩
      exact ⟨rfl, ⟨addr, pkg⟩, (mem _).mpr (.inr rfl), rfl⟩
    · rintro ⟨named, node, member, rfl⟩
      rcases (mem node).mp member with old | rfl
      · exact absurd named ((denotes.none_iff _).mp absent node old)
      · rfl
  · rw [update_of_ne same, denotes]
    refine and_congr_right fun named => ?_
    constructor
    · rintro ⟨node, member, rfl⟩
      exact ⟨node, (mem node).mpr (.inl member), rfl⟩
    · rintro ⟨node, member, rfl⟩
      rcases (mem node).mp member with old | rfl
      · exact ⟨node, old, rfl⟩
      · exact absurd named.symm same

theorem Pkghash.Denotes.remove {h' : Pkghash} (denotes : h.Denotes m)
    (mem : ∀ node, node ∈ h'.list ↔ node ∈ h.list ∧ node.data.name ≠ pkg.name) :
    h'.Denotes (update m pkg.name none) := by
  intro name p
  by_cases same : name = pkg.name
  · subst same
    rw [update_self]
    simp only [reduceCtorEq, false_iff]
    rintro ⟨named, node, member, rfl⟩
    exact ((mem node).mp member).2 named
  · rw [update_of_ne same, denotes]
    refine and_congr_right fun named => ?_
    constructor
    · rintro ⟨node, member, rfl⟩
      exact ⟨node, (mem node).mpr ⟨member, fun eq => same (named.symm.trans eq)⟩, rfl⟩
    · rintro ⟨node, member, rfl⟩
      exact ⟨node, ((mem node).mp member).1, rfl⟩

theorem Pkghash.Run.invariant (run : Pkghash.Run h m) : h.Valid ∧ h.Denotes m := by
  induction run with
  | @create size h created =>
    refine ⟨pkghashCreate_valid created, ?_⟩
    intro name p
    simp [(pkghashCreate_spec created).2.2.2.1]
  | @add h m h' addr pkg _ absent newAddr added ih =>
    rcases pkghashAddPkg_spec ih.1 ((ih.2.none_iff _).mp absent) newAddr false with
      ⟨failed, _⟩ | ⟨g, done, valid, mem⟩
    · rw [pkghashAdd, failed] at added
      cases added
    · rw [pkghashAdd, done] at added
      cases added
      exact ⟨valid, ih.2.add absent mem⟩
  | @addSorted h m h' addr pkg _ absent newAddr added ih =>
    rcases pkghashAddPkg_spec ih.1 ((ih.2.none_iff _).mp absent) newAddr true with
      ⟨failed, _⟩ | ⟨g, done, valid, mem⟩
    · rw [pkghashAddSorted, failed] at added
      cases added
    · rw [pkghashAddSorted, done] at added
      cases added
      exact ⟨valid, ih.2.add absent mem⟩
  | @remove h m h' pkg data _ removed ih =>
    obtain ⟨g, data', done, valid, mem, _⟩ := pkghashRemove_spec ih.1 pkg
    rw [done] at removed
    cases removed
    exact ⟨valid, ih.2.remove mem⟩

theorem pkghashFind_spec (valid : h.Valid) (denotes : h.Denotes m) (name : CStr) :
    pkghashFind h name = some (m name) := by
  obtain ⟨position, lt, probed, ⟨empty, absent⟩ | ⟨node, hit, named⟩⟩ := probe_spec valid name
  · simp [pkghashFind, probed, empty, (denotes.none_iff name).mpr absent]
  · have mem : node ∈ h.list := (valid.holds.mem node).mpr ⟨position, lt, hit⟩
    simp [pkghashFind, probed, hit, (denotes name node.data).mpr ⟨named, node, mem, rfl⟩]

end Dulge
