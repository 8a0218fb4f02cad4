import Mathlib

/-! Linear probing on a ring of `n` slots, for tables with entries of any type.
Positions and distances are kept piecewise linear, so that side conditions are
linear arithmetic. `Chained` is the invariant of open addressing: walking from
the home slot of an entry to the slot that holds it never meets a free slot. -/
namespace Cyclic
open Function List

/-- The slot `k` steps after `s`. -/
def walk (n s k : Nat) : Nat := if s + k < n then s + k else s + k - n

/-- The number of steps from `s` to `i`. -/
def dist (n s i : Nat) : Nat := if s ≤ i then i - s else n + i - s

variable {n s k i : Nat}

theorem walk_lt (hs : s < n) (hk : k ≤ n) : walk n s k < n := by
  unfold walk
  split_ifs <;> omega

theorem dist_lt (hs : s < n) (hi : i < n) : dist n s i < n := by
  unfold dist
  split_ifs <;> omega

@[simp] theorem walk_zero (hs : s < n) : walk n s 0 = s := by
  simp [walk, hs]

theorem walk_dist (hs : s < n) (hi : i < n) : walk n s (dist n s i) = i := by
  unfold walk dist
  split_ifs <;> omega

theorem dist_walk (hs : s < n) (hk : k < n) : dist n s (walk n s k) = k := by
  unfold walk dist
  split_ifs <;> omega

theorem walk_walk {j : Nat} (hs : s < n) (h : j + k ≤ n) :
    walk n (walk n s j) k = walk n s (j + k) := by
  unfold walk
  split_ifs <;> omega

theorem walk_ne (low : 1 ≤ k) (high : k < n) : walk n s k ≠ s := by
  unfold walk
  split_ifs <;> omega

theorem walk_back (hs : s < n) (hk : k + 1 ≤ n) : (n + walk n s (k + 1) - 1) % n = walk n s k := by
  by_cases zero : walk n s (k + 1) = 0
  · rw [zero, Nat.add_zero, Nat.mod_eq_of_lt (by omega)]
    unfold walk at *
    split_ifs at * <;> omega
  · rw [show n + walk n s (k + 1) - 1 = walk n s (k + 1) - 1 + n by omega, Nat.add_mod_right,
      Nat.mod_eq_of_lt (Nat.lt_of_le_of_lt (Nat.sub_le _ _) (walk_lt hs hk))]
    unfold walk at *
    split_ifs at * <;> omega

theorem walk_inj {j : Nat} (hs : s < n) (hj : j < n) (hk : k < n) (same : walk n s j = walk n s k) :
    j = k := by
  rw [← dist_walk hs hj, ← dist_walk hs hk, same]

theorem dist_tri {m : Nat} (hs : s < n) (hm : m < n) :
    dist n s m + dist n m i = dist n s i ∨ dist n s m + dist n m i = dist n s i + n := by
  unfold dist
  split_ifs <;> omega

/-- The first slot with property `p` among the next `fuel` slots from `i` on. -/
def scan (n : Nat) (p : Nat → Bool) : Nat → Nat → Option Nat
  | 0, _ => none
  | fuel + 1, i => if p i then some i else scan n p fuel (walk n i 1)

theorem scan_eq_some {p : Nat → Bool} {fuel : Nat} (hs : s < n) (hfuel : fuel ≤ n) (hk : k < fuel)
    (hit : p (walk n s k) = true) (before : ∀ j < k, p (walk n s j) = false) :
    scan n p fuel s = some (walk n s k) := by
  induction fuel generalizing s k with
  | zero => omega
  | succ fuel ih =>
    cases k with
    | zero =>
      rw [walk_zero hs] at hit ⊢
      simp [scan, hit]
    | succ k =>
      have first : p s = false := by
        simpa [walk_zero hs] using before 0 (Nat.succ_pos k)
      have shift : ∀ j, j + 1 ≤ n → walk n (walk n s 1) j = walk n s (j + 1) := by
        intro j hj
        rw [walk_walk hs (by omega), Nat.add_comm]
      simp only [scan, first, Bool.false_eq_true, if_false]
      rw [← shift k (by omega)]
      apply ih (walk_lt hs (by omega)) (by omega) (by omega)
      · rwa [shift k (by omega)]
      · intro j hj
        rw [shift j (by omega)]
        exact before (j + 1) (by omega)

theorem scan_hit {p : Nat → Bool} (hs : s < n) (hi : i < n) (hit : p i = true) :
    ∃ k, k ≤ dist n s i ∧ scan n p n s = some (walk n s k) ∧ p (walk n s k) = true ∧
      ∀ j < k, p (walk n s j) = false := by
  have exists_hit : ∃ k, p (walk n s k) = true := ⟨dist n s i, by rwa [walk_dist hs hi]⟩
  have nearest : Nat.find exists_hit ≤ dist n s i := Nat.find_min' _ (by rwa [walk_dist hs hi])
  have before : ∀ j < Nat.find exists_hit, p (walk n s j) = false := by
    intro j hj
    simpa using Nat.find_min exists_hit hj
  have bound := dist_lt hs hi
  exact ⟨_, nearest, scan_eq_some hs le_rfl (by omega) (Nat.find_spec exists_hit) before,
    Nat.find_spec exists_hit, before⟩

section Table

variable {α : Type*} {n : Nat} {home : α → Nat} {t : Nat → Option α}

def Chained (n : Nat) (home : α → Nat) (t : Nat → Option α) : Prop :=
  ∀ i < n, ∀ a, t i = some a → ∀ j < dist n (home a) i, t (walk n (home a) j) ≠ none

def ChainedBut (n : Nat) (home : α → Nat) (hole : Nat) (t : Nat → Option α) : Prop :=
  ∀ i < n, ∀ a, t i = some a → ∀ j < dist n (home a) i,
    walk n (home a) j ≠ hole → t (walk n (home a) j) ≠ none

/-- The first free slot from `s` on. -/
def firstFree (n : Nat) (t : Nat → Option α) (s : Nat) : Option Nat :=
  scan n (fun i => (t i).isNone) n s

variable {k i hole len : Nat} {a : α}

theorem firstFree_eq {s : Nat} (hs : s < n) (hk : k < n) (free : t (walk n s k) = none)
    (taken : ∀ j < k, t (walk n s j) ≠ none) : firstFree n t s = some (walk n s k) := by
  apply scan_eq_some hs le_rfl hk
  · simp [free]
  · intro j hj
    simpa [Option.isSome_iff_ne_none] using taken j hj

theorem firstFree_some {s : Nat} (hs : s < n) (hi : i < n) (free : t i = none) :
    ∃ k < n, firstFree n t s = some (walk n s k) ∧ t (walk n s k) = none ∧
      ∀ j < k, t (walk n s j) ≠ none := by
  obtain ⟨k, hk, found, hit, before⟩ :=
    scan_hit (p := fun i => (t i).isNone) hs hi (by simp [free])
  refine ⟨k, lt_of_le_of_lt hk (dist_lt hs hi), found, by simpa using hit, ?_⟩
  intro j hj
  simpa [Option.isSome_iff_ne_none] using before j hj

theorem Chained.insert (h : Chained n home t) (ha : home a < n) (hk : k < n)
    (taken : ∀ j < k, t (walk n (home a) j) ≠ none) :
    Chained n home (update t (walk n (home a) k) (some a)) := by
  intro i hi b hb j hj
  by_cases slot : walk n (home b) j = walk n (home a) k
  · rw [slot, update_self]
    exact Option.some_ne_none a
  · rw [update_of_ne slot]
    by_cases new : i = walk n (home a) k
    · subst new
      rw [update_self] at hb
      cases hb
      rw [dist_walk ha hk] at hj
      exact taken j hj
    · rw [update_of_ne new] at hb
      exact h i hi b hb j hj

theorem Chained.remove (h : Chained n home t) (hole : Nat) :
    ChainedBut n home hole (update t hole none) := by
  intro i hi a ha j hj away
  rw [update_of_ne away]
  by_cases same : i = hole
  · subst same
    rw [update_self] at ha
    cases ha
  · rw [update_of_ne same] at ha
    exact h i hi a ha j hj

/-- The run of taken slots after a hole: `len` of them, then a free slot that is
not the hole again. -/
structure Run (n : Nat) (t : Nat → Option α) (hole len : Nat) : Prop where
  hole_lt : hole < n
  bound : len + 1 < n
  taken : ∀ k, 1 ≤ k → k ≤ len → t (walk n hole k) ≠ none
  free : t (walk n hole (len + 1)) = none

/-- Does the walk from the home of `a` to slot `i` pass over the hole? -/
def Crosses (n : Nat) (home : α → Nat) (hole i : Nat) (a : α) : Prop :=
  dist n (home a) hole < dist n (home a) i

theorem ChainedBut.in_run (h : ChainedBut n home hole t) (run : Run n t hole len) (ha : home a < n)
    (hi : i < n) (hit : t i = some a) (cross : Crosses n home hole i a) :
    1 ≤ dist n hole i ∧ dist n hole i ≤ len := by
  have hole_lt := run.hole_lt
  have bound := run.bound
  have last_lt : walk n hole (len + 1) < n := walk_lt hole_lt (by omega)
  have last_dist : dist n hole (walk n hole (len + 1)) = len + 1 := dist_walk hole_lt bound
  have not_last : dist n hole i ≠ len + 1 := by
    intro same
    have slot := walk_dist hole_lt hi
    rw [same] at slot
    rw [← slot, run.free] at hit
    cases hit
  by_contra outside
  -- the free slot behind the run would then lie on the walk as well
  have passed : dist n (home a) (walk n hole (len + 1)) < dist n (home a) i := by
    have viaHole := dist_tri (i := i) ha hole_lt
    have toLast := dist_tri (i := walk n hole (len + 1)) ha hole_lt
    have turn := dist_lt hole_lt hi
    unfold Crosses at cross
    omega
  have place := walk_dist ha last_lt
  refine h i hi a hit _ passed ?_ ?_
  · rw [place]
    exact walk_ne (by omega) bound
  · rw [place]
    exact run.free

/-- An entry of the run probes back into the hole exactly when its walk crosses it. -/
theorem ChainedBut.firstFree_hole (h : ChainedBut n home hole t) (run : Run n t hole len)
    (free : t hole = none) (ha : home a < n) (hk : 1 ≤ k) (hlen : k ≤ len)
    (hit : t (walk n hole k) = some a) :
    ∃ pos, firstFree n t (home a) = some pos ∧
      (pos = hole ↔ Crosses n home hole (walk n hole k) a) := by
  have hole_lt := run.hole_lt
  have bound := run.bound
  have slot_lt : walk n hole k < n := walk_lt hole_lt (by omega)
  by_cases cross : Crosses n home hole (walk n hole k) a
  · refine ⟨hole, ?_, by simp [cross]⟩
    have taken : ∀ j < dist n (home a) hole, t (walk n (home a) j) ≠ none := by
      intro j hj
      refine h _ slot_lt a hit j (lt_trans hj cross) ?_
      intro same
      have back := dist_walk ha (lt_trans hj (dist_lt ha hole_lt))
      rw [same] at back
      omega
    have found := firstFree_eq (t := t) ha (dist_lt ha hole_lt)
      (by rwa [walk_dist ha hole_lt]) taken
    rwa [walk_dist ha hole_lt] at found
  · -- from the home to the slot and on to the end of the run every slot is taken
    have last : walk n hole (len + 1) ≠ hole := walk_ne (by omega) bound
    refine ⟨walk n hole (len + 1), ?_, by simp [cross, last]⟩
    have last_lt : walk n hole (len + 1) < n := walk_lt hole_lt (by omega)
    have taken : ∀ j < dist n (home a) (walk n hole (len + 1)), t (walk n (home a) j) ≠ none := by
      intro j hj
      by_cases early : j < dist n (home a) (walk n hole k)
      · refine h _ slot_lt a hit j early ?_
        intro same
        have back := dist_walk ha (lt_trans early (dist_lt ha slot_lt))
        rw [same] at back
        apply cross
        unfold Crosses
        omega
      · have j_lt : j < n := lt_trans hj (dist_lt ha last_lt)
        have pos_lt : walk n (home a) j < n := walk_lt ha (le_of_lt j_lt)
        have toSlot := dist_tri (i := walk n hole k) ha hole_lt
        have toPos := dist_tri (i := walk n (home a) j) ha hole_lt
        have toLast := dist_tri (i := walk n hole (len + 1)) ha hole_lt
        have homeHole := dist_lt ha hole_lt
        have homeLast := dist_lt ha last_lt
        rw [dist_walk hole_lt (by omega)] at toSlot
        rw [dist_walk ha j_lt] at toPos
        rw [dist_walk hole_lt bound] at toLast
        unfold Crosses at cross
        rw [← walk_dist hole_lt pos_lt]
        apply run.taken <;> omega
    have found := firstFree_eq (t := t) ha (dist_lt ha last_lt)
      (by rw [walk_dist ha last_lt]; exact run.free) taken
    rwa [walk_dist ha last_lt] at found

theorem ChainedBut.move (h : ChainedBut n home hole t) (hi : i < n) (hit : t i = some a)
    (cross : Crosses n home hole i a) :
    ChainedBut n home i (update (update t hole (some a)) i none) := by
  intro m hm b hb j hj away
  rw [update_of_ne away]
  by_cases filled : walk n (home b) j = hole
  · rw [filled, update_self]
    exact Option.some_ne_none a
  · rw [update_of_ne filled]
    by_cases moved : m = i
    · subst moved
      rw [update_self] at hb
      cases hb
    · rw [update_of_ne moved] at hb
      by_cases new : m = hole
      · subst new
        rw [update_self] at hb
        cases hb
        exact h i hi a hit j (lt_trans hj cross) filled
      · rw [update_of_ne new] at hb
        exact h m hm b hb j hj filled

theorem ChainedBut.chained (h : ChainedBut n home hole t) (run : Run n t hole len)
    (homes : ∀ a, home a < n)
    (settled : ∀ k, 1 ≤ k → k ≤ len → ∀ a, t (walk n hole k) = some a →
      ¬ Crosses n home hole (walk n hole k) a) : Chained n home t := by
  intro i hi a hit j hj
  by_cases atHole : walk n (home a) j = hole
  · exfalso
    have cross : Crosses n home hole i a := by
      have back := dist_walk (homes a) (lt_trans hj (dist_lt (homes a) hi))
      rw [atHole] at back
      unfold Crosses
      omega
    obtain ⟨low, high⟩ := h.in_run run (homes a) hi hit cross
    have place := walk_dist run.hole_lt hi
    refine settled _ low high a ?_ ?_
    · rwa [place]
    · rwa [place]
  · exact h i hi a hit j hj atHole

structure Holds (n : Nat) (t : Nat → Option α) (l : List α) : Prop where
  mem : ∀ a, a ∈ l ↔ ∃ i < n, t i = some a
  once : ∀ i < n, ∀ j < n, ∀ a, t i = some a → t j = some a → i = j

variable {l : List α}

theorem Holds.nil : Holds n (fun _ => none) ([] : List α) :=
  ⟨fun a => by simp, fun i _ j _ a hi => by cases hi⟩

theorem Holds.exists_free (h : Holds n t l) (room : l.length < n) : ∃ i < n, t i = none := by
  classical
  by_contra full
  have taken : ∀ i < n, ∃ a, t i = some a := by
    intro i hi
    cases slot : t i with
    | none => exact absurd ⟨i, hi, slot⟩ full
    | some a => exact ⟨a, rfl⟩
  have inj : Set.InjOn t (Finset.range n : Set Nat) := by
    intro i hi j hj same
    simp only [Finset.coe_range, Set.mem_Iio] at hi hj
    obtain ⟨a, ha⟩ := taken i hi
    exact h.once i hi j hj a ha (same ▸ ha)
  have into : Set.MapsTo t (Finset.range n : Set Nat) ((l.map some).toFinset : Set (Option α)) := by
    intro i hi
    simp only [Finset.coe_range, Set.mem_Iio] at hi
    obtain ⟨a, ha⟩ := taken i hi
    simp only [coe_toFinset, mem_map, Set.mem_ofPred_eq]
    exact ⟨a, (h.mem a).mpr ⟨i, hi, ha⟩, ha.symm⟩
  have count := Finset.card_le_card_of_injOn t into inj
  have bound := toFinset_card_le (l.map some)
  rw [Finset.card_range] at count
  rw [length_map] at bound
  omega

theorem Holds.perm (h : Holds n t l) {l' : List α} (same : ∀ a, a ∈ l' ↔ a ∈ l) :
    Holds n t l' := ⟨fun a => (same a).trans (h.mem a), h.once⟩

theorem Holds.insert (h : Holds n t l) (hi : i < n) (free : t i = none) (fresh : a ∉ l) :
    Holds n (update t i (some a)) (a :: l) := by
  constructor
  · intro b
    rw [mem_cons, h.mem]
    constructor
    · rintro (rfl | ⟨j, hj, hb⟩)
      · exact ⟨i, hi, update_self ..⟩
      · refine ⟨j, hj, ?_⟩
        rwa [update_of_ne]
        rintro rfl
        rw [free] at hb
        cases hb
    · rintro ⟨j, hj, hb⟩
      by_cases same : j = i
      · rw [same, update_self] at hb
        exact .inl (Option.some.inj hb).symm
      · rw [update_of_ne same] at hb
        exact .inr ⟨j, hj, hb⟩
  · intro j hj k hk b hb hb'
    have absent : ∀ m < n, t m ≠ some a := fun m hm hit => fresh ((h.mem a).mpr ⟨m, hm, hit⟩)
    by_cases hji : j = i <;> by_cases hki : k = i
    · rw [hji, hki]
    · rw [hji, update_self] at hb
      rw [update_of_ne hki, ← hb] at hb'
      exact absurd hb' (absent k hk)
    · rw [hki, update_self] at hb'
      rw [update_of_ne hji, ← hb'] at hb
      exact absurd hb (absent j hj)
    · rw [update_of_ne hji] at hb
      rw [update_of_ne hki] at hb'
      exact h.once j hj k hk b hb hb'

theorem Holds.remove (h : Holds n t l) (hi : i < n) (hit : t i = some a) {l' : List α}
    (rest : ∀ b, b ∈ l' ↔ b ∈ l ∧ b ≠ a) : Holds n (update t i none) l' := by
  constructor
  · intro b
    rw [rest, h.mem]
    constructor
    · rintro ⟨⟨j, hj, hb⟩, other⟩
      refine ⟨j, hj, ?_⟩
      rwa [update_of_ne]
      rintro rfl
      rw [hit] at hb
      exact other (Option.some.inj hb).symm
    · rintro ⟨j, hj, hb⟩
      by_cases same : j = i
      · rw [same, update_self] at hb
        cases hb
      · rw [update_of_ne same] at hb
        refine ⟨⟨j, hj, hb⟩, ?_⟩
        rintro rfl
        exact same (h.once j hj i hi b hb hit)
  · intro j hj k hk b hb hb'
    by_cases hji : j = i
    · rw [hji, update_self] at hb
      cases hb
    · by_cases hki : k = i
      · rw [hki, update_self] at hb'
        cases hb'
      · rw [update_of_ne hji] at hb
        rw [update_of_ne hki] at hb'
        exact h.once j hj k hk b hb hb'

theorem Holds.move (h : Holds n t l) (hole_lt : hole < n) (free : t hole = none) (hi : i < n)
    (hit : t i = some a) : Holds n (update (update t hole (some a)) i none) l := by
  have apart : hole ≠ i := by
    rintro rfl
    rw [free] at hit
    cases hit
  have read : ∀ j b, update (update t hole (some a)) i none j = some b →
      j ≠ i ∧ (j = hole ∧ b = a ∨ j ≠ hole ∧ t j = some b) := by
    intro j b hb
    by_cases hji : j = i
    · rw [hji, update_self] at hb
      cases hb
    · rw [update_of_ne hji] at hb
      by_cases hjh : j = hole
      · rw [hjh, update_self] at hb
        exact ⟨hji, .inl ⟨hjh, (Option.some.inj hb).symm⟩⟩
      · rw [update_of_ne hjh] at hb
        exact ⟨hji, .inr ⟨hjh, hb⟩⟩
  constructor
  · intro b
    rw [h.mem]
    constructor
    · rintro ⟨j, hj, hb⟩
      by_cases hji : j = i
      · subst hji
        rw [hit] at hb
        cases hb
        exact ⟨hole, hole_lt, by rw [update_of_ne apart, update_self]⟩
      · have hjh : j ≠ hole := by
          rintro rfl
          rw [free] at hb
          cases hb
        exact ⟨j, hj, by rw [update_of_ne hji, update_of_ne hjh, hb]⟩
    · rintro ⟨j, hj, hb⟩
      rcases read j b hb with ⟨_, ⟨_, rfl⟩ | ⟨_, same⟩⟩
      · exact ⟨i, hi, hit⟩
      · exact ⟨j, hj, same⟩
  · intro j hj k hk b hb hb'
    rcases read j b hb with ⟨hji, ⟨hjh, hba⟩ | ⟨_, hjb⟩⟩ <;>
      rcases read k b hb' with ⟨hki, ⟨hkh, hba'⟩ | ⟨_, hkb⟩⟩
    · rw [hjh, hkh]
    · exact absurd (h.once k hk i hi b hkb (hba ▸ hit)) hki
    · exact absurd (h.once j hj i hi b hjb (hba' ▸ hit)) hji
    · exact h.once j hj k hk b hjb hkb

end Table

end Cyclic
