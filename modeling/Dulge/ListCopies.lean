import Dulge.ListMerge
import Dulge.ListNodes

/-! The functions of `alpm_list.c` that build a list from the data of another one. -/

namespace Dulge
open NodeList Comparator List Option
open Prod (fst snd)

variable {ρ α : Type} [DecidableEq ρ]

variable (m : Allocator ρ α)

def alpmListFree : Nat → Heap ρ α → Option ρ → Option (Heap ρ α)
  | _, h, none => some h
  | 0, _, some _ => none
  | turns + 1, h, some it => do
      let tmp := (← h.read (some it)).next
      let h ← h.free (some it)
      alpmListFree turns h tmp

/-- The loop of `alpm_list_copy` and of `alpm_list_reverse`, which go through a list in different
directions, and whether every node could be allocated. -/
def appendEach (dir : Cell ρ α → Option ρ) :
    Nat → Heap ρ α → Option ρ → Option ρ → Option (Bool × Option ρ × Heap ρ α)
  | _, h, newlist, none => some (true, newlist, h)
  | 0, _, _, some _ => none
  | turns + 1, h, newlist, some lp => do
      let node ← h.read (some lp)
      let (added, newlist, h) ← alpmListAppend m h newlist node.data
      if added.isNone then return (false, newlist, h)
      let node ← h.read (some lp)
      appendEach dir turns h newlist (dir node)

def alpmListReverse (turns : Nat) (h : Heap ρ α) (list : Option ρ) : Option (Option ρ × Heap ρ α) :=
  match list with
  | none => some (none, h)
  | some _ => do
      let lp ← alpmListLast h list
      let backup := (← h.read list).prev
      let h ← h.setPrev list none
      let (done, newlist, h) ← appendEach m Cell.prev turns h none lp
      if done then
        let h ← h.setPrev list backup
        return (newlist, h)
      let h ← alpmListFree turns h newlist
      let h ← h.setPrev list backup
      return (none, h)

def alpmListCopy (turns : Nat) (h : Heap ρ α) (list : Option ρ) : Option (Option ρ × Heap ρ α) := do
  let (done, newlist, h) ← appendEach m Cell.next turns h none list
  if done then return (newlist, h)
  let h ← alpmListFree turns h newlist
  return (none, h)

def alpmListCount (h : Heap ρ α) : Nat → Option ρ → Option Nat
  | _, none => some 0
  | 0, some _ => none
  | turns + 1, some lp => do
      let node ← h.read (some lp)
      let rest ← alpmListCount h turns node.next
      return rest + 1

/-- `*only = alpm_list_add(*only, data)`, unless the caller asked for no such list. -/
def addOnly (h : Heap ρ α) (only : Option (Option ρ)) (data : α) :
    Option (Option (Option ρ) × Heap ρ α) :=
  match only with
  | none => some (none, h)
  | some list => do
      let (list, h) ← alpmListAdd m h list data
      return (some list, h)

/-- The loops of `alpm_list_diff_sorted`: one as long as both lists have nodes, then one for what is
left of each. -/
def diffLoop (fn : α → α → Int) :
    Nat → Heap ρ α → Option ρ → Option ρ → Option (Option ρ) → Option (Option ρ) →
      Option (Option (Option ρ) × Option (Option ρ) × Heap ρ α)
  | _, h, none, none, onlyleft, onlyright => some (onlyleft, onlyright, h)
  | 0, _, _, _, _, _ => none
  | turns + 1, h, some l, none, onlyleft, onlyright => do
      let left ← h.read (some l)
      let (onlyleft, h) ← addOnly m h onlyleft left.data
      diffLoop fn turns h (← h.read (some l)).next none onlyleft onlyright
  | turns + 1, h, none, some r, onlyleft, onlyright => do
      let right ← h.read (some r)
      let (onlyright, h) ← addOnly m h onlyright right.data
      diffLoop fn turns h none (← h.read (some r)).next onlyleft onlyright
  | turns + 1, h, some l, some r, onlyleft, onlyright => do
      let left ← h.read (some l)
      let right ← h.read (some r)
      let cmp := fn left.data right.data
      if cmp < 0 then
        let (onlyleft, h) ← addOnly m h onlyleft left.data
        diffLoop fn turns h (← h.read (some l)).next (some r) onlyleft onlyright
      else if cmp > 0 then
        let (onlyright, h) ← addOnly m h onlyright right.data
        diffLoop fn turns h (some l) (← h.read (some r)).next onlyleft onlyright
      else diffLoop fn turns h left.next right.next onlyleft onlyright

/-- `alpm_list_diff_sorted`; either of the two results may be left out. -/
def alpmListDiffSorted (turns : Nat) (h : Heap ρ α) (left right : Option ρ) (fn : α → α → Int)
    (onlyleft onlyright : Option (Option ρ)) :
    Option (Option (Option ρ) × Option (Option ρ) × Heap ρ α) :=
  if onlyleft.isNone ∧ onlyright.isNone then some (onlyleft, onlyright, h)
  else diffLoop m fn turns h left right onlyleft onlyright

def alpmListDiff (turns : Nat) (h : Heap ρ α) (lhs rhs : Option ρ) (fn : α → α → Int) :
    Option (Option ρ × Heap ρ α) := do
  let (left, h) ← alpmListCopy m turns h lhs
  let (left, h) ← alpmListMsort turns h left (← alpmListCount h turns left) fn
  let (right, h) ← alpmListCopy m turns h rhs
  let (right, h) ← alpmListMsort turns h right (← alpmListCount h turns right) fn
  let (ret, _, h) ← alpmListDiffSorted m turns h left right fn (some none) none
  let h ← alpmListFree turns h left
  let h ← alpmListFree turns h right
  return (ret.join, h)

section Specs

variable {m} {h : Heap ρ α} {list : Option ρ} {ns : List (ρ × α)}

variable {turns : Nat} {zs ls rs : List (ρ × α)} {l r : Option ρ}

theorem alpmListFree_spec (wf : WellFormed h list ns) (enough : ns.length ≤ turns) :
    ∃ h', alpmListFree turns h list = some h' ∧ Keeps h h' (ns.map fst) := by
  rw [wf.head]
  have segment := wf.toSegment
  generalize back none ns = before at segment
  clear wf
  induction ns generalizing h turns before with
  | nil =>
    refine ⟨h, ?_, Keeps.refl h _⟩
    cases turns <;> rfl
  | cons n ns ih =>
    rw [length_cons] at enough
    obtain ⟨turns, rfl⟩ : ∃ more, turns = more + 1 := ⟨turns - 1, by omega⟩
    have rest := segment.tail.set_apart segment.head_notMem none
    obtain ⟨h', freed, keeps⟩ := ih (Nat.le_of_succ_le_succ enough) (some n.1) rest
    refine ⟨h', ?_, ?_⟩
    · simp [alpmListFree, front_cons, segment.read_head, Heap.free_some segment.head_data, freed]
    · rw [map_cons]
      exact (keeps_set mem_cons_self none).trans (keeps.mono (subset_cons_self _ _))

/-- The data met on the walk goes, in this order, into new nodes behind the list `zs`. -/
theorem appendEach_spec (plenty : m.Plentiful) {dir : Cell ρ α → Option ρ} {lp newlist : Option ρ}
    {ws : List (ρ × α)} (walk : Walk h dir lp ws) (wf : WellFormed h newlist zs)
    (apart : (ws.map fst).Disjoint (zs.map fst)) (enough : ws.length ≤ turns) :
    ∃ newlist' h' ps, appendEach m dir turns h newlist lp = some (true, newlist', h') ∧
      WellFormed h' newlist' (zs ++ ps) ∧ ps.map snd = ws.map snd ∧ Fresh h ps ∧
      Keeps h h' (zs.map fst) := by
  induction ws generalizing h lp newlist zs turns with
  | nil =>
    have ended : lp = none := walk
    refine ⟨newlist, h, [], ?_, (append_nil zs).symm ▸ wf, rfl, nofun, Keeps.refl h _⟩
    rw [ended]
    cases turns <;> rfl
  | cons w ws ih =>
    obtain ⟨rfl, c, there, holds, later⟩ := walk
    rw [length_cons] at enough
    obtain ⟨turns, rfl⟩ : ∃ more, turns = more + 1 := ⟨turns - 1, by omega⟩
    obtain ⟨p, given⟩ := isSome_iff_exists.mp (plenty h)
    have fresh := m.fresh h p given
    obtain ⟨list₁, h₁, added, formed₁, keeps₁⟩ := alpmListAppend_spec wf given c.data
    rw [map_cons, disjoint_cons_left] at apart
    have again := keeps₁ w.1 apart.1 (there ▸ rfl)
    have rest := later.kept keeps₁ apart.2
    have apart₁ : (ws.map fst).Disjoint ((zs ++ [(p, c.data)]).map fst) := by
      rw [map_append, disjoint_append_right]
      exact ⟨apart.2, later.disjoint_fresh fresh⟩
    obtain ⟨newlist', h', ps, looped, formed, data, fresh', keeps⟩ :=
      ih rest formed₁ apart₁ (Nat.le_of_succ_le_succ enough)
    refine ⟨newlist', h', (p, c.data) :: ps, ?_, ?_, ?_,
      Fresh.cons_of_keeps fresh keeps₁ formed₁ fresh' keeps⟩
    · have read : h.read (some w.1) = some c := there
      have reread : h₁.read (some w.1) = some c := again.trans there
      simp [appendEach, read, added, reread, looped]
    · rwa [append_assoc] at formed
    · rw [map_cons, map_cons, data, holds]

theorem alpmListReverse_spec (plenty : m.Plentiful) (wf : WellFormed h list ns)
    (enough : ns.length ≤ turns) :
    ∃ list' h' ms, alpmListReverse m turns h list = some (list', h') ∧ WellFormed h' list' ms ∧
      ms.map snd = (ns.map snd).reverse ∧ Keeps h h' [] := by
  cases ns with
  | nil =>
    refine ⟨none, h, [], ?_, wellFormed_nil h, rfl, Keeps.refl h _⟩
    rw [wf.head]
    rfl
  | cons n ns =>
    have last := alpmListLast_eq wf
    have there : list = some n.1 := wf.head
    have cell : h.cell n.1 = some ⟨n.2, back none (n :: ns), front ns none⟩ := wf.read_head
    have broken := wf.toSegment.withPrev_head none
    have wrote := Heap.setPrev_some wf.head_data none
    have visits : (n :: ns).reverse.length ≤ turns := by rwa [length_reverse]
    obtain ⟨newlist, h₂, ms, looped, formed, data, fresh, keeps⟩ :=
      appendEach_spec plenty broken.walk_prev (wellFormed_nil _) (disjoint_nil_right _) visits
    have old := broken.kept keeps (disjoint_nil_right _)
    have restored := Heap.setPrev_some old.head_data (back none (n :: ns))
    have apart := broken.disjoint_of_fresh fresh
    refine ⟨newlist, h₂.withPrev n.1 (back none (n :: ns)), ms, ?_, ?_, ?_, ?_⟩
    · rw [there] at last ⊢
      simp only [alpmListReverse, last, wf.read_head, wrote, looped, restored, if_true,
        Option.bind_eq_bind, Option.bind_some, Option.pure_def]
    · exact formed.kept (keeps_set mem_cons_self _) apart.symm
    · rw [data, map_reverse]
    · exact keeps.restore_prev cell

theorem alpmListCopy_spec (plenty : m.Plentiful) (wf : WellFormed h list ns)
    (enough : ns.length ≤ turns) :
    ∃ list' h' ms, alpmListCopy m turns h list = some (list', h') ∧ WellFormed h' list' ms ∧
      ms.map snd = ns.map snd ∧ Fresh h ms ∧ Keeps h h' [] := by
  have walk := wf.toSegment.walk_next
  rw [← wf.head] at walk
  obtain ⟨list', h', ms, looped, formed, data, fresh, keeps⟩ :=
    appendEach_spec plenty walk (wellFormed_nil h) (disjoint_nil_right _) enough
  refine ⟨list', h', ms, ?_, formed, data, fresh, keeps⟩
  simp [alpmListCopy, looped]

omit [DecidableEq ρ] in
theorem alpmListCount_eq {lp : Option ρ} (walk : Walk h Cell.next lp ns)
    (enough : ns.length ≤ turns) : alpmListCount h turns lp = some ns.length := by
  induction ns generalizing lp turns with
  | nil =>
    have ended : lp = none := walk
    rw [ended]
    cases turns <;> rfl
  | cons n ns ih =>
    obtain ⟨rfl, c, there, -, later⟩ := walk
    rw [length_cons] at enough
    obtain ⟨turns, rfl⟩ : ∃ more, turns = more + 1 := ⟨turns - 1, by omega⟩
    have read : h.read (some n.1) = some c := there
    simp [alpmListCount, read, ih later (Nat.le_of_succ_le_succ enough)]

/-- What holds between two turns of the difference: `ls` and `rs` are still to be visited, apart from
the nodes `zs` of the result. -/
structure Diffing (h : Heap ρ α) (l r list : Option ρ) (ls rs zs : List (ρ × α)) : Prop where
  left : Walk h Cell.next l ls
  right : Walk h Cell.next r rs
  result : WellFormed h list zs
  apartLeft : (ls.map fst).Disjoint (zs.map fst)
  apartRight : (rs.map fst).Disjoint (zs.map fst)

theorem Diffing.add (plenty : m.Plentiful) (diffing : Diffing h l r list ls rs zs) (data : α) :
    ∃ list₁ h₁ p, addOnly m h (some list) data = some (some list₁, h₁) ∧
      Diffing h₁ l r list₁ ls rs (zs ++ [(p, data)]) ∧ h.cell p = none ∧
      Keeps h h₁ (zs.map fst) := by
  obtain ⟨p, given⟩ := isSome_iff_exists.mp (plenty h)
  have fresh := m.fresh h p given
  obtain ⟨list₁, h₁, added, formed, keeps⟩ := alpmListAppend_spec diffing.result given data
  refine ⟨list₁, h₁, p, ?_, ⟨diffing.left.kept keeps diffing.apartLeft,
    diffing.right.kept keeps diffing.apartRight, formed, ?_, ?_⟩, fresh, keeps⟩
  · simp [addOnly, alpmListAdd, added]
  · rw [map_append, disjoint_append_right]
    exact ⟨diffing.apartLeft, diffing.left.disjoint_fresh fresh⟩
  · rw [map_append, disjoint_append_right]
    exact ⟨diffing.apartRight, diffing.right.disjoint_fresh fresh⟩

omit [DecidableEq ρ] in
theorem Diffing.tail_left {x : ρ × α} (diffing : Diffing h l r list (x :: ls) rs zs) :
    ∃ c, l = some x.1 ∧ h.read (some x.1) = some c ∧ c.data = x.2 ∧
      Diffing h c.next r list ls rs zs := by
  obtain ⟨here, c, there, holds, later⟩ := diffing.left
  have apart := diffing.apartLeft
  rw [map_cons, disjoint_cons_left] at apart
  exact ⟨c, here, there, holds, later, diffing.right, diffing.result, apart.2, diffing.apartRight⟩

omit [DecidableEq ρ] in
theorem Diffing.swap (diffing : Diffing h l r list ls rs zs) : Diffing h r l list rs ls zs :=
  ⟨diffing.right, diffing.left, diffing.result, diffing.apartRight, diffing.apartLeft⟩

/-- The loop puts `data` behind the nodes `zs` of the result, in new nodes. -/
def Appends (m : Allocator ρ α) (fn : α → α → Int) (turns : Nat) (h : Heap ρ α)
    (l r list : Option ρ) (zs : List (ρ × α)) (data : List α) : Prop :=
  ∃ list' h' ps, diffLoop m fn turns h l r (some list) none = some (some list', none, h') ∧
    WellFormed h' list' (zs ++ ps) ∧ ps.map snd = data ∧ Fresh h ps ∧
    Keeps h h' (zs.map fst)

theorem appends_nil (m : Allocator ρ α) (diffing : Diffing h l r list [] [] zs) (turns : Nat)
    (fn : α → α → Int) : Appends m fn turns h l r list zs [] := by
  have left : l = none := diffing.left
  have right : r = none := diffing.right
  refine ⟨list, h, [], ?_, (append_nil zs).symm ▸ diffing.result, rfl, nofun, Keeps.refl h _⟩
  rw [left, right]
  cases turns <;> rfl

theorem Appends.skip {turns' : Nat} {l' r' : Option ρ} {data : List α} {fn : α → α → Int}
    (appends : Appends m fn turns h l r list zs data)
    (steps : diffLoop m fn turns' h l' r' (some list) none
      = diffLoop m fn turns h l r (some list) none) :
    Appends m fn turns' h l' r' list zs data := by
  unfold Appends at *
  rwa [steps]

theorem Diffing.appends_add {x : ρ × α} {data : List α} {fn : α → α → Int} (plenty : m.Plentiful)
    (diffing : Diffing h l r list (x :: ls) rs zs)
    (ih : ∀ {h : Heap ρ α} {l list : Option ρ} {zs : List (ρ × α)},
      Diffing h l r list ls rs zs → Appends m fn turns h l r list zs data)
    (steps : ∀ {h₁ : Heap ρ α} {list₁ : Option (Option ρ)} {c : Cell ρ α},
      addOnly m h (some list) x.2 = some (list₁, h₁) → h₁.read (some x.1) = some c →
      diffLoop m fn (turns + 1) h l r (some list) none = diffLoop m fn turns h₁ c.next r list₁ none) :
    Appends m fn (turns + 1) h l r list zs (x.2 :: data) := by
  obtain ⟨list₁, h₁, p, added, diffing₁, fresh, keeps₁⟩ := diffing.add plenty x.2
  obtain ⟨c, -, read, -, next⟩ := diffing₁.tail_left
  obtain ⟨list', h', ps, looped, formed, same, fresh', keeps⟩ := ih next
  refine ⟨list', h', (p, x.2) :: ps, (steps added read).trans looped, ?_, ?_,
    Fresh.cons_of_keeps fresh keeps₁ diffing₁.result fresh' keeps⟩
  · rwa [append_assoc] at formed
  · rw [map_cons, same]

theorem diffLoop_spec (plenty : m.Plentiful) (diffing : Diffing h l r list ls rs zs)
    (enough : ls.length + rs.length ≤ turns) (fn : α → α → Int) :
    Appends m fn turns h l r list zs
      (listDiffSorted fn (ls.map snd) (rs.map snd)).1 := by
  induction turns generalizing h l r list ls rs zs with
  | zero =>
    have noLeft : ls = [] := length_eq_zero_iff.mp (by omega)
    have noRight : rs = [] := length_eq_zero_iff.mp (by omega)
    subst noLeft noRight
    rw [map_nil, listDiffSorted_nil_right]
    exact appends_nil m diffing 0 fn
  | succ turns ih =>
    match ls, rs with
    | [], [] =>
      rw [map_nil, listDiffSorted_nil_right]
      exact appends_nil m diffing _ fn
    | x :: ls, [] =>
      have right : r = none := diffing.right
      obtain ⟨c, rfl, read, holds, -⟩ := diffing.tail_left
      rw [length_cons, length_nil] at enough
      have rest {h l list zs} (diffing : Diffing h l r list ls [] zs) :=
        ih diffing (by rw [length_nil]; omega)
      simp only [map_nil, map_cons, listDiffSorted_nil_right] at rest ⊢
      refine diffing.appends_add plenty rest ?_
      intro h₁ list₁ c₁ added again
      rw [right]
      simp [diffLoop, read, holds, added, again]
    | [], y :: rs =>
      have left : l = none := diffing.left
      obtain ⟨c, rfl, read, -, next⟩ := diffing.swap.tail_left
      rw [length_cons, length_nil] at enough
      have rest := ih next.swap (by rw [length_nil]; omega)
      rw [map_nil, listDiffSorted] at rest ⊢
      refine rest.skip ?_
      rw [left]
      simp [diffLoop, read, addOnly]
    | x :: ls, y :: rs =>
      simp only [length_cons] at enough
      obtain ⟨c, rfl, readLeft, holdsLeft, nextLeft⟩ := diffing.tail_left
      obtain ⟨d, rfl, readRight, holdsRight, nextRight⟩ := diffing.swap.tail_left
      rw [map_cons, map_cons]
      rcases lt_trichotomy (fn x.2 y.2) 0 with lt | tie | gt
      · rw [listDiffSorted_lt lt]
        refine diffing.appends_add plenty (fun next => ih next (by rw [length_cons]; omega)) ?_
        intro h₁ list₁ c₁ added again
        simp [diffLoop, readLeft, readRight, holdsLeft, holdsRight, lt, added, again]
      · obtain ⟨d', -, readRight', -, next⟩ := nextLeft.swap.tail_left
        cases readRight.symm.trans readRight'
        rw [listDiffSorted_tie tie]
        refine (ih next.swap (by omega)).skip ?_
        simp [diffLoop, readLeft, readRight, holdsLeft, holdsRight, tie]
      · rw [listDiffSorted_gt gt, ← map_cons]
        refine (ih nextRight.swap (by rw [length_cons]; omega)).skip ?_
        simp [diffLoop, readLeft, readRight, holdsLeft, holdsRight, gt, not_lt_of_gt gt, addOnly]

theorem sortedCopy_spec (plenty : m.Plentiful) (wf : WellFormed h list ns)
    (enough : ns.length ≤ turns) (fn : α → α → Int) :
    ∃ copy h₁ n list' h' ms, alpmListCopy m turns h list = some (copy, h₁) ∧
      alpmListCount h₁ turns copy = some n ∧ alpmListMsort turns h₁ copy n fn = some (list', h') ∧
      WellFormed h' list' ms ∧ ms.map snd = listMsort fn ns.length (ns.map snd) ∧
      Fresh h ms ∧ Keeps h h' [] := by
  obtain ⟨copy, h₁, ks, copied, formed₁, data, fresh, keeps₁⟩ := alpmListCopy_spec plenty wf enough
  have size : ks.length = ns.length := by
    have same := congrArg List.length data
    rwa [length_map, length_map] at same
  have walk := formed₁.toSegment.walk_next
  rw [← formed₁.head] at walk
  have counted := alpmListCount_eq walk (size ▸ enough)
  obtain ⟨list', h', sorted, formed, keeps⟩ := alpmListMsort_spec formed₁ (size ▸ enough) fn
  have perm := listMsort_perm (onData fn) ks.length ks
  refine ⟨copy, h₁, ks.length, list', h', _, copied, counted, sorted, formed, ?_, ?_, ?_⟩
  · rw [listMsort_onData, data, size]
  · exact fun n mem => fresh n (perm.mem_iff.mp mem)
  · have unchanged := keeps₁.mono (nil_subset (ks.map fst))
    exact (unchanged.trans keeps).of_fresh_nodes fresh

/-- `alpm_list_diff` computes the difference of the two data sequences in new nodes. -/
theorem alpmListDiff_spec (plenty : m.Plentiful) {lhs rhs : Option ρ} (wf : WellFormed h lhs ls)
    (wf' : WellFormed h rhs rs) (enough : ls.length + rs.length ≤ turns) (fn : α → α → Int) :
    ∃ ret h' ms, alpmListDiff m turns h lhs rhs fn = some (ret, h') ∧ WellFormed h' ret ms ∧
      ms.map snd = listDiff fn (ls.map snd) (rs.map snd) ∧ Keeps h h' [] := by
  have apart {ps : List ρ} : ps.Disjoint [] := disjoint_nil_right ps
  obtain ⟨copy, h₁, n, left, h₂, as, copied, counted, sorted, leftFormed, leftData, leftFresh,
    keeps₂⟩ := sortedCopy_spec plenty wf (by omega : ls.length ≤ turns) fn
  have wf' := wf'.kept keeps₂ apart
  obtain ⟨copy', h₃, n', right, h₄, bs, copied', counted', sorted', rightFormed, rightData,
    rightFresh, keeps₄⟩ := sortedCopy_spec plenty wf' (by omega : rs.length ≤ turns) fn
  have between := leftFormed.disjoint_of_fresh rightFresh
  have leftFormed := leftFormed.kept keeps₄ apart
  have leftWalk := leftFormed.toSegment.walk_next
  have rightWalk := rightFormed.toSegment.walk_next
  rw [← leftFormed.head] at leftWalk
  rw [← rightFormed.head] at rightWalk
  have leftLength : as.length = ls.length := by
    have same := congrArg List.length leftData
    rwa [(listMsort_perm _ _ _).length_eq, length_map, length_map] at same
  have rightLength : bs.length = rs.length := by
    have same := congrArg List.length rightData
    rwa [(listMsort_perm _ _ _).length_eq, length_map, length_map] at same
  obtain ⟨ret, h₅, ms, looped, formed, data, fresh, keeps₅⟩ := diffLoop_spec plenty
    ⟨leftWalk, rightWalk, wellFormed_nil h₄, apart, apart⟩
      (by omega : as.length + bs.length ≤ turns) fn
  have leftApart := leftFormed.disjoint_of_fresh fresh
  have rightApart := rightFormed.disjoint_of_fresh fresh
  obtain ⟨h₆, freed, keeps₆⟩ :=
    alpmListFree_spec (leftFormed.kept keeps₅ apart) (by omega : as.length ≤ turns)
  have rightFormed := (rightFormed.kept keeps₅ apart).kept keeps₆ between.symm
  obtain ⟨h₇, freed', keeps₇⟩ := alpmListFree_spec rightFormed (by omega : bs.length ≤ turns)
  refine ⟨ret, h₇, ms, ?_, ?_, ?_, ?_⟩
  · simp [alpmListDiff, copied, counted, sorted, copied', counted', sorted', alpmListDiffSorted,
      looped, freed, freed']
  · exact (formed.kept keeps₆ leftApart.symm).kept keeps₇ rightApart.symm
  · rw [data, leftData, rightData, listDiff, length_map, length_map]
  · have before : Keeps h h₂ (([] : List (ρ × α)).map fst) := keeps₂
    have copies : Fresh h (as ++ bs) :=
      forall_mem_append.mpr ⟨leftFresh, rightFresh.of_keeps before (wellFormed_nil h₂).toSegment⟩
    have unfreed := ((keeps₂.trans keeps₄).trans keeps₅).mono (nil_subset ((as ++ bs).map fst))
    have lefts := map_subset fst (subset_append_left as bs)
    have rights := map_subset fst (subset_append_right as bs)
    exact ((unfreed.trans (keeps₆.mono lefts)).trans (keeps₇.mono rights)).of_fresh_nodes copies

/-- `alpm_list_diff` is the difference of multisets up to what compares equal. -/
theorem alpmListDiff_multiset (plenty : m.Plentiful) {fn : α → α → Int} (lawful : Lawful fn)
    {lhs rhs : Option ρ} {ls rs : List (ρ × α)} (wf : WellFormed h lhs ls)
    (wf' : WellFormed h rhs rs) {turns : Nat} (enough : ls.length + rs.length ≤ turns) :
    ∃ ret h' ms, alpmListDiff m turns h lhs rhs fn = some (ret, h') ∧ WellFormed h' ret ms ∧
      Sorted fn (ms.map Prod.snd) ∧ (∀ x, (ms.map Prod.snd).countP (ties fn x) =
        (ls.map Prod.snd).countP (ties fn x) - (rs.map Prod.snd).countP (ties fn x)) ∧
      (∀ d ∈ ms.map Prod.snd, d ∈ ls.map Prod.snd) ∧
      WellFormed h' lhs ls ∧ WellFormed h' rhs rs ∧ Keeps h h' [] := by
  obtain ⟨ret, h', ms, differs, formed, data, keeps⟩ := alpmListDiff_spec plenty wf wf' enough fn
  refine ⟨ret, h', ms, differs, formed, ?_, ?_, ?_, wf.kept keeps (disjoint_nil_right _),
    wf'.kept keeps (disjoint_nil_right _), keeps⟩
  · rw [data]
    exact listDiff_sorted lawful _ _
  · intro x
    rw [data]
    exact countP_listDiff lawful _ _ x
  · intro d member
    rw [data] at member
    exact listDiff_subset fn _ _ member

def nextAddress : Allocator Nat α where
  malloc h := some (h.used.sup id + 1)
  fresh := by
    rintro h p ⟨⟩
    apply h.unused
    intro member
    have le : h.used.sup id + 1 ≤ h.used.sup id := Finset.le_sup (f := id) member
    omega

def twoLists : Heap Nat (Nat × Bool) := (Heap.laid threeNodes).place (some 40) [(40, 2, true)] none

theorem twoLists_wellFormed :
    WellFormed twoLists (some 10) threeNodes ∧ WellFormed twoLists (some 40) [(40, 2, true)] := by
  have formed : WellFormed (Heap.laid threeNodes) (some 10) threeNodes := wellFormed_laid (by decide)
  have second := segment_place (Heap.laid threeNodes)
    (show ([(40, 2, true)].map fst).Nodup by decide) (some 40) none
  refine ⟨formed.kept (keeps_place _ _ _ _) ?_, second, rfl⟩
  rw [disjoint_left]
  decide

theorem alpmListDiff_twoLists : (nextAddress : Allocator Nat (Nat × Bool)).Plentiful ∧
      ∃ ret h' ms, alpmListDiff nextAddress 4 twoLists (some 10) (some 40) firstCmp = some (ret, h') ∧
        WellFormed h' ret ms ∧ Sorted firstCmp (ms.map Prod.snd) ∧
        (∀ x, (ms.map Prod.snd).countP (ties firstCmp x) =
          (threeNodes.map Prod.snd).countP (ties firstCmp x) -
            ([(40, 2, true)].map Prod.snd).countP (ties firstCmp x)) ∧
        (∀ d ∈ ms.map Prod.snd, d ∈ threeNodes.map Prod.snd) ∧
        WellFormed h' (some 10) threeNodes ∧ WellFormed h' (some 40) [(40, 2, true)] ∧
        Keeps twoLists h' [] := by
  have plenty : (nextAddress : Allocator Nat (Nat × Bool)).Plentiful := fun _ => rfl
  exact ⟨plenty, alpmListDiff_multiset plenty firstCmp_lawful twoLists_wellFormed.1
    twoLists_wellFormed.2 (show threeNodes.length + 1 ≤ 4 by decide)⟩

end Specs

section Operations

variable {m} {h : Heap ρ α} {list : Option ρ} {ns : List (ρ × α)}

/-- The operation returns the list of these nodes and changes no other node than those at the given
addresses. -/
def Returns (h : Heap ρ α) (result : Option (Option ρ × Heap ρ α)) (ns : List (ρ × α))
    (changed : List ρ) : Prop :=
  ∃ list' h', result = some (list', h') ∧ WellFormed h' list' ns ∧ Keeps h h' changed

/-- The list operations keep lists well formed and leave other lists alone. -/
theorem alpmList_operations (plenty : m.Plentiful) (wf : WellFormed h list ns) (data : α)
    (fn : α → α → Int) {turns : Nat} (enough : ns.length ≤ turns) :
    (∃ ptr list' h', alpmListAppend m h list data = some (some ptr, list', h') ∧
      h.cell ptr = none ∧ WellFormed h' list' (ns ++ [(ptr, data)]) ∧
      Keeps h h' (ns.map Prod.fst)) ∧
    (∃ add, h.cell add = none ∧ Returns h (alpmListAddSorted m turns h list data (some fn))
      (ns.takeWhile (below fn data) ++ (add, data) :: ns.dropWhile (below fn data))
      (ns.map Prod.fst)) ∧
    (∀ second ms, WellFormed h second ms → (ns.map Prod.fst).Disjoint (ms.map Prod.fst) →
      Returns h (alpmListJoin h list second) (ns ++ ms) ((ns ++ ms).map Prod.fst)) ∧
    (∀ right ms, WellFormed h right ms → (ns.map Prod.fst).Disjoint (ms.map Prod.fst) →
      ∀ turns, ns.length + ms.length ≤ turns →
        Returns h (alpmListMmerge turns h list right fn) (listMmerge (onData fn) ns ms)
          ((ns ++ ms).map Prod.fst)) ∧ (∀ xs item ys, ns = xs ++ item :: ys →
      Returns h (alpmListRemoveItem h list (some item.1)) (xs ++ ys) (ns.map Prod.fst)) ∧
    (∃ ms, ms.map Prod.snd = (ns.map Prod.snd).reverse ∧
      Returns h (alpmListReverse m turns h list) ms []) ∧ (∃ last, alpmListLast h list = some last ∧
      previousNodes h turns last = some (ns.map Prod.fst).reverse) := by
  obtain ⟨p, given⟩ := isSome_iff_exists.mp (plenty h)
  have fresh := m.fresh h p given
  refine ⟨?_, ?_, ?_, ?_, ?_, ?_, ?_⟩
  · obtain ⟨list', h', added, formed, keeps⟩ := alpmListAppend_spec wf given data
    exact ⟨p, list', h', added, fresh, formed, keeps⟩
  · exact ⟨p, fresh, alpmListAddSorted_spec wf given enough data fn⟩
  · exact fun second ms wf' apart => alpmListJoin_spec wf wf' apart
  · exact fun right ms wf' apart turns enough => alpmListMmerge_spec wf wf' apart enough fn
  · rintro xs item ys rfl
    exact alpmListRemoveItem_spec wf
  · obtain ⟨list', h', ms, reversed, formed, data, keeps⟩ := alpmListReverse_spec plenty wf enough
    exact ⟨ms, data, list', h', reversed, formed, keeps⟩
  · refine ⟨back none ns, alpmListLast_eq wf, ?_⟩
    have whole : WellFormed h list (ns ++ []) := (append_nil ns).symm ▸ wf
    exact previousNodes_eq whole enough

theorem alpmList_operations_twoLists : (nextAddress : Allocator Nat (Nat × Bool)).Plentiful ∧
      Returns twoLists (alpmListJoin twoLists (some 10) (some 40)) (threeNodes ++ [(40, 2, true)])
        [10, 20, 30, 40] ∧ Returns twoLists (alpmListMmerge 4 twoLists (some 10) (some 40) firstCmp)
        (listMmerge (onData firstCmp) threeNodes [(40, 2, true)]) [10, 20, 30, 40] ∧
      Returns twoLists (alpmListRemoveItem twoLists (some 10) (some 20))
        [(10, 2, true), (30, 2, false)] [10, 20, 30] := by
  have plenty : (nextAddress : Allocator Nat (Nat × Bool)).Plentiful := fun _ => rfl
  have apart : (threeNodes.map Prod.fst).Disjoint ([(40, 2, true)].map Prod.fst) := by
    rw [disjoint_left]
    decide
  obtain ⟨-, -, joins, merges, removes, -⟩ := alpmList_operations plenty twoLists_wellFormed.1
    (0, true) firstCmp (show threeNodes.length ≤ 3 by decide)
  exact ⟨plenty, joins _ _ twoLists_wellFormed.2 apart,
    merges _ _ twoLists_wellFormed.2 apart 4 (by decide),
    removes [(10, 2, true)] (20, 1, false) [(30, 2, false)] rfl⟩

end Operations

end Dulge
