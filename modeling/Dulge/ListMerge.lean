import Dulge.AlpmList
import Dulge.Lib.NodeList

/-! `alpm_list_mmerge` and `alpm_list_msort` on list nodes in a heap: merging and sorting relink the
nodes and move no data. -/

namespace Dulge
open NodeList Comparator List Option
open Prod (fst snd)

variable {ρ α : Type} [DecidableEq ρ]

def takeNode (h : Heap ρ α) (lp node : Option ρ) : Option (Option ρ × Option ρ × Heap ρ α) := do
  let h ← h.setNext lp node
  let h ← h.setPrev node lp
  let rest := (← h.read node).next
  let lp := (← h.read lp).next
  let h ← h.setNext lp none
  return (lp, rest, h)

/-- The loop of `alpm_list_mmerge`: the end of the merged list and what is left of both. -/
def mergeLoop (fn : α → α → Int) : Nat → Heap ρ α → Option ρ → Option ρ → Option ρ →
      Option (Option ρ × Option ρ × Option ρ × Heap ρ α)
  | _, h, lp, none, right => some (lp, none, right, h)
  | _, h, lp, some left, none => some (lp, some left, none, h)
  | 0, _, _, some _, some _ => none
  | turns + 1, h, lp, some left, some right => do
      let l ← h.read (some left)
      let r ← h.read (some right)
      if fn l.data r.data ≤ 0 then
        let (lp, left, h) ← takeNode h lp (some left)
        mergeLoop fn turns h lp left (some right)
      else
        let (lp, right, h) ← takeNode h lp (some right)
        mergeLoop fn turns h lp (some left) right

def linkRest (h : Heap ρ α) (newlist lp rest tail : Option ρ) : Option (Option ρ × Heap ρ α) := do
  let h ← h.setNext lp rest
  let h ← h.setPrev rest lp
  let h ← h.setPrev newlist tail
  return (newlist, h)

/-- `alpm_list_mmerge` after its loop. -/
def closeMerge (h : Heap ρ α) (newlist lp left right leftTail rightTail : Option ρ) :
    Option (Option ρ × Heap ρ α) :=
  match left, right with
  | some _, _ => linkRest h newlist lp left leftTail
  | none, some _ => linkRest h newlist lp right rightTail
  | none, none => do
      let h ← h.setPrev newlist lp
      return (newlist, h)

def alpmListMmerge (turns : Nat) (h : Heap ρ α) (left right : Option ρ) (fn : α → α → Int) :
    Option (Option ρ × Heap ρ α) :=
  match left, right with
  | none, _ => some (right, h)
  | some _, none => some (left, h)
  | some _, some _ => do
      let l ← h.read left
      let r ← h.read right
      let leftTail := l.prev
      let rightTail := r.prev
      let (newlist, left, right) :=
        if fn l.data r.data ≤ 0 then (left, l.next, right) else (right, left, r.next)
      let h ← h.setPrev newlist none
      let h ← h.setNext newlist none
      let (lp, left, right, h) ← mergeLoop fn turns h newlist left right
      closeMerge h newlist lp left right leftTail rightTail

omit [DecidableEq ρ] in
/-- The loop of `alpm_list_msort` that goes to the last node of the left half. -/
def lastLeft (h : Heap ρ α) : Nat → Option ρ → Option (Option ρ)
  | 0, lastleft => some lastleft
  | i + 1, lastleft => do
      let node ← h.read lastleft
      lastLeft h i node.next

def alpmListMsort (turns : Nat) (h : Heap ρ α) (list : Option ρ) (n : Nat) (fn : α → α → Int) :
    Option (Option ρ × Heap ρ α) :=
  if 1 < n then do
    let half := n / 2
    let lastleft ← lastLeft h (half - 1) list
    let right := (← h.read lastleft).next
    let h ← h.setNext lastleft none
    let h ← h.setPrev right (← h.read list).prev
    let h ← h.setPrev list lastleft
    let (left, h) ← alpmListMsort turns h list half fn
    let (right, h) ← alpmListMsort turns h right (n - half) fn
    alpmListMmerge turns h left right fn
  else some (list, h)
termination_by n
decreasing_by all_goals omega

section Merge

variable {h : Heap ρ α} {ds ls rs : List (ρ × α)} {x : ρ × α} {b c d : Option ρ}

theorem takeNode_spec (done : Segment h b ds none) (nonempty : ds ≠ [])
    (rest : Segment h c (x :: ls) none)
    (apart : (ds.map fst).Disjoint ((x :: ls).map fst)) :
    ∃ h', takeNode h (back none ds) (some x.1) = some (some x.1, front ls none, h') ∧
      Segment h' b (ds ++ [x]) none ∧ Segment h' (some x.1) ls none ∧
      Keeps h h' ((ds ++ x :: ls).map fst) := by
  rw [map_append]
  have front := subset_append_left (ds.map fst) ((x :: ls).map fst)
  have behind := subset_append_right (ds.map fst) ((x :: ls).map fst)
  obtain ⟨h₁, wrote₁, done, changed₁⟩ := done.setNext_last nonempty (some x.1)
  have rest := rest.kept changed₁ apart.symm
  obtain ⟨h₂, wrote₂, rest, changed₂⟩ := rest.setPrev_head (back none ds)
  have done := done.kept changed₂ apart
  obtain ⟨last, readLast, isNext⟩ := done.read_last nonempty
  have pieces : Segment h₂ (back none ds) ([x] ++ ls) none := rest
  have single := pieces.left
  have tail := pieces.right
  obtain ⟨h₃, wrote₃, single, changed₃⟩ := single.setNext_last (cons_ne_nil x []) none
  rw [map_cons, disjoint_cons_right] at apart
  have alone : (ds.map fst).Disjoint [x.1] := disjoint_singleton.mpr apart.1
  have done := done.kept changed₃ alone
  have tail := tail.kept changed₃ pieces.disjoint.symm
  refine ⟨h₃, ?_, ?_, tail, ?_⟩
  · simp only [back_cons, back_nil] at wrote₃
    simp [takeNode, wrote₁, wrote₂, rest.read_head, readLast, isNext, wrote₃]
  · have single : Segment h₃ (back b ds) [x] none := back_of_ne_nil nonempty ▸ single
    exact done.append single alone
  · have node : [x].map fst ⊆ (x :: ls).map fst :=
      cons_subset_cons x.1 (nil_subset _)
    exact ((changed₁.mono front).trans (changed₂.mono behind)).trans
      (changed₃.mono (List.Subset.trans node behind))

/-- What holds between two turns of the merge: the nodes `ds` are merged, `ls` and `rs` are left.
Nothing is known of the back link of the first node that is left of either list. -/
structure Merging (h : Heap ρ α) (ds ls rs : List (ρ × α)) : Prop where
  done : Segment h none ds none
  nonempty : ds ≠ []
  left : ∃ c, Segment h c ls none
  right : ∃ c, Segment h c rs none
  fromLeft : (ds.map fst).Disjoint (ls.map fst)
  fromRight : (ds.map fst).Disjoint (rs.map fst)
  between : (ls.map fst).Disjoint (rs.map fst)

omit [DecidableEq ρ] in
theorem Merging.swap (merging : Merging h ds ls rs) : Merging h ds rs ls :=
  ⟨merging.done, merging.nonempty, merging.right, merging.left, merging.fromRight,
    merging.fromLeft, merging.between.symm⟩

theorem Merging.take (merging : Merging h ds (x :: ls) rs) :
    ∃ h', takeNode h (back none ds) (some x.1) = some (some x.1, front ls none, h') ∧
      Merging h' (ds ++ [x]) ls rs ∧ Keeps h h' ((ds ++ x :: ls).map fst) := by
  obtain ⟨c, left⟩ := merging.left
  obtain ⟨d, right⟩ := merging.right
  obtain ⟨h', taken, done, rest, keeps⟩ :=
    takeNode_spec merging.done merging.nonempty left merging.fromLeft
  have fromLeft := merging.fromLeft
  have between := merging.between
  rw [map_cons, disjoint_cons_right] at fromLeft
  rw [map_cons, disjoint_cons_left] at between
  have others : (rs.map fst).Disjoint ((ds ++ x :: ls).map fst) := by
    rw [map_append, disjoint_append_right]
    exact ⟨merging.fromRight.symm, merging.between.symm⟩
  refine ⟨h', taken, ⟨done, by simp, ⟨_, rest⟩, ⟨d, right.kept keeps others⟩, ?_, ?_, between.2⟩,
    keeps⟩
  · rw [map_append, disjoint_append_left]
    exact ⟨fromLeft.2, singleton_disjoint.mpr left.head_notMem⟩
  · rw [map_append, disjoint_append_left]
    exact ⟨merging.fromRight, singleton_disjoint.mpr between.1⟩

def onData (fn : α → α → Int) (a b : ρ × α) : Int := fn a.2 b.2

/-- The loop ends when one list is used up; `rest` is what is then left of the other one. -/
theorem mergeLoop_spec (merging : Merging h ds ls rs) (more : ls ++ rs ≠ []) {turns : Nat}
    (enough : ls.length + rs.length ≤ turns) (fn : α → α → Int) : ∃ es rest left right h',
      mergeLoop fn turns h (back none ds) (front ls none) (front rs none) =
        some (back none es, left, right, h') ∧
      (left = front rest none ∧ right = none ∧ rest <:+ ls ∨
        left = none ∧ right = front rest none ∧ rest <:+ rs) ∧ rest ≠ [] ∧
      Merging h' es rest [] ∧ es ++ rest = ds ++ listMmerge (onData fn) ls rs ∧
      Keeps h h' ((ds ++ (ls ++ rs)).map fst) := by
  induction turns generalizing h ds ls rs with
  | zero =>
    exfalso
    apply more
    rw [← length_eq_zero_iff, length_append]
    omega
  | succ turns ih =>
    match ls, rs with
    | [], [] => exact absurd rfl more
    | [], r :: rs =>
      refine ⟨ds, r :: rs, none, some r.1, h, rfl, .inr ⟨rfl, rfl, suffix_refl _⟩,
        cons_ne_nil r rs, merging.swap, ?_, Keeps.refl h _⟩
      rw [listMmerge]
    | l :: ls, [] =>
      refine ⟨ds, l :: ls, some l.1, none, h, rfl, .inl ⟨rfl, rfl, suffix_refl _⟩,
        cons_ne_nil l ls, merging, ?_, Keeps.refl h _⟩
      rw [listMmerge]
      exact cons_ne_nil l ls
    | l :: ls, r :: rs =>
      obtain ⟨_, left⟩ := merging.left
      obtain ⟨_, right⟩ := merging.right
      simp only [length_cons] at enough
      simp only [mergeLoop, front_cons, left.read_head, right.read_head, bind_eq_bind, bind_some]
      by_cases le : fn l.2 r.2 ≤ 0
      · obtain ⟨h₁, taken, merging, keeps₁⟩ := merging.take
        have turn := ih merging (by simp) (by simp only [length_cons]; omega)
        obtain ⟨es, rest, left, right, h', looped, side, nonempty, closing, all, keeps⟩ := turn
        rw [back_append] at looped
        refine ⟨es, rest, left, right, h', ?_, ?_, nonempty, closing, ?_, ?_⟩
        · rw [if_pos le, taken]
          exact looped
        · exact side.imp_left fun here =>
            ⟨here.1, here.2.1, here.2.2.trans (suffix_cons l ls)⟩
        · rw [all, listMmerge, if_pos (show onData fn l r ≤ 0 from le), append_assoc]
          rfl
        · have same : ds ++ [l] ++ (ls ++ r :: rs) = ds ++ (l :: ls ++ r :: rs) := by simp
          rw [same] at keeps
          refine Keeps.trans (keeps₁.mono (map_subset _ ?_)) keeps
          intro q
          simp only [mem_append, mem_cons]
          tauto
      · obtain ⟨h₁, taken, merging, keeps₁⟩ := merging.swap.take
        have turn := ih merging.swap (by simp) (by simp only [length_cons]; omega)
        obtain ⟨es, rest, left, right, h', looped, side, nonempty, closing, all, keeps⟩ := turn
        rw [back_append] at looped
        refine ⟨es, rest, left, right, h', ?_, ?_, nonempty, closing, ?_, ?_⟩
        · rw [if_neg le, taken]
          exact looped
        · exact side.imp_right fun here =>
            ⟨here.1, here.2.1, here.2.2.trans (suffix_cons r rs)⟩
        · rw [all, listMmerge, if_neg (show ¬ onData fn l r ≤ 0 from le), append_assoc]
          rfl
        · refine Keeps.trans (keeps₁.mono (map_subset _ ?_))
            (keeps.mono (map_subset _ ?_))
          · intro q
            simp only [mem_append, mem_cons]
            tauto
          · intro q
            simp only [mem_append, mem_cons, not_mem_nil]
            tauto

theorem linkRest_spec {es rest : List (ρ × α)} {n : ρ × α} {ns : List (ρ × α)}
    (closing : Merging h es rest []) (nonempty : rest ≠ []) (whole : es ++ rest = n :: ns) :
    ∃ h', linkRest h (some n.1) (back none es) (front rest none) (back none rest) =
        some (some n.1, h') ∧
      WellFormed h' (some n.1) (es ++ rest) ∧ Keeps h h' ((es ++ rest).map fst) := by
  obtain ⟨_, left⟩ := closing.left
  have apart := closing.fromLeft
  obtain ⟨r, rs, rfl⟩ := exists_cons_of_ne_nil nonempty
  obtain ⟨h₁, wrote₁, done, changed₁⟩ := closing.done.setNext_last closing.nonempty (some r.1)
  have left := left.kept changed₁ apart.symm
  obtain ⟨h₂, wrote₂, left, changed₂⟩ := left.setPrev_head (back none es)
  have done := done.kept changed₂ apart
  have all := done.append left apart
  rw [whole] at all
  obtain ⟨h₃, wrote₃, all, changed₃⟩ := all.setPrev_head (back none (r :: rs))
  refine ⟨h₃, ?_, ?_, ?_⟩
  · simp only [linkRest, front_cons, wrote₁, wrote₂, wrote₃, Option.bind_eq_bind, Option.bind_some,
      Option.pure_def]
  · refine ⟨?_, by rw [whole]; rfl⟩
    rw [back_append, whole]
    exact all
  · rw [← whole] at changed₃
    have firsts := map_subset fst (subset_append_left es (r :: rs))
    have lasts := map_subset fst (subset_append_right es (r :: rs))
    exact ((changed₁.mono firsts).trans (changed₂.mono lasts)).trans changed₃

theorem closeMerge_eq {rest : List (ρ × α)} {left right : Option ρ} (nonempty : rest ≠ [])
    (side : left = front rest none ∧ right = none ∧ rest <:+ ls ∨
      left = none ∧ right = front rest none ∧ rest <:+ rs) (newlist lp : Option ρ) :
    closeMerge h newlist lp left right (back none ls) (back none rs) =
      linkRest h newlist lp (front rest none) (back none rest) := by
  obtain ⟨r, more, rfl⟩ := exists_cons_of_ne_nil nonempty
  rcases side with ⟨rfl, rfl, behind⟩ | ⟨rfl, rfl, behind⟩
  · rw [back_suffix behind nonempty]
    rfl
  · rw [back_suffix behind nonempty]
    rfl

theorem mergeLoop_closeMerge_spec {ls₀ rs₀ : List (ρ × α)} (merging : Merging h [x] ls rs)
    (more : ls ++ rs ≠ []) (leftEnd : ls <:+ ls₀) (rightEnd : rs <:+ rs₀) {turns : Nat}
    (enough : ls.length + rs.length ≤ turns) (fn : α → α → Int) :
    ∃ lp left right h₁ h', mergeLoop fn turns h (some x.1) (front ls none) (front rs none) =
        some (lp, left, right, h₁) ∧
      closeMerge h₁ (some x.1) lp left right (back none ls₀) (back none rs₀) = some (some x.1, h') ∧
      WellFormed h' (some x.1) (x :: listMmerge (onData fn) ls rs) ∧
      Keeps h h' ((x :: (ls ++ rs)).map fst) := by
  obtain ⟨es, rest, left, right, h₁, looped, side, nonempty, closing, all, keeps₁⟩ :=
    mergeLoop_spec merging more enough fn
  obtain ⟨h', linked, formed, keeps⟩ := linkRest_spec closing nonempty all
  rw [all] at formed keeps
  refine ⟨_, left, right, h₁, h', looped, ?_, formed, keeps₁.trans (keeps.mono ?_)⟩
  · have side₀ : left = front rest none ∧ right = none ∧ rest <:+ ls₀ ∨
        left = none ∧ right = front rest none ∧ rest <:+ rs₀ :=
      side.imp (fun here => ⟨here.1, here.2.1, here.2.2.trans leftEnd⟩)
        fun here => ⟨here.1, here.2.1, here.2.2.trans rightEnd⟩
    rw [closeMerge_eq nonempty side₀]
    exact linked
  · rw [listMmerge_eq]
    have same : (ls.merge rs fun a b => onData fn a b ≤ 0).Perm (ls ++ rs) :=
      merge_perm_append _
    exact map_subset _ (same.cons x).subset

theorem alpmListMmerge_spec {left right : Option ρ} (wf : WellFormed h left ls)
    (wf' : WellFormed h right rs) (apart : (ls.map fst).Disjoint (rs.map fst))
    {turns : Nat} (enough : ls.length + rs.length ≤ turns) (fn : α → α → Int) :
    ∃ list' h', alpmListMmerge turns h left right fn = some (list', h') ∧
      WellFormed h' list' (listMmerge (onData fn) ls rs) ∧
      Keeps h h' ((ls ++ rs).map fst) := by
  match ls, rs with
  | [], rs =>
    refine ⟨right, h, ?_, ?_, Keeps.refl h _⟩
    · rw [wf.head]
      rfl
    · rwa [listMmerge]
  | l :: ls, [] =>
    refine ⟨left, h, ?_, ?_, Keeps.refl h _⟩
    · rw [wf.head, wf'.head]
      rfl
    · rwa [listMmerge]
      exact cons_ne_nil l ls
  | l :: ls, r :: rs =>
    simp only [alpmListMmerge, wf.head, wf'.head, front_cons, wf.read_head, wf'.read_head,
      bind_eq_bind, bind_some]
    simp only [length_cons] at enough
    have fromLeft := apart
    have fromRight := apart.symm
    rw [map_cons, disjoint_cons_left] at fromLeft fromRight
    by_cases le : fn l.2 r.2 ≤ 0
    · obtain ⟨h₁, h₂, wrote₁, wrote₂, done, rest, keeps₂⟩ := wf.detach_head
      have right := wf'.kept keeps₂ apart.symm
      have merging : Merging h₂ [l] ls (r :: rs) :=
        ⟨done, cons_ne_nil l [], ⟨_, rest⟩, ⟨_, right.toSegment⟩,
          singleton_disjoint.mpr wf.head_notMem, singleton_disjoint.mpr fromLeft.1,
          fromLeft.2⟩
      have enough : ls.length + (r :: rs).length ≤ turns := by
        rw [length_cons]
        omega
      obtain ⟨lp, left, right, h₃, h', looped, closed, formed, keeps⟩ :=
        mergeLoop_closeMerge_spec merging (by simp) (suffix_cons l ls)
          (suffix_refl (r :: rs)) enough fn
      refine ⟨some l.1, h', ?_, ?_, ?_⟩
      · rw [front_cons] at looped
        simp only [if_pos le, wrote₁, wrote₂, looped, closed, bind_some]
      · rw [listMmerge, if_pos (show onData fn l r ≤ 0 from le)]
        exact formed
      · exact (keeps₂.mono (map_subset _ (subset_append_left _ _))).trans keeps
    · obtain ⟨h₁, h₂, wrote₁, wrote₂, done, rest, keeps₂⟩ := wf'.detach_head
      have left := wf.kept keeps₂ apart
      have merging : Merging h₂ [r] (l :: ls) rs :=
        ⟨done, cons_ne_nil r [], ⟨_, left.toSegment⟩, ⟨_, rest⟩,
          singleton_disjoint.mpr fromRight.1, singleton_disjoint.mpr wf'.head_notMem,
          fromRight.2.symm⟩
      have enough : (l :: ls).length + rs.length ≤ turns := by
        rw [length_cons]
        omega
      obtain ⟨lp, left, right, h₃, h', looped, closed, formed, keeps⟩ :=
        mergeLoop_closeMerge_spec merging (by simp) (suffix_refl (l :: ls))
          (suffix_cons r rs) enough fn
      refine ⟨some r.1, h', ?_, ?_, ?_⟩
      · rw [front_cons] at looped
        simp only [if_neg le, wrote₁, wrote₂, looped, closed, bind_some]
      · rw [listMmerge, if_neg (show ¬ onData fn l r ≤ 0 from le)]
        exact formed
      · refine (keeps₂.mono (map_subset _ (subset_append_right _ _))).trans
          (keeps.mono (map_subset _ ?_))
        intro q
        simp only [mem_append, mem_cons]
        tauto

end Merge

section Sorting

variable {h : Heap ρ α} {list : Option ρ} {ns ls rs : List (ρ × α)}

omit [DecidableEq ρ] in
theorem lastLeft_eq {x : ρ × α} {before after : Option ρ}
    (segment : Segment h before (ls ++ x :: rs) after) :
    lastLeft h ls.length (front (ls ++ x :: rs) after) = some (some x.1) := by
  induction ls generalizing before with
  | nil => rfl
  | cons l ls ih =>
    simp only [cons_append, front_cons, length_cons, lastLeft, segment.read_head,
      bind_eq_bind, bind_some]
    exact ih segment.tail

theorem msort_split (wf : WellFormed h list (ls ++ rs)) (leftMore : ls ≠ []) (rightMore : rs ≠ []) :
    ∃ c first h₁ h₂ h₃, lastLeft h (ls.length - 1) list = some (back none ls) ∧
      h.read (back none ls) = some c ∧ c.next = front rs none ∧
      h.setNext (back none ls) none = some h₁ ∧ h₁.read list = some first ∧
      h₁.setPrev (front rs none) first.prev = some h₂ ∧ h₂.setPrev list (back none ls) = some h₃ ∧
      WellFormed h₃ list ls ∧ WellFormed h₃ (front rs none) rs ∧
      Keeps h h₃ ((ls ++ rs).map fst) := by
  obtain ⟨c, readLast, isNext⟩ := wf.left.read_last leftMore
  obtain ⟨h₁, wrote₁, left, changed₁⟩ := wf.left.setNext_last leftMore none
  have right := wf.right.kept changed₁ wf.disjoint.symm
  have position : lastLeft h (ls.length - 1) list = some (back none ls) := by
    obtain rfl | ⟨init, last, rfl⟩ := eq_nil_or_concat ls
    · exact absurd rfl leftMore
    rw [concat_eq_append, append_assoc] at wf
    rw [concat_eq_append, length_append, length_singleton, Nat.add_sub_cancel, back_append, wf.head]
    exact lastLeft_eq wf.toSegment
  obtain ⟨l, ls, rfl⟩ := exists_cons_of_ne_nil leftMore
  obtain ⟨r, rs, rfl⟩ := exists_cons_of_ne_nil rightMore
  have first := left.read_head
  obtain ⟨h₂, wrote₂, right, changed₂⟩ := right.setPrev_head (back none (l :: ls ++ r :: rs))
  have left := left.kept changed₂ wf.disjoint
  obtain ⟨h₃, wrote₃, left, changed₃⟩ := left.setPrev_head (back none (l :: ls))
  have right := right.kept changed₃ wf.disjoint.symm
  have there : list = some l.1 := wf.head
  rw [back_append] at right
  rw [there] at position ⊢
  refine ⟨c, _, h₁, h₂, h₃, position, readLast, isNext, wrote₁, first, wrote₂, wrote₃, ⟨left, rfl⟩,
    ⟨right, rfl⟩, ?_⟩
  have lefts := map_subset fst (subset_append_left (l :: ls) (r :: rs))
  have rights := map_subset fst (subset_append_right (l :: ls) (r :: rs))
  exact ((changed₁.mono lefts).trans (changed₂.mono rights)).trans (changed₃.mono lefts)

omit [DecidableEq ρ] in
theorem listMsort_onData (fn : α → α → Int) (n : Nat) (ns : List (ρ × α)) :
    (listMsort (onData fn) n ns).map snd = listMsort fn n (ns.map snd) := by
  have merge (ls rs : List (ρ × α)) :
      (listMmerge (onData fn) ls rs).map snd =
        listMmerge fn (ls.map snd) (rs.map snd) := by
    rw [listMmerge_eq, listMmerge_eq]
    exact map_merge fun a _ b _ => rfl
  induction n using Nat.strong_induction_on generalizing ns with
  | _ n ih =>
    rw [listMsort.eq_def (onData fn) n ns, listMsort.eq_def fn n]
    split_ifs with more
    · rw [merge, ih (n / 2) (by omega), ih (n - n / 2) (by omega), map_take, map_drop]
    · rfl

theorem alpmListMsort_spec (wf : WellFormed h list ns) {turns : Nat} (enough : ns.length ≤ turns)
    (fn : α → α → Int) : ∃ list' h', alpmListMsort turns h list ns.length fn = some (list', h') ∧
      WellFormed h' list' (listMsort (onData fn) ns.length ns) ∧ Keeps h h' (ns.map fst) := by
  induction size : ns.length using Nat.strong_induction_on generalizing h list ns with
  | _ n ih =>
    rw [alpmListMsort, listMsort]
    split_ifs with more
    · have leftLength : (ns.take (n / 2)).length = n / 2 := by
        rw [length_take]
        omega
      have rightLength : (ns.drop (n / 2)).length = n - n / 2 := by
        rw [length_drop, size]
      have leftMore : ns.take (n / 2) ≠ [] := ne_nil_of_length_pos (by omega)
      have rightMore : ns.drop (n / 2) ≠ [] := ne_nil_of_length_pos (by omega)
      have whole : ns.take (n / 2) ++ ns.drop (n / 2) = ns := take_append_drop _ _
      rw [← whole] at wf
      have apart := wf.disjoint
      obtain ⟨c, first, h₁, h₂, h₃, position, readLast, isNext, wrote₁, readFirst, wrote₂, wrote₃,
        left, right, keeps₃⟩ := msort_split wf leftMore rightMore
      obtain ⟨left', h₄, sorted₄, formed₄, keeps₄⟩ :=
        ih (n / 2) (by omega) left (by omega) leftLength
      have right := right.kept keeps₄ apart.symm
      obtain ⟨right', h₅, sorted₅, formed₅, keeps₅⟩ :=
        ih (n - n / 2) (by omega) right (by omega) rightLength
      have leftPerm := (listMsort_perm (onData fn) (n / 2) (ns.take (n / 2))).map fst
      have rightPerm := (listMsort_perm (onData fn) (n - n / 2) (ns.drop (n / 2))).map fst
      have formed₄ := formed₄.kept keeps₅ (disjoint_of_subset_left leftPerm.subset apart)
      have apart' := disjoint_of_subset_left leftPerm.subset
        (disjoint_of_subset_right rightPerm.subset apart)
      have enough : (listMsort (onData fn) (n / 2) (ns.take (n / 2))).length +
          (listMsort (onData fn) (n - n / 2) (ns.drop (n / 2))).length ≤ turns := by
        rw [(listMsort_perm _ _ _).length_eq, (listMsort_perm _ _ _).length_eq]
        omega
      obtain ⟨list', h', merged, formed, keeps⟩ :=
        alpmListMmerge_spec formed₄ formed₅ apart' enough fn
      refine ⟨list', h', ?_, formed, ?_⟩
      · rw [leftLength] at position
        simp [position, readLast, isNext, wrote₁, readFirst, wrote₂, wrote₃, sorted₄, sorted₅, merged]
      · rw [whole] at keeps₃
        rw [map_append] at keeps
        have lefts : (ns.take (n / 2)).map fst ⊆ ns.map fst :=
          map_subset _ (take_subset _ _)
        have rights : (ns.drop (n / 2)).map fst ⊆ ns.map fst :=
          map_subset _ (drop_subset _ _)
        have both := append_subset.mpr
          ⟨List.Subset.trans leftPerm.subset lefts, List.Subset.trans rightPerm.subset rights⟩
        exact ((keeps₃.trans (keeps₄.mono lefts)).trans (keeps₅.mono rights)).trans
          (keeps.mono both)
    · exact ⟨list, h, rfl, wf, Keeps.refl h _⟩

omit [DecidableEq ρ] in
theorem onData_lawful {fn : α → α → Int} (lawful : Lawful fn) :
    Lawful (onData fn : ρ × α → ρ × α → Int) := ⟨fun a b => lawful.swap a.2 b.2, lawful.trans⟩

/-- `alpm_list_msort` ends, and sorts the nodes stably. -/
theorem alpmListMsort_stable {fn : α → α → Int} (lawful : Lawful fn) (wf : WellFormed h list ns)
    {turns : Nat} (enough : ns.length ≤ turns) :
    ∃ list' h' ms, alpmListMsort turns h list ns.length fn = some (list', h') ∧
      WellFormed h' list' ms ∧ ms.Perm ns ∧ Sorted fn (ms.map Prod.snd) ∧
      ∀ a b, fn a.2 b.2 = 0 → [a, b].Sublist ns → [a, b].Sublist ms := by
  obtain ⟨list', h', sorted, formed, -⟩ := alpmListMsort_spec wf enough fn
  have nodes : Lawful (onData fn : ρ × α → ρ × α → Int) := onData_lawful lawful
  refine ⟨list', h', _, sorted, formed, listMsort_perm _ _ ns, ?_, ?_⟩
  · exact pairwise_map.mpr (listMsort_sorted nodes ns)
  · intro a b tie inOrder
    exact nodes.pair_sublist_of_ties (listMsort_ties nodes ns) tie inOrder

def firstCmp (a b : Nat × Bool) : Int := a.1 - b.1

theorem firstCmp_lawful : Lawful firstCmp := by
  constructor
  · intro a b
    simp only [firstCmp]
    omega
  · intro a b c ab bc
    simp only [firstCmp] at ab bc ⊢
    omega

def threeNodes : List (Nat × (Nat × Bool)) := [(10, 2, true), (20, 1, false), (30, 2, false)]

theorem alpmListMsort_threeNodes : WellFormed (Heap.laid threeNodes) (some 10) threeNodes ∧
      ∃ list' h' ms, alpmListMsort 3 (Heap.laid threeNodes) (some 10) 3 firstCmp = some (list', h') ∧
        WellFormed h' list' ms ∧ ms.Perm threeNodes ∧ Sorted firstCmp (ms.map Prod.snd) ∧
        ∀ a b, firstCmp a.2 b.2 = 0 → [a, b].Sublist threeNodes → [a, b].Sublist ms := by
  have formed : WellFormed (Heap.laid threeNodes) (some 10) threeNodes := wellFormed_laid (by decide)
  exact ⟨formed, alpmListMsort_stable firstCmp_lawful formed (show threeNodes.length ≤ 3 by decide)⟩

end Sorting

end Dulge
