import Dulge.Chroot
import Dulge.RemovePrepare

/-! The run of a hook: `_alpm_hook_run_hook` sorts the matches of the hook, removes duplicates
and feeds them to its command line by line. -/

namespace Dulge
open Comparator Machine List

/-- The fields of `struct _alpm_hook_t` that the run of a hook reads. -/
structure Hook where
  name : CStr
  depends : List CStr
  needsTargets : Bool
  matched : List CStr

/-- `_alpm_hook_feed_targets`. A target that does not fit with its newline is cut, and the
pointer to its text is moved to the rest of it. -/
def hookFeedTargets : Nat → List CStr → List UInt8 × List CStr
  | _, [] => ([], [])
  | remaining, target :: pos =>
    if target.length + 1 ≤ remaining then
      let later := hookFeedTargets (remaining - (target.length + 1)) pos
      (target ++ newline :: later.1, later.2)
    else if remaining = 0 then ([], target :: pos)
    else (target.take remaining, target.drop remaining :: pos)

/-- `_alpm_strlist_dedup`: the neighbours of a string that are equal to it go. -/
def strlistDedup : List CStr → List CStr
  | [] => []
  | i :: next => i :: strlistDedup (next.dropWhile fun next => strcmp i next = 0)
termination_by list => list.length
decreasing_by
  rw [length_cons]
  exact Nat.lt_succ_of_le (length_dropWhile_le _ _)

def hookTargets (matched : List CStr) : List CStr :=
  strlistDedup (listMsort strcmp matched.length matched)

def hookIo (ilimit olimit : Nat) (matched : List CStr) (polls : List Poll) : Pipes (List CStr) :=
  runChrootIo ilimit olimit hookFeedTargets (.start (hookTargets matched) true) polls

/-! ### The list of targets -/

section Dedup

variable {list : List CStr}

theorem strlistDedup_sublist (list : List CStr) : (strlistDedup list).Sublist list := by
  induction list using strlistDedup.induct with
  | case1 =>
    rw [strlistDedup]
  | case2 i next ih =>
    rw [strlistDedup]
    exact (ih.trans (dropWhile_sublist _)).cons_cons i

theorem mem_strlistDedup (list : List CStr) (x : CStr) : x ∈ strlistDedup list ↔ x ∈ list := by
  induction list using strlistDedup.induct with
  | case1 => rw [strlistDedup]
  | case2 i next ih =>
    constructor
    · exact fun mem => (strlistDedup_sublist _).subset mem
    · intro mem
      rw [strlistDedup, mem_cons, ih]
      rw [mem_cons] at mem
      rcases mem with rfl | mem
      · exact .inl rfl
      · rcases holds_or_mem_dropWhile (p := fun next => strcmp i next = 0) mem with tie | later
        · exact .inl (strcmp_eq_zero.mp (of_decide_eq_true tie)).symm
        · exact .inr later

theorem strlistDedup_ascending (sorted : Sorted strcmp list) :
    (strlistDedup list).Pairwise fun a b => strcmp a b < 0 := by
  induction list using strlistDedup.induct with
  | case1 =>
    rw [strlistDedup]
    exact .nil
  | case2 i next ih =>
    rw [strlistDedup]
    obtain ⟨low, sortedNext⟩ := pairwise_cons.mp sorted
    refine .cons ?_ (ih (sortedNext.sublist (dropWhile_sublist _)))
    intro y mem
    exact Sorted.above_ties strcmp_lawful sortedNext low y ((mem_strlistDedup _ y).mp mem)

end Dedup

/-- The targets of a hook are its matches without repetition, sorted by `strcmp`. -/
theorem hookTargets_ascending (matched : List CStr) :
    (hookTargets matched).Pairwise fun a b => strcmp a b < 0 :=
  strlistDedup_ascending (listMsort_sorted strcmp_lawful matched)

theorem mem_hookTargets (matched : List CStr) (x : CStr) :
    x ∈ hookTargets matched ↔ x ∈ matched := by
  rw [hookTargets, mem_strlistDedup]
  exact (listMsort_perm strcmp _ matched).mem_iff

/-! ### The feeding -/

def targetLines (targets : List CStr) : List UInt8 :=
  targets.flatMap fun target => target ++ [newline]

theorem targetLines_cons (target : CStr) (pos : List CStr) :
    targetLines (target :: pos) = target ++ newline :: targetLines pos := by
  simp [targetLines]

theorem hookFeedTargets_lines (needed : Nat) (pos : List CStr) :
    (hookFeedTargets needed pos).1 ++ targetLines (hookFeedTargets needed pos).2 =
      targetLines pos := by
  induction pos generalizing needed with
  | nil => rfl
  | cons target pos ih =>
    rw [hookFeedTargets]
    split
    · have later := ih (needed - (target.length + 1))
      rw [targetLines_cons, ← later]
      simp
    · split
      · rfl
      · rw [targetLines_cons, targetLines_cons, ← append_assoc, take_append_drop]

theorem hookFeedTargets_ends {needed : Nat} (room : 0 < needed) {pos : List CStr}
    (nothing : (hookFeedTargets needed pos).1 = []) : pos = [] := by
  cases pos with
  | nil => rfl
  | cons target pos =>
    rw [hookFeedTargets] at nothing
    split at nothing
    · exact absurd nothing (append_ne_nil_of_right_ne_nil _ (cons_ne_nil _ _))
    · rename_i long
      rw [if_neg (Nat.pos_iff_ne_zero.mp room)] at nothing
      have length := congrArg List.length nothing
      rw [length_take, length_nil] at length
      omega

theorem hookFeedTargets_feeds {olimit : Nat} (room : 0 < olimit) :
    Feeds olimit hookFeedTargets targetLines where
  keeps := hookFeedTargets_lines olimit
  ends := by
    intro pos nothing
    rw [hookFeedTargets_ends room nothing]
    rfl

/-- In every run in which no `send` fails, a hook has got each of its matches once, in
ascending order and on a line of its own, when its standard input is closed, and it is closed
after as many deliveries as there are bytes and one more. -/
theorem hookIo_sends {olimit : Nat} (room : 0 < olimit) (ilimit : Nat) (matched : List CStr)
    {polls : List Poll} (sends : ∀ event ∈ polls, SendsOn event) : ∃ targets : List CStr,
      (targets.Pairwise fun a b => strcmp a b < 0) ∧ (∀ x, x ∈ targets ↔ x ∈ matched) ∧
      ((hookIo ilimit olimit matched polls).writing = false →
        (hookIo ilimit olimit matched polls).sent = targetLines targets) ∧
      (.failed ∉ polls → (targetLines targets).length < polls.countP Poll.delivers →
        (hookIo ilimit olimit matched polls).writing = false) := by
  have feeds := hookFeedTargets_feeds room
  have start : Feeding targetLines (targetLines (hookTargets matched))
      (.start (hookTargets matched) true) := ⟨rfl, fun closed => Bool.noConfusion closed⟩
  have same := (flush_output
    (run (pollStep ilimit olimit hookFeedTargets) (.start (hookTargets matched) true) polls)).1
  simp only [Pipes.output, Prod.mk.injEq] at same
  obtain ⟨-, -, writing, sent⟩ := same
  refine ⟨hookTargets matched, hookTargets_ascending matched, mem_hookTargets matched, ?_, ?_⟩
  · intro closed
    rw [hookIo, runChrootIo, sent]
    rw [hookIo, runChrootIo, writing] at closed
    exact (start.run feeds sends).sent_of_closed closed
  · intro fine enough
    rw [hookIo, runChrootIo, writing]
    exact start.closes feeds rfl sends fine enough

def bytewisePolls : List Poll :=
  .events .quiet (.ready .retry) :: List.replicate 8 (.events .quiet (.ready (.wrote 1)))

/-- Three matches with a duplicate, fed through a buffer of two bytes. -/
theorem hookIo_sends_bytewise : let matched := [cstr "usr", cstr "bin", cstr "usr"]
    ∃ targets : List CStr, (targets.Pairwise fun a b => strcmp a b < 0) ∧
      (∀ x, x ∈ targets ↔ x ∈ matched) ∧
      (hookIo 2048 2 matched (bytewisePolls ++ bytewisePolls)).sent = targetLines targets := by
  intro matched
  have sends : ∀ event ∈ bytewisePolls ++ bytewisePolls, SendsOn event := by
    simp [bytewisePolls, SendsOn]
  obtain ⟨targets, ascending, members, sent, -⟩ := hookIo_sends (Nat.succ_pos 1) 2048 matched sends
  exact ⟨targets, ascending, members, sent (by decide +kernel)⟩

end Dulge
