import Dulge.Package

/-! `alpm_trans_commit` with the two loops that carry it out, and `alpm_trans_interrupt`,
which a callback or a signal handler may call at any moment while it runs. The interrupt
only leaves a mark in `trans->state`, which the loops test before each package; so of the
calls between two tests it matters only whether there was one. The tests of both loops are
numbered through, and `signal n` says that a call comes after the test before test `n`
(for the first one: after the state is set to `STATE_COMMITTING`). -/

namespace Dulge
open List

/-- `alpm_transstate_t` -/
inductive TransState
  | idle | initialized | prepared | downloading | committing | committed | interrupted
deriving DecidableEq

/-- The values of `pm_errno` that the transaction calls set themselves. `inner` is an
error from a function they call, and `unset` a failure that leaves `pm_errno` alone. -/
inductive TransErrno
  | unset | wrongArgs | memory | handleLock | transNotNull | transNull | transNotInitialized
  | transNotPrepared | transNotLocked | transHookFailed | transType | transDupTarget
  | transAbort | pkgInvalidArch
  | inner (code : Nat)
deriving DecidableEq

namespace TransFlag

def nodeps : BitVec 32 := 1
def nohooks : BitVec 32 := 1 <<< 7
def downloadonly : BitVec 32 := 1 <<< 9
def needed : BitVec 32 := 1 <<< 13
def nolock : BitVec 32 := 1 <<< 17

end TransFlag

/-- `alpm_trans_t` -/
structure Transaction where
  flags : BitVec 32
  state : TransState
  add : List Pkg
  remove : List Pkg

/-- A package that a loop has worked on, and for an upgrade what `commit_single_pkg`
returned. -/
inductive Work
  | removed (pkg : Pkg)
  | upgraded (pkg : Pkg) (ret : Int)

/-- What happens around the loops: the results of the functions a commit calls, whether
`_alpm_sync_load` came to download, and when interrupts arrive. -/
structure CommitWorld where
  syncLoad : Option TransErrno
  downloads : Bool
  syncCheck : Option TransErrno
  preTransactionHook : Int
  /-- The result for a package and its number among the packages to add. -/
  commitSinglePkg : Pkg → Nat → Int
  signal : Nat → Bool

structure Progress where
  trans : Transaction
  tests : Nat
  done : List Work

/-- `alpm_trans_interrupt` on a transaction -/
def transInterrupt (trans : Transaction) : Option TransErrno × Transaction :=
  if trans.state = .committing ∨ trans.state = .interrupted then
    (none, { trans with state := .interrupted })
  else (some .transType, trans)

/-- `_alpm_remove_single_package`, whose only return value is 0 -/
def removeSinglePackage (_pkg : Pkg) : Int := 0

variable (world : CommitWorld)

def Progress.await (progress : Progress) : Progress :=
  { progress with
    trans := if world.signal progress.tests then (transInterrupt progress.trans).2
      else progress.trans
    tests := progress.tests + 1 }

def Progress.worked (progress : Progress) (target : Work) : Progress :=
  { progress with done := progress.done ++ [target] }

/-- `trans->state = STATE_INTERRUPTED` after a failed package -/
def Progress.abort (progress : Progress) : Progress :=
  { progress with trans := { progress.trans with state := .interrupted } }

/-- The loop of `_alpm_remove_packages` -/
def removePackages : List Pkg → Int → Progress → Int × Progress
  | [], ret, progress => (ret, progress)
  | pkg :: targs, ret, progress =>
    let progress := progress.await world
    if progress.trans.state = .interrupted then (ret, progress)
    else
      removePackages targs (if removeSinglePackage pkg = -1 then -1 else ret)
        (progress.worked (.removed pkg))

/-- The loop of `_alpm_upgrade_packages` -/
def upgradePackages : List Pkg → Nat → Int → Progress → Int × Progress
  | [], _, ret, progress => (ret, progress)
  | newpkg :: targs, current, ret, progress =>
    let progress := progress.await world
    if progress.trans.state = .interrupted then (ret, progress)
    else
      let committed := world.commitSinglePkg newpkg current
      let progress := progress.worked (.upgraded newpkg committed)
      if committed ≠ 0 then upgradePackages targs (current + 1) (-1) progress.abort
      else upgradePackages targs (current + 1) ret progress

def syncCommit (progress : Progress) : Int × Progress :=
  let (removed, progress) :=
    if progress.trans.remove = [] then (0, progress)
    else removePackages world progress.trans.remove 0 progress
  if removed = -1 then (-1, progress)
  else
    let (upgraded, progress) :=
      if progress.trans.add = [] then (0, progress)
      else upgradePackages world progress.trans.add 1 0 progress
    if upgraded = -1 then (-1, progress) else (0, progress)

/-- How a commit that returns 0 ends: with the message that it was interrupted, or with the
one that it was completed, after which the hooks run. -/
inductive Closing
  | interrupted
  | completed (hooks : Bool)
deriving DecidableEq

structure Committed where
  /-- `pm_errno` of a return of -1 -/
  error : Option TransErrno
  progress : Progress
  closing : Option Closing

/-- `trans->state = STATE_COMMITTING` -/
def Progress.start (trans : Transaction) : Progress :=
  ⟨{ trans with state := .committing }, 0, []⟩

def carryOut (trans : Transaction) : Int × Progress :=
  if trans.add = [] then removePackages world trans.remove 0 (.start trans)
  else syncCommit world (.start trans)

/-- The part of `alpm_trans_commit` from `trans->state = STATE_COMMITTING` on. -/
def commitTargets (trans : Transaction) : Committed :=
  let (ret, progress) := carryOut world trans
  if ret = -1 then ⟨some .transAbort, progress, none⟩
  else
    let progress := progress.await world
    let closing :=
      if progress.trans.state = .interrupted then .interrupted
      else .completed !hasBit trans.flags TransFlag.nohooks
    ⟨none, { progress with trans := { progress.trans with state := .committed } }, some closing⟩

/-- The transaction after `_alpm_sync_load`, which sets `STATE_DOWNLOADING` when it comes to
the downloads. -/
def Transaction.loaded (trans : Transaction) : Transaction :=
  if trans.add ≠ [] ∧ world.downloads then { trans with state := .downloading } else trans

def Committed.early (error : Option TransErrno) (trans : Transaction) : Committed :=
  ⟨error, ⟨trans, 0, []⟩, none⟩

def transCommit (trans : Transaction) : Committed :=
  if trans.state ≠ .prepared then .early (some .transNotPrepared) trans
  else if hasBit trans.flags TransFlag.nolock then .early (some .transNotLocked) trans
  else if trans.add = [] ∧ trans.remove = [] then .early none trans
  else
    let loaded := trans.loaded world
    if trans.add ≠ [] ∧ world.syncLoad ≠ none then .early world.syncLoad loaded
    else if trans.add ≠ [] ∧ hasBit trans.flags TransFlag.downloadonly then .early none loaded
    else if trans.add ≠ [] ∧ world.syncCheck ≠ none then .early world.syncCheck loaded
    else if !hasBit trans.flags TransFlag.nohooks && world.preTransactionHook != 0 then
      .early (some .transHookFailed) loaded
    else commitTargets world loaded

/-! ### What the loops have done -/

variable {world}

@[simp] theorem Progress.await_tests (progress : Progress) :
    (progress.await world).tests = progress.tests + 1 := rfl

@[simp] theorem Progress.worked_tests (progress : Progress) (target : Work) :
    (progress.worked target).tests = progress.tests := rfl

theorem transInterrupt_lists (trans : Transaction) :
    (transInterrupt trans).2.add = trans.add ∧ (transInterrupt trans).2.remove = trans.remove ∧
      (transInterrupt trans).2.flags = trans.flags := by
  unfold transInterrupt
  split
  · exact ⟨rfl, rfl, rfl⟩
  · exact ⟨rfl, rfl, rfl⟩

def Progress.Same (before after : Progress) : Prop :=
  after.trans.add = before.trans.add ∧ after.trans.remove = before.trans.remove ∧
    after.trans.flags = before.trans.flags

theorem Progress.Same.trans {a b c : Progress} (first : a.Same b) (second : b.Same c) : a.Same c :=
  ⟨second.1.trans first.1, second.2.1.trans first.2.1, second.2.2.trans first.2.2⟩

theorem Progress.same_await (progress : Progress) : progress.Same (progress.await world) := by
  unfold Progress.Same Progress.await
  dsimp only
  split
  · exact transInterrupt_lists progress.trans
  · exact ⟨rfl, rfl, rfl⟩

variable {progress : Progress} {trans : Transaction}

theorem Progress.await_committing (world : CommitWorld)
    (running : progress.trans.state = .committing) : (progress.await world).trans.state =
      if world.signal progress.tests then .interrupted else .committing := by
  unfold Progress.await
  split
  · simp [transInterrupt, running]
  · exact running

theorem Progress.await_interrupted (world : CommitWorld)
    (stopped : progress.trans.state = .interrupted) :
    (progress.await world).trans.state = .interrupted := by
  unfold Progress.await
  dsimp only
  split
  · simp [transInterrupt, stopped]
  · exact stopped

/-- From `before` to `after` the loops have worked on the targets in front of the first test
that an interrupt came before, and on all of them if there is no such test. -/
structure Ran (world : CommitWorld) (targets : List Work) (before after : Progress) : Prop where
  split : ∃ finished left, targets = finished ++ left ∧ after.done = before.done ++ finished ∧
    (∀ n < finished.length, world.signal (before.tests + n) = false) ∧
    (left = [] ∧ after.trans.state = .committing ∧ after.tests = before.tests + finished.length ∨
      left ≠ [] ∧ after.trans.state = .interrupted ∧
        world.signal (before.tests + finished.length) = true)

namespace Ran

variable {targets more : List Work} {before mid after : Progress} {target : Work}

theorem nil (running : before.trans.state = .committing) : Ran world [] before before where
  split := ⟨[], [], rfl, (append_nil _).symm, by simp, .inl ⟨rfl, running, rfl⟩⟩

theorem stop (running : before.trans.state = .committing)
    (called : world.signal before.tests = true) :
    Ran world (target :: targets) before (before.await world) where
  split := by
    refine ⟨[], target :: targets, rfl, (append_nil _).symm, by simp, .inr ⟨by simp, ?_, called⟩⟩
    rw [Progress.await_committing world running, if_pos called]

theorem cons (quiet : world.signal before.tests = false)
    (rest : Ran world targets ((before.await world).worked target) after) :
    Ran world (target :: targets) before after where
  split := by
    obtain ⟨finished, left, rfl, done, before', last⟩ := rest.split
    refine ⟨target :: finished, left, rfl, ?_, ?_, ?_⟩
    · rw [done]
      exact append_assoc _ _ _
    · intro n small
      cases n with
      | zero => exact quiet
      | succ n =>
        have earlier := before' n (Nat.lt_of_succ_lt_succ small)
        rwa [Progress.worked_tests, Progress.await_tests, Nat.add_assoc, Nat.add_comm 1] at earlier
    · rw [Progress.worked_tests, Progress.await_tests] at last
      rw [length_cons, Nat.add_comm _ 1, ← Nat.add_assoc]
      exact last

theorem running_or_stopped (ran : Ran world targets before after) :
    after.trans.state = .committing ∨ after.trans.state = .interrupted := by
  obtain ⟨_, _, _, _, _, ⟨_, running, _⟩ | ⟨_, stopped, _⟩⟩ := ran.split
  · exact .inl running
  · exact .inr stopped

theorem append (first : Ran world targets before mid) (running : mid.trans.state = .committing)
    (second : Ran world more mid after) : Ran world (targets ++ more) before after where
  split := by
    obtain ⟨finished, left, rfl, done, quiet, ⟨rfl, _, tests⟩ | ⟨_, stopped, _⟩⟩ := first.split
    · obtain ⟨finished', left', rfl, done', quiet', last⟩ := second.split
      rw [tests] at quiet' last
      refine ⟨finished ++ finished', left', by simp, by simp [done', done], ?_, ?_⟩
      · intro n small
        by_cases early : n < finished.length
        · exact quiet n early
        · have late := quiet' (n - finished.length) (by simp at small; omega)
          rwa [Nat.add_assoc, Nat.add_sub_cancel' (by omega)] at late
      · rw [length_append, ← Nat.add_assoc]
        exact last
    · rw [running] at stopped
      cases stopped

theorem skip (first : Ran world targets before mid) (stopped : mid.trans.state = .interrupted)
    (done : after.done = mid.done) (still : after.trans.state = .interrupted) :
    Ran world (targets ++ more) before after where
  split := by
    obtain ⟨finished, left, rfl, done', quiet, ⟨_, running, _⟩ | ⟨some, _, called⟩⟩ := first.split
    · rw [running] at stopped
      cases stopped
    · exact ⟨finished, left ++ more, by simp, done.trans done', quiet,
        .inr ⟨by simp [some], still, called⟩⟩

end Ran

theorem removePackages_ran (world : CommitWorld) (targs : List Pkg)
    (running : progress.trans.state = .committing) : (removePackages world targs 0 progress).1 = 0 ∧
      Ran world (targs.map .removed) progress (removePackages world targs 0 progress).2 := by
  induction targs generalizing progress with
  | nil => exact ⟨rfl, .nil running⟩
  | cons pkg targs ih =>
    have state := Progress.await_committing world running
    unfold removePackages
    cases called : world.signal progress.tests with
    | true =>
      rw [called, if_pos rfl] at state
      rw [if_pos state]
      exact ⟨rfl, .stop running called⟩
    | false =>
      rw [called, if_neg (by decide)] at state
      rw [if_neg (by rw [state]; decide)]
      have running' : ((progress.await world).worked (.removed pkg)).trans.state = .committing :=
        state
      exact ⟨(ih running').1, .cons called (ih running').2⟩

theorem upgradePackages_of_interrupted (world : CommitWorld) (targs : List Pkg) (current : Nat)
    (ret : Int) (stopped : progress.trans.state = .interrupted) :
    ∃ after, upgradePackages world targs current ret progress = (ret, after) ∧
      after.done = progress.done ∧ after.trans.state = .interrupted := by
  cases targs with
  | nil => exact ⟨progress, rfl, rfl, stopped⟩
  | cons newpkg targs =>
    have state := Progress.await_interrupted world stopped
    exact ⟨progress.await world, if_pos state, rfl, state⟩

theorem upgradePackages_ran (targs : List Pkg) (current : Nat)
    (running : progress.trans.state = .committing)
    (ok : (upgradePackages world targs current 0 progress).1 ≠ -1) :
    Ran world (targs.map (.upgraded · 0)) progress
      (upgradePackages world targs current 0 progress).2 := by
  induction targs generalizing progress current with
  | nil => exact .nil running
  | cons newpkg targs ih =>
    have state := Progress.await_committing world running
    unfold upgradePackages at ok ⊢
    cases called : world.signal progress.tests with
    | true =>
      rw [called, if_pos rfl] at state
      rw [if_pos state]
      exact .stop running called
    | false =>
      rw [called, if_neg (by decide)] at state
      have unstopped : (progress.await world).trans.state ≠ .interrupted := by
        rw [state]
        decide
      simp only [if_neg unstopped] at ok ⊢
      by_cases committed : world.commitSinglePkg newpkg current = 0
      · simp only [committed, ne_eq, not_true_eq_false, if_false] at ok ⊢
        have running' :
            ((progress.await world).worked (.upgraded newpkg 0)).trans.state = .committing := state
        exact .cons called (ih _ running' ok)
      · -- A failed package marks the transaction, so the loop ends with -1.
        have stopped : ((progress.await world).worked (.upgraded newpkg
            (world.commitSinglePkg newpkg current))).abort.trans.state = .interrupted := rfl
        obtain ⟨after, result, _⟩ :=
          upgradePackages_of_interrupted world targs (current + 1) (-1) stopped
        rw [if_pos committed] at ok
        exact absurd (congrArg Prod.fst result) ok

/-! ### What the loops leave alone -/

theorem removePackages_same (world : CommitWorld) (targs : List Pkg) (ret : Int)
    (progress : Progress) : progress.Same (removePackages world targs ret progress).2 := by
  induction targs generalizing ret progress with
  | nil => exact ⟨rfl, rfl, rfl⟩
  | cons pkg targs ih =>
    unfold removePackages
    dsimp only
    split
    · exact progress.same_await
    · exact (progress.same_await).trans (ih _ ((progress.await world).worked (.removed pkg)))

theorem upgradePackages_same (world : CommitWorld) (targs : List Pkg) (current : Nat) (ret : Int)
    (progress : Progress) : progress.Same (upgradePackages world targs current ret progress).2 := by
  induction targs generalizing current ret progress with
  | nil => exact ⟨rfl, rfl, rfl⟩
  | cons newpkg targs ih =>
    unfold upgradePackages
    dsimp only
    split
    · exact progress.same_await
    · split
      · exact (progress.same_await).trans (ih _ _ ((progress.await world).worked _).abort)
      · exact (progress.same_await).trans (ih _ _ ((progress.await world).worked _))

theorem syncCommit_same (world : CommitWorld) (progress : Progress) :
    progress.Same (syncCommit world progress).2 := by
  have removal : progress.Same (if progress.trans.remove = [] then (0, progress)
      else removePackages world progress.trans.remove 0 progress).2 := by
    split
    · exact ⟨rfl, rfl, rfl⟩
    · exact removePackages_same world _ 0 progress
  unfold syncCommit
  generalize (if progress.trans.remove = [] then (0, progress)
    else removePackages world progress.trans.remove 0 progress) = removed at removal ⊢
  have upgrade : removed.2.Same (if removed.2.trans.add = [] then (0, removed.2)
      else upgradePackages world removed.2.trans.add 1 0 removed.2).2 := by
    split
    · exact ⟨rfl, rfl, rfl⟩
    · exact upgradePackages_same world _ 1 0 removed.2
  dsimp only
  generalize (if removed.2.trans.add = [] then (0, removed.2)
    else upgradePackages world removed.2.trans.add 1 0 removed.2) = upgraded at upgrade ⊢
  split
  · exact removal
  · split
    · exact removal.trans upgrade
    · exact removal.trans upgrade

theorem transCommit_flags (world : CommitWorld) (trans : Transaction) :
    (transCommit world trans).progress.trans.flags = trans.flags := by
  have loaded : (trans.loaded world).flags = trans.flags := by
    unfold Transaction.loaded
    split
    · rfl
    · rfl
  have work : (Progress.start (trans.loaded world)).Same (carryOut world (trans.loaded world)).2 := by
    unfold carryOut
    split
    · exact removePackages_same world _ 0 _
    · exact syncCommit_same world _
  have targets : (commitTargets world (trans.loaded world)).progress.trans.flags = trans.flags := by
    unfold commitTargets
    dsimp only
    split
    · exact work.2.2.trans loaded
    · exact ((carryOut world _).2.same_await.2.2.trans work.2.2).trans loaded
  unfold transCommit
  split_ifs
  all_goals first | rfl | exact loaded | exact targets

/-! ### What a commit has done -/

def Transaction.work (trans : Transaction) : List Work :=
  trans.remove.map .removed ++ trans.add.map (.upgraded · 0)

/-- The removal half of `_alpm_sync_commit` -/
theorem syncCommit_removed (world : CommitWorld) (running : progress.trans.state = .committing) :
    ∃ mid, (if progress.trans.remove = [] then (0, progress)
        else removePackages world progress.trans.remove 0 progress) = (0, mid) ∧
      mid.trans.add = progress.trans.add ∧
      Ran world (progress.trans.remove.map .removed) progress mid := by
  split
  · rename_i nothing
    rw [nothing]
    exact ⟨progress, rfl, rfl, .nil running⟩
  · obtain ⟨ret, ran⟩ := removePackages_ran world progress.trans.remove running
    exact ⟨_, Prod.ext ret rfl, (removePackages_same world _ 0 progress).1, ran⟩

theorem syncCommit_ran (running : progress.trans.state = .committing)
    (some : progress.trans.add ≠ []) (ok : (syncCommit world progress).1 ≠ -1) :
    Ran world progress.trans.work progress (syncCommit world progress).2 := by
  obtain ⟨mid, removal, targets, ran⟩ := syncCommit_removed world running
  unfold syncCommit at ok ⊢
  simp only [removal, targets, some, if_false] at ok ⊢
  rw [if_neg (by decide)] at ok ⊢
  rcases ran.running_or_stopped with still | stopped
  · by_cases failed : (upgradePackages world progress.trans.add 1 0 mid).1 = -1
    · rw [if_pos failed] at ok
      exact absurd rfl ok
    · rw [if_neg failed]
      exact ran.append still (upgradePackages_ran progress.trans.add 1 still failed)
  · obtain ⟨after, result, done, state⟩ :=
      upgradePackages_of_interrupted world progress.trans.add 1 0 stopped
    rw [result, if_neg (by simp)]
    exact ran.skip stopped done state

theorem carryOut_ran (ok : (carryOut world trans).1 ≠ -1) :
    Ran world trans.work (.start trans) (carryOut world trans).2 := by
  unfold carryOut at ok ⊢
  split
  · rename_i nothing
    rw [Transaction.work, nothing, map_nil, append_nil]
    exact (removePackages_ran world trans.remove rfl).2
  · rename_i some
    rw [if_neg some] at ok
    exact syncCommit_ran rfl some ok

theorem commitTargets_ran (ok : (commitTargets world trans).error = none) :
    ∃ after, Ran world trans.work (.start trans) after ∧
      (commitTargets world trans).progress.done = after.done := by
  unfold commitTargets at ok ⊢
  by_cases failed : (carryOut world trans).1 = -1
  · simp [failed] at ok
  · simp only [failed, if_false]
    exact ⟨_, carryOut_ran failed, rfl⟩

theorem Transaction.loaded_work (trans : Transaction) : (trans.loaded world).work = trans.work := by
  unfold Transaction.loaded
  split
  · rfl
  · rfl

theorem transCommit_ok (notOnlyDownload : hasBit trans.flags TransFlag.downloadonly = false)
    (success : (transCommit world trans).error = none) :
    (trans.work = [] ∧ (transCommit world trans).progress.done = []) ∨
      transCommit world trans = commitTargets world (trans.loaded world) := by
  generalize result : transCommit world trans = committed at success ⊢
  unfold transCommit at result
  split_ifs at result with unprepared nolock nothing loading downloadonly checking hook
  all_goals subst result
  · cases success
  · cases success
  · exact .inl ⟨by simp [Transaction.work, nothing], rfl⟩
  · exact absurd success loading.2
  · rw [notOnlyDownload] at downloadonly
    cases downloadonly.2
  · exact absurd success checking.2
  · cases success
  · exact .inr rfl

theorem transCommit_done (world : CommitWorld) (trans : Transaction)
    (notOnlyDownload : hasBit trans.flags TransFlag.downloadonly = false)
    (success : (transCommit world trans).error = none) :
    (transCommit world trans).progress.done <+: trans.work ∧
      (∀ n < (transCommit world trans).progress.done.length, world.signal n = false) ∧
      ((transCommit world trans).progress.done.length < trans.work.length →
        world.signal (transCommit world trans).progress.done.length = true) := by
  rcases transCommit_ok notOnlyDownload success with ⟨nothing, done⟩ | same
  · rw [nothing, done]
    simp
  · rw [same] at success ⊢
    obtain ⟨after, ran, done⟩ := commitTargets_ran success
    rw [Transaction.loaded_work] at ran
    obtain ⟨finished, left, split, finishedDone, quiet, last⟩ := ran.split
    have done : (commitTargets world (trans.loaded world)).progress.done = finished :=
      done.trans finishedDone
    have start : (Progress.start (trans.loaded world)).tests = 0 := rfl
    simp only [start, Nat.zero_add] at quiet last
    rw [done, split]
    refine ⟨prefix_append finished left, quiet, ?_⟩
    intro some
    rcases last with ⟨rfl, _, _⟩ | ⟨_, _, called⟩
    · simp at some
    · exact called

def CommitWorld.calm (signal : Nat → Bool) : CommitWorld where
  syncLoad := none
  downloads := true
  syncCheck := none
  preTransactionHook := 0
  commitSinglePkg _ _ := 0
  signal := signal

def Transaction.swap : Transaction where
  flags := 0
  state := .prepared
  add := [Pkg.bare 1 (cstr "new") (cstr "1")]
  remove := [Pkg.bare 0 (cstr "old") (cstr "1")]

/-- With an interrupt between the two packages only the first one is worked on. -/
theorem transCommit_done_first :
    (transCommit (.calm (· = 1)) .swap).progress.done <+: Transaction.swap.work ∧
      (∀ n < (transCommit (.calm (· = 1)) .swap).progress.done.length,
        (CommitWorld.calm (· = 1)).signal n = false) ∧
      ((transCommit (.calm (· = 1)) .swap).progress.done.length < Transaction.swap.work.length →
        (CommitWorld.calm (· = 1)).signal
          (transCommit (.calm (· = 1)) .swap).progress.done.length = true) :=
  transCommit_done (.calm (· = 1)) .swap (by decide) (by decide +kernel)

/-- The commit returns 0 and the package to add is not installed. -/
theorem transCommit_interrupted_success : (transCommit (.calm (· = 1)) .swap).error = none ∧
      (transCommit (.calm (· = 1)) .swap).progress.done.length = 1 ∧
      Transaction.swap.work.length = 2 := by
  decide +kernel

end Dulge
