import Dulge.Commit
import Dulge.Database
import Dulge.Lib.Run

/-! The life of a transaction and of the database lock: the calls of the library that an
application makes one after the other on its handle. What a call meets outside the part
modelled here (the file system, memory, the functions that choose and order the targets)
comes with the call. -/

namespace Dulge

/-- The fields of `alpm_handle_t` that these calls change, and whether the lock file exists
in the file system. -/
structure TransHandle where
  lockfile : Option CStr
  dbLocal : Db
  trans : Option Transaction
  lockfd : Int
  lockExists : Bool

/-- A handle as `_alpm_handle_new` leaves it; the lock file may be another program's. -/
def TransHandle.fresh (lockfile : Option CStr) (dbLocal : Db) (lockExists : Bool) : TransHandle :=
  ⟨lockfile, dbLocal, none, -1, lockExists⟩

/-- What taking the lock meets: whether the directory of the lock file can be made, and the
descriptor that `open` would return for a file that does not exist yet. -/
structure LockWorld where
  directory : Bool
  opened : Option Nat

def handleLock (world : LockWorld) (handle : TransHandle) : Int × TransHandle :=
  match handle.lockfile with
  | none => (-1, handle)
  | some _ =>
    if ¬ handle.lockfd < 0 then (0, handle)
    else if !world.directory then (-1, handle)
    else
      -- O_EXCL: an existing file is never opened
      match if handle.lockExists then none else world.opened with
      | some fd => (0, { handle with lockfd := fd, lockExists := true })
      | none => (-1, { handle with lockfd := -1 })

/-- `_alpm_handle_unlock`; both callers drop its value. -/
def handleUnlock (unlinked : Bool) (handle : TransHandle) : TransHandle :=
  match handle.lockfile with
  | none => handle
  | some _ =>
    if handle.lockfd < 0 then handle
    else { handle with lockfd := -1, lockExists := handle.lockExists && !unlinked }

abbrev Reply := Option TransErrno × TransHandle

def transInit (flags : BitVec 32) (world : LockWorld) (allocated : Bool) (handle : TransHandle) :
    Reply :=
  match handle.trans with
  | some _ => (some .transNotNull, handle)
  | none =>
    let (locked, handle) :=
      if hasBit flags TransFlag.nolock then (0, handle) else handleLock world handle
    if locked ≠ 0 then (some .handleLock, handle)
    else if !allocated then (some .memory, handle)
    else (none, { handle with trans := some ⟨flags, .initialized, [], []⟩ })

/-- The checks that a call makes before it touches the targets of a transaction. -/
def withInitialized (handle : TransHandle) (use : Transaction → Option TransErrno × Transaction) :
    Reply :=
  match handle.trans with
  | none => (some .transNull, handle)
  | some current =>
    if current.state ≠ .initialized then (some .transNotInitialized, handle)
    else ((use current).1, { handle with trans := some (use current).2 })

/-- The installed package has the version of `pkg`. -/
def upToDate (dbLocal : Db) (pkg : Pkg) : Bool :=
  match dbGetPkgfromcache dbLocal pkg.name with
  | some installed => pkgVercmp (some pkg.version) (some installed.version) = 0
  | none => false

/-- `alpm_add_pkg`; `ours` says that the package belongs to the handle. -/
def addPkg (pkg : Option Pkg) (ours : Bool) (handle : TransHandle) : Reply :=
  match pkg with
  | none => (some .wrongArgs, handle)
  | some pkg =>
    if pkg.origin = .localdb then (some .wrongArgs, handle)
    else if !ours then (some .wrongArgs, handle)
    else
      withInitialized handle fun trans =>
        match pkgFind trans.add pkg.name with
        | some dup => if dup.addr = pkg.addr then (none, trans) else (some .transDupTarget, trans)
        | none =>
          if upToDate handle.dbLocal pkg && hasBit trans.flags TransFlag.needed then (none, trans)
          else (none, { trans with add := trans.add ++ [{ pkg with reason := .explicit }] })

/-- `alpm_remove_pkg`; `copy` is what `_alpm_pkg_dup` makes of the package. -/
def removePkg (pkg : Option Pkg) (ours : Bool) (copy : Option Pkg) (handle : TransHandle) : Reply :=
  match pkg with
  | none => (some .wrongArgs, handle)
  | some pkg =>
    if pkg.origin ≠ .localdb then (some .wrongArgs, handle)
    else if !ours then (some .wrongArgs, handle)
    else
      withInitialized handle fun trans =>
        match pkgFind trans.remove pkg.name with
        | some _ => (none, trans)
        | none =>
          match copy with
          | none => (some .memory, trans)
          | some copy => (none, { trans with remove := trans.remove ++ [copy] })

/-- `alpm_sync_sysupgrade`, which appends the upgrades it finds. -/
def syncSysupgrade (upgrades : List Pkg) (handle : TransHandle) : Reply :=
  withInitialized handle fun trans => (none, { trans with add := trans.add ++ upgrades })

/-- What `alpm_trans_prepare` meets: whether it is given room for the error data, whether a
target has a foreign architecture, and the error and the lists with which
`_alpm_remove_prepare` or `_alpm_sync_prepare` and the sorting end. -/
structure PrepareWorld where
  data : Bool
  invalidArch : Bool
  error : Option TransErrno
  add : List Pkg
  remove : List Pkg

def transPrepare (world : PrepareWorld) (handle : TransHandle) : Reply :=
  if !world.data then (some .wrongArgs, handle)
  else
    withInitialized handle fun trans =>
      if trans.add = [] ∧ trans.remove = [] then (none, trans)
      else if world.invalidArch then (some .pkgInvalidArch, trans)
      else
        let trans := { trans with add := world.add, remove := world.remove }
        match world.error with
        | some error => (some error, trans)
        | none => (none, { trans with state := .prepared })

/-- `alpm_trans_commit` on the handle -/
def commitCall (world : CommitWorld) (handle : TransHandle) : Reply :=
  match handle.trans with
  | none => (some .transNull, handle)
  | some current =>
    let committed := transCommit world current
    (committed.error, { handle with trans := some committed.progress.trans })

/-- `alpm_trans_interrupt` on the handle -/
def interruptCall (handle : TransHandle) : Reply :=
  match handle.trans with
  | none => (some .transNull, handle)
  | some current =>
    ((transInterrupt current).1, { handle with trans := some (transInterrupt current).2 })

def transRelease (unlinked : Bool) (handle : TransHandle) : Reply :=
  match handle.trans with
  | none => (some .transNull, handle)
  | some current =>
    if current.state = .idle then (some .transNull, handle)
    else
      let handle := { handle with trans := none }
      (none, if hasBit current.flags TransFlag.nolock then handle else handleUnlock unlinked handle)

/-- What `alpm_db_update` meets: whether it is given databases, whether its directories can
be set up, the lock, the error of the work under the lock, and whether the lock file can be
removed. -/
structure UpdateWorld where
  dbs : Bool
  syncpath : Bool
  temporarySyncpath : Bool
  lock : LockWorld
  error : Option TransErrno
  unlinked : Bool

def UpdateWorld.reachesLock (world : UpdateWorld) : Bool :=
  world.dbs && world.syncpath && world.temporarySyncpath

def dbUpdate (world : UpdateWorld) (handle : TransHandle) : Reply :=
  if !world.reachesLock then (some .unset, handle)
  else
    let (locked, handle) := handleLock world.lock handle
    (if locked ≠ 0 then some .handleLock else world.error, handleUnlock world.unlinked handle)

inductive Call
  | transInit (flags : BitVec 32) (world : LockWorld) (allocated : Bool)
  | addPkg (pkg : Option Pkg) (ours : Bool)
  | removePkg (pkg : Option Pkg) (ours : Bool) (copy : Option Pkg)
  | syncSysupgrade (upgrades : List Pkg)
  | dbUpdate (world : UpdateWorld)
  | transPrepare (world : PrepareWorld)
  | transCommit (world : CommitWorld)
  | transInterrupt
  | transRelease (unlinked : Bool)

def Call.perform (handle : TransHandle) : Call → Reply
  | .transInit flags world allocated => Dulge.transInit flags world allocated handle
  | .addPkg pkg ours => Dulge.addPkg pkg ours handle
  | .removePkg pkg ours copy => Dulge.removePkg pkg ours copy handle
  | .syncSysupgrade upgrades => Dulge.syncSysupgrade upgrades handle
  | .dbUpdate world => Dulge.dbUpdate world handle
  | .transPrepare world => Dulge.transPrepare world handle
  | .transCommit world => commitCall world handle
  | .transInterrupt => interruptCall handle
  | .transRelease unlinked => Dulge.transRelease unlinked handle

def Call.next (handle : TransHandle) (call : Call) : TransHandle := (call.perform handle).2

/-! ### The lock -/

def TransHandle.openFlags (handle : TransHandle) : Option (BitVec 32) :=
  handle.trans.map Transaction.flags

def TransHandle.NeedsLock (handle : TransHandle) : Prop :=
  ∃ flags, handle.openFlags = some flags ∧ hasBit flags TransFlag.nolock = false

def TransHandle.HoldsLock (handle : TransHandle) : Prop :=
  0 ≤ handle.lockfd ∧ handle.lockExists = true

def LockKept (handle : TransHandle) : Prop :=
  (∀ trans, handle.trans = some trans → hasBit trans.flags TransFlag.nolock = false →
    handle.HoldsLock) ∧
  (handle.trans = none → handle.lockfd < 0)

structure LockInvariant (handle : TransHandle) : Prop where
  held : handle.NeedsLock → handle.HoldsLock
  free : ¬ handle.NeedsLock → handle.lockfd < 0
  named : handle.lockfile = none → handle.lockfd < 0

/-- Whether a call leaves the lock with the transaction: `alpm_db_update` does not come to
its cleanup while the transaction needs the lock, and `alpm_trans_init` gets the memory for
the transaction once it has taken the lock. -/
def Call.LeavesLock (handle : TransHandle) : Call → Prop
  | .dbUpdate world => world.reachesLock = true → ¬ handle.NeedsLock
  | .transInit flags world allocated =>
    handle.trans = none → hasBit flags TransFlag.nolock = false →
      (handleLock world handle).1 = 0 → allocated = true
  | _ => True

namespace LockInvariant

variable {handle : TransHandle}

theorem fresh (lockfile : Option CStr) (dbLocal : Db) (lockExists : Bool) :
    LockInvariant (.fresh lockfile dbLocal lockExists) where
  held := by
    intro ⟨_, opened, _⟩
    cases opened
  free _ := (by decide : (-1 : Int) < 0)
  named _ := (by decide : (-1 : Int) < 0)

theorem lockKept (invariant : LockInvariant handle) : LockKept handle := by
  constructor
  · intro trans opened wanted
    exact invariant.held ⟨trans.flags, congrArg (Option.map Transaction.flags) opened, wanted⟩
  · intro closed
    apply invariant.free
    intro ⟨flags, opened, _⟩
    rw [TransHandle.openFlags, closed] at opened
    cases opened

end LockInvariant

structure SameLock (before after : TransHandle) : Prop where
  flags : after.openFlags = before.openFlags
  lockfd : after.lockfd = before.lockfd
  lockExists : after.lockExists = before.lockExists
  lockfile : after.lockfile = before.lockfile

namespace SameLock

variable {before after : TransHandle}

theorem refl (handle : TransHandle) : SameLock handle handle := ⟨rfl, rfl, rfl, rfl⟩

theorem invariant (same : SameLock before after) (invariant : LockInvariant before) :
    LockInvariant after where
  held needs := by
    rw [TransHandle.HoldsLock, same.lockfd, same.lockExists]
    rw [TransHandle.NeedsLock, same.flags] at needs
    exact invariant.held needs
  free needless := by
    rw [same.lockfd]
    rw [TransHandle.NeedsLock, same.flags] at needless
    exact invariant.free needless
  named unnamed := by
    rw [same.lockfd]
    exact invariant.named (same.lockfile ▸ unnamed)

theorem of_trans {handle : TransHandle} {current next : Transaction}
    (opened : handle.trans = some current) (flags : next.flags = current.flags) :
    SameLock handle { handle with trans := some next } where
  flags := by simp [TransHandle.openFlags, opened, flags]
  lockfd := rfl
  lockExists := rfl
  lockfile := rfl

end SameLock

theorem withInitialized_sameLock (handle : TransHandle)
    {use : Transaction → Option TransErrno × Transaction}
    (flags : ∀ trans, (use trans).2.flags = trans.flags) :
    SameLock handle (withInitialized handle use).2 := by
  unfold withInitialized
  split
  · exact .refl handle
  · rename_i opened
    split
    · exact .refl handle
    · exact .of_trans opened (flags _)

theorem addPkg_sameLock (pkg : Option Pkg) (ours : Bool) (handle : TransHandle) :
    SameLock handle (addPkg pkg ours handle).2 := by
  unfold addPkg
  split
  · exact .refl handle
  · split
    · exact .refl handle
    · split
      · exact .refl handle
      · apply withInitialized_sameLock
        intro trans
        split
        · split
          · rfl
          · rfl
        · split
          · rfl
          · rfl

theorem removePkg_sameLock (pkg : Option Pkg) (ours : Bool) (copy : Option Pkg)
    (handle : TransHandle) : SameLock handle (removePkg pkg ours copy handle).2 := by
  unfold removePkg
  split
  · exact .refl handle
  · split
    · exact .refl handle
    · split
      · exact .refl handle
      · apply withInitialized_sameLock
        intro trans
        split
        · rfl
        · split
          · rfl
          · rfl

theorem transPrepare_sameLock (world : PrepareWorld) (handle : TransHandle) :
    SameLock handle (transPrepare world handle).2 := by
  unfold transPrepare
  split
  · exact .refl handle
  · apply withInitialized_sameLock
    intro trans
    split
    · rfl
    · split
      · rfl
      · dsimp only
        split
        · rfl
        · rfl

theorem commitCall_sameLock (world : CommitWorld) (handle : TransHandle) :
    SameLock handle (commitCall world handle).2 := by
  unfold commitCall
  split
  · exact .refl handle
  · rename_i opened
    exact .of_trans opened (transCommit_flags world _)

theorem interruptCall_sameLock (handle : TransHandle) :
    SameLock handle (interruptCall handle).2 := by
  unfold interruptCall
  split
  · exact .refl handle
  · rename_i opened
    exact .of_trans opened (transInterrupt_lists _).2.2

theorem handleLock_trans (world : LockWorld) (handle : TransHandle) :
    (handleLock world handle).2.trans = handle.trans ∧
      (handleLock world handle).2.lockfile = handle.lockfile := by
  unfold handleLock
  split
  · exact ⟨rfl, rfl⟩
  · split
    · exact ⟨rfl, rfl⟩
    · split
      · exact ⟨rfl, rfl⟩
      · split
        · exact ⟨rfl, rfl⟩
        · exact ⟨rfl, rfl⟩

variable {handle : TransHandle}

theorem handleLock_of_free (world : LockWorld) (free : handle.lockfd < 0) :
    ((handleLock world handle).1 = 0 → handle.lockfile ≠ none ∧
      (handleLock world handle).2.HoldsLock) ∧
    ((handleLock world handle).1 ≠ 0 → (handleLock world handle).2.lockfd < 0) := by
  unfold handleLock
  split
  · exact ⟨fun taken => absurd taken (by simp), fun _ => free⟩
  · rename_i path
    rw [if_neg (not_not.mpr free)]
    split
    · exact ⟨fun taken => absurd taken (by simp), fun _ => free⟩
    · split
      · rename_i fd _
        refine ⟨fun _ => ⟨by simp [path], Int.natCast_nonneg fd, rfl⟩,
          fun failed => absurd rfl failed⟩
      · exact ⟨fun taken => absurd taken (by simp), fun _ => (by decide : (-1 : Int) < 0)⟩

theorem handleUnlock_spec (unlinked : Bool) (named : handle.lockfile = none → handle.lockfd < 0) :
    (handleUnlock unlinked handle).lockfd < 0 ∧
      (handleUnlock unlinked handle).trans = handle.trans := by
  unfold handleUnlock
  split
  · rename_i unnamed
    exact ⟨named unnamed, rfl⟩
  · split
    · rename_i free
      exact ⟨free, rfl⟩
    · exact ⟨(by decide : (-1 : Int) < 0), rfl⟩

theorem LockInvariant.of_free (needless : ¬ handle.NeedsLock) (free : handle.lockfd < 0) :
    LockInvariant handle where
  held needs := absurd needs needless
  free _ := free
  named _ := free

theorem not_needsLock_of_closed (closed : handle.trans = none) : ¬ handle.NeedsLock := by
  intro ⟨flags, opened, _⟩
  rw [TransHandle.openFlags, closed] at opened
  cases opened

/-- `alpm_trans_init` where it takes the lock -/
theorem transInit_of_lock {flags : BitVec 32} (closed : handle.trans = none)
    (wanted : hasBit flags TransFlag.nolock = false) (world : LockWorld) (allocated : Bool) :
    transInit flags world allocated handle =
      if (handleLock world handle).1 ≠ 0 then (some .handleLock, (handleLock world handle).2)
      else if !allocated then (some .memory, (handleLock world handle).2)
      else (none, { (handleLock world handle).2 with
        trans := some ⟨flags, .initialized, [], []⟩ }) := by
  simp [transInit, closed, wanted]

theorem transInit_invariant {flags : BitVec 32} {world : LockWorld} {allocated : Bool}
    (invariant : LockInvariant handle)
    (leaves : (Call.transInit flags world allocated).LeavesLock handle) :
    LockInvariant (transInit flags world allocated handle).2 := by
  cases closed : handle.trans with
  | some current =>
    rw [transInit, closed]
    exact invariant
  | none =>
    have free := invariant.free (not_needsLock_of_closed closed)
    cases nolock : hasBit flags TransFlag.nolock with
    | true =>
      cases allocated with
      | false =>
        simp only [transInit, closed, nolock, if_true]
        exact invariant
      | true =>
        simp only [transInit, closed, nolock, if_true]
        apply LockInvariant.of_free
        · intro ⟨other, opened, wanted⟩
          cases opened
          rw [nolock] at wanted
          cases wanted
        · exact free
    | false =>
      obtain ⟨taken, failed⟩ := handleLock_of_free world free
      rw [transInit_of_lock closed nolock]
      by_cases locked : (handleLock world handle).1 = 0
      · obtain ⟨named, holds⟩ := taken locked
        rw [if_neg (not_not.mpr locked), leaves closed nolock locked]
        exact ⟨fun _ => holds, fun needless => absurd ⟨flags, rfl, nolock⟩ needless,
          fun unnamed => absurd ((handleLock_trans world handle).2.symm.trans unnamed) named⟩
      · rw [if_pos locked]
        exact .of_free
          (not_needsLock_of_closed ((handleLock_trans world handle).1.trans closed))
          (failed locked)

theorem dbUpdate_of_reaches {world : UpdateWorld} (reaches : world.reachesLock = true)
    (handle : TransHandle) :
    (dbUpdate world handle).2 = handleUnlock world.unlinked (handleLock world.lock handle).2 := by
  simp [dbUpdate, reaches]

theorem handleLock_named (world : LockWorld) (named : handle.lockfile = none → handle.lockfd < 0) :
    (handleLock world handle).2.lockfile = none → (handleLock world handle).2.lockfd < 0 := by
  intro unnamed
  rw [(handleLock_trans world handle).2] at unnamed
  rw [handleLock, unnamed]
  exact named unnamed

theorem dbUpdate_invariant {world : UpdateWorld} (invariant : LockInvariant handle)
    (leaves : (Call.dbUpdate world).LeavesLock handle) :
    LockInvariant (dbUpdate world handle).2 := by
  cases reaches : world.reachesLock with
  | false =>
    simp only [dbUpdate, reaches]
    exact invariant
  | true =>
    rw [dbUpdate_of_reaches reaches]
    obtain ⟨free, same⟩ := handleUnlock_spec world.unlinked
      (handleLock_named world.lock invariant.named)
    apply LockInvariant.of_free _ free
    rw [TransHandle.NeedsLock, TransHandle.openFlags, same, (handleLock_trans world.lock handle).1]
    exact leaves reaches

theorem transRelease_invariant {unlinked : Bool} (invariant : LockInvariant handle) :
    LockInvariant (transRelease unlinked handle).2 := by
  unfold transRelease
  split
  · exact invariant
  · rename_i current opened
    split
    · exact invariant
    · have closed : ¬ TransHandle.NeedsLock { handle with trans := none } :=
        not_needsLock_of_closed rfl
      cases nolock : hasBit current.flags TransFlag.nolock with
      | true =>
        apply LockInvariant.of_free closed
        apply invariant.free
        intro ⟨flags, same, wanted⟩
        rw [TransHandle.openFlags, opened] at same
        cases same
        rw [nolock] at wanted
        cases wanted
      | false =>
        have named : TransHandle.lockfile { handle with trans := none } = none →
            handle.lockfd < 0 := invariant.named
        obtain ⟨free, same⟩ := handleUnlock_spec unlinked named
        exact .of_free (not_needsLock_of_closed same) free

theorem Call.next_invariant {call : Call} (invariant : LockInvariant handle)
    (leaves : call.LeavesLock handle) : LockInvariant (call.next handle) := by
  cases call with
  | transInit flags world allocated => exact transInit_invariant invariant leaves
  | addPkg pkg ours => exact (addPkg_sameLock pkg ours handle).invariant invariant
  | removePkg pkg ours copy => exact (removePkg_sameLock pkg ours copy handle).invariant invariant
  | syncSysupgrade upgrades =>
    exact (withInitialized_sameLock handle fun _ => rfl).invariant invariant
  | dbUpdate world => exact dbUpdate_invariant invariant leaves
  | transPrepare world => exact (transPrepare_sameLock world handle).invariant invariant
  | transCommit world => exact (commitCall_sameLock world handle).invariant invariant
  | transInterrupt => exact (interruptCall_sameLock handle).invariant invariant
  | transRelease unlinked => exact transRelease_invariant invariant

theorem Call.leavesLock_of_lockKept {call : Call} (invariant : LockInvariant handle)
    (kept : LockKept (call.next handle)) : call.LeavesLock handle := by
  cases call with
  | transInit flags world allocated =>
    intro closed wanted locked
    have free := invariant.free (not_needsLock_of_closed closed)
    by_contra memory
    have memory : allocated = false := by simpa using memory
    have failed : (Call.transInit flags world allocated).next handle =
        (handleLock world handle).2 := by
      simp [Call.next, Call.perform, transInit_of_lock closed wanted, locked, memory]
    rw [failed] at kept
    have lost := kept.2 ((handleLock_trans world handle).1.trans closed)
    have held := ((handleLock_of_free world free).1 locked).2.1
    omega
  | dbUpdate world =>
    intro reaches ⟨flags, opened, wanted⟩
    obtain ⟨current, current_eq, rfl⟩ := Option.map_eq_some_iff.mp opened
    have after : (Call.dbUpdate world).next handle =
        handleUnlock world.unlinked (handleLock world.lock handle).2 :=
      dbUpdate_of_reaches reaches handle
    obtain ⟨free, same⟩ := handleUnlock_spec world.unlinked
      (handleLock_named world.lock invariant.named)
    rw [after] at kept
    have held := (kept.1 current
      ((same.trans (handleLock_trans world.lock handle).1).trans current_eq) wanted).1
    omega
  | addPkg | removePkg | syncSysupgrade | transPrepare | transCommit | transInterrupt
  | transRelease => trivial

open Machine in
theorem lockKept_iff (lockfile : Option CStr) (dbLocal : Db) (lockExists : Bool)
    (calls : List Call) : EveryState Call.next LockKept (.fresh lockfile dbLocal lockExists) calls ↔
      EveryStep Call.next (fun handle call => call.LeavesLock handle)
        (.fresh lockfile dbLocal lockExists) calls := by
  apply everyState_iff_everyStep LockInvariant
  · intro handle call invariant leaves
    exact Call.next_invariant invariant leaves
  · intro handle invariant
    exact invariant.lockKept
  · intro handle call invariant kept
    exact Call.leavesLock_of_lockKept invariant kept
  · exact .fresh lockfile dbLocal lockExists

/-- An update of the databases inside a transaction gives up the transaction's lock. -/
theorem dbUpdate_drops_lock :
    ¬ LockKept (Machine.run Call.next (.fresh (some (cstr "db.lck")) (.populate []) false)
      [.transInit 0 ⟨true, some 3⟩ true,
        .dbUpdate ⟨true, true, true, ⟨true, some 4⟩, none, true⟩]) := by
  intro kept
  have held := (kept.1 ⟨0, .initialized, [], []⟩ (by rfl) (by decide)).1
  revert held
  decide +kernel

end Dulge
