import Dulge.Conflict
import Dulge.Resolvedeps

/-! `_alpm_sync_prepare`, stage by stage: the databases, the resolution of the
targets, the conflicts among them, the conflicts with the local database, the list
of removals, the dependency check, and the download sizes. Every stage works on the
state of the transaction and may end the call. Only the resolution needs fuel. -/
namespace Dulge
open Loop

/-- The `pm_errno` of a failed preparation. `pkgDup` is a failed duplication, which
has no code of its own, and `nullPointer` a call that reads through a null pointer
and never returns. -/
inductive SyncError where
  | dbInvalid | dbNotFound | unsatisfiedDeps | transDupFilename | conflictingDeps
  | pkgInvalidName | pkgDup | nullPointer
  deriving DecidableEq, Repr

/-- An entry of `*data`, where the same list takes both kinds. -/
inductive PrepareData where
  | missing (miss : Depmissing)
  | conflict (conflict : Conflict)
  deriving DecidableEq

/-- `alpm_trans_t`, with the fields of its packages that preparation writes. -/
structure Trans where
  add : List Pkg
  remove : List Pkg
  unresolvable : List Pkg
  removes : Pkg → List Pkg
  reason : Pkg → Pkgreason
  oldpkg : Pkg → Option Pkg
  downloadSize : Pkg → Int
  data : List PrepareData
  asked : Nat
  dups : Nat

section Model

variable (handle : Handle)

def checkSyncDbs (fromSync : Bool) : List Db → Option SyncError
  | [] => none
  | db :: dbs =>
    if db.invalid then some .dbInvalid
    else if fromSync && db.missing then some .dbNotFound
    else checkSyncDbs fromSync dbs

/-- The loop that resolves the targets one at a time. It returns the unresolvable
ones. -/
def resolveTargets (localpkgs preferred rem : List Pkg) (fuel : Nat) :
    List Pkg → List Pkg → Resolve → Option (List Pkg × Resolve)
  | [], unresolvable, st => some (unresolvable, st)
  | pkg :: targets, unresolvable, st =>
    match resolvedeps handle localpkgs preferred rem fuel pkg st with
    | none => none
    | some (true, st) => resolveTargets localpkgs preferred rem fuel targets unresolvable st
    | some (false, st) =>
      resolveTargets localpkgs preferred rem fuel targets (unresolvable ++ [pkg]) st

/-- `strcmp` on file names; `none` is a null pointer passed to it. -/
def filenameCmp (pkg1 pkg2 : Pkg) : Option Int := do
  let filename1 ← pkg1.filename
  let filename2 ← pkg2.filename
  some (strcmp filename1 filename2)

def dupFilename : List Pkg → Option Bool
  | [] => some false
  | pkg1 :: rest => do
      let cmps ← rest.mapM (filenameCmp pkg1)
      let later ← dupFilename rest
      some (cmps.contains 0 || later)

def setDependReason (add : List Pkg) (reason : Pkg → Pkgreason) (pkg : Pkg) : Pkg → Pkgreason :=
  if (pkgFind add pkg.name).isNone then Function.update reason pkg .depend else reason

/-- From the unresolvable targets on: the question whether to go on without them,
the check of the file names, and the new target list. -/
def acceptResolved (unresolvable : List Pkg) (st : Resolve) : Stage SyncError Trans := fun trans =>
  let trans := { trans with data := st.data.map .missing, asked := st.asked }
  let ask := unresolvable ≠ []
  if ask ∧ handle.answers trans.asked = 0 then
    (some .unsatisfiedDeps, { trans with asked := trans.asked + 1 })
  else
    let trans := if ask then { trans with data := [], asked := trans.asked + 1 } else trans
    match dupFilename st.packages with
    | none => (some .nullPointer, trans)
    | some true => (some .transDupFilename, trans)
    | some false =>
      (none, { trans with
        add := st.packages, unresolvable := unresolvable,
        reason := st.packages.foldl (setDependReason trans.add) trans.reason })

def fakeLocal (trans : Trans) : List Pkg :=
  listDiff pkgCmp (dbGetPkgcache handle.dbLocal) trans.add

def Trans.elected (trans : Trans) : List Pkg := trans.remove ++ trans.add.flatMap trans.removes

def syncResolve (fuel : Nat) (trans : Trans) : Option (Option SyncError × Trans) :=
  if handle.transFlags.nodeps then some (none, trans)
  else
    match resolveTargets handle (fakeLocal handle trans) trans.add trans.elected fuel trans.add []
        ⟨[], [], trans.asked⟩ with
    | none => none
    | some (unresolvable, st) => some (acceptResolved handle unresolvable st trans)

def reportConflict (conflict : Conflict) (trans : Trans) : Option SyncError × Trans :=
  let (copy, dups) := conflictDup handle conflict trans.dups
  (some .conflictingDeps,
    { trans with data := trans.data ++ (copy.map .conflict).toList, dups := dups })

def dropTarget (rsync : Pkg) (trans : Trans) : Trans :=
  { trans with
    add := (listRemove pkgCmp trans.add rsync).1
    unresolvable := trans.unresolvable ++ [rsync] }

def innerTurn (conflict : Conflict) : Stage SyncError Trans := fun trans =>
  let name1 := conflict.package1.name
  let name2 := conflict.package2.name
  match pkgFind trans.add name1, pkgFind trans.add name2 with
  | some sync1, some sync2 =>
    if depcmp sync1 (depFromString name2) then (none, dropTarget sync2 trans)
    else if depcmp sync2 (depFromString name1) then (none, dropTarget sync1 trans)
    else reportConflict handle conflict trans
  | _, _ => (none, trans)

def syncInner : Stage SyncError Trans := fun trans =>
  let found := innerconflicts handle trans.add trans.dups
  each (innerTurn handle) found.conflicts { trans with dups := found.dups }

def isElected (trans : Trans) (name : CStr) : Bool :=
  (pkgFind trans.remove name).isSome ||
    trans.add.any fun spkg => (pkgFind (trans.removes spkg) name).isSome

/-- `sync->removes` with one more local package. -/
def electRemoval (sync found : Pkg) (trans : Trans) : Trans :=
  { trans with removes := Function.update trans.removes sync (trans.removes sync ++ [found]) }

def outerTurn (conflict : Conflict) : Stage SyncError Trans := fun trans =>
  let name1 := conflict.package1.name
  let name2 := conflict.package2.name
  if isElected trans name2 then (none, trans)
  else
    let agreed := handle.answers trans.asked ≠ 0
    let trans := { trans with asked := trans.asked + 1 }
    if agreed then
      match pkgFind trans.add name1, dbGetPkgfromcache handle.dbLocal name2 with
      | some sync, some found => (none, electRemoval sync found trans)
      | _, _ => (some .nullPointer, trans)
    else reportConflict handle conflict trans

def syncOuter : Stage SyncError Trans := fun trans =>
  let found := outerconflicts handle handle.dbLocal trans.add trans.dups
  each (outerTurn handle) found.conflicts { trans with dups := found.dups }

/-- One package of a `removes` list. -/
def removeTurn (rpkg : Pkg) : Stage SyncError Trans := fun trans =>
  if (pkgFind trans.remove rpkg.name).isSome then (none, trans)
  else if pkgDup handle rpkg trans.dups = -1 then
    (some .pkgDup, { trans with dups := trans.dups + 1 })
  else (none, { trans with remove := trans.remove ++ [rpkg], dups := trans.dups + 1 })

/-- The loop that builds `trans->remove`. -/
def syncRemove : Stage SyncError Trans := fun trans =>
  each (removeTurn handle) (trans.add.flatMap trans.removes) trans

def syncCheckdeps : Stage SyncError Trans := fun trans =>
  if handle.transFlags.nodeps then (none, trans)
  else
    match checkdeps handle (dbGetPkgcache handle.dbLocal) trans.remove trans.add true with
    | [] => (none, trans)
    | miss :: deps =>
      (some .unsatisfiedDeps, { trans with data := (miss :: deps).map .missing })

/-- `compute_download_size`: the return value, and the size unless there is none. -/
def computeDownloadSize (newpkg : Pkg) : Int × Option Int :=
  if newpkg.origin ≠ .syncdb then (0, some 0)
  else
    match newpkg.filename with
    | none => (-1, none)
    | some fname =>
      match handle.filecacheFind fname with
      | some _ => (0, some 0)
      | none =>
        match handle.filecacheFind (fname ++ cstr ".part") with
        | none => (0, some newpkg.size)
        | some fpath =>
          match handle.statSize fpath with
          | none => (1, some 0)
          | some stSize => (1, some (max (newpkg.size - stSize) 0))

def sizeTurn (spkg : Pkg) : Stage SyncError Trans := fun trans =>
  match computeDownloadSize handle spkg with
  | (_, none) => (some .pkgInvalidName, trans)
  | (_, some size) =>
    let trans := { trans with downloadSize := Function.update trans.downloadSize spkg size }
    match dbGetPkgfromcache handle.dbLocal spkg.name with
    | none => (none, trans)
    | some lpkg =>
      let ret := pkgDup handle lpkg trans.dups
      let trans := { trans with
        dups := trans.dups + 1
        oldpkg := if ret = -1 then trans.oldpkg else Function.update trans.oldpkg spkg (some lpkg) }
      (if ret ≠ 0 then some .pkgDup else none, trans)

def syncSizes : Stage SyncError Trans := fun trans => each (sizeTurn handle) trans.add trans

def syncFinish : Stage SyncError Trans :=
  Stage.andThen (fun trans =>
      if handle.transFlags.noconflicts then (none, trans) else syncOuter handle trans)
    ((syncRemove handle).andThen ((syncCheckdeps handle).andThen (syncSizes handle)))

def syncTargets (fuel : Nat) (trans : Trans) : Option (Option SyncError × Trans) :=
  let fromSync := trans.add.any fun spkg => spkg.origin = .syncdb
  match checkSyncDbs fromSync handle.dbsSync with
  | some err => some (some err, { trans with data := [] })
  | none =>
    (syncResolve handle fuel { trans with data := [] }).map fun resolved =>
      proceed resolved fun trans =>
        if handle.transFlags.noconflicts then (none, trans) else syncInner handle trans

/-- `_alpm_sync_prepare`; the return value is 0 if there is no error. -/
def syncPrepare (fuel : Nat) (trans : Trans) : Option (Option SyncError × Trans) :=
  (syncTargets handle fuel trans).map fun settled => proceed settled (syncFinish handle)

end Model

end Dulge
