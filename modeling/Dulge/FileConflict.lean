import Dulge.Database
import Dulge.Filelist
import Dulge.Lib.Loop

/-! The search for file conflicts before packages are extracted. Every target is compared
with every later target, and the files that are new in a target are compared with what is
on disk. An entry may be resolved for several reasons, and some of them resolve the entries
below it without a look at them. -/

namespace Dulge

open Loop List

/-- What the search reads: the root and the options of the handle, the local database, the
lists of packages, and the disk. `depth` says that the tree of directories is finite. -/
structure ConflictHost where
  root : CStr
  dbLocal : Db
  files : Pkg → Filelist
  backup : Pkg → List Backup
  overwriteFiles : List CStr
  fnmatch : CStr → CStr → Bool
  memory : Nat → Bool
  lstat : CStr → Option FileKind
  readdir : CStr → Option (List CStr)
  depth : CStr → Nat
  descends : ∀ dir names name, readdir (root ++ dir) = some names → name ∈ names →
    name ≠ cstr "." → name ≠ cstr ".." → lstat (root ++ dir ++ name) = some .directory →
      depth (dir ++ name ++ [slash]) < depth dir
  -- The option setter of the handle accepts a directory only, and ends its path in a slash.
  rootSlash : endsInSlash root = true
  rootDirectory : lstat (stripSlashes root) = some .directory

def ConflictHost.llstat (host : ConflictHost) (path : CStr) : Option FileKind :=
  host.lstat (stripSlashes path)

/-- `alpm_filelist_contains(alpm_pkg_get_files(pkg), path)`, for a package that may be `NULL`. -/
def ConflictHost.owns (host : ConflictHost) (pkg : Option Pkg) (path : CStr) : Bool :=
  filelistContains (pkg.map host.files) path

def ConflictHost.Lists (host : ConflictHost) (pkg : Pkg) (path : CStr) : Prop :=
  path ∈ (host.files pkg).names

def ConflictHost.installed (host : ConflictHost) (pkg : Pkg) : Option Pkg :=
  dbGetPkgfromcache host.dbLocal pkg.name

inductive FileconflictType where
  | target | filesystem
  deriving DecidableEq, Repr

/-- `alpm_fileconflict_t` -/
structure Fileconflict where
  target : CStr
  type : FileconflictType
  file : CStr
  ctarget : CStr
  deriving DecidableEq

/-- What the search has found so far, and what it has added to `trans->skip_remove`. -/
structure Findings where
  conflicts : List Fileconflict
  skipRemove : List CStr
  deriving DecidableEq

/-- The record that `add_fileconflict` fills. -/
def fileconflictNew (filestr : CStr) (pkg1 : Pkg) : Option Pkg → Fileconflict
  | none => ⟨pkg1.name, .filesystem, filestr, []⟩
  | some pkg2 =>
    if pkg2.origin = .localdb then ⟨pkg1.name, .filesystem, filestr, pkg2.name⟩
    else ⟨pkg1.name, .target, filestr, pkg2.name⟩

/-- `add_fileconflict`, with the test of `pm_errno` that follows each call. -/
def addFileconflict (host : ConflictHost) (filestr : CStr) (pkg1 : Pkg) (pkg2 : Option Pkg) :
    Stage Unit Findings := fun found =>
  if host.memory found.conflicts.length then
    (none, { found with conflicts := found.conflicts ++ [fileconflictNew filestr pkg1 pkg2] })
  else (some (), found)

set_option linter.unusedVariables false in
def dirBelongstoPkgs (host : ConflictHost) (dirpath : CStr) (pkgs : List Pkg) : Bool :=
  match listing : host.readdir (host.root ++ dirpath) with
  | none => false
  | some names =>
    names.attach.all fun ⟨name, member⟩ =>
      if dots : name = cstr "." ∨ name = cstr ".." then true
      else
        match kind : host.lstat (host.root ++ dirpath ++ name) with
        | none => false
        | some .directory =>
          pkgs.any (fun pkg => host.owns (some pkg) (dirpath ++ name ++ [slash])) &&
            dirBelongstoPkgs host (dirpath ++ name ++ [slash]) pkgs
        | some _ => pkgs.any fun pkg => host.owns (some pkg) (dirpath ++ name)
termination_by host.depth dirpath
decreasing_by
  simp only [not_or] at dots
  exact host.descends dirpath names name listing member dots.1 dots.2 kind

def dbFindFileOwners (host : ConflictHost) (path : CStr) : List Pkg :=
  (dbGetPkgcache host.dbLocal).filter fun pkg => host.owns (some pkg) path

def findFileOwner (host : ConflictHost) (path : CStr) : Option Pkg :=
  (dbGetPkgcache host.dbLocal).find? fun pkg => host.owns (some pkg) path

def canOverwriteFile (host : ConflictHost) (path rootedpath : CStr) : Bool :=
  fnmatchPatterns host.fnmatch host.overwriteFiles path = 0 ||
    fnmatchPatterns host.fnmatch host.overwriteFiles rootedpath = 0

def checkCommon (host : ConflictHost) (p1 p2 : Pkg) (filename : CStr) : Stage Unit Findings :=
  fun found =>
    if canOverwriteFile host filename (host.root ++ filename) ∧ host.owns (some p2) filename then
      (none, found)
    else addFileconflict host (host.root ++ filename) p1 (some p2) found

def checkTargets (host : ConflictHost) (p1 : Pkg) (later : List Pkg) : Stage Unit Findings :=
  each (fun p2 => each (checkCommon host p1 p2)
    (filelistIntersection (host.files p1).names (host.files p2).names)) later

def directoryGivenUp (host : ConflictHost) (rem : List Pkg) (dbpkg : Option Pkg)
    (relativePath : CStr) : Bool :=
  let dir := relativePath ++ [slash]
  let owners := dbFindFileOwners host dir
  if owners = [] then false
  else if listDiff pkgCmp owners (dbpkg.toList ++ rem) ≠ [] then false
  else dirBelongstoPkgs host dir owners

/-- How an existing file is judged: whether its conflict is resolved, whether the entries
below it are passed over, and what goes to the remove skiplist. -/
structure Verdict where
  resolved : Bool
  passOver : Bool
  moved : List CStr
  deriving DecidableEq

def changedHands (host : ConflictHost) (upgrade : List Pkg) (p1 : Pkg) (path : CStr) : Bool :=
  upgrade.any fun p2 => p1.addr ≠ p2.addr && host.owns (host.installed p2) path

/-- The entry as it is looked up in file lists: one trailing slash is cut off, so that a file
can be replaced by a directory. -/
def relativePath (root filestr : CStr) : CStr :=
  if endsInSlash (root ++ filestr) then filestr.dropLast else filestr

/-- The chain of reasons for an existing file, from the comparison with the installed version
to the patterns of `overwrite_files`. -/
def judge (host : ConflictHost) (upgrade rem : List Pkg) (p1 : Pkg) (filestr : CStr)
    (kind : FileKind) : Verdict :=
  let dbpkg := host.installed p1
  let isDir := endsInSlash (host.root ++ filestr)
  let path := relativePath host.root filestr
  if isDir && host.owns dbpkg path then ⟨true, true, []⟩
  else if rem.any fun rempkg => host.owns (some rempkg) path then ⟨true, isDir, []⟩
  else if changedHands host upgrade p1 path then ⟨true, endsInSlash filestr, [path]⟩
  else if kind = .directory && directoryGivenUp host rem dbpkg path then ⟨true, false, []⟩
  else if (needbackup path (host.backup p1)).isSome &&
      !(dbGetPkgcache host.dbLocal).any fun pkg => host.owns (some pkg) path then
    ⟨true, false, []⟩
  else if kind ≠ .directory && canOverwriteFile host filestr (host.root ++ path) then
    ⟨true, false, []⟩
  else ⟨false, false, []⟩

def checkNewfiles (host : ConflictHost) (upgrade rem : List Pkg) (p1 : Pkg) :
    List CStr → Stage Unit Findings
  | [], found => (none, found)
  | filestr :: rest, found =>
    match host.llstat (host.root ++ filestr) with
    | none => checkNewfiles host upgrade rem p1 rest found
    | some kind =>
      if endsInSlash (host.root ++ filestr) && kind = .directory then
        checkNewfiles host upgrade rem p1 rest found
      else
        let verdict := judge host upgrade rem p1 filestr kind
        let found := { found with skipRemove := found.skipRemove ++ verdict.moved }
        if verdict.resolved then
          checkNewfiles host upgrade rem p1
            (if verdict.passOver then rest.dropWhile filestr.isPrefixOf else rest) found
        else
          proceed (addFileconflict host (host.root ++ relativePath host.root filestr) p1
            (findFileOwner host (relativePath host.root filestr)) found) fun found =>
              checkNewfiles host upgrade rem p1 rest found
termination_by files => files.length
decreasing_by
  all_goals simp only [length_cons]
  all_goals try omega
  split
  · exact Nat.lt_succ_of_le (dropWhile_suffix _).length_le
  · exact Nat.lt_succ_self _

def newfiles (host : ConflictHost) (p1 : Pkg) : List CStr :=
  match host.installed p1 with
  | some dbpkg => filelistDifference (host.files p1).names (host.files dbpkg).names
  | none => (host.files p1).names

def checkUpgrade (host : ConflictHost) (upgrade rem : List Pkg) : List Pkg → Stage Unit Findings
  | [] => fun found => (none, found)
  | p1 :: later =>
    ((checkTargets host p1 later).andThen
      (checkNewfiles host upgrade rem p1 (newfiles host p1))).andThen
        (checkUpgrade host upgrade rem later)

/-- `_alpm_db_find_fileconflicts`: the conflicts, and what is added to the remove skiplist. -/
def dbFindFileconflicts (host : ConflictHost) (upgrade rem : List Pkg) : Findings :=
  match checkUpgrade host upgrade rem upgrade ⟨[], []⟩ with
  | (none, found) => found
  | (some (), found) => { found with conflicts := [] }

theorem ConflictHost.owns_some {host : ConflictHost} {pkg : Pkg} {path : CStr} :
    host.owns (some pkg) path = true ↔ host.Lists pkg path := filelistContains_some

theorem ConflictHost.owns_iff {host : ConflictHost} {pkg : Option Pkg} {path : CStr} :
    host.owns pkg path = true ↔ ∃ q, pkg = some q ∧ host.Lists q path := by
  cases pkg with
  | none => simp [ConflictHost.owns, filelistContains]
  | some q => simp [owns_some]

section

variable {host : ConflictHost}

/-- The file goes with a package that is replaced or removed: the installed version of the
target or of another one, or a package of the remove list. -/
def GivenUp (host : ConflictHost) (upgrade rem : List Pkg) (p : Pkg) (path : CStr) : Prop :=
  (∃ q, host.installed p = some q ∧ host.Lists q path) ∨
    (∃ q ∈ rem, host.Lists q path) ∨
    ∃ p2 ∈ upgrade, p.addr ≠ p2.addr ∧ ∃ q, host.installed p2 = some q ∧ host.Lists q path

variable {upgrade : List Pkg} {p : Pkg} {filestr : CStr} {kind : FileKind}

theorem changedHands_iff {path : CStr} : changedHands host upgrade p path = true ↔
      ∃ p2 ∈ upgrade, p.addr ≠ p2.addr ∧ ∃ q, host.installed p2 = some q ∧ host.Lists q path := by
  simp [changedHands, ConflictHost.owns_iff]

theorem ConflictHost.root_nonempty (host : ConflictHost) : host.root ≠ [] := by
  intro empty
  have ends := host.rootSlash
  rw [empty] at ends
  cases ends

theorem entry_named (there : host.llstat (host.root ++ filestr) = some kind)
    (judged : (endsInSlash (host.root ++ filestr) && kind = .directory) = false) :
    Named filestr := by
  by_contra unnamed
  have slashes := slashes_of_not_named unnamed
  rw [ConflictHost.llstat, stripSlashes_append host.root_nonempty slashes,
    host.rootDirectory] at there
  cases there
  simp [endsInSlash_of_slashes host.rootSlash slashes] at judged

theorem judge_passOver {rem : List Pkg} (nonempty : filestr ≠ [])
    (passed : (judge host upgrade rem p filestr kind).passOver = true) :
    endsInSlash filestr = true ∧ GivenUp host upgrade rem p filestr.dropLast := by
  have cut : endsInSlash filestr = true → relativePath host.root filestr = filestr.dropLast := by
    intro ends
    rw [relativePath, endsInSlash_append nonempty, if_pos ends]
  unfold judge at passed
  simp only [endsInSlash_append nonempty] at passed
  split_ifs at passed with replaced removed moved
  · simp only [Bool.and_eq_true] at replaced
    rw [cut replaced.1] at replaced
    exact ⟨replaced.1, .inl (ConflictHost.owns_iff.mp replaced.2)⟩
  · rw [cut passed] at removed
    simp only [any_eq_true, ConflictHost.owns_some] at removed
    exact ⟨passed, .inr (.inl removed)⟩
  · rw [cut passed] at moved
    exact ⟨passed, .inr (.inr (changedHands_iff.mp moved))⟩

/-- The file is in the backup list of the target and no installed package lists it. -/
def Adopted (host : ConflictHost) (p : Pkg) (path : CStr) : Prop :=
  (∃ backup ∈ host.backup p, backup.name = path) ∧
    ∀ q ∈ dbGetPkgcache host.dbLocal, ¬ host.Lists q path

theorem judge_resolved {rem : List Pkg} (overwrite : host.overwriteFiles = [])
    (nonempty : filestr ≠ []) (plain : endsInSlash filestr = false) (file : kind ≠ .directory)
    (resolved : (judge host upgrade rem p filestr kind).resolved = true) :
    GivenUp host upgrade rem p filestr ∨ Adopted host p filestr := by
  have whole : relativePath host.root filestr = filestr := by
    rw [relativePath, endsInSlash_append nonempty, plain]
    rfl
  have refused : canOverwriteFile host filestr (host.root ++ filestr) = false := by
    simp [canOverwriteFile, overwrite, fnmatchPatterns, fnmatchReversed]
  unfold judge at resolved
  simp only [endsInSlash_append nonempty, plain, whole, refused, file, Bool.false_and, decide_false,
    Bool.and_false, if_false, Bool.false_eq_true] at resolved
  split_ifs at resolved with removed moved adopted
  · simp only [any_eq_true, ConflictHost.owns_some] at removed
    exact .inl (.inr (.inl removed))
  · exact .inl (.inr (.inr (changedHands_iff.mp moved)))
  · simp only [Bool.and_eq_true, Option.isSome_iff_exists, Bool.not_eq_true', any_eq_false,
      ConflictHost.owns_some] at adopted
    obtain ⟨⟨backup, found⟩, unowned⟩ := adopted
    exact .inr ⟨⟨backup, needbackup_some found⟩, unowned⟩

end

end Dulge
