import Dulge.Database
import Dulge.Filelist

/-! The file system as the library sees it: the calls that it makes, on a state of any type.
Nothing is assumed of the calls here; what a result needs of them it says itself. -/

namespace Dulge

/-- The `errno` values of a failed `lstat` that make a difference. -/
inductive StatError where
  | noent | other
  deriving DecidableEq, Repr

/-- The fields of `struct stat` that are read. -/
structure Stat where
  kind : FileKind
  dev : Nat
  deriving DecidableEq, Repr

/-- The `errno` values of a failed `faccessat` that make a difference. -/
inductive FaccessError where
  | acces | txtbsy | other
  deriving DecidableEq, Repr

/-- An entry of a package archive; `data` is what the archive holds for it. -/
structure ArchiveEntry (γ : Type) where
  pathname : CStr
  directory : Bool
  data : γ

/-- The calls to the file system, those of `libarchive` included. A call that changes the disk
reports whether it has succeeded. -/
structure Disk (σ γ : Type) where
  lstat : σ → CStr → Except StatError Stat
  stat : σ → CStr → Option Stat
  readdir : σ → CStr → Option (List CStr)
  accessWrite : σ → CStr → Except FaccessError Unit
  accessExists : σ → CStr → Bool
  computeMd5sum : σ → CStr → Option CStr
  unlink : CStr → σ → Bool × σ
  rmdir : CStr → σ → Bool × σ
  rename : CStr → CStr → σ → Bool × σ
  performExtraction : ArchiveEntry γ → CStr → σ → Bool × σ

/-- The handle, its databases and the C library, as far as installing and removing files reads
them. `regex` compiles the pattern that `shift_pacsave` builds from a base name. -/
structure FileHost where
  root : CStr
  dbPath : CStr
  dbLocal : Db
  files : Pkg → Filelist
  backup : Pkg → List Backup
  noupgrade : List CStr
  noextract : List CStr
  skipRemove : List CStr
  nosave : Bool
  fnmatch : CStr → CStr → Bool
  regex : CStr → Option (CStr → Bool)
  strtoul : CStr → Nat

def pathMax : Nat := 4096

/-- `snprintf` into a buffer of `PATH_MAX` bytes. -/
def truncate (path : CStr) : CStr := path.take (pathMax - 1)

def pacsave : CStr := cstr ".pacsave"

def pacnew : CStr := cstr ".pacnew"

section

variable {σ γ : Type} (disk : Disk σ γ)

def Disk.llstat (s : σ) (path : CStr) : Except StatError Stat := disk.lstat s (stripSlashes path)

def dirIsMountpoint (s : σ) (directory : CStr) (stbuf : Option Stat) : Bool :=
  match stbuf <|> disk.stat s directory with
  | none => false
  | some dir =>
    match disk.stat s (truncate (directory ++ cstr "..")) with
    | none => false
    | some parent => dir.dev ≠ parent.dev

/-- `_alpm_files_in_directory` without a full count. -/
def filesInDirectory (s : σ) (path : CStr) : Int :=
  match disk.readdir s path with
  | none => -1
  | some names => if names.all fun name => name = cstr "." ∨ name = cstr ".." then 0 else 1

end

def mbasename (path : CStr) : CStr := (path.reverse.takeWhile (· ≠ slash)).reverse

def mdirname (path : CStr) : CStr :=
  if slash ∈ path then
    match (path.reverse.dropWhile (· ≠ slash)).reverse.dropLast with
    | [] => [slash]
    | dirname => dirname
  else cstr "."

end Dulge
