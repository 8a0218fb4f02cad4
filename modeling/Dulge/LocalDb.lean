import Dulge.Depstring
import Dulge.FileRemoval
import Dulge.Lib.LineReader
import Dulge.PackageValidation
import Dulge.VersionOrder

/-! The entries of the local database, as `be_local.c` writes and reads them. An entry is a
directory with a `desc` and a `files` file, which both consist of a header line for each
section, its lines and a blank line. The files are read through a buffer of 1024 bytes. -/

namespace Dulge

def newline : UInt8 := 10

/-- The bytes of a line that fit into `line` beside the terminator. -/
def lineRoom : Nat := 1023

abbrev Reader := LineReader UInt8

namespace Reader

def fopen (text : CStr) : Reader := ⟨text, false, []⟩

/-- `safe_fgets` and `_alpm_strip_newline` -/
def next? (r : Reader) : Option Reader := LineReader.next? newline 0 lineRoom r

def readNext (r : Reader) : Reader := LineReader.readNext newline 0 lineRoom r

/-- `READ_AND_STORE_ALL`, and the loops that leave at a blank line as well -/
def readBlock (r : Reader) : List CStr × Reader := LineReader.readBlock newline 0 lineRoom r

end Reader

/-! ### Numbers as text -/

/-- A number as `%jd` prints it. -/
def signedDecimal (n : Int) : CStr := (if n < 0 then [45] else []) ++ decimal n.natAbs

/-- `isspace` of the C locale -/
def isspace (c : UInt8) : Bool := c = 32 || (9 ≤ c && c ≤ 13)

/-- What `strtoll` and `strtoull` find in front of a text, if it is a number: whether it has
a minus sign, its digits and the text behind them. -/
def scanNumber (line : CStr) : Option (Bool × CStr × CStr) :=
  let signed : Bool × CStr := match line.dropWhile isspace with
    | 45 :: rest => (true, rest)
    | 43 :: rest => (false, rest)
    | rest => (false, rest)
  let digits := signed.2.takeWhile isdigit
  if digits = [] then none else some (signed.1, digits, signed.2.dropWhile isdigit)

/-- The value that a number parser returns, where it stopped and whether it set `ERANGE`. -/
structure Parsed (α : Type) where
  result : α
  rest : CStr
  erange : Bool

def strtoll (line : CStr) : Parsed Int :=
  match scanNumber line with
  | none => ⟨0, line, false⟩
  | some (minus, digits, rest) =>
    let value : Int := if minus then -(digitsValue digits : Int) else digitsValue digits
    if value < -2 ^ 63 then ⟨-2 ^ 63, rest, true⟩
    else if 2 ^ 63 ≤ value then ⟨2 ^ 63 - 1, rest, true⟩
    else ⟨value, rest, false⟩

def strtoull (line : CStr) : Parsed Nat :=
  match scanNumber line with
  | none => ⟨0, line, false⟩
  | some (minus, digits, rest) =>
    let value := digitsValue digits
    if 2 ^ 64 ≤ value then ⟨2 ^ 64 - 1, rest, true⟩
    else ⟨if minus then (2 ^ 64 - value) % 2 ^ 64 else value, rest, false⟩

def parsedate (line : CStr) : Int :=
  let parsed := strtoll line
  if parsed.result = 0 ∧ parsed.rest = line then 0
  else if parsed.erange then 0
  else if parsed.rest ≠ [] then 0
  else parsed.result

def strtoofft (line : CStr) : Int :=
  match line with
  | [] => -1
  | c :: _ =>
    if isdigit c = false then -1
    else
      let parsed := strtoull line
      if parsed.result = 0 ∧ parsed.rest = line then -1
      else if parsed.result = 2 ^ 64 - 1 ∧ parsed.erange then -1
      else if parsed.rest ≠ [] then -1
      else if parsed.result < 2 ^ 63 then parsed.result
      else (parsed.result : Int) - 2 ^ 64

/-! ### Packages of the local database -/

/-- `alpm_pkg_xdata_t` -/
structure Xdata where
  name : CStr
  value : CStr
deriving DecidableEq

def pkgParseXdata (string : CStr) : Option Xdata :=
  (memchr 61 string).map fun parts => ⟨parts.1, parts.2⟩

def splitBackup (string : CStr) : Backup :=
  match memchr 9 string with
  | none => ⟨string, none⟩
  | some parts => ⟨parts.1, some parts.2⟩

/-! The `INFRQ_` flags. -/
namespace Infrq

def desc : BitVec 32 := 1 <<< 1
def files : BitVec 32 := 1 <<< 2
def scriptlet : BitVec 32 := 1 <<< 3
def error : BitVec 32 := 1 <<< 30

end Infrq

/-- The fields of `alpm_pkg_t` that the local database keeps. -/
structure LocalPkg where
  name : CStr
  version : CStr
  base : Option CStr
  desc : Option CStr
  url : Option CStr
  arch : Option CStr
  builddate : Int
  installdate : Int
  packager : Option CStr
  isize : Int
  reason : Pkgreason
  groups : List CStr
  licenses : List CStr
  validation : BitVec 32
  replaces : List Depend
  depends : List Depend
  optdepends : List Depend
  makedepends : List Depend
  checkdepends : List Depend
  conflicts : List Depend
  provides : List Depend
  xdata : List Xdata
  files : List CStr
  backup : List Backup
  scriptlet : Bool
  infolevel : BitVec 32
deriving DecidableEq

/-- A package as `_alpm_pkg_new` gives it, with its name and version. -/
def LocalPkg.fresh (name version : CStr) : LocalPkg where
  name := name
  version := version
  base := none
  desc := none
  url := none
  arch := none
  builddate := 0
  installdate := 0
  packager := none
  isize := 0
  reason := .explicit
  groups := []
  licenses := []
  validation := 0
  replaces := []
  depends := []
  optdepends := []
  makedepends := []
  checkdepends := []
  conflicts := []
  provides := []
  xdata := []
  files := []
  backup := []
  scriptlet := false
  infolevel := 0

structure LocalStore where
  treename : CStr
  /-- `_alpm_db_path` -/
  path : CStr
  /-- `DB_STATUS_LOCAL` is set. -/
  isLocal : Bool
  content : CStr → Option CStr
  /-- A file that can be opened for writing. -/
  writable : CStr → Bool

def localDbPkgpath (db : LocalStore) (info : LocalPkg) (filename : CStr) : CStr :=
  db.path ++ info.name ++ cstr "-" ++ info.version ++ cstr "/" ++ filename

/-! ### The sections of a desc file -/

inductive LineField
  | name | version | base | desc | url | arch | builddate | installdate | packager | reason | size
deriving DecidableEq

inductive BlockField
  | groups | license | validation | replaces | depends | optdepends | makedepends | checkdepends
  | conflicts | provides | xdata
deriving DecidableEq

inductive DescSection
  | line (field : LineField)
  | block (field : BlockField)
deriving DecidableEq

def LineField.header : LineField → CStr
  | name => cstr "%NAME%"
  | version => cstr "%VERSION%"
  | base => cstr "%BASE%"
  | desc => cstr "%DESC%"
  | url => cstr "%URL%"
  | arch => cstr "%ARCH%"
  | builddate => cstr "%BUILDDATE%"
  | installdate => cstr "%INSTALLDATE%"
  | packager => cstr "%PACKAGER%"
  | reason => cstr "%REASON%"
  | size => cstr "%SIZE%"

def BlockField.header : BlockField → CStr
  | groups => cstr "%GROUPS%"
  | license => cstr "%LICENSE%"
  | validation => cstr "%VALIDATION%"
  | replaces => cstr "%REPLACES%"
  | depends => cstr "%DEPENDS%"
  | optdepends => cstr "%OPTDEPENDS%"
  | makedepends => cstr "%MAKEDEPENDS%"
  | checkdepends => cstr "%CHECKDEPENDS%"
  | conflicts => cstr "%CONFLICTS%"
  | provides => cstr "%PROVIDES%"
  | xdata => cstr "%XDATA%"

def DescSection.header : DescSection → CStr
  | line field => field.header
  | block field => field.header

/-- The sections in the order in which `local_db_read` compares their headers. -/
def readOrder : List DescSection :=
  [.line .name, .line .version, .line .base, .line .desc, .block .groups, .line .url,
    .block .license, .line .arch, .line .builddate, .line .installdate, .line .packager,
    .line .reason, .block .validation, .line .size, .block .replaces, .block .depends,
    .block .optdepends, .block .makedepends, .block .checkdepends, .block .conflicts,
    .block .provides, .block .xdata]

def sectionOf (line : CStr) : Option DescSection :=
  readOrder.find? fun candidate => strcmp line candidate.header = 0

/-! ### Reading -/

/-- What `local_db_read` logs. -/
inductive ReadMessage
  | couldNotOpen (path : CStr)
  | nameMismatch
  | versionMismatch
  | unknownReason (line : CStr)
  | unknownValidation (line : CStr)
  | unknownKey (line : CStr)
deriving DecidableEq

def readPkgreason (line : CStr) : Pkgreason × List ReadMessage :=
  if strcmp line (cstr "0") = 0 then (.explicit, [])
  else if strcmp line (cstr "1") = 0 then (.depend, [])
  else (.unknown, [.unknownReason line])

def LineField.store (line : CStr) (info : LocalPkg) : LineField → LocalPkg × List ReadMessage
  | name => (info, if strcmp line info.name ≠ 0 then [.nameMismatch] else [])
  | version => (info, if strcmp line info.version ≠ 0 then [.versionMismatch] else [])
  | base => ({ info with base := some line }, [])
  | desc => ({ info with desc := some line }, [])
  | url => ({ info with url := some line }, [])
  | arch => ({ info with arch := some line }, [])
  | builddate => ({ info with builddate := parsedate line }, [])
  | installdate => ({ info with installdate := parsedate line }, [])
  | packager => ({ info with packager := some line }, [])
  | reason => ({ info with reason := (readPkgreason line).1 }, (readPkgreason line).2)
  | size => ({ info with isize := strtoofft line }, [])

def readValidation (line : CStr) : BitVec 32 × List ReadMessage :=
  if strcmp line (cstr "none") = 0 then (PkgValidation.none, [])
  else if strcmp line (cstr "sha256") = 0 then (PkgValidation.sha256sum, [])
  else if strcmp line (cstr "pgp") = 0 then (PkgValidation.signature, [])
  else (0, [.unknownValidation line])

def storeXdata : List CStr → LocalPkg → LocalPkg × Bool
  | [], info => (info, true)
  | line :: lines, info =>
    match pkgParseXdata line with
    | none => (info, false)
    | some pd => storeXdata lines { info with xdata := info.xdata ++ [pd] }

def BlockField.store (lines : List CStr) (info : LocalPkg) :
    BlockField → LocalPkg × List ReadMessage × Bool
  | groups => ({ info with groups := info.groups ++ lines }, [], true)
  | license => ({ info with licenses := info.licenses ++ lines }, [], true)
  | validation =>
    ({ info with validation :=
        lines.foldl (fun flags line => flags ||| (readValidation line).1) info.validation },
      lines.flatMap fun line => (readValidation line).2, true)
  | replaces => ({ info with replaces := info.replaces ++ lines.map depFromString }, [], true)
  | depends => ({ info with depends := info.depends ++ lines.map depFromString }, [], true)
  | optdepends => ({ info with optdepends := info.optdepends ++ lines.map depFromString }, [], true)
  | makedepends =>
    ({ info with makedepends := info.makedepends ++ lines.map depFromString }, [], true)
  | checkdepends =>
    ({ info with checkdepends := info.checkdepends ++ lines.map depFromString }, [], true)
  | conflicts => ({ info with conflicts := info.conflicts ++ lines.map depFromString }, [], true)
  | provides => ({ info with provides := info.provides ++ lines.map depFromString }, [], true)
  | xdata => ((storeXdata lines info).1, [], (storeXdata lines info).2)

/-- The outcome of a part of `local_db_read`. -/
structure Reading where
  ret : Int
  info : LocalPkg
  messages : List ReadMessage

def Reading.noting (reading : Reading) (messages : List ReadMessage) : Reading :=
  { reading with messages := messages ++ reading.messages }

def readDesc (r : Reader) (info : LocalPkg) : Reading :=
  if _unread : r.eof = false then
    let head := r.readNext
    if head.line = [] then readDesc head info
    else
      match sectionOf head.line with
      | some (.line field) =>
        let value := head.readNext
        let stored := field.store value.line info
        (readDesc value stored.1).noting stored.2
      | some (.block field) =>
        let block := head.readBlock
        let stored := field.store block.1 info
        if stored.2.2 then (readDesc block.2 stored.1).noting stored.2.1
        else ⟨-1, stored.1, stored.2.1⟩
      | none => (readDesc head.readBlock.2 info).noting [.unknownKey head.line]
  else ⟨0, info, []⟩
termination_by r.left
decreasing_by
  all_goals have shorter : r.readNext.left < r.left := LineReader.readNext_left _unread
  · exact shorter
  · exact Nat.lt_of_le_of_lt (LineReader.readNext_left_le _) shorter
  · exact Nat.lt_of_le_of_lt (LineReader.readBlock_left _) shorter
  · exact Nat.lt_of_le_of_lt (LineReader.readBlock_left _) shorter

/-- The loop of `_alpm_filelist_sort` finds no pair out of order. -/
def presorted : List CStr → Bool
  | one :: two :: rest => strcmp one two ≤ 0 && presorted (two :: rest)
  | _ => true

/-- `qsort` by `_alpm_files_cmp`; names that compare equal are equal. -/
def qsortFiles (files : List CStr) : List CStr :=
  files.mergeSort fun one two => strcmp one two ≤ 0

def filelistSort (files : List CStr) : List CStr :=
  if presorted files then files else qsortFiles files

def filesHeader : CStr := cstr "%FILES%"

def backupHeader : CStr := cstr "%BACKUP%"

def readFiles (r : Reader) (info : LocalPkg) : LocalPkg :=
  match _found : r.next? with
  | none => info
  | some head =>
    if strcmp head.line filesHeader = 0 then
      let block := head.readBlock
      readFiles block.2 { info with files := filelistSort block.1 }
    else if strcmp head.line backupHeader = 0 then
      let block := head.readBlock
      readFiles block.2 { info with backup := info.backup ++ block.1.map splitBackup }
    else readFiles head info
termination_by r.left
decreasing_by
  all_goals have shorter : head.left < r.left := LineReader.next?_left _found
  · exact Nat.lt_of_le_of_lt (LineReader.readBlock_left _) shorter
  · exact Nat.lt_of_le_of_lt (LineReader.readBlock_left _) shorter
  · exact shorter

/-- A part of `local_db_read` that is asked for and not there yet: its file is opened and
read, and the part is marked as there. -/
def readPart (db : LocalStore) (inforeq part : BitVec 32) (filename : CStr)
    (read : Reader → LocalPkg → Reading) (info : LocalPkg) : Reading :=
  if hasBit inforeq part && !hasBit info.infolevel part then
    let path := localDbPkgpath db info filename
    match db.content path with
    | none => ⟨-1, info, [.couldNotOpen path]⟩
    | some text =>
      let reading := read (.fopen text) info
      if reading.ret = 0 then
        { reading with info :=
            { reading.info with infolevel := reading.info.infolevel ||| part } }
      else reading
  else ⟨0, info, []⟩

variable {inforeq part : BitVec 32}

theorem readPart_skipped (skipped : hasBit inforeq part = false) (db : LocalStore) (filename : CStr)
    (read : Reader → LocalPkg → Reading) (info : LocalPkg) :
    readPart db inforeq part filename read info = ⟨0, info, []⟩ := by
  rw [readPart, skipped]
  rfl

theorem readPart_found {db : LocalStore} {filename text : CStr} {read : Reader → LocalPkg → Reading}
    {info : LocalPkg} (asked : (hasBit inforeq part && !hasBit info.infolevel part) = true)
    (content : db.content (localDbPkgpath db info filename) = some text)
    (fine : (read (.fopen text) info).ret = 0) : readPart db inforeq part filename read info =
      { read (.fopen text) info with info := { (read (.fopen text) info).info with
          infolevel := (read (.fopen text) info).info.infolevel ||| part } } := by
  rw [readPart, if_pos asked]
  dsimp only
  rw [content]
  dsimp only
  rw [if_pos fine]

def readScriptlet (db : LocalStore) (inforeq : BitVec 32) (info : LocalPkg) : LocalPkg :=
  if hasBit inforeq Infrq.scriptlet && !hasBit info.infolevel Infrq.scriptlet then
    let found := (db.content (localDbPkgpath db info (cstr "install"))).isSome
    { info with
      scriptlet := found || info.scriptlet
      infolevel := info.infolevel ||| Infrq.scriptlet }
  else info

theorem readScriptlet_skipped (skipped : hasBit inforeq Infrq.scriptlet = false) (db : LocalStore)
    (info : LocalPkg) : readScriptlet db inforeq info = info := by
  rw [readScriptlet, skipped]
  rfl

/-- The label `error` of `local_db_read` -/
def Reading.failed (reading : Reading) : Reading :=
  { reading with
    ret := -1
    info := { reading.info with infolevel := reading.info.infolevel ||| Infrq.error } }

def localDbRead (db : LocalStore) (info : LocalPkg) (inforeq : BitVec 32) : Reading :=
  if info.infolevel &&& inforeq = inforeq then ⟨0, info, []⟩
  else if hasBit info.infolevel Infrq.error then ⟨-1, info, []⟩
  else
    let desc := readPart db inforeq Infrq.desc (cstr "desc") readDesc info
    if desc.ret ≠ 0 then desc.failed
    else
      let files := readPart db inforeq Infrq.files (cstr "files")
        (fun r info => ⟨0, readFiles r info, []⟩) desc.info
      if files.ret ≠ 0 then (files.noting desc.messages).failed
      else ⟨0, readScriptlet db inforeq files.info, desc.messages ++ files.messages⟩

/-! ### Writing -/

def Pkgreason.number : Pkgreason → Nat
  | .explicit => 0
  | .depend => 1
  | .unknown => 2

def LineField.value (info : LocalPkg) : LineField → Option CStr
  | name => some info.name
  | version => some info.version
  | base => info.base
  | desc => info.desc
  | url => info.url
  | arch => info.arch
  | builddate => if info.builddate = 0 then none else some (signedDecimal info.builddate)
  | installdate => if info.installdate = 0 then none else some (signedDecimal info.installdate)
  | packager => info.packager
  | reason => if info.reason.number = 0 then none else some (decimal info.reason.number)
  | size => if info.isize = 0 then none else some (signedDecimal info.isize)

def validationLines (validation : BitVec 32) : List CStr :=
  (if hasBit validation PkgValidation.none then [cstr "none"] else []) ++
    (if hasBit validation PkgValidation.sha256sum then [cstr "sha256"] else []) ++
    (if hasBit validation PkgValidation.signature then [cstr "pgp"] else [])

def Xdata.line (pd : Xdata) : CStr := pd.name ++ cstr "=" ++ pd.value

def listLines (lines : List CStr) : Option (List CStr) := if lines = [] then none else some lines

def BlockField.lines (info : LocalPkg) : BlockField → Option (List CStr)
  | groups => listLines info.groups
  | license => listLines info.licenses
  | validation => if info.validation = 0 then none else some (validationLines info.validation)
  | replaces => listLines (info.replaces.map depComputeString)
  | depends => listLines (info.depends.map depComputeString)
  | optdepends => listLines (info.optdepends.map depComputeString)
  | makedepends => none
  | checkdepends => none
  | conflicts => listLines (info.conflicts.map depComputeString)
  | provides => listLines (info.provides.map depComputeString)
  | xdata => listLines (info.xdata.map Xdata.line)

def putLines (lines : List CStr) : CStr := lines.flatMap fun line => line ++ [newline]

def putSection (header : CStr) (lines : List CStr) : CStr :=
  putLines (header :: lines) ++ [newline]

def DescSection.write (info : LocalPkg) : DescSection → CStr
  | line field => match field.value info with
      | none => []
      | some value => putSection field.header [value]
  | block field => match field.lines info with
      | none => []
      | some lines => putSection field.header lines

/-- The sections in the order in which `_alpm_local_db_write` writes them. -/
def writeOrder : List DescSection :=
  [.line .name, .line .version, .line .base, .line .desc, .line .url, .line .arch,
    .line .builddate, .line .installdate, .line .packager, .line .size, .line .reason,
    .block .groups, .block .license, .block .validation, .block .replaces, .block .depends,
    .block .optdepends, .block .conflicts, .block .provides, .block .xdata]

def descText (info : LocalPkg) : CStr := writeOrder.flatMap (DescSection.write info)

/-- A hash that is missing is printed the way the C library prints a null string. -/
def Backup.line (backup : Backup) : CStr :=
  backup.name ++ [9] ++ backup.hash.getD (cstr "(null)")

def filesSection (files : List CStr) : CStr :=
  if files = [] then [] else putSection filesHeader files

def backupSection (backup : List Backup) : CStr :=
  if backup = [] then [] else putSection backupHeader (backup.map Backup.line)

def filesText (info : LocalPkg) : CStr := filesSection info.files ++ backupSection info.backup

/-- A part of `_alpm_local_db_write` that is asked for. -/
def writePart (inforeq part : BitVec 32) (path text : CStr) (db : LocalStore) : Int × LocalStore :=
  if hasBit inforeq part then
    if db.writable path then
      (0, { db with content := Function.update db.content path (some text) })
    else (-1, db)
  else (0, db)

theorem writePart_skipped (skipped : hasBit inforeq part = false) (path text : CStr)
    (db : LocalStore) : writePart inforeq part path text db = (0, db) := by
  rw [writePart, skipped]
  rfl

theorem writePart_written {path text : CStr} {db : LocalStore} (asked : hasBit inforeq part = true)
    (written : (writePart inforeq part path text db).1 = 0) :
    (writePart inforeq part path text db).2 =
      { db with content := Function.update db.content path (some text) } := by
  revert written
  rw [writePart, if_pos asked]
  split
  · intro _
    rfl
  · intro failed
    cases failed

def localDbWrite (db : LocalStore) (info : LocalPkg) (inforeq : BitVec 32) : Int × LocalStore :=
  if db.isLocal = false then (-1, db)
  else
    let desc := writePart inforeq Infrq.desc (localDbPkgpath db info (cstr "desc")) (descText info) db
    if desc.1 ≠ 0 then desc
    else
      writePart inforeq Infrq.files (localDbPkgpath db info (cstr "files")) (filesText info) desc.2

end Dulge
