import Dulge.ArchiveFgets

/-! The entries of a sync database: `sync_db_read`. Its lines come out of an archive through
the buffer of `_alpm_archive_fgets`, and the dependency sections parse what a pointer from
before the read points to. -/

namespace Dulge

/-! ### Packages and their sections -/

/-- The fields of `alpm_pkg_t` that a sync database fills. -/
structure SyncPkg where
  name : CStr
  version : CStr
  filename : Option CStr
  base : Option CStr
  desc : Option CStr
  url : Option CStr
  arch : Option CStr
  builddate : Int
  packager : Option CStr
  size : Int
  isize : Int
  sha256sum : Option CStr
  base64Sig : Option CStr
  groups : List CStr
  licenses : List CStr
  replaces : List Depend
  depends : List Depend
  optdepends : List Depend
  makedepends : List Depend
  checkdepends : List Depend
  conflicts : List Depend
  provides : List Depend
  files : List CStr
  xdata : List Xdata
deriving DecidableEq

/-- A package as `load_pkg_for_entry` adds it to the cache. -/
def SyncPkg.fresh (name version : CStr) : SyncPkg where
  name := name
  version := version
  filename := none
  base := none
  desc := none
  url := none
  arch := none
  builddate := 0
  packager := none
  size := 0
  isize := 0
  sha256sum := none
  base64Sig := none
  groups := []
  licenses := []
  replaces := []
  depends := []
  optdepends := []
  makedepends := []
  checkdepends := []
  conflicts := []
  provides := []
  files := []
  xdata := []

inductive SyncLine
  | name | version | filename | base | desc | url | arch | builddate | packager | csize | isize
  | md5sum | sha256sum | pgpsig
deriving DecidableEq

inductive SyncBlock
  | groups | license | files | data
deriving DecidableEq

inductive SyncDeps
  | replaces | depends | optdepends | makedepends | checkdepends | conflicts | provides
deriving DecidableEq

inductive SyncSection
  | line (field : SyncLine)
  | block (field : SyncBlock)
  | deps (field : SyncDeps)
deriving DecidableEq

def SyncLine.header : SyncLine → CStr
  | name => cstr "%NAME%"
  | version => cstr "%VERSION%"
  | filename => cstr "%FILENAME%"
  | base => cstr "%BASE%"
  | desc => cstr "%DESC%"
  | url => cstr "%URL%"
  | arch => cstr "%ARCH%"
  | builddate => cstr "%BUILDDATE%"
  | packager => cstr "%PACKAGER%"
  | csize => cstr "%CSIZE%"
  | isize => cstr "%ISIZE%"
  | md5sum => cstr "%MD5SUM%"
  | sha256sum => cstr "%SHA256SUM%"
  | pgpsig => cstr "%PGPSIG%"

def SyncBlock.header : SyncBlock → CStr
  | groups => cstr "%GROUPS%"
  | license => cstr "%LICENSE%"
  | files => cstr "%FILES%"
  | data => cstr "%DATA%"

def SyncDeps.header : SyncDeps → CStr
  | replaces => cstr "%REPLACES%"
  | depends => cstr "%DEPENDS%"
  | optdepends => cstr "%OPTDEPENDS%"
  | makedepends => cstr "%MAKEDEPENDS%"
  | checkdepends => cstr "%CHECKDEPENDS%"
  | conflicts => cstr "%CONFLICTS%"
  | provides => cstr "%PROVIDES%"

def SyncSection.header : SyncSection → CStr
  | line field => field.header
  | block field => field.header
  | deps field => field.header

/-- The sections in the order in which `sync_db_read` compares their headers. -/
def syncReadOrder : List SyncSection :=
  [.line .name, .line .version, .line .filename, .line .base, .line .desc, .block .groups,
    .line .url, .block .license, .line .arch, .line .builddate, .line .packager, .line .csize,
    .line .isize, .line .md5sum, .line .sha256sum, .line .pgpsig, .deps .replaces, .deps .depends,
    .deps .optdepends, .deps .makedepends, .deps .checkdepends, .deps .conflicts, .deps .provides,
    .block .files, .block .data]

def syncSectionOf (line : CStr) : Option SyncSection :=
  syncReadOrder.find? fun candidate => strcmp line candidate.header = 0

/-! ### What a section does to the package -/

/-- What `sync_db_read` logs. -/
inductive SyncMessage
  | nameMismatch
  | versionMismatch
  | illegalFilename
  | longFilename
  | unknownKey (line : CStr)
deriving DecidableEq

/-- `_alpm_validate_filename`, as the error that it logs. -/
def validateFilename (filename : CStr) : Option SyncMessage :=
  if filename.head? = some 46 then some .illegalFilename
  else if slash ∈ filename then some .illegalFilename
  else if filename.length > pathMax then some .longFilename
  else none

def SyncLine.store (line : CStr) (pkg : SyncPkg) : SyncLine → SyncPkg × List SyncMessage × Bool
  | name => (pkg, if strcmp line pkg.name ≠ 0 then [.nameMismatch] else [], true)
  | version => (pkg, if strcmp line pkg.version ≠ 0 then [.versionMismatch] else [], true)
  | filename =>
    ({ pkg with filename := some line }, (validateFilename line).toList,
      (validateFilename line).isNone)
  | base => ({ pkg with base := some line }, [], true)
  | desc => ({ pkg with desc := some line }, [], true)
  | url => ({ pkg with url := some line }, [], true)
  | arch => ({ pkg with arch := some line }, [], true)
  | builddate => ({ pkg with builddate := parsedate line }, [], true)
  | packager => ({ pkg with packager := some line }, [], true)
  | csize => ({ pkg with size := strtoofft line }, [], true)
  | isize => ({ pkg with isize := strtoofft line }, [], true)
  | md5sum => (pkg, [], true)
  | sha256sum => ({ pkg with sha256sum := some line }, [], true)
  | pgpsig => ({ pkg with base64Sig := some line }, [], true)

def appendXdata : List CStr → SyncPkg → SyncPkg × Bool
  | [], pkg => (pkg, true)
  | line :: lines, pkg =>
    match pkgParseXdata line with
    | none => (pkg, false)
    | some pd => appendXdata lines { pkg with xdata := pkg.xdata ++ [pd] }

def SyncBlock.store (lines : List CStr) (pkg : SyncPkg) : SyncBlock → SyncPkg × Bool
  | groups => ({ pkg with groups := pkg.groups ++ lines }, true)
  | license => ({ pkg with licenses := pkg.licenses ++ lines }, true)
  | files => ({ pkg with files := filelistSort lines }, true)
  | data => appendXdata lines pkg

/-- A section at whose end the archive could not be read: only lists that are part of the
package have grown by then. -/
def SyncBlock.cut (lines : List CStr) (pkg : SyncPkg) : SyncBlock → SyncPkg
  | groups => { pkg with groups := pkg.groups ++ lines }
  | license => { pkg with licenses := pkg.licenses ++ lines }
  | files => pkg
  | data => pkg

def SyncDeps.append (deps : List Depend) (pkg : SyncPkg) : SyncDeps → SyncPkg
  | replaces => { pkg with replaces := pkg.replaces ++ deps }
  | depends => { pkg with depends := pkg.depends ++ deps }
  | optdepends => { pkg with optdepends := pkg.optdepends ++ deps }
  | makedepends => { pkg with makedepends := pkg.makedepends ++ deps }
  | checkdepends => { pkg with checkdepends := pkg.checkdepends ++ deps }
  | conflicts => { pkg with conflicts := pkg.conflicts ++ deps }
  | provides => { pkg with provides := pkg.provides ++ deps }

/-! ### Reading lines -/

/-- `_alpm_strip_newline`: the length and the line, or nothing where it writes behind the line. -/
def Allocation.stripNewline (line : Allocation) (len : Nat) : Option (Nat × Allocation) :=
  if line.cells.head? = some 0 then some (0, line)
  else
    let len := if len = 0 then line.text.length else len
    let kept := ((line.cells.take len).rdropWhile (· = newline)).length
    (line.store kept [0]).map fun line => (kept, line)

/-- A call of `_alpm_archive_fgets` with the newline stripped off its line. -/
inductive NextLine where
  | fault
  | failed (code : Int)
  | line (len : Nat) (r : ArchiveReader)

def ArchiveReader.setLine (r : ArchiveReader) (line : Allocation) : ArchiveReader :=
  { r with state := { r.state with buffer := { r.state.buffer with line := some line } } }

def nextLine (r : ArchiveReader) : NextLine :=
  match archiveFgets r with
  | (.fault, _) => .fault
  | (.ret code, r) =>
    if code ≠ archiveOk then .failed code
    else
      match r.state.buffer.line.bind fun line => line.stripNewline r.state.buffer.realLineSize with
      | none => .fault
      | some (len, line) => .line len (r.setLine line)

variable {r r' : ArchiveReader}

theorem nextLine_left {len : Nat} (found : nextLine r = .line len r') : r'.left < r.left := by
  unfold nextLine at found
  split at found
  · cases found
  · rename_i code after call
    split_ifs at found with ok
    split at found
    · cases found
    · cases found
      rw [not_not] at ok
      have less : after.left < r.left := archiveFgets_left (ok ▸ call)
      exact less

/-- `buf.line` as a pointer. -/
def ArchiveReader.pointer (r : ArchiveReader) : Option Nat := r.state.buffer.line.map Allocation.addr

/-- The C string that a pointer points to. Only the line of the buffer has not been freed. -/
def ArchiveReader.deref (r : ArchiveReader) (pointer : Option Nat) : Option CStr :=
  if r.pointer = pointer then r.state.buffer.line.map Allocation.text else none

inductive SectionEnd where
  | fault
  | failed
  | blank (r : ArchiveReader)

/-- Where reading goes on, if memory was not left: nowhere, if the archive could not be read. -/
def SectionEnd.rest : SectionEnd → Option (Option ArchiveReader)
  | fault => none
  | failed => some none
  | blank r => some (some r)

def readSection {α : Type} (parse : ArchiveReader → Option α) (r : ArchiveReader) :
    List α × SectionEnd :=
  match _found : nextLine r with
  | .fault => ([], .fault)
  | .failed _ => ([], .failed)
  | .line len r' =>
    if len = 0 then ([], .blank r')
    else
      match parse r' with
      | none => ([], .fault)
      | some item =>
        let more := readSection parse r'
        (item :: more.1, more.2)
termination_by r.left
decreasing_by exact nextLine_left _found

/-- `READ_AND_STORE_ALL`, and the loop over a file list -/
def readAndStoreAll (r : ArchiveReader) : List CStr × SectionEnd :=
  readSection (fun r => r.deref r.pointer) r

/-- `READ_AND_SPLITDEP`, with the value of `line` from before it. -/
def readAndSplitdep (line : Option Nat) (r : ArchiveReader) : List Depend × SectionEnd :=
  readSection (fun r => (r.deref line).map depFromString) r

theorem readSection_eq {α : Type} (parse : ArchiveReader → Option α) (r : ArchiveReader) :
    readSection parse r = match nextLine r with
      | .fault => ([], .fault)
      | .failed _ => ([], .failed)
      | .line len r' =>
        if len = 0 then ([], .blank r')
        else
          match parse r' with
          | none => ([], .fault)
          | some item => (item :: (readSection parse r').1, (readSection parse r').2) := by
  rw [readSection]
  split <;> rename_i found <;> rw [found]

theorem readSection_left {α : Type} (parse : ArchiveReader → Option α) (r : ArchiveReader)
    (ended : (readSection parse r).2 = .blank r') : r'.left < r.left := by
  induction left : r.left using Nat.strong_induction_on generalizing r with
  | _ _ ih =>
    subst left
    rw [readSection_eq] at ended
    split at ended
    · cases ended
    · cases ended
    · rename_i len after found
      have less := nextLine_left found
      split at ended
      · cases ended
        exact less
      · split at ended
        · cases ended
        · exact (ih after.left less after ended rfl).trans less

/-! ### The entry -/

structure SyncReading where
  ret : Int
  pkg : SyncPkg
  messages : List SyncMessage
deriving DecidableEq

/-- `none` stands for a read or write of memory that is not there. -/
abbrev SyncOutcome := Option SyncReading

def SyncReading.noting (messages : List SyncMessage) (reading : SyncReading) : SyncReading :=
  { reading with messages := messages ++ reading.messages }

inductive SectionStep (σ : Type) where
  | stop (reading : SyncReading)
  | next (rest : σ) (pkg : SyncPkg) (messages : List SyncMessage)

def SyncLine.step {σ : Type} (field : SyncLine) (value : CStr) (rest : σ) (pkg : SyncPkg) :
    SectionStep σ :=
  let stored := field.store value pkg
  if stored.2.2 then .next rest stored.1 stored.2.1 else .stop ⟨-1, stored.1, stored.2.1⟩

/-- A section of several lines, once they are read; `rest` is missing if the archive failed. -/
def SyncBlock.step {σ : Type} (field : SyncBlock) (lines : List CStr) (rest : Option σ)
    (pkg : SyncPkg) : SectionStep σ :=
  match rest with
  | none => .stop ⟨-1, field.cut lines pkg, []⟩
  | some rest =>
    let stored := field.store lines pkg
    if stored.2 then .next rest stored.1 [] else .stop ⟨-1, stored.1, []⟩

def SyncDeps.step {σ : Type} (field : SyncDeps) (deps : List Depend) (rest : Option σ)
    (pkg : SyncPkg) : SectionStep σ :=
  match rest with
  | none => .stop ⟨-1, field.append deps pkg, []⟩
  | some rest => .next rest (field.append deps pkg) []

def unknownStep {σ : Type} (line : CStr) (rest : Option σ) (pkg : SyncPkg) : SectionStep σ :=
  match rest with
  | none => .stop ⟨-1, pkg, [.unknownKey line]⟩
  | some rest => .next rest pkg [.unknownKey line]

section

variable {σ : Type} {later : σ} {rest : Option σ} {pkg pkg' : SyncPkg} {messages : List SyncMessage}

theorem SyncLine.step_next {field : SyncLine} {value : CStr} {rest : σ}
    (step : field.step value rest pkg = .next later pkg' messages) : rest = later := by
  unfold SyncLine.step at step
  dsimp only at step
  split at step
  · cases step
    rfl
  · cases step

theorem SyncBlock.step_next {field : SyncBlock} {lines : List CStr}
    (step : field.step lines rest pkg = .next later pkg' messages) : rest = some later := by
  unfold SyncBlock.step at step
  dsimp only at step
  split at step
  · cases step
  · split at step
    · cases step
      rfl
    · cases step

theorem SyncDeps.step_next {field : SyncDeps} {deps : List Depend}
    (step : field.step deps rest pkg = .next later pkg' messages) : rest = some later := by
  unfold SyncDeps.step at step
  split at step
  · cases step
  · cases step
    rfl

theorem unknownStep_next {line : CStr}
    (step : unknownStep line rest pkg = .next later pkg' messages) : rest = some later := by
  unfold unknownStep at step
  split at step
  · cases step
  · cases step
    rfl

end

/-- The branches of `sync_db_read` for the headers; `r` has read the header. -/
def syncSection (line : CStr) (r : ArchiveReader) (pkg : SyncPkg) :
    Option (SectionStep ArchiveReader) :=
  match syncSectionOf line with
  | some (.line field) =>
    match nextLine r with
    | .fault => none
    | .failed _ => some (.stop ⟨-1, pkg, []⟩)
    | .line _ r => (r.deref r.pointer).map fun value => field.step value r pkg
  | some (.block field) =>
    let lines := readAndStoreAll r
    lines.2.rest.map fun rest => field.step lines.1 rest pkg
  | some (.deps field) =>
    let deps := readAndSplitdep r.pointer r
    deps.2.rest.map fun rest => field.step deps.1 rest pkg
  | none => (readAndStoreAll r).2.rest.map fun rest => unknownStep line rest pkg

theorem SectionEnd.eq_blank {ending : SectionEnd} (rest : ending.rest = some (some r)) :
    ending = .blank r := by
  cases ending with
  | fault => cases rest
  | failed => cases rest
  | blank r' =>
    cases rest
    rfl

theorem syncSection_left {line : CStr} {pkg pkg' : SyncPkg} {messages : List SyncMessage}
    (step : syncSection line r pkg = some (.next r' pkg' messages)) : r'.left < r.left := by
  unfold syncSection at step
  split at step
  · split at step
    · cases step
    · cases step
    · rename_i found
      obtain ⟨value, _, step⟩ := Option.map_eq_some_iff.mp step
      exact SyncLine.step_next step ▸ nextLine_left found
  · obtain ⟨rest, ended, step⟩ := Option.map_eq_some_iff.mp step
    rw [SyncBlock.step_next step] at ended
    exact readSection_left _ r (SectionEnd.eq_blank ended)
  · obtain ⟨rest, ended, step⟩ := Option.map_eq_some_iff.mp step
    rw [SyncDeps.step_next step] at ended
    exact readSection_left _ r (SectionEnd.eq_blank ended)
  · obtain ⟨rest, ended, step⟩ := Option.map_eq_some_iff.mp step
    rw [unknownStep_next step] at ended
    exact readSection_left _ r (SectionEnd.eq_blank ended)

/-- The loop of `sync_db_read` over the lines of an entry. -/
def syncLoop (r : ArchiveReader) (pkg : SyncPkg) : SyncOutcome :=
  match _found : nextLine r with
  | .fault => none
  | .failed code => some ⟨if code ≠ archiveEof then -1 else 0, pkg, []⟩
  | .line len r =>
    if len = 0 then syncLoop r pkg
    else
      match _step : (r.deref r.pointer).bind fun line => syncSection line r pkg with
      | none => none
      | some (.stop reading) => some reading
      | some (.next r pkg messages) => (syncLoop r pkg).map (.noting messages)
termination_by r.left
decreasing_by
  all_goals have first := nextLine_left _found
  · exact first
  · obtain ⟨line, _, step⟩ := Option.bind_eq_some_iff.mp _step
    exact (syncSection_left step).trans first

/-- The longest line that `sync_db_read` takes, with its terminator. -/
def syncMaxLineSize : Nat := 512 * 1024

/-- `sync_db_read` of an entry whose package was found or added. -/
def syncDbRead (archive : List Delivery) (filename : CStr) (pkg : SyncPkg) : SyncOutcome :=
  if filename = cstr "desc" ∨ filename = cstr "depends" ∨ filename = cstr "files" then
    syncLoop ⟨archive, { ReadBuffer.zeroed with maxLineSize := syncMaxLineSize }, 0⟩ pkg
  else some ⟨0, pkg, []⟩

end Dulge
