import Dulge.FileRemoval

/-! Extraction of the entries of a package archive, and the upgrade of a package: its old files
are removed, then the entries of the new version are extracted one by one. -/

namespace Dulge

/-- The disk and the backup list of the new package, whose hashes extraction fills in, with the
count of errors. -/
structure FileExtraction (σ : Type) where
  disk : σ
  backup : List Backup
  errors : Nat

/-- `backup->hash = hash`, for the entry that `_alpm_needbackup` finds. -/
def setHash (file : CStr) (hash : Option CStr) : List Backup → List Backup
  | [] => []
  | backup :: backups =>
    if strcmp file backup.name = 0 then { backup with hash := hash } :: backups
    else backup :: setHash file hash backups

theorem setHash_names (file : CStr) (hash : Option CStr) (backups : List Backup) :
    (setHash file hash backups).map Backup.name = backups.map Backup.name := by
  induction backups with
  | nil => rfl
  | cons backup backups ih =>
    unfold setHash
    split
    · rfl
    · rw [List.map_cons, List.map_cons, ih]

theorem needbackup_isSome_names {file : CStr} {backups others : List Backup}
    (names : backups.map Backup.name = others.map Backup.name) :
    (needbackup file backups).isSome = (needbackup file others).isSome := by
  have byName : ∀ list : List Backup,
      (∃ backup ∈ list, backup.name = file) ↔ file ∈ list.map Backup.name := by
    intro list
    exact List.mem_map.symm
  rw [Bool.eq_iff_iff, needbackup_isSome, needbackup_isSome, byName, byName, names]

/-- How an entry is to be extracted: not at all, in its place, as a `.pacnew` file beside a file
in `NoUpgrade`, or as one that is compared with the file in place. -/
inductive Placement where
  | skip (errors : Nat)
  | direct
  | notouch
  | compare (hashOrig : Option CStr)
  deriving DecidableEq

section

variable {σ γ : Type} (disk : Disk σ γ) (host : FileHost)

/-- Case 3 of `extract_single_file`: a file is in the place of a file. -/
def overwritePlacement (oldpkg : Option Pkg) (entryname : CStr) (backup : Option Backup) :
    Placement :=
  if fnmatchPatterns host.fnmatch host.noupgrade entryname = 0 then .notouch
  else
    match oldpkg.bind fun oldpkg => needbackup entryname (host.backup oldpkg) with
    | some oldbackup => .compare oldbackup.hash
    | none => if backup.isSome then .compare none else .direct

/-- The six cases of `extract_single_file`, by what is on disk and what is in the archive. -/
def placement (oldpkg : Option Pkg) (entry : ArchiveEntry γ) (backup : Option Backup)
    (filename : CStr) (s : σ) : Placement :=
  match disk.llstat s filename with
  | .error _ => .direct
  | .ok lsbuf =>
    if lsbuf.kind = .directory then if entry.directory then .skip 0 else .skip 1
    else if entry.directory then .direct
    else overwritePlacement host oldpkg entry.pathname backup

def dbFile (newpkg : Pkg) (entryname : CStr) : Option CStr :=
  let file (dbfile : String) :=
    some (truncate
      (host.dbPath ++ newpkg.name ++ cstr "-" ++ newpkg.version ++ [slash] ++ cstr dbfile))
  if strcmp entryname (cstr ".INSTALL") = 0 then file "install"
  else if strcmp entryname (cstr ".CHANGELOG") = 0 then file "changelog"
  else if strcmp entryname (cstr ".MTREE") = 0 then file "mtree"
  else none

/-- `extract_db_file`, for an entry with a leading dot. -/
def extractDbFile (newpkg : Pkg) (entry : ArchiveEntry γ) (s : σ) : Nat × σ :=
  match dbFile host newpkg entry.pathname with
  | none => (0, s)
  | some filename =>
    let result := disk.performExtraction entry filename s
    (if result.1 then 0 else 1, result.2)

def sameHash (hash1 hash2 : Option CStr) : Bool :=
  match hash1, hash2 with
  | some hash1, some hash2 => strcmp hash1 hash2 = 0
  | _, _ => false

def tryRename (src dest : CStr) (s : σ) : Nat × σ :=
  let result := disk.rename src dest s
  (if result.1 then 0 else 1, result.2)

/-- What becomes of a `.pacnew` file, from the hashes of the file in place, of the new file and
of the file as it was installed. -/
def settlePacnew (hashOrig hashPkg : Option CStr) (isnewfile : Bool) (origfile filename : CStr)
    (s : σ) : Nat × σ :=
  let hashLocal := disk.computeMd5sum s origfile
  if sameHash hashLocal hashPkg then tryRename disk filename origfile s
  else if sameHash hashOrig hashPkg then
    if isnewfile then (0, (disk.unlink filename s).2) else (0, s)
  else if sameHash hashOrig hashLocal then tryRename disk filename origfile s
  else (0, s)

def extractAt (entry : ArchiveEntry γ) (backups : List Backup) (filename : CStr) (s : σ) :
    Nat × σ × List Backup :=
  let result := disk.performExtraction entry filename s
  if result.1 then
    (0, result.2, setHash entry.pathname (disk.computeMd5sum result.2 filename) backups)
  else (1, result.2, backups)

/-- `extract_single_file` from the placement on: the errors, the disk and the backup list. -/
def extractPlaced (entry : ArchiveEntry γ) (backups : List Backup) (origfile : CStr) (s : σ)
    (place : Placement) : Nat × σ × List Backup :=
  let filename := origfile ++ pacnew
  match place with
  | .skip errors => (errors, s, backups)
  | .direct => extractAt disk entry backups origfile s
  | .notouch =>
    if filename.length ≥ pathMax then (1, s, backups)
    else extractAt disk entry backups filename s
  | .compare hashOrig =>
    if filename.length ≥ pathMax then (1, s, backups)
    else
      let isnewfile := disk.llstat s filename = .error .noent
      let (errors, s, backups) := extractAt disk entry backups filename s
      if errors ≠ 0 then (errors, s, backups)
      else
        let hashPkg := disk.computeMd5sum s filename
        let settled := settlePacnew disk hashOrig hashPkg isnewfile origfile filename s
        (settled.1, settled.2, backups)

def extractSingleFile (newpkg : Pkg) (oldpkg : Option Pkg) (entry : ArchiveEntry γ)
    (backups : List Backup) (s : σ) : Nat × σ × List Backup :=
  let entryname := entry.pathname
  if entryname.head? = some 46 then
    let result := extractDbFile disk host newpkg entry s
    (result.1, result.2, backups)
  else if !filelistContains (some (host.files newpkg)) entryname then (0, s, backups)
  else
    let filename := host.root ++ entryname
    if filename.length ≥ pathMax then (1, s, backups)
    else if fnmatchPatterns host.fnmatch host.noextract entryname = 0 then (0, s, backups)
    else
      extractPlaced disk entry backups filename s
        (placement disk host oldpkg entry (needbackup entryname backups) filename s)

def extractEntryTurn (newpkg : Pkg) (oldpkg : Option Pkg) (st : FileExtraction σ)
    (entry : ArchiveEntry γ) : FileExtraction σ :=
  let result := extractSingleFile disk host newpkg oldpkg entry st.backup st.disk
  ⟨result.2.1, result.2.2, st.errors + result.1⟩

def beforeExtraction (oldpkg newpkg : Pkg) (s : σ) : FileExtraction σ :=
  ⟨(removePackageFiles disk host oldpkg (some newpkg) s).2, host.backup newpkg, 0⟩

def upgradeFiles (oldpkg newpkg : Pkg) (entries : List (ArchiveEntry γ)) (s : σ) : FileExtraction σ :=
  entries.foldl (extractEntryTurn disk host newpkg (some oldpkg))
    (beforeExtraction disk host oldpkg newpkg s)

/-- The disk once the `.pacnew` file is there. -/
def besideDisk (entry : ArchiveEntry γ) (origfile : CStr) (s : σ) : σ :=
  (disk.performExtraction entry (origfile ++ pacnew) s).2

inductive ExtractEffect (entry : ArchiveEntry γ) (origfile : CStr) (s : σ) : Placement → σ → Prop
  | none (place : Placement) : ExtractEffect entry origfile s place s
  | direct : ExtractEffect entry origfile s .direct (disk.performExtraction entry origfile s).2
  | beside (place : Placement) (aside : place = .notouch ∨ ∃ hashOrig, place = .compare hashOrig) :
      ExtractEffect entry origfile s place (besideDisk disk entry origfile s)
  | discard (hashOrig : Option CStr) :
      ExtractEffect entry origfile s (.compare hashOrig)
        (disk.unlink (origfile ++ pacnew) (besideDisk disk entry origfile s)).2
  | install (hashOrig : Option CStr)
      (extracted : (disk.performExtraction entry (origfile ++ pacnew) s).1 = true)
      (agree :
        let hashLocal := disk.computeMd5sum (besideDisk disk entry origfile s) origfile
        sameHash hashLocal
          (disk.computeMd5sum (besideDisk disk entry origfile s) (origfile ++ pacnew)) = true ∨
          sameHash hashOrig hashLocal = true) :
      ExtractEffect entry origfile s (.compare hashOrig)
        (disk.rename (origfile ++ pacnew) origfile (besideDisk disk entry origfile s)).2

theorem settlePacnew_disk (hashOrig hashPkg : Option CStr) (isnewfile : Bool)
    (origfile filename : CStr)
    (s : σ) : let result := (settlePacnew disk hashOrig hashPkg isnewfile origfile filename s).2
    result = s ∨ result = (disk.unlink filename s).2 ∨
      result = (disk.rename filename origfile s).2 ∧
        (sameHash (disk.computeMd5sum s origfile) hashPkg = true ∨
          sameHash hashOrig (disk.computeMd5sum s origfile) = true) := by
  unfold settlePacnew
  dsimp only
  split_ifs with unchanged original new untouched
  · exact .inr (.inr ⟨rfl, .inl unchanged⟩)
  · exact .inr (.inl rfl)
  · exact .inl rfl
  · exact .inr (.inr ⟨rfl, .inr untouched⟩)
  · exact .inl rfl

variable {disk}

theorem ExtractEffect.of_skip {entry : ArchiveEntry γ} {origfile : CStr} {s s' : σ} {errors : Nat}
    (effect : ExtractEffect disk entry origfile s (.skip errors) s') : s' = s := by
  cases effect with
  | none => rfl
  | beside _ aside => simp at aside

variable (entry : ArchiveEntry γ) (backups : List Backup)

theorem extractAt_disk (filename : CStr) (s : σ) :
    (extractAt disk entry backups filename s).2.1 = (disk.performExtraction entry filename s).2 := by
  unfold extractAt
  dsimp only
  split
  · rfl
  · rfl

theorem extractAt_done (filename : CStr) (s : σ) :
    (extractAt disk entry backups filename s).1 = 0 ↔
      (disk.performExtraction entry filename s).1 = true := by
  unfold extractAt
  dsimp only
  split
  · rename_i done
    simp [done]
  · rename_i failed
    simp [failed]

theorem extractPlaced_effect (origfile : CStr) (s : σ) (place : Placement) :
    ExtractEffect disk entry origfile s place
      (extractPlaced disk entry backups origfile s place).2.1 := by
  cases place with
  | skip errors => exact .none (.skip errors)
  | direct =>
    dsimp only [extractPlaced]
    rw [extractAt_disk]
    exact .direct
  | notouch =>
    dsimp only [extractPlaced]
    split
    · exact .none .notouch
    · rw [extractAt_disk]
      exact .beside .notouch (.inl rfl)
  | compare hashOrig =>
    dsimp only [extractPlaced]
    split_ifs with long failed
    · exact .none (.compare hashOrig)
    · rw [extractAt_disk]
      exact .beside (.compare hashOrig) (.inr ⟨hashOrig, rfl⟩)
    · have extracted := (extractAt_done entry backups (origfile ++ pacnew) s).mp (not_not.mp failed)
      rw [extractAt_disk]
      rcases settlePacnew_disk disk hashOrig
        (disk.computeMd5sum (besideDisk disk entry origfile s) (origfile ++ pacnew))
        (disk.llstat s (origfile ++ pacnew) = .error .noent) origfile (origfile ++ pacnew)
        (besideDisk disk entry origfile s) with same | dropped | ⟨moved, agree⟩
      · exact same ▸ .beside (.compare hashOrig) (.inr ⟨hashOrig, rfl⟩)
      · exact dropped ▸ .discard hashOrig
      · exact moved ▸ .install hashOrig extracted agree

variable (disk)

theorem extractSingleFile_cases (newpkg : Pkg) (oldpkg : Option Pkg) (entry : ArchiveEntry γ)
    (backups : List Backup) (s : σ) :
    let result := (extractSingleFile disk host newpkg oldpkg entry backups s).2.1
    result = s ∨
      (∃ filename, entry.pathname.head? = some 46 ∧
        dbFile host newpkg entry.pathname = some filename ∧
        result = (disk.performExtraction entry filename s).2) ∨
      entry.pathname.head? ≠ some 46 ∧ entry.pathname ∈ (host.files newpkg).names ∧
        fnmatchPatterns host.fnmatch host.noextract entry.pathname ≠ 0 ∧
        ExtractEffect disk entry (host.root ++ entry.pathname) s
          (placement disk host oldpkg entry (needbackup entry.pathname backups)
            (host.root ++ entry.pathname) s) result := by
  unfold extractSingleFile
  dsimp only
  split_ifs with dotted listed long excluded
  · unfold extractDbFile
    split
    · exact .inl rfl
    · rename_i filename found
      exact .inr (.inl ⟨filename, dotted, found, rfl⟩)
  · exact .inl rfl
  · exact .inl rfl
  · exact .inl rfl
  · simp only [Bool.not_eq_true', Bool.not_eq_false] at listed
    exact .inr (.inr ⟨dotted, filelistContains_some.mp listed, excluded,
      extractPlaced_effect entry backups _ s _⟩)

variable {disk host}

theorem extractAt_names (filename : CStr) (s : σ) :
    (extractAt disk entry backups filename s).2.2.map Backup.name = backups.map Backup.name := by
  unfold extractAt
  dsimp only
  split
  · exact setHash_names _ _ backups
  · rfl

theorem extractSingleFile_names (newpkg : Pkg) (oldpkg : Option Pkg) (entry : ArchiveEntry γ)
    (backups : List Backup) (s : σ) :
    (extractSingleFile disk host newpkg oldpkg entry backups s).2.2.map Backup.name =
      backups.map Backup.name := by
  unfold extractSingleFile
  dsimp only
  split_ifs
  · rfl
  · rfl
  · rfl
  · rfl
  · unfold extractPlaced
    dsimp only
    split
    · rfl
    · exact extractAt_names entry backups _ s
    · split_ifs
      · rfl
      · exact extractAt_names entry backups _ s
    · split_ifs
      · rfl
      · exact extractAt_names entry backups _ s
      · exact extractAt_names entry backups _ s

end

/-- A host below `/` with the given packages and patterns, where a pattern matches itself. -/
def FileHost.plain (files : Pkg → Filelist) (backup : Pkg → List Backup) (noupgrade : List CStr) :
    FileHost where
  root := cstr "/"
  dbPath := cstr "/var/lib/dulge/local/"
  dbLocal := Db.populate []
  files := files
  backup := backup
  noupgrade := noupgrade
  noextract := []
  skipRemove := []
  nosave := false
  fnmatch pattern string := pattern = string
  regex _ := none
  strtoul _ := 0

end Dulge
