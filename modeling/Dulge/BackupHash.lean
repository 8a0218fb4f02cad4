import Dulge.EntryName
import Dulge.FileExtraction
import Dulge.LocalFiles

/-! The hashes of the backup entries, from the lines of a files file to the comparison that
decides over a `.pacsave` file. A line without a tab makes an entry without a hash. -/

namespace Dulge
open List

/-! ### Reading the entries -/

def backupLines : List CStr → List CStr
  | [] => []
  | line :: rest =>
    if line = filesHeader then backupLines (afterBlock rest)
    else if line = backupHeader then blockOf rest ++ backupLines (afterBlock rest)
    else backupLines rest
termination_by lines => lines.length
decreasing_by
  all_goals
    have shorter := afterBlock_length rest
    simp only [length_cons]
    omega

theorem readFiles_backup (r : Reader) (info : LocalPkg) : (readFiles r info).backup
      = info.backup ++ (backupLines (bufferLines r.text)).map splitBackup := by
  induction r, info using readFiles.induct with
  | case1 r info ended =>
    rw [readFiles_none ended, bufferLines_none ended]
    simp [backupLines]
  | case2 r info head found header block ih =>
    obtain ⟨_, behind⟩ := readBlock_bufferLines head
    rw [readFiles_some found, if_pos header, ih, bufferLines_some found, backupLines,
      if_pos (strcmp_eq_zero.mp header), behind]
  | case3 r info head found other header block ih =>
    obtain ⟨inside, behind⟩ := readBlock_bufferLines head
    rw [readFiles_some found, if_neg other, if_pos header, ih, bufferLines_some found, backupLines,
      if_neg (strcmp_eq_zero.not.mp other), if_pos (strcmp_eq_zero.mp header), behind]
    simp only [block, inside, map_append, append_assoc]
  | case4 r info head found other third ih =>
    rw [readFiles_some found, if_neg other, if_neg third, ih, bufferLines_some found, backupLines,
      if_neg (strcmp_eq_zero.not.mp other), if_neg (strcmp_eq_zero.not.mp third)]

def backupName (line : CStr) : CStr := line.takeWhile (· ≠ 9)

theorem splitBackup_name (line : CStr) : (splitBackup line).name = backupName line := by
  unfold splitBackup backupName
  split
  · rename_i none
    have absent : 9 ∉ line := by
      rw [← memchr_isSome, none]
      exact Bool.false_ne_true
    exact (takeWhile_eq_self_iff.mpr (decide_ne_of_not_mem absent)).symm
  · rename_i parts found
    obtain ⟨shape, absent⟩ := memchr_some found
    conv_rhs => rw [shape]
    rw [takeWhile_append_of_pos (decide_ne_of_not_mem absent)]
    simp

theorem splitBackup_hash (line : CStr) : (splitBackup line).hash.isSome ↔ 9 ∈ line := by
  rw [← memchr_isSome, splitBackup]
  split <;> simp [*]

theorem needbackup_splitBackup (path : CStr) (lines : List CStr) :
    needbackup path (lines.map splitBackup) =
      (lines.find? fun line => backupName line = path).map splitBackup := by
  rw [needbackup, List.find?_map]
  congr 2
  funext line
  simp only [Function.comp_apply, splitBackup_name, strcmp_eq_zero, eq_comm]

/-! ### Comparing the hashes -/

section

variable {σ γ : Type} (disk : Disk σ γ) (host : FileHost)

/-- The operands of the `strcmp` in `unlink_file`, where it is reached: the hash of the file and
the hash of its backup entry, which may be a null pointer. -/
def comparedHashes (oldpkg : Pkg) (name : CStr) (s : σ) : Option (CStr × Option CStr) :=
  let full := host.root ++ name
  if full.length = 0 ∨ full.length ≥ pathMax then none
  else
    let file := removedPath host name
    match disk.llstat s file with
    | .error _ => none
    | .ok buf =>
      if buf.kind = .directory then none
      else if host.nosave then none
      else
        match needbackup name (host.backup oldpkg) with
        | none => none
        | some backup => (disk.computeMd5sum s file).map fun filehash => (filehash, backup.hash)

/-- A turn of the removal compares no hash with a null pointer. -/
def HashPresent (oldpkg : Pkg) (newpkg : Option Pkg) (st : FileRemoval σ) (name : CStr) : Prop :=
  shouldSkipFile host newpkg name = false → ∀ filehash hash,
    comparedHashes disk host oldpkg name st.disk = some (filehash, hash) → hash.isSome

def RemovalSafe (oldpkg : Pkg) (newpkg : Option Pkg) (s : σ) : Prop :=
  Machine.EveryStep (removeFileTurn disk host oldpkg newpkg) (HashPresent disk host oldpkg newpkg)
    ⟨s, 0⟩ (removalSteps disk host oldpkg newpkg s)

variable {disk host}

theorem comparedHashes_some {oldpkg : Pkg} {name filehash : CStr} {hash : Option CStr} {s : σ}
    (compared : comparedHashes disk host oldpkg name s = some (filehash, hash)) :
    ∃ backup, needbackup name (host.backup oldpkg) = some backup ∧ hash = backup.hash := by
  unfold comparedHashes at compared
  dsimp only at compared
  split at compared
  · cases compared
  split at compared
  · cases compared
  split_ifs at compared
  split at compared
  · cases compared
  · rename_i backup found
    obtain ⟨_, _, equal⟩ := Option.map_eq_some_iff.mp compared
    cases equal
    exact ⟨backup, found, rfl⟩

end

/-! ### From the text to the comparison -/

/-- The first backup line with the path in front of its tab has a tab. -/
def EntryHashed (lines : List CStr) (path : CStr) : Prop :=
  ∀ line ∈ (backupLines lines).find? (fun line => backupName line = path), 9 ∈ line

/-- The turn gets to the comparison. -/
def Compares {σ γ : Type} (disk : Disk σ γ) (host : FileHost) (oldpkg : Pkg) (newpkg : Option Pkg)
    (st : FileRemoval σ) (name : CStr) : Prop :=
  shouldSkipFile host newpkg name = false ∧ (comparedHashes disk host oldpkg name st.disk).isSome

theorem hashPresent_iff {σ γ : Type} {disk : Disk σ γ} {host : FileHost} {oldpkg : Pkg}
    {lines : List CStr} (backups : host.backup oldpkg = (backupLines lines).map splitBackup)
    (newpkg : Option Pkg) (st : FileRemoval σ) (name : CStr) :
    HashPresent disk host oldpkg newpkg st name ↔
      (Compares disk host oldpkg newpkg st name → EntryHashed lines name) := by
  have entry (backup : Backup) : needbackup name (host.backup oldpkg) = some backup ↔
      ∃ line, (backupLines lines).find? (fun line => backupName line = name) = some line ∧
        splitBackup line = backup := by
    rw [backups, needbackup_splitBackup, Option.map_eq_some_iff]
  constructor
  · rintro present ⟨goes, compared⟩ line first
    obtain ⟨⟨filehash, hash⟩, compared⟩ := Option.isSome_iff_exists.mp compared
    obtain ⟨backup, found, rfl⟩ := comparedHashes_some compared
    have same : splitBackup line = backup :=
      Option.some.inj (((entry _).mpr ⟨line, first, rfl⟩).symm.trans found)
    exact (splitBackup_hash line).mp (same ▸ present goes _ _ compared)
  · intro hashed goes filehash hash compared
    obtain ⟨backup, found, rfl⟩ := comparedHashes_some compared
    obtain ⟨line, first, rfl⟩ := (entry backup).mp found
    exact (splitBackup_hash line).mpr
      (hashed ⟨goes, Option.isSome_iff_exists.mpr ⟨_, compared⟩⟩ line first)

/-- A removal of a package whose backup entries were read from a text compares no missing hash
exactly if each path for which it gets to the comparison has its hash in the text. -/
theorem removalSafe_iff_hashed (db : LocalStore) (info : LocalPkg) (text : CStr)
    (unread : hasBit info.infolevel Infrq.files = false)
    (intact : hasBit info.infolevel Infrq.error = false) (fresh : info.backup = [])
    (content : db.content (localDbPkgpath db info (cstr "files")) = some text) :
    let reading := localDbRead db info Infrq.files
    reading.ret = 0 ∧ ∀ (σ γ : Type) (disk : Disk σ γ) (host : FileHost) (oldpkg : Pkg)
      (newpkg : Option Pkg) (s : σ), host.backup oldpkg = reading.info.backup →
        (RemovalSafe disk host oldpkg newpkg s ↔
          Machine.EveryStep (removeFileTurn disk host oldpkg newpkg)
            (fun st name => Compares disk host oldpkg newpkg st name →
              EntryHashed (bufferLines text) name)
            ⟨s, 0⟩ (removalSteps disk host oldpkg newpkg s)) := by
  intro reading
  have read : reading = _ := localDbRead_files unread intact content
  have backup : reading.info.backup = (readFiles (.fopen text) info).backup := by rw [read]
  rw [readFiles_backup, fresh, nil_append] at backup
  refine ⟨by rw [read], ?_⟩
  intro σ γ disk host oldpkg newpkg s backups
  have step : ∀ st name, HashPresent disk host oldpkg newpkg st name ↔ _ :=
    hashPresent_iff (backups.trans backup) newpkg
  constructor
  · intro safe done name rest split
    exact (step _ name).mp (safe done name rest split)
  · intro hashed done name rest split
    exact (step _ name).mpr (hashed done name rest split)

def LocalStore.holding (text : CStr) : LocalStore :=
  ⟨cstr "local", cstr "/db/", true, fun _ => some text, fun _ => true⟩

theorem removalSafe_etc :
    let text := putLines [cstr "%FILES%", cstr "etc/c", cstr "etc/d", [], cstr "%BACKUP%",
      cstr "etc/d\td41d", cstr "etc/c\t9800"]
    let reading := localDbRead (.holding text) (.fresh (cstr "p") (cstr "1")) Infrq.files
    ∀ (σ γ : Type) (disk : Disk σ γ) (host : FileHost) (oldpkg : Pkg) (newpkg : Option Pkg) (s : σ),
      host.backup oldpkg = reading.info.backup → RemovalSafe disk host oldpkg newpkg s := by
  intro text reading σ γ disk host oldpkg newpkg s backups
  have lines : ∀ line ∈ backupLines (bufferLines text), 9 ∈ line := by decide +kernel
  refine ((removalSafe_iff_hashed (.holding text) (.fresh (cstr "p") (cstr "1")) text (by decide)
    (by decide) rfl rfl).2 σ γ disk host oldpkg newpkg s backups).mpr ?_
  exact fun _ _ _ _ _ line first => lines line (mem_of_find?_eq_some first)

def fileDisk : Disk Unit Unit where
  lstat _ _ := .ok ⟨.regular, 0⟩
  stat _ _ := some ⟨.regular, 0⟩
  readdir _ _ := none
  accessWrite _ _ := .ok ()
  accessExists _ _ := true
  computeMd5sum _ _ := some (cstr "d41d8cd98f00b204e9800998ecf8427e")
  unlink _ s := (true, s)
  rmdir _ s := (true, s)
  rename _ _ s := (true, s)
  performExtraction _ _ s := (true, s)

/-- A backup line without a tab is read as an entry without a hash, and a removal of the file
compares with it. -/
theorem removal_compares_missing_hash :
    let text := putLines [cstr "%FILES%", cstr "etc/c", [], cstr "%BACKUP%", cstr "etc/c"]
    let reading := localDbRead (.holding text) (.fresh (cstr "p") (cstr "1")) Infrq.files
    let host : FileHost := .plain (fun _ => ⟨[cstr "etc/c"], pairwise_singleton _ _⟩)
      (fun _ => [⟨cstr "etc/c", none⟩]) []
    let oldpkg := Pkg.bare 0 (cstr "p") (cstr "1")
    reading.ret = 0 ∧ reading.info.files = (host.files oldpkg).names ∧
      reading.info.backup = host.backup oldpkg ∧
      removalSteps fileDisk host oldpkg none () = [cstr "etc/c"] ∧
      shouldSkipFile host none (cstr "etc/c") = false ∧
      comparedHashes fileDisk host oldpkg (cstr "etc/c") () =
        some (cstr "d41d8cd98f00b204e9800998ecf8427e", none) := by
  decide +kernel

end Dulge
