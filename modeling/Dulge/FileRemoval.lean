import Dulge.Disk
import Dulge.Lib.Run

/-! Removal of the files of a package, alone or before its new version is extracted. -/

namespace Dulge
open List

section

variable {σ γ : Type} (disk : Disk σ γ) (host : FileHost)

def canRemoveFile (s : σ) (name : CStr) : Bool :=
  let filepath := truncate (host.root ++ name)
  if endsInSlash name && dirIsMountpoint disk s filepath none then true
  else
    match disk.accessWrite s filepath with
    | .ok () => true
    | .error errno => !(errno ≠ .acces && errno ≠ .txtbsy && disk.accessExists s filepath)

/-- A number as `%lu` prints it. -/
def decimal (n : Nat) : CStr :=
  if n = 0 then [48] else (Nat.digits 10 n).reverse.map fun digit => UInt8.ofNat (48 + digit)

/-- The name of a numbered `.pacsave` file. -/
def pacsaveNumbered (file : CStr) (i : Nat) : CStr := file ++ pacsave ++ cstr "." ++ decimal i

/-- What follows `.pacsave` in the name of a saved file. -/
def PacsaveTail (tail : CStr) : Prop := tail = [] ∨ ∃ n, tail = cstr "." ++ decimal n

/-- The loop of `shift_pacsave` over the numbered files, from the last to the first. It stops
short, and says so, when a path would be too long. -/
def shiftNumbered (file : CStr) : Nat → σ → Bool × σ
  | 0, s => (true, s)
  | i + 1, s =>
    if (pacsaveNumbered file (i + 1)).length ≥ pathMax ∨
        (pacsaveNumbered file (i + 2)).length ≥ pathMax then (false, s)
    else
      shiftNumbered file i
        (disk.rename (pacsaveNumbered file (i + 1)) (pacsaveNumbered file (i + 2)) s).2

/-- The largest number of a `.pacsave` file in the directory. -/
def pacsaveLogMax (matches_ : CStr → Bool) (basename : CStr) (names : List CStr) : Nat :=
  names.foldl (fun logMax name =>
    if name = cstr "." ∨ name = cstr ".." then logMax
    else if matches_ name then
      max logMax (host.strtoul (name.drop (basename.length + pacsave.length + 1)))
    else logMax) 0

def shiftPacsave (file : CStr) (s : σ) : σ :=
  match host.regex (mbasename file) with
  | none => s
  | some matches_ =>
    match disk.readdir s (mdirname file) with
    | none => s
    | some names =>
      let logMax := pacsaveLogMax host matches_ (mbasename file) names
      -- The counter starts at `log_max + 1`, an `unsigned long`.
      match shiftNumbered disk file (if logMax + 1 < 2 ^ 64 then logMax else 0) s with
      | (false, s) => s
      | (true, s) =>
        let oldfile := file ++ pacsave
        if oldfile.length ≥ pathMax ∨ (pacsaveNumbered file 1).length ≥ pathMax then s
        else if (disk.stat s oldfile).isSome then
          (disk.rename oldfile (pacsaveNumbered file 1) s).2
        else s

/-- The largest number that `shift_pacsave` gives to a file. -/
def lastPacsave (file : CStr) (s : σ) : Nat :=
  match host.regex (mbasename file), disk.readdir s (mdirname file) with
  | some matches_, some names =>
    let logMax := pacsaveLogMax host matches_ (mbasename file) names
    (if logMax + 1 < 2 ^ 64 then logMax else 0) + 1
  | _, _ => 0

/-- What follows `.pacsave` in the names that `shift_pacsave` moves files from and to. -/
def MovedTail (file : CStr) (s : σ) (tail : CStr) : Prop :=
  tail = [] ∨ ∃ n, 0 < n ∧ n ≤ lastPacsave disk host file s ∧ tail = cstr "." ++ decimal n

/-- A package other than `oldpkg` owns the directory. -/
def ownedByOther (oldpkg : Pkg) (name : CStr) : Bool :=
  (dbGetPkgcache host.dbLocal).any fun localPkg =>
    !(oldpkg.nameHash = localPkg.nameHash && strcmp oldpkg.name localPkg.name = 0) &&
      filelistContains (some (host.files localPkg)) name

/-- The result of `unlink_file` after its last call. -/
def reported (result : Bool × σ) : Int × σ := (if result.1 then 0 else -1, result.2)

/-- The directory branch of `unlink_file`; `file` has no trailing slash. -/
def unlinkDirectory (oldpkg : Pkg) (newpkg : Option Pkg) (name file : CStr) (buf : Stat) (s : σ) :
    Int × σ :=
  if file.length ≥ pathMax - 1 then (-1, s)
  else
    let dir := file ++ [slash]
    if filesInDirectory disk s dir ≠ 0 then (0, s)
    else if filelistContains (newpkg.map host.files) name then (0, s)
    else if dirIsMountpoint disk s dir (some buf) then (0, s)
    else if ownedByOther host oldpkg name then (0, s)
    else reported (disk.rmdir dir s)

def backupModified (oldpkg : Pkg) (name file : CStr) (s : σ) : Bool :=
  match needbackup name (host.backup oldpkg) with
  | none => false
  | some backup =>
    match disk.computeMd5sum s file with
    | none => false
    -- An entry without a hash makes the source compare with a null pointer.
    | some filehash => strcmp filehash (backup.hash.getD []) ≠ 0

def removedPath (name : CStr) : CStr :=
  let full := host.root ++ name
  if endsInSlash full then full.dropLast else full

def unlinkFile (oldpkg : Pkg) (newpkg : Option Pkg) (name : CStr) (s : σ) : Int × σ :=
  let full := host.root ++ name
  if full.length = 0 ∨ full.length ≥ pathMax then (-1, s)
  else
    let file := removedPath host name
    match disk.llstat s file with
    | .error _ => (1, s)
    | .ok buf =>
      if buf.kind = .directory then unlinkDirectory disk host oldpkg newpkg name file buf s
      else if !host.nosave && backupModified disk host oldpkg name file s then
        reported (disk.rename file (file ++ pacsave) (shiftPacsave disk host file s))
      else reported (disk.unlink file s)

def shouldSkipFile (newpkg : Option Pkg) (path : CStr) : Bool :=
  fnmatchPatterns host.fnmatch host.noupgrade path = 0 ||
    host.skipRemove.any (fun skipped => strcmp skipped path = 0) ||
    match newpkg with
    | none => false
    | some newpkg =>
      (needbackup path (host.backup newpkg)).isSome &&
        filelistContains (some (host.files newpkg)) path

structure FileRemoval (σ : Type) where
  disk : σ
  err : Nat

def removeFileTurn (oldpkg : Pkg) (newpkg : Option Pkg) (st : FileRemoval σ) (name : CStr) :
    FileRemoval σ :=
  if shouldSkipFile host newpkg name then st
  else
    let result := unlinkFile disk host oldpkg newpkg name st.disk
    ⟨result.2, if result.1 < 0 then st.err + 1 else st.err⟩

def removePackageFiles (oldpkg : Pkg) (newpkg : Option Pkg) (s : σ) : Int × σ :=
  let names := (host.files oldpkg).names
  if names.all fun name => shouldSkipFile host newpkg name || canRemoveFile disk host s name then
    let st := names.reverse.foldl (removeFileTurn disk host oldpkg newpkg) ⟨s, 0⟩
    (st.err, st.disk)
  else (-1, s)

/-- The entries that a removal goes through: all of them, the last one first, or none. -/
def removalSteps (oldpkg : Pkg) (newpkg : Option Pkg) (s : σ) : List CStr :=
  let names := (host.files oldpkg).names
  if names.all fun name => shouldSkipFile host newpkg name || canRemoveFile disk host s name then
    names.reverse
  else []

theorem mem_names_of_removalSteps {oldpkg : Pkg} {newpkg : Option Pkg} {s : σ} {name : CStr}
    (mem : name ∈ removalSteps disk host oldpkg newpkg s) : name ∈ (host.files oldpkg).names := by
  unfold removalSteps at mem
  dsimp only at mem
  split at mem
  · exact mem_reverse.mp mem
  · cases mem

theorem removePackageFiles_disk (oldpkg : Pkg) (newpkg : Option Pkg) (s : σ) :
    (removePackageFiles disk host oldpkg newpkg s).2 =
      (Machine.run (removeFileTurn disk host oldpkg newpkg) ⟨s, 0⟩
        (removalSteps disk host oldpkg newpkg s)).disk := by
  unfold removePackageFiles removalSteps
  dsimp only
  split
  · rfl
  · rfl

/-- What `unlink_file` can do to the disk. -/
inductive UnlinkEffect (oldpkg : Pkg) (name : CStr) (s : σ) : σ → Prop
  | none : UnlinkEffect oldpkg name s s
  | rmdir (buf : Stat) (there : disk.llstat s (removedPath host name) = .ok buf)
      (directory : buf.kind = .directory)
      (empty : filesInDirectory disk s (removedPath host name ++ [slash]) = 0) :
      UnlinkEffect oldpkg name s (disk.rmdir (removedPath host name ++ [slash]) s).2
  | save (buf : Stat) (there : disk.llstat s (removedPath host name) = .ok buf)
      (file : buf.kind ≠ .directory)
        (modified : backupModified disk host oldpkg name (removedPath host name) s = true) :
      UnlinkEffect oldpkg name s
        (disk.rename (removedPath host name) (removedPath host name ++ pacsave)
        (shiftPacsave disk host (removedPath host name) s)).2
  | unlink (buf : Stat) (there : disk.llstat s (removedPath host name) = .ok buf)
      (file : buf.kind ≠ .directory)
      (lost : (!host.nosave && backupModified disk host oldpkg name (removedPath host name) s) =
        false) :
      UnlinkEffect oldpkg name s (disk.unlink (removedPath host name) s).2

variable {disk host}

theorem unlinkDirectory_disk (oldpkg : Pkg) (newpkg : Option Pkg) (name file : CStr) (buf : Stat)
    (s : σ) :
    (unlinkDirectory disk host oldpkg newpkg name file buf s).2 = s ∨
      filesInDirectory disk s (file ++ [slash]) = 0 ∧
        (unlinkDirectory disk host oldpkg newpkg name file buf s).2 =
          (disk.rmdir (file ++ [slash]) s).2 := by
  unfold unlinkDirectory
  dsimp only
  split_ifs with long files new mounted owned
  · exact .inl rfl
  · exact .inl rfl
  · exact .inl rfl
  · exact .inl rfl
  · exact .inl rfl
  · exact .inr ⟨not_not.mp files, rfl⟩

theorem unlinkFile_effect (oldpkg : Pkg) (newpkg : Option Pkg) (name : CStr) (s : σ) :
    UnlinkEffect disk host oldpkg name s (unlinkFile disk host oldpkg newpkg name s).2 := by
  unfold unlinkFile
  dsimp only
  split
  · exact .none
  split
  · exact .none
  · rename_i buf there
    split_ifs with directory modified
    · rcases unlinkDirectory_disk oldpkg newpkg name (removedPath host name) buf s with
        same | ⟨empty, gone⟩
      · rw [same]
        exact .none
      · rw [gone]
        exact .rmdir buf there directory empty
    · exact .save buf there directory (Bool.and_eq_true_iff.mp modified).2
    · exact .unlink buf there directory (Bool.not_eq_true _ ▸ modified)

theorem MovedTail.numbered {file tail : CStr} {s : σ} (moved : MovedTail disk host file s tail) :
    PacsaveTail tail := moved.imp_right fun ⟨n, _, _, eq⟩ => ⟨n, eq⟩

theorem shiftPacsave_keeps (inv : σ → Prop) {file : CStr} {s : σ}
    (renames : ∀ s' tail tail', MovedTail disk host file s tail → MovedTail disk host file s tail' →
      inv s' → inv (disk.rename (file ++ pacsave ++ tail) (file ++ pacsave ++ tail') s').2)
    (start : inv s) : inv (shiftPacsave disk host file s) := by
  have numbered : ∀ n < lastPacsave disk host file s, ∀ s', inv s' →
      ∀ result, shiftNumbered disk file n s' = result → inv result.2 := by
    rintro n small s' start result rfl
    induction n generalizing s' with
    | zero => exact start
    | succ i ih =>
      unfold shiftNumbered
      split
      · exact start
      · apply ih (by omega)
        have moved := renames s' (cstr "." ++ decimal (i + 1)) (cstr "." ++ decimal (i + 2))
          (.inr ⟨i + 1, by omega, by omega, rfl⟩) (.inr ⟨i + 2, by omega, by omega, rfl⟩) start
        simpa only [pacsaveNumbered, append_assoc] using moved
  unfold shiftPacsave
  split
  · exact start
  next matches_ compiled =>
  split
  · exact start
  next names listed =>
  dsimp only
  have last : (if pacsaveLogMax host matches_ (mbasename file) names + 1 < 2 ^ 64 then
      pacsaveLogMax host matches_ (mbasename file) names else 0) < lastPacsave disk host file s := by
    simp only [lastPacsave, compiled, listed, Nat.lt_succ_self]
  split
  next stopped => exact numbered _ last s start _ stopped
  next s' shifted =>
    have kept : inv s' := numbered _ last s start _ shifted
    split_ifs
    · exact kept
    · have moved := renames s' [] (cstr "." ++ decimal 1) (.inl rfl)
        (.inr ⟨1, Nat.one_pos, Nat.one_le_of_lt last, rfl⟩) kept
      simpa only [pacsaveNumbered, append_assoc, append_nil] using moved
    · exact kept

end

end Dulge
