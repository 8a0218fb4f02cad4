import Dulge.FileExtraction
import Dulge.MapDisk

/-! Files in `NoUpgrade`. What is assumed of the file system is a frame for the file: its
content changes only through calls that touch it. Removal and extraction leave the file alone
wherever they know it by its own name; what they do under other names is up to the entries. -/

namespace Dulge

open Machine

/-- The calls that may change a file. A path touches the file if at some time it names the
file, or a link or directory through which the file is found; extraction writes to the file
if its path does so or leads through the file. -/
structure FileFrame {σ γ : Type} (disk : Disk σ γ) (κ : Type) (file : CStr) where
  content : σ → Option κ
  Touches : CStr → Prop
  Writes : ArchiveEntry γ → CStr → Prop
  regular : ∀ {s c}, content s = some c →
    endsInSlash file = false ∧ ∃ buf, disk.lstat s file = .ok buf ∧ buf.kind = .regular
  unlink : ∀ {s c path}, ¬ Touches path → content s = some c →
    content (disk.unlink path s).2 = some c
  rmdir : ∀ {s c path}, ¬ Touches path → content s = some c →
    content (disk.rmdir path s).2 = some c
  rename : ∀ {s c src dest}, ¬ Touches src → ¬ Touches dest → content s = some c →
    content (disk.rename src dest s).2 = some c
  extract : ∀ {s c entry path}, ¬ Writes entry path → content s = some c →
    content (disk.performExtraction entry path s).2 = some c

section

variable {σ γ κ : Type} {disk : Disk σ γ} {host : FileHost}

/-- What is at the path of an entry of the old package is not to be removed, or it is a
directory with files, or neither it nor its `.pacsave` files are on the way to the file. -/
def HarmlessRemoval {file : CStr} (frame : FileFrame disk κ file) (host : FileHost)
    (newpkg : Option Pkg) (st : FileRemoval σ) (name : CStr) : Prop :=
  let path := removedPath host name
  shouldSkipFile host newpkg name = true ∨
    (∀ buf, disk.llstat st.disk path = .ok buf → buf.kind = .directory ∧
      filesInDirectory disk st.disk (path ++ [slash]) ≠ 0) ∨
    ¬ frame.Touches path ∧ ¬ frame.Touches (path ++ [slash]) ∧
      ∀ tail, PacsaveTail tail → ¬ frame.Touches (path ++ pacsave ++ tail)

/-- An entry of the new package is not extracted, or it is the file itself and no directory, or
neither it nor its `.pacnew` file is on the way to the file. -/
def HarmlessExtraction {file : CStr} (frame : FileFrame disk κ file) (host : FileHost) (newpkg : Pkg)
    (f : CStr) (st : FileExtraction σ) (entry : ArchiveEntry γ) : Prop :=
  let path := host.root ++ entry.pathname
  if entry.pathname.head? = some 46 then
    ∀ filename, dbFile host newpkg entry.pathname = some filename → ¬ frame.Writes entry filename
  else
    entry.pathname ∉ (host.files newpkg).names ∨
      fnmatchPatterns host.fnmatch host.noextract entry.pathname = 0 ∨
      (∃ buf, disk.llstat st.disk path = .ok buf ∧ buf.kind = .directory) ∨
      (entry.pathname = f ∧ entry.directory = false ∧ ¬ frame.Writes entry (path ++ pacnew)) ∨
      ¬ frame.Writes entry path ∧ ¬ frame.Writes entry (path ++ pacnew) ∧
        ¬ frame.Touches path ∧ ¬ frame.Touches (path ++ pacnew)

variable {file : CStr} {c : κ} {s : σ}

theorem UnlinkEffect.keeps {frame : FileFrame disk κ file} {oldpkg : Pkg} {name : CStr} {s' : σ}
    (effect : UnlinkEffect disk host oldpkg name s s')
    (apart : (∀ buf, disk.llstat s (removedPath host name) = .ok buf → buf.kind = .directory ∧
      filesInDirectory disk s (removedPath host name ++ [slash]) ≠ 0) ∨
      ¬ frame.Touches (removedPath host name) ∧ ¬ frame.Touches (removedPath host name ++ [slash]) ∧
      ∀ tail, PacsaveTail tail → ¬ frame.Touches (removedPath host name ++ pacsave ++ tail))
    (there : frame.content s = some c) : frame.content s' = some c := by
  cases effect with
  | none => exact there
  | rmdir buf found directory empty =>
    rcases apart with busy | ⟨_, dir, _⟩
    · exact absurd empty (busy buf found).2
    · exact frame.rmdir dir there
  | save buf found notDirectory modified =>
    rcases apart with busy | ⟨path, _, saved⟩
    · exact absurd (busy buf found).1 notDirectory
    · apply frame.rename path
      · have plain := saved [] (.inl rfl)
        rwa [List.append_nil] at plain
      · apply shiftPacsave_keeps (fun s => frame.content s = some c) _ there
        intro s tail tail' source target before
        exact frame.rename (saved tail source.numbered) (saved tail' target.numbered) before
  | unlink buf found notDirectory lost =>
    rcases apart with busy | ⟨path, _, _⟩
    · exact absurd (busy buf found).1 notDirectory
    · exact frame.unlink path there

theorem removeFileTurn_keeps (frame : FileFrame disk κ file) (oldpkg : Pkg) (newpkg : Option Pkg)
    (st : FileRemoval σ) (name : CStr) (there : frame.content st.disk = some c)
    (harmless : HarmlessRemoval frame host newpkg st name) :
    frame.content (removeFileTurn disk host oldpkg newpkg st name).disk = some c := by
  unfold removeFileTurn
  split
  · exact there
  · rename_i kept
    exact (unlinkFile_effect oldpkg newpkg name st.disk).keeps (harmless.resolve_left kept) there

theorem FileFrame.llstat_file (frame : FileFrame disk κ file) (there : frame.content s = some c) :
    ∃ buf, disk.llstat s file = .ok buf ∧ buf.kind = .regular := by
  obtain ⟨plain, buf, found, kind⟩ := frame.regular there
  refine ⟨buf, ?_, kind⟩
  rw [Disk.llstat, stripSlashes_of_plain plain]
  exact found

theorem placement_of_noupgrade {f : CStr} (frame : FileFrame disk κ (host.root ++ f))
    (there : frame.content s = some c) (matched : fnmatchPatterns host.fnmatch host.noupgrade f = 0)
    (oldpkg : Option Pkg) {entry : ArchiveEntry γ} (backup : Option Backup)
    (same : entry.pathname = f) (plain : entry.directory = false) :
    placement disk host oldpkg entry backup (host.root ++ entry.pathname) s = .notouch := by
  obtain ⟨buf, found, kind⟩ := frame.llstat_file there
  rw [same]
  simp [placement, overwritePlacement, found, kind, plain, same, matched]

theorem placement_of_directory {path : CStr} {buf : Stat} (found : disk.llstat s path = .ok buf)
    (directory : buf.kind = .directory) (oldpkg : Option Pkg) (entry : ArchiveEntry γ)
    (backup : Option Backup) :
    ∃ errors, placement disk host oldpkg entry backup path s = .skip errors := by
  unfold placement
  rw [found]
  dsimp only
  rw [if_pos directory]
  split
  · exact ⟨0, rfl⟩
  · exact ⟨1, rfl⟩

theorem ExtractEffect.keeps {frame : FileFrame disk κ file} {entry : ArchiveEntry γ} {path : CStr}
    {s' : σ} {place : Placement} (effect : ExtractEffect disk entry path s place s')
    (direct : place = .direct → ¬ frame.Writes entry path)
    (beside : ¬ frame.Writes entry (path ++ pacnew))
    (compared : ∀ hashOrig, place = .compare hashOrig → ¬ frame.Touches path ∧
      ¬ frame.Touches (path ++ pacnew)) (there : frame.content s = some c) :
    frame.content s' = some c := by
  cases effect with
  | none => exact there
  | direct => exact frame.extract (direct rfl) there
  | beside => exact frame.extract beside there
  | discard hashOrig =>
    exact frame.unlink (compared hashOrig rfl).2 (frame.extract beside there)
  | install hashOrig extracted agree =>
    obtain ⟨inPlace, aside⟩ := compared hashOrig rfl
    exact frame.rename aside inPlace (frame.extract beside there)

theorem extractEntryTurn_keeps {f : CStr} (frame : FileFrame disk κ (host.root ++ f))
    (matched : fnmatchPatterns host.fnmatch host.noupgrade f = 0) (newpkg : Pkg)
    (oldpkg : Option Pkg) (st : FileExtraction σ) (entry : ArchiveEntry γ)
    (there : frame.content st.disk = some c)
    (harmless : HarmlessExtraction frame host newpkg f st entry) :
    frame.content (extractEntryTurn disk host newpkg oldpkg st entry).disk = some c := by
  change frame.content (extractSingleFile disk host newpkg oldpkg entry st.backup st.disk).2.1 =
    some c
  unfold HarmlessExtraction at harmless
  rcases extractSingleFile_cases disk host newpkg oldpkg entry st.backup st.disk with
    same | ⟨filename, dotted, found, moved⟩ | ⟨plain, listed, wanted, effect⟩
  · rw [same]
    exact there
  · rw [if_pos dotted] at harmless
    rw [moved]
    exact frame.extract (harmless filename found) there
  · rw [if_neg plain] at harmless
    rcases harmless with unlisted | excluded | ⟨buf, found, directory⟩ | ⟨same, file, beside⟩ |
      ⟨inPlace, beside, path, aside⟩
    · exact absurd listed unlisted
    · exact absurd excluded wanted
    · obtain ⟨errors, skipped⟩ : ∃ errors, placement disk host oldpkg entry
          (needbackup entry.pathname st.backup) (host.root ++ entry.pathname) st.disk =
            .skip errors :=
        placement_of_directory found directory oldpkg entry _
      rw [skipped] at effect
      rw [effect.of_skip]
      exact there
    · rw [placement_of_noupgrade frame there matched oldpkg _ same file] at effect
      apply effect.keeps _ beside _ there
      · intro direct
        cases direct
      · intro hashOrig compared
        cases compared
    · apply effect.keeps _ beside _ there
      · exact fun _ => inPlace
      · exact fun _ _ => ⟨path, aside⟩

def HarmlessRemovals {file : CStr} (frame : FileFrame disk κ file) (host : FileHost) (oldpkg : Pkg)
    (newpkg : Option Pkg) (s : σ) : Prop :=
  EveryStep (removeFileTurn disk host oldpkg newpkg) (HarmlessRemoval frame host newpkg)
    ⟨s, 0⟩ (removalSteps disk host oldpkg newpkg s)

def HarmlessExtractions {f : CStr} (frame : FileFrame disk κ (host.root ++ f)) (oldpkg newpkg : Pkg)
    (entries : List (ArchiveEntry γ)) (s : σ) : Prop :=
  EveryStep (extractEntryTurn disk host newpkg (some oldpkg)) (HarmlessExtraction frame host newpkg f)
    (beforeExtraction disk host oldpkg newpkg s) entries

theorem removal_keeps (frame : FileFrame disk κ file) (oldpkg : Pkg) (newpkg : Option Pkg) (s : σ)
    (there : frame.content s = some c) (harmless : HarmlessRemovals frame host oldpkg newpkg s) :
    EveryState (removeFileTurn disk host oldpkg newpkg) (fun st => frame.content st.disk = some c)
        ⟨s, 0⟩ (removalSteps disk host oldpkg newpkg s) ∧
      frame.content (removePackageFiles disk host oldpkg newpkg s).2 = some c := by
  have every := everyState_of_everyStep
    (fun st name => removeFileTurn_keeps frame oldpkg newpkg st name) there harmless
  refine ⟨every, ?_⟩
  rw [removePackageFiles_disk]
  exact every.last

/-- A file in `NoUpgrade` keeps its content through every removal and every upgrade of a
package, at each step, if the entries are harmless when their turn comes. -/
theorem noupgrade_untouched {f : CStr} (frame : FileFrame disk κ (host.root ++ f)) {c : κ}
    (matched : fnmatchPatterns host.fnmatch host.noupgrade f = 0) (oldpkg : Pkg) (s : σ)
    (there : frame.content s = some c) : (∀ newpkg, HarmlessRemovals frame host oldpkg newpkg s →
      EveryState (removeFileTurn disk host oldpkg newpkg) (fun st => frame.content st.disk = some c)
          ⟨s, 0⟩ (removalSteps disk host oldpkg newpkg s) ∧
        frame.content (removePackageFiles disk host oldpkg newpkg s).2 = some c) ∧
    ∀ newpkg entries, HarmlessRemovals frame host oldpkg (some newpkg) s →
      HarmlessExtractions frame oldpkg newpkg entries s →
        EveryState (extractEntryTurn disk host newpkg (some oldpkg))
            (fun st => frame.content st.disk = some c) (beforeExtraction disk host oldpkg newpkg s)
              entries ∧
          frame.content (upgradeFiles disk host oldpkg newpkg entries s).disk = some c := by
  refine ⟨fun newpkg harmless => removal_keeps frame oldpkg newpkg s there harmless, ?_⟩
  intro newpkg entries removed extracted
  have start := (removal_keeps frame oldpkg (some newpkg) s there removed).2
  have every := everyState_of_everyStep
    (fun st entry => extractEntryTurn_keeps frame matched newpkg (some oldpkg) st entry) start
      extracted
  exact ⟨every, every.last⟩

end

/-- In a map, a file changes only through a path at it or above it, and through an extraction to
a path at it or below it. -/
def mapFrame {κ : Type} [DecidableEq κ] (system : MapSystem κ) (file : CStr) :
    FileFrame (mapDisk system) κ file where
  content tree := tree.fileAt file
  Touches path := components path <+: components file
  Writes _ path := components file <+: components path
  regular := by
    intro tree c there
    obtain ⟨plain, node⟩ := Tree.fileAt_eq_some.mp there
    refine ⟨plain, ⟨.regular, system.device (components file)⟩, ?_, rfl⟩
    simp only [mapDisk, MapSystem.stat, node]
  unlink := by
    intro tree c path apart there
    have other : components file ≠ components path := by
      intro same
      rw [same] at apart
      exact apart List.prefix_rfl
    rw [Tree.fileAt_eq_some] at there ⊢
    rw [mapDisk_unlink_node other]
    exact there
  rmdir := by
    intro tree c path _ there
    rw [Tree.fileAt_eq_some] at there ⊢
    have file : tree.node (components file) ≠ some .directory := by
      rw [there.2]
      simp
    rw [mapDisk_rmdir_node file]
    exact there
  rename := by
    intro tree c src dest source target there
    rw [Tree.fileAt_eq_some] at there ⊢
    rw [mapDisk_rename_node source target]
    exact there
  extract := by
    intro tree c entry path apart there
    rw [Tree.fileAt_eq_some] at there ⊢
    rw [mapDisk_extract_node apart]
    exact there

def etcHost : FileHost := FileHost.plain (fun _ => etcFiles) (fun _ => []) [cstr "etc/c"]

def etcFrame : FileFrame (mapDisk numberSystem) Nat (etcHost.root ++ cstr "etc/c") :=
  mapFrame numberSystem _

theorem etc_removals : HarmlessRemovals etcFrame etcHost etcOld (some etcNew) (etcTree 7) := by
  have steps : removalSteps (mapDisk numberSystem) etcHost etcOld (some etcNew) (etcTree 7) =
      [cstr "etc/c", cstr "etc/"] := by decide +kernel
  unfold HarmlessRemovals
  rw [steps, everyStep_cons, everyStep_cons]
  refine ⟨.inl (by decide +kernel), .inr (.inl ?_), everyStep_nil⟩
  intro buf found
  refine ⟨?_, by decide +kernel⟩
  rcases mapDisk_llstat_ok found with ⟨directory, _⟩ | ⟨_, content, node⟩
  · exact directory
  · have etc : (etcTree 7).node [cstr "etc"] = some .directory := by decide +kernel
    exact absurd (etc.symm.trans node) (by simp)

theorem etc_extractions : HarmlessExtractions etcFrame etcOld etcNew etcEntries (etcTree 7) := by
  unfold HarmlessExtractions etcEntries
  rw [everyStep_cons, everyStep_cons]
  refine ⟨?_, ?_, everyStep_nil⟩
  · unfold HarmlessExtraction
    rw [if_neg (by decide)]
    exact .inr (.inr (.inl ⟨⟨.directory, 0⟩, by decide +kernel, rfl⟩))
  · unfold HarmlessExtraction
    rw [if_neg (by decide)]
    refine .inr (.inr (.inr (.inl ⟨rfl, rfl, ?_⟩)))
    change ¬ components (cstr "/etc/c") <+: components (cstr "/etc/c.pacnew")
    decide +kernel

theorem noupgrade_untouched_etc : (etcTree 7).fileAt (cstr "/etc/c") = some 7 ∧
      (upgradeFiles (mapDisk numberSystem) etcHost etcOld etcNew etcEntries (etcTree 7)).disk.fileAt
        (cstr "/etc/c") = some 7 := by
  have there : etcFrame.content (etcTree 7) = some 7 := by
    change (etcTree 7).fileAt (cstr "/etc/c") = some 7
    decide +kernel
  have kept := noupgrade_untouched etcFrame (by decide +kernel) etcOld (etcTree 7) there
  exact ⟨there, (kept.2 etcNew etcEntries etc_removals etc_extractions).2⟩

/-- A directory `etc/c/` that the old package lists names the user's file `etc/c`, but not to the
patterns of `NoUpgrade`. -/
def slashHost : FileHost :=
  FileHost.plain (fun _ => slashFiles) (fun _ => []) [cstr "etc/c"]

theorem removePackageFiles_removes_noupgrade :
    fnmatchPatterns slashHost.fnmatch slashHost.noupgrade (cstr "etc/c") = 0 ∧
      (etcTree 7).fileAt (cstr "/etc/c") = some 7 ∧
      (removePackageFiles (mapDisk numberSystem) slashHost etcOld none (etcTree 7)).2.fileAt
        (cstr "/etc/c") = none := by
  decide +kernel

end Dulge
