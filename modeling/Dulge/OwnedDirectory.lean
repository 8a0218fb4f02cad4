import Dulge.LinkDisk
import Dulge.SavedPaths

/-! Directories that another package owns, when a package is removed or replaced. A directory on
the disk is kept if another package lists it under the same name. A symbolic link is not: it is
removed like a file, whoever lists it. -/

namespace Dulge
open Links Machine List

section

variable {σ γ : Type} (disk : Disk σ γ) (host : FileHost)

/-- The tests of `unlink_file` by which a directory is kept. -/
def DirectoryStays (oldpkg : Pkg) (newpkg : Option Pkg) (name file : CStr) (buf : Stat) (s : σ) :
    Prop :=
  file.length ≥ pathMax - 1 ∨
    filesInDirectory disk s (file ++ [slash]) ≠ 0 ∨
    filelistContains (newpkg.map host.files) name = true ∨
    dirIsMountpoint disk s (file ++ [slash]) (some buf) = true ∨
    ownedByOther host oldpkg name = true

/-- The turn of an entry gets as far as finding something at its path. -/
structure Attempted (newpkg : Option Pkg) (name : CStr) (s : σ) (buf : Stat) : Prop where
  notSkipped : shouldSkipFile host newpkg name = false
  nonempty : host.root ++ name ≠ []
  fits : (host.root ++ name).length < pathMax
  there : disk.llstat s (removedPath host name) = .ok buf

variable {disk host} {oldpkg : Pkg} {newpkg : Option Pkg} {name : CStr} {s : σ} {buf : Stat}

theorem unlinkDirectory_stays {file : CStr}
    (stays : DirectoryStays disk host oldpkg newpkg name file buf s) :
    (unlinkDirectory disk host oldpkg newpkg name file buf s).2 = s := by
  unfold unlinkDirectory
  dsimp only
  split_ifs with long files new mounted owned
  · rfl
  · rfl
  · rfl
  · rfl
  · rfl
  · rcases stays with h | h | h | h | h
    · exact absurd h long
    · exact absurd h files
    · exact absurd h new
    · exact absurd h mounted
    · exact absurd h owned

theorem unlinkDirectory_goes {file : CStr}
    (goes : ¬ DirectoryStays disk host oldpkg newpkg name file buf s) :
    (unlinkDirectory disk host oldpkg newpkg name file buf s).2 =
      (disk.rmdir (file ++ [slash]) s).2 := by
  unfold DirectoryStays at goes
  push Not at goes
  obtain ⟨short, files, new, mounted, owned⟩ := goes
  unfold unlinkDirectory
  rw [if_neg (Nat.not_le.mpr short), if_neg (not_not.mpr files), if_neg new, if_neg mounted,
    if_neg owned]
  rfl

theorem removeFileTurn_idle {st : FileRemoval σ}
    (idle : ∀ buf, ¬ Attempted disk host newpkg name st.disk buf) :
    (removeFileTurn disk host oldpkg newpkg st name).disk = st.disk := by
  unfold removeFileTurn
  split
  · rfl
  · rename_i notSkipped
    dsimp only
    unfold unlinkFile
    dsimp only
    split
    · rfl
    · rename_i fits
      push Not at fits
      split
      · rfl
      · rename_i buf there
        exact absurd ⟨Bool.eq_false_of_not_eq_true notSkipped, ne_nil_of_length_pos
          (Nat.pos_of_ne_zero fits.1), fits.2, there⟩ (idle buf)

theorem removeFileTurn_attempted {st : FileRemoval σ}
    (attempted : Attempted disk host newpkg name st.disk buf) :
    (removeFileTurn disk host oldpkg newpkg st name).disk = if buf.kind = .directory then
        (unlinkDirectory disk host oldpkg newpkg name (removedPath host name) buf st.disk).2
      else if !host.nosave && backupModified disk host oldpkg name (removedPath host name)
        st.disk then
        (disk.rename (removedPath host name) (removedPath host name ++ pacsave)
          (shiftPacsave disk host (removedPath host name) st.disk)).2
      else (disk.unlink (removedPath host name) st.disk).2 := by
  have long : ¬ ((host.root ++ name).length = 0 ∨ (host.root ++ name).length ≥ pathMax) := by
    rw [length_eq_zero_iff, not_or]
    exact ⟨attempted.nonempty, Nat.not_le.mpr attempted.fits⟩
  unfold removeFileTurn
  rw [if_neg (Bool.eq_false_iff.mp attempted.notSkipped)]
  dsimp only
  unfold unlinkFile
  simp only [if_neg long, attempted.there]
  split_ifs <;> rfl

theorem ownedByOther_of_listed {other : Pkg} (installed : other ∈ dbGetPkgcache host.dbLocal)
    (distinct : other.name ≠ oldpkg.name) (listed : name ∈ (host.files other).names) :
    ownedByOther host oldpkg name = true := by
  refine any_eq_true.mpr ⟨other, installed, ?_⟩
  have named : strcmp oldpkg.name other.name ≠ 0 := fun same => distinct (strcmp_eq_zero.mp same).symm
  rw [filelistContains_some.mpr listed, decide_eq_false named, Bool.and_false]
  rfl

end

section

variable {κ : Type} (system : LinkSystem κ)

/-- A call that names `file` may change a place on the way to `path`. -/
def OnWay (tree : LinkTree κ) (file path : CStr) : Prop :=
  ∃ place ∈ system.way tree path, system.Changes tree file place

/-- The places that matter for `path` while `file` is saved: those on the ways to `path`, to
`file` and to the directory of the `.pacsave` files. -/
def LinkSystem.watched (tree : LinkTree κ) (path file : CStr) : List (List CStr) :=
  system.way tree path ++ (system.way tree file ++ system.dirWay tree (file ++ pacsave))

variable {system} {tree tree' : LinkTree κ} {path file : CStr}

theorem stat_of_removes (removes : system.Removes tree file tree')
    (apart : ¬ OnWay system tree file path) :
    system.stat false tree' path = system.stat false tree path :=
  system.stat_eq fun key mem => removes.nodeAt fun changes => apart ⟨key, mem, changes⟩

theorem LinkSystem.watched_closed (tree : LinkTree κ) (path file : CStr) :
    Links.Closed (system.watched tree path file) :=
  (walk_closed _ _).append ((walk_closed _ _).append (walk_closed _ _))

theorem LinkSystem.copy_entry {tail : CStr} (whole : slash ∉ tail)
    (same : ∀ key ∈ system.dirWay tree (file ++ pacsave), tree'.nodeAt key = tree.nodeAt key) :
    system.entry tree' (file ++ pacsave ++ tail) = system.entry tree (file ++ pacsave ++ tail) := by
  obtain ⟨side, part, stem⟩ := exists_stem file
  have parts {tail : CStr} (whole : slash ∉ tail) : pathSteps (file ++ pacsave ++ tail) =
      side.map (fun part => if part = cstr "." then .stay else if part = cstr ".." then .up
        else .name part) ++ [.name (part ++ (pacsave ++ tail))] := by
    have long : 8 ≤ (part ++ (pacsave ++ tail)).length := by
      rw [length_append, length_append]
      have eight : pacsave.length = 8 := by decide
      omega
    have notDot : part ++ (pacsave ++ tail) ≠ cstr "." := fun same => by
      rw [same] at long
      exact absurd long (by decide)
    have notDots : part ++ (pacsave ++ tail) ≠ cstr ".." := fun same => by
      rw [same] at long
      exact absurd long (by decide)
    rw [pathSteps, saved_key stem whole, map_append, map_singleton, if_neg notDot, if_neg notDots]
  have above := parts (not_mem_nil (a := slash))
  rw [append_nil] at above
  unfold LinkSystem.dirWay at same
  rw [above, dropLast_concat] at same
  unfold LinkSystem.entry LinkSystem.walk
  rw [parts whole]
  exact walk_concat _ system.links [] _ same

def Fewer (tree' tree : LinkTree κ) : Prop :=
  ∀ key, tree'.nodeAt key = none ∨ tree'.nodeAt key = tree.nodeAt key

theorem Fewer.refl (tree : LinkTree κ) : Fewer tree tree := fun _ => .inr rfl

theorem Fewer.trans {first second third : LinkTree κ} (fewer : Fewer third second)
    (before : Fewer second first) : Fewer third first := by
  intro key
  rcases fewer key with none | same
  · exact .inl none
  · rw [same]
    exact before key

end

section

variable {κ : Type} [DecidableEq κ] (system : LinkSystem κ) (host : FileHost)

/-- No `.pacsave` file of `file` that is moved is at one of the places that matter. -/
def CopiesApart (tree : LinkTree κ) (path file : CStr) : Prop :=
  ∀ tail, MovedTail (linkDisk system) host file tree tail →
    ∀ place, system.Changes tree (file ++ pacsave ++ tail) place →
      place ∉ system.watched tree path file

def DirectoryThere (tree : LinkTree κ) (path : CStr) : Prop :=
  ∃ buf, (linkDisk system).llstat tree path = .ok buf ∧ (buf.kind = .directory ∨ buf.kind = .symlink)

/-- The entry `name` does not take away what is at the path of `entry`, as the disk is before its
turn. -/
def SparesDirectory (oldpkg : Pkg) (newpkg : Option Pkg) (entry : CStr) (tree : LinkTree κ)
    (name : CStr) : Prop :=
  ∀ buf, Attempted (linkDisk system) host newpkg name tree buf →
    if buf.kind = .directory then
      name = entry ∨
        DirectoryStays (linkDisk system) host oldpkg newpkg name (removedPath host name) buf tree ∨
        ¬ OnWay system tree (removedPath host name) (removedPath host entry)
    else
      (endsInSlash (removedPath host name) = true ∨
        ¬ OnWay system tree (removedPath host name) (removedPath host entry)) ∧
      ((!host.nosave && backupModified (linkDisk system) host oldpkg name (removedPath host name)
        tree) = true →
        CopiesApart system host tree (removedPath host entry) (removedPath host name))

variable {system host} {tree tree' : LinkTree κ} {path file : CStr}

theorem DirectoryThere.congr (there : DirectoryThere system tree path)
    (same : system.stat false tree' path = system.stat false tree path) :
    DirectoryThere system tree' path := by
  unfold DirectoryThere at there ⊢
  rw [linkDisk_llstat] at there ⊢
  rwa [same]

theorem stat_of_llstat {buf : Stat} (found : (linkDisk system).llstat tree path = .ok buf) :
    system.stat false tree path = some buf := by
  rw [linkDisk_llstat] at found
  split at found
  · cases found
  · cases found
    assumption

/-! What one turn keeps. -/

theorem shiftPacsave_watched (apart : CopiesApart system host tree path file) :
    ∀ key ∈ system.watched tree path file,
      (shiftPacsave (linkDisk system) host file tree).nodeAt key = tree.nodeAt key := by
  refine shiftPacsave_keeps
    (fun later : LinkTree κ => ∀ key ∈ system.watched tree path file, later.nodeAt key =
      tree.nodeAt key) ?_
    fun _ _ => rfl
  intro later tail tail' numbered numbered' same key mem
  have above {tail : CStr} (moved : MovedTail (linkDisk system) host file tree tail)
    (place : List CStr)
      (changes : system.Changes later (file ++ pacsave ++ tail) place) : ¬ place <+: key := by
    intro below
    have entry := system.copy_entry moved.numbered.whole fun key mem =>
      same key (mem_append_right _ (mem_append_right _ mem))
    have before : system.Changes tree (file ++ pacsave ++ tail) place :=
      ⟨entry.symm.trans changes.1, changes.2⟩
    exact apart tail moved place before
      (system.watched_closed tree path file key mem place changes.2.1 below)
  rw [linkDisk_rename_nodeAt (above numbered) (above numbered'), same key mem]

theorem stat_of_saved {buf : Stat} (found : system.stat false tree file = some buf)
    (plain : buf.kind ≠ .directory) (copies : CopiesApart system host tree path file)
    (apart : endsInSlash file = true ∨ ¬ OnWay system tree file path) :
    system.stat false ((linkDisk system).rename file (file ++ pacsave)
      (shiftPacsave (linkDisk system) host file tree)).2 path = system.stat false tree path := by
  generalize shifted : shiftPacsave (linkDisk system) host file tree = later
  have same : ∀ key ∈ system.watched tree path file, later.nodeAt key = tree.nodeAt key :=
    shifted ▸ shiftPacsave_watched copies
  have onPath : ∀ key ∈ system.way tree path, later.nodeAt key = tree.nodeAt key :=
    fun key mem => same key (mem_append_left _ mem)
  have onFile : ∀ key ∈ system.way tree file, later.nodeAt key = tree.nodeAt key :=
    fun key mem => same key (mem_append_right _ (mem_append_left _ mem))
  have saved : system.entry later (file ++ pacsave) = system.entry tree (file ++ pacsave) := by
    have entry := system.copy_entry (not_mem_nil (a := slash)) fun key mem =>
      same key (mem_append_right _ (mem_append_right _ mem))
    rwa [append_nil] at entry
  rcases apart with ends | apart
  · rw [linkDisk_rename_slash ends ((system.stat_eq onFile).trans found) plain]
    exact system.stat_eq onPath
  · refine system.stat_eq fun key mem => ?_
    rw [linkDisk_rename_nodeAt, onPath key mem]
    · intro place changes below
      have entry : system.entry tree file = some place := by
        rw [← changes.1]
        exact congrArg Walked.found (system.walk_eq onFile).symm
      exact apart ⟨place, walk_closed _ _ key mem place changes.2.1 below, entry, changes.2⟩
    · intro place changes below
      refine copies [] (.inl rfl) place ?_ (system.watched_closed tree path file key
        (mem_append_left _ mem) place changes.2.1 below)
      rw [append_nil]
      exact ⟨saved.symm.trans changes.1, changes.2⟩

section

variable {oldpkg : Pkg} {newpkg : Option Pkg} {entry name : CStr}

theorem SparesDirectory.stat {st : FileRemoval (LinkTree κ)}
    (owned : ownedByOther host oldpkg entry = true)
    (spares : SparesDirectory system host oldpkg newpkg entry st.disk name) :
    system.stat false (removeFileTurn (linkDisk system) host oldpkg newpkg st name).disk
      (removedPath host entry) =
      system.stat false st.disk (removedPath host entry) := by
  by_cases idle : ∀ buf, ¬ Attempted (linkDisk system) host newpkg name st.disk buf
  · rw [removeFileTurn_idle idle]
  push Not at idle
  obtain ⟨buf, attempted⟩ := idle
  have spared := spares buf attempted
  rw [removeFileTurn_attempted attempted]
  split_ifs at spared ⊢ with directory saved
  · by_cases stays : DirectoryStays (linkDisk system) host oldpkg newpkg name
      (removedPath host name) buf st.disk
    · rw [unlinkDirectory_stays stays]
    · rw [unlinkDirectory_goes stays]
      rcases spared with rfl | kept | apart
      · exact absurd (.inr (.inr (.inr (.inr owned)))) stays
      · exact absurd kept stays
      · refine stat_of_removes (linkDisk_rmdir st.disk _) fun ⟨place, mem, changes⟩ => ?_
        exact apart ⟨place, mem, (system.entry_slash _ _).symm.trans changes.1, changes.2⟩
  · exact stat_of_saved (stat_of_llstat attempted.there) directory (spared.2 saved) spared.1
  · rcases spared.1 with ends | apart
    · rw [linkDisk_unlink_slash ends]
    · exact stat_of_removes (linkDisk_unlink st.disk _) apart

theorem everyState_directoryThere (owned : ownedByOther host oldpkg entry = true)
    (there : DirectoryThere system tree (removedPath host entry)) {names : List CStr}
    (spares : EveryStep (removeFileTurn (linkDisk system) host oldpkg newpkg)
      (fun st name => SparesDirectory system host oldpkg newpkg entry st.disk name) ⟨tree, 0⟩ names) :
    EveryState (removeFileTurn (linkDisk system) host oldpkg newpkg)
      (fun st => DirectoryThere system st.disk (removedPath host entry)) ⟨tree, 0⟩ names := by
  refine everyState_of_everyStep ?_ ?_ spares
  · intro st name here good
    exact here.congr (good.stat owned)
  · exact there

/-! Where nothing is saved, places are only emptied, and a path that is there at the end was
spared by every turn. -/

def Unsaved (host : FileHost) (oldpkg : Pkg) : Prop :=
  host.nosave = true ∨ ∀ name ∈ (host.files oldpkg).names, needbackup name (host.backup oldpkg) = none

theorem Unsaved.notSaved (unsaved : Unsaved host oldpkg) (listed : name ∈ (host.files oldpkg).names)
    (tree : LinkTree κ) (file : CStr) :
    (!host.nosave && backupModified (linkDisk system) host oldpkg name file tree) = false := by
  rcases unsaved with nosave | none
  · rw [nosave]
    rfl
  · rw [backupModified, none name listed]
    exact Bool.and_false _

theorem removeFileTurn_fewer (unsaved : Unsaved host oldpkg)
    (listed : name ∈ (host.files oldpkg).names) (st : FileRemoval (LinkTree κ)) :
    Fewer (removeFileTurn (linkDisk system) host oldpkg newpkg st name).disk st.disk := by
  by_cases idle : ∀ buf, ¬ Attempted (linkDisk system) host newpkg name st.disk buf
  · rw [removeFileTurn_idle idle]
    exact Fewer.refl _
  push Not at idle
  obtain ⟨buf, attempted⟩ := idle
  rw [removeFileTurn_attempted attempted, unsaved.notSaved listed, if_neg Bool.false_ne_true]
  split_ifs with directory
  · rcases unlinkDirectory_disk oldpkg newpkg name (removedPath host name) buf st.disk with
      same | ⟨_, gone⟩
    · rw [same]
      exact Fewer.refl _
    · rw [gone]
      exact (linkDisk_rmdir st.disk _).fewer
  · exact (linkDisk_unlink st.disk _).fewer

theorem run_fewer (unsaved : Unsaved host oldpkg) {names : List CStr}
    (listed : ∀ name ∈ names, name ∈ (host.files oldpkg).names) (st : FileRemoval (LinkTree κ)) :
    Fewer (run (removeFileTurn (linkDisk system) host oldpkg newpkg) st names).disk st.disk := by
  induction names generalizing st with
  | nil => exact Fewer.refl _
  | cons name names ih =>
    have later := ih (fun other mem => listed other (mem_cons_of_mem name mem))
      (removeFileTurn (linkDisk system) host oldpkg newpkg st name)
    exact later.trans (removeFileTurn_fewer unsaved (listed name mem_cons_self) st)

theorem Fewer.way (fewer : Fewer tree' tree) (there : DirectoryThere system tree' path) :
    ∀ key ∈ system.way tree path, tree'.nodeAt key ≠ none := by
  obtain ⟨buf, found, _⟩ := there
  obtain ⟨place, node, ends, here, _⟩ := system.stat_some (stat_of_llstat found)
  have full : ∀ key ∈ system.way tree' path, tree'.nodeAt key ≠ none := by
    refine walk_full system.links [] (pathSteps path) ?_
    rw [Walked.node, show (Links.walk tree'.nodeAt false system.links [] (pathSteps path)).found =
      some place
      from ends, Option.bind_some, here]
    rfl
  have same : ∀ key ∈ system.way tree' path, tree.nodeAt key = tree'.nodeAt key := fun key mem =>
    ((fewer key).resolve_left (full key mem)).symm
  unfold LinkSystem.way
  rw [system.walk_eq same]
  exact full

theorem sparesDirectory_of_fewer (unsaved : Unsaved host oldpkg)
    (listed : name ∈ (host.files oldpkg).names) {st : FileRemoval (LinkTree κ)}
    (fewer : Fewer tree' (removeFileTurn (linkDisk system) host oldpkg newpkg st name).disk)
    (there : DirectoryThere system tree' (removedPath host entry)) :
    SparesDirectory system host oldpkg newpkg entry st.disk name := by
  intro buf attempted
  have full := (fewer.trans (removeFileTurn_fewer unsaved listed st)).way there
  have kept {place : List CStr} (mem : place ∈ system.way st.disk (removedPath host entry)) :
      (removeFileTurn (linkDisk system) host oldpkg newpkg st name).disk.nodeAt place ≠ none := by
    intro gone
    rcases fewer place with empty | same
    · exact full place mem empty
    · exact full place mem (same.trans gone)
  obtain ⟨key, node, ends, here, kind⟩ := system.stat_some (stat_of_llstat attempted.there)
  rw [removeFileTurn_attempted attempted, unsaved.notSaved listed, if_neg Bool.false_ne_true] at kept
  split_ifs at kept ⊢ with directory
  · by_cases stays : DirectoryStays (linkDisk system) host oldpkg newpkg name
      (removedPath host name) buf st.disk
    · exact .inr (.inl stays)
    · refine .inr (.inr fun ⟨place, mem, changes⟩ => kept mem ?_)
      cases ends.symm.trans changes.1
      have empty : filesInDirectory (linkDisk system) st.disk (removedPath host name ++ [slash]) =
          0 :=
        not_not.mp fun files => stays (.inr (.inl files))
      have dir : st.disk.nodeAt key = some .directory := by
        rw [directory] at kind
        cases node with
        | directory => exact here
        | file content => cases kind
        | link target => cases kind
      have slashed := (system.entry_slash st.disk (removedPath host name)).trans ends
      rw [unlinkDirectory_goes stays]
      exact linkDisk_rmdir_gone ⟨slashed, changes.2⟩ dir
        (linkDisk_children_of_empty slashed dir empty)
  · refine ⟨?_, fun saved => absurd (saved.symm.trans (unsaved.notSaved listed _ _)) (by decide)⟩
    by_cases slashed : endsInSlash (removedPath host name) = true
    · exact .inl slashed
    · refine .inr fun ⟨place, mem, changes⟩ => kept mem ?_
      cases ends.symm.trans changes.1
      refine linkDisk_unlink_gone changes (Bool.eq_false_of_not_eq_true slashed) here ?_
      rintro rfl
      exact directory kind

end

end

/-- Where another package lists a directory, a removal or an upgrade keeps it, as a directory or as
a link, if every turn spares it; and if nothing is saved, only then. -/
theorem removePackageFiles_keeps_directory {κ : Type} [DecidableEq κ] (system : LinkSystem κ)
    (host : FileHost) (oldpkg : Pkg) (newpkg : Option Pkg) (other : Pkg) (entry : CStr)
    (tree : LinkTree κ) (installed : other ∈ dbGetPkgcache host.dbLocal)
    (distinct : other.name ≠ oldpkg.name) (listed : entry ∈ (host.files other).names)
    (there : DirectoryThere system tree (removedPath host entry)) :
    (EveryStep (removeFileTurn (linkDisk system) host oldpkg newpkg)
        (fun st name => SparesDirectory system host oldpkg newpkg entry st.disk name) ⟨tree, 0⟩
        (removalSteps (linkDisk system) host oldpkg newpkg tree) →
      DirectoryThere system (removePackageFiles (linkDisk system) host oldpkg newpkg tree).2
        (removedPath host entry)) ∧ (Unsaved host oldpkg →
      DirectoryThere system (removePackageFiles (linkDisk system) host oldpkg newpkg tree).2
        (removedPath host entry) → EveryStep (removeFileTurn (linkDisk system) host oldpkg newpkg)
        (fun st name => SparesDirectory system host oldpkg newpkg entry st.disk name) ⟨tree, 0⟩
        (removalSteps (linkDisk system) host oldpkg newpkg tree)) := by
  have owned := ownedByOther_of_listed installed distinct listed
  rw [removePackageFiles_disk]
  constructor
  · intro spares
    exact (everyState_directoryThere owned there spares).last
  · intro unsaved still done name rest split
    have names : ∀ input ∈ name :: rest, input ∈ (host.files oldpkg).names := by
      intro input member
      apply mem_names_of_removalSteps (linkDisk system) host
      rw [split]
      exact mem_append_right done member
    rw [split, run, foldl_append] at still
    refine sparesDirectory_of_fewer unsaved (names name mem_cons_self) ?_ still
    exact run_fewer unsaved (fun input member => names input (mem_cons_of_mem name member)) _

def openSystem : LinkSystem Nat where
  md5 content := List.replicate content 49
  readonly _ := false
  device _ := 0
  permits _ := true
  links := 8

/-- Another package than `etcOld`. -/
def srvOther : Pkg := Pkg.bare 2 (cstr "q") (cstr "1")

/-- Both packages are installed and list the directory `srv`; `etcOld` has a file in it. -/
def srvHost : FileHost :=
  { FileHost.plain (fun pkg =>
      if pkg = etcOld then ⟨[cstr "srv/", cstr "srv/a"], by unfold Comparator.Sorted; decide⟩
      else ⟨[cstr "srv/"], pairwise_singleton _ _⟩) (fun _ => []) [] with
    dbLocal := Db.populate [etcOld, srvOther] }

def srvTree : LinkTree Nat :=
  (LinkTree.empty.set [cstr "srv"] (some .directory)).set [cstr "srv", cstr "a"] (some (.file 7))

/-- The directory has been moved to `data`, and a link put in its place. -/
def srvLinked : LinkTree Nat :=
  ((LinkTree.empty.set [cstr "data"] (some .directory)).set [cstr "data", cstr "a"]
    (some (.file 7))).set
    [cstr "srv"] (some (.link ⟨true, [.name (cstr "data")]⟩))

theorem removePackageFiles_keeps_srv :
    DirectoryThere openSystem (removePackageFiles (linkDisk openSystem) srvHost etcOld none srvTree).2
      (removedPath srvHost (cstr "srv/")) := by
  refine (removePackageFiles_keeps_directory openSystem srvHost etcOld none srvOther
    (cstr "srv/") srvTree
    (by decide +kernel) (by decide +kernel) (by decide +kernel)
    ⟨⟨.directory, 0⟩, by decide +kernel, .inl rfl⟩).1 ?_
  have steps : removalSteps (linkDisk openSystem) srvHost etcOld none srvTree =
      [cstr "srv/a", cstr "srv/"] := by decide +kernel
  rw [steps, everyStep_cons, everyStep_cons]
  refine ⟨?_, ?_, everyStep_nil⟩
  · intro buf attempted
    have found : (linkDisk openSystem).llstat srvTree (removedPath srvHost (cstr "srv/a")) =
        .ok ⟨.regular, 0⟩ := by decide +kernel
    cases found.symm.trans attempted.there
    refine ⟨.inr ?_, fun saved => absurd saved (by decide +kernel)⟩
    rintro ⟨place, member, ends, _⟩
    have here : openSystem.entry srvTree (removedPath srvHost (cstr "srv/a")) =
        some [cstr "srv", cstr "a"] := by decide +kernel
    cases here.symm.trans ends
    exact absurd member (by decide +kernel)
  · intro buf attempted
    have found : (linkDisk openSystem).llstat
        (removeFileTurn (linkDisk openSystem) srvHost etcOld none ⟨srvTree, 0⟩ (cstr "srv/a")).disk
        (removedPath srvHost (cstr "srv/")) = .ok ⟨.directory, 0⟩ := by decide +kernel
    cases found.symm.trans attempted.there
    exact .inl rfl

/-- A link that stands for a directory of two packages goes with one of them. -/
theorem removePackageFiles_takes_link :
    srvOther ∈ dbGetPkgcache srvHost.dbLocal ∧ srvOther.name ≠ etcOld.name ∧
      cstr "srv/" ∈ (srvHost.files srvOther).names ∧
      DirectoryThere openSystem srvLinked (removedPath srvHost (cstr "srv/")) ∧
      ¬ DirectoryThere openSystem
        (removePackageFiles (linkDisk openSystem) srvHost etcOld none srvLinked).2
        (removedPath srvHost (cstr "srv/")) := by
  refine ⟨by decide +kernel, by decide +kernel, by decide +kernel,
    ⟨⟨.symlink, 0⟩, by decide +kernel, .inr rfl⟩, ?_⟩
  rintro ⟨buf, found, _⟩
  have gone : (linkDisk openSystem).llstat
      (removePackageFiles (linkDisk openSystem) srvHost etcOld none srvLinked).2
      (removedPath srvHost (cstr "srv/")) = .error .noent := by decide +kernel
  rw [gone] at found
  cases found

end Dulge
