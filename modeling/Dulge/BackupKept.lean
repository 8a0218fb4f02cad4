import Dulge.SavedPaths

/-! Configuration files with changes of the user, through the upgrade of a package. On a disk
without links, the content of such a file is at the path of the file or at its `.pacsave` path
at every step, as long as no entry names the file by another name. -/

namespace Dulge

open Machine Function List

/-- A file `f` that the user has changed to `c`, and the upgrade of a package that has it in its
backup list. -/
structure Edited {κ : Type} (system : MapSystem κ) (host : FileHost) (oldpkg newpkg : Pkg)
    (entries : List (ArchiveEntry (Payload κ))) (f : CStr) (c : κ) : Prop where
  rootSlash : endsInSlash host.root = true
  nosave : host.nosave = false
  hashed : ∀ backup ∈ host.backup oldpkg, backup.hash.isSome = true
  unmarked : ∀ name, name ∈ (host.files oldpkg).names ∨ name ∈ (host.files newpkg).names →
    ¬ pacsave <:+: name ∧ ¬ pacnew <:+: name
  alone : ∀ name ∈ (host.files newpkg).names, components f <+: components name →
    components name = components f
  listed : (f ∈ (host.files oldpkg).names ∧ ∃ backup ∈ host.backup oldpkg, backup.name = f) ∨
    f ∈ (host.files newpkg).names ∧ ∃ backup ∈ host.backup newpkg, backup.name = f
  shipped : ∀ entry ∈ entries, entry.pathname = f → entry.data.content ≠ c
  injective : Set.InjOn system.md5
    (insert c {content | ∃ entry ∈ entries, entry.data.content = content})
  recorded : ∀ backup, needbackup f (host.backup oldpkg) = some backup →
    backup.hash ≠ some (system.md5 c)

section

variable {κ : Type} {system : MapSystem κ} {host : FileHost} {oldpkg newpkg : Pkg}
  {entries : List (ArchiveEntry (Payload κ))} {f : CStr} {c : κ} {tree tree' : Tree κ}
  (edited : Edited system host oldpkg newpkg entries f c)
  (plain : endsInSlash (host.root ++ f) = false)

include edited in
theorem Edited.file_unmarked : ¬ pacsave <:+: f ∧ ¬ pacnew <:+: f := by
  rcases edited.listed with ⟨listed, _⟩ | ⟨listed, _⟩
  · exact edited.unmarked f (.inl listed)
  · exact edited.unmarked f (.inr listed)

/-- The content is at the path of the file or at its `.pacsave` path. -/
def Kept (host : FileHost) (f : CStr) (c : κ) (tree : Tree κ) : Prop :=
  tree.fileAt (host.root ++ f) = some c ∨ tree.fileAt (host.root ++ f ++ pacsave) = some c

include plain in
theorem kept_iff :
    Kept host f c tree ↔ tree.node (components (host.root ++ f)) = some (.file c) ∨
      tree.node (components (host.root ++ f ++ pacsave)) = some (.file c) := by
  have saved : endsInSlash (host.root ++ f ++ pacsave) = false := by
    rw [endsInSlash_append pacsave_ne_nil]
    decide
  simp only [Kept, Tree.fileAt_eq_some, plain, saved, true_and]

/-- The content is at the path of the file, or at the `.pacsave` path and no file at its path. -/
def SavedAt (host : FileHost) (f : CStr) (c : κ) (tree : Tree κ) : Prop :=
  tree.node (components (host.root ++ f)) = some (.file c) ∨
    tree.node (components (host.root ++ f)) = none ∧
      tree.node (components (host.root ++ f ++ pacsave)) = some (.file c)

include plain in
theorem SavedAt.kept (saved : SavedAt host f c tree) : Kept host f c tree :=
  (kept_iff plain).mpr (saved.imp id And.right)

variable {name path : CStr} {key : List CStr} {entry : ArchiveEntry (Payload κ)}
  {backup : Option Backup}

include edited plain in
theorem Edited.apart (listed : name ∈ (host.files newpkg).names)
    (other : components (host.root ++ name) ≠ components (host.root ++ f)) :
    ¬ components (host.root ++ f) <+: components (host.root ++ name) ∧
      ¬ components (host.root ++ f) <+: components (host.root ++ name ++ pacnew) := by
  obtain ⟨front, last, place⟩ := exists_place edited.rootSlash plain
  have inPlace : ¬ components (host.root ++ f) <+: components (host.root ++ name) := by
    intro above
    apply other
    rw [components_root edited.rootSlash, components_root edited.rootSlash] at above ⊢
    rw [edited.alone name listed ((prefix_append_right_inj _).mp above)]
  exact ⟨inPlace, fun above => inPlace (prefix_of_prefix_pacnew edited.file_unmarked.2 place above)⟩

include edited in
theorem Edited.backed {backups : List Backup}
    (names : backups.map Backup.name = (host.backup newpkg).map Backup.name) :
    (needbackup f (host.backup oldpkg)).isSome = true ∨ (needbackup f backups).isSome = true := by
  rcases edited.listed with ⟨_, inOld⟩ | ⟨_, inNew⟩
  · exact .inl (needbackup_isSome.mpr inOld)
  · right
    rw [needbackup_isSome_names names]
    exact needbackup_isSome.mpr inNew

variable [DecidableEq κ]

theorem shiftPacsave_node {file : CStr}
    (apart : ∀ tail, PacsaveTail tail → ¬ components (file ++ pacsave ++ tail) <+: key) :
    (shiftPacsave (mapDisk system) host file tree).node key = tree.node key := by
  apply shiftPacsave_keeps (fun s : Tree κ => s.node key = tree.node key)
  · intro s tail tail' source target before
    rw [mapDisk_rename_node (apart tail source.numbered) (apart tail' target.numbered)]
    exact before
  · rfl

theorem UnlinkEffect.node_of_other
    (effect : UnlinkEffect (mapDisk system) host oldpkg name tree tree')
    (file : tree.node key ≠ some .directory) (other : key ≠ components (removedPath host name))
    (saved : ∀ tail, PacsaveTail tail →
      ¬ components (removedPath host name ++ pacsave ++ tail) <+: key) :
    tree'.node key = tree.node key := by
  cases effect with
  | none => rfl
  | rmdir buf there directory empty => exact mapDisk_rmdir_node file
  | save buf there notDirectory modified =>
    rcases mapDisk_llstat_ok there with ⟨directory, _⟩ | ⟨_, content, node⟩
    · exact absurd directory notDirectory
    have still : (shiftPacsave (mapDisk system) host (removedPath host name) tree).node
        (components (removedPath host name)) = some (.file content) := by
      rw [shiftPacsave_node fun tail => saved_not_above_self name]
      exact node
    have beside : key ≠ components (removedPath host name ++ pacsave) := by
      rintro rfl
      apply saved [] (.inl rfl)
      rw [append_nil]
    rw [mapDisk_rename_file still, update_of_ne beside, update_of_ne other]
    exact shiftPacsave_node saved
  | unlink buf there notDirectory lost => exact mapDisk_unlink_node other

include edited plain in
theorem UnlinkEffect.saved_of_other (mem : name ∈ (host.files oldpkg).names)
    (effect : UnlinkEffect (mapDisk system) host oldpkg name tree tree')
    (other : components (host.root ++ name) ≠ components (host.root ++ f))
    (saved : SavedAt host f c tree) : SavedAt host f c tree' := by
  obtain ⟨front, last, place⟩ := exists_place edited.rootSlash plain
  have key := components_removedPath host name
  have atFile : tree.node (components (host.root ++ f)) ≠ some .directory →
      tree'.node (components (host.root ++ f)) = tree.node (components (host.root ++ f)) := by
    intro file
    apply effect.node_of_other file
    · rw [key]
      exact other.symm
    · exact fun tail => saved_not_above edited.rootSlash edited.file_unmarked.1 name
  rcases saved with there | ⟨gone, there⟩
  · left
    rw [atFile (by rw [there]; simp)]
    exact there
  · right
    refine ⟨(atFile (by rw [gone]; simp)).trans gone, ?_⟩
    rw [effect.node_of_other (by rw [there]; simp) _ _]
    · exact there
    · rw [key]
      intro same
      apply not_below_saved edited.rootSlash place (edited.unmarked name (.inl mem)).1
      rw [same]
    · exact fun tail => saved_not_above_saved edited.rootSlash edited.file_unmarked.1 place name other

include edited in
theorem Edited.modified (unskipped : ¬ shouldSkipFile host (some newpkg) f = true)
    (there : tree.node (components (host.root ++ f)) = some (.file c))
    (key : components path = components (host.root ++ f)) :
    backupModified (mapDisk system) host oldpkg f path tree = true := by
  have inOld : ∃ backup ∈ host.backup oldpkg, backup.name = f := by
    rcases edited.listed with ⟨_, backed⟩ | ⟨listed, backed⟩
    · exact backed
    · exfalso
      apply unskipped
      unfold shouldSkipFile
      simp [needbackup_isSome.mpr backed, filelistContains_some.mpr listed]
  obtain ⟨backup, found⟩ := Option.isSome_iff_exists.mp (needbackup_isSome.mpr inOld)
  obtain ⟨hash, recorded⟩ :=
    Option.isSome_iff_exists.mp (edited.hashed backup (needbackup_some found).1)
  rw [← key] at there
  unfold backupModified
  rw [found, mapDisk_md5sum there]
  dsimp only
  rw [recorded]
  apply decide_eq_true
  intro same
  apply edited.recorded backup found
  rw [recorded, strcmp_eq_zero.mp same]
  rfl

theorem UnlinkEffect.of_absent (effect : UnlinkEffect (mapDisk system) host oldpkg name tree tree')
    (gone : tree.node (components (removedPath host name)) = .none) : tree' = tree := by
  have absent : ∀ buf, (mapDisk system).llstat tree (removedPath host name) ≠ .ok buf := by
    intro buf found
    rcases mapDisk_llstat_ok found with ⟨_, node⟩ | ⟨_, content, node⟩
    · rw [gone] at node
      cases node
    · rw [gone] at node
      cases node
  cases effect with
  | none => rfl
  | rmdir buf found => exact absurd found (absent buf)
  | save buf found => exact absurd found (absent buf)
  | unlink buf found => exact absurd found (absent buf)

include edited plain in
/-- The entry of the file itself leaves the content or moves it to the `.pacsave` path. -/
theorem UnlinkEffect.saved_of_same (unskipped : ¬ shouldSkipFile host (some newpkg) f = true)
    (effect : UnlinkEffect (mapDisk system) host oldpkg f tree tree')
    (there : tree.node (components (host.root ++ f)) = some (.file c)) :
    SavedAt host f c tree' := by
  have path : removedPath host f = host.root ++ f := by
    unfold removedPath
    dsimp only
    rw [plain]
    rfl
  cases effect with
  | none => exact .inl there
  | rmdir buf found directory empty =>
    rw [path] at found
    rcases mapDisk_llstat_ok found with ⟨_, node⟩ | ⟨file, _⟩
    · rw [there] at node
      cases node
    · rw [directory] at file
      cases file
  | save buf found notDirectory modified =>
    obtain ⟨front, last, place⟩ := exists_place edited.rootSlash plain
    have still : (shiftPacsave (mapDisk system) host (removedPath host f) tree).node
        (components (removedPath host f)) = some (.file c) := by
      rw [shiftPacsave_node fun tail => saved_not_above_self f, path]
      exact there
    have beside : components (host.root ++ f) ≠ components (host.root ++ f ++ pacsave) := by
      intro same
      apply not_below_saved edited.rootSlash place edited.file_unmarked.1
      rw [same]
    right
    rw [mapDisk_rename_file still, path]
    constructor
    · rw [update_of_ne beside, update_self]
    · rw [update_self]
  | unlink buf found notDirectory lost =>
    -- a changed file in the backup list is renamed instead
    rw [edited.nosave, edited.modified unskipped there (by rw [path])] at lost
    cases lost

/-- The state in which an entry of the old package is removed: when the content is at the path of
the file, an entry with that path is the file itself or is skipped. -/
def CarefulRemoval (host : FileHost) (newpkg : Pkg) (f : CStr) (c : κ) (st : FileRemoval (Tree κ))
    (name : CStr) : Prop :=
  st.disk.fileAt (host.root ++ f) = some c →
    components (host.root ++ name) = components (host.root ++ f) →
      name = f ∨ shouldSkipFile host (some newpkg) name = true

include edited plain in
theorem removeFileTurn_saves (st : FileRemoval (Tree κ)) (name : CStr)
    (saved : SavedAt host f c st.disk)
    (careful : name ∈ (host.files oldpkg).names ∧ CarefulRemoval host newpkg f c st name) :
    SavedAt host f c (removeFileTurn (mapDisk system) host oldpkg (some newpkg) st name).disk := by
  obtain ⟨mem, careful⟩ := careful
  unfold removeFileTurn
  split
  · exact saved
  rename_i unskipped
  have effect : UnlinkEffect (mapDisk system) host oldpkg name st.disk _ :=
    unlinkFile_effect oldpkg (some newpkg) name st.disk
  dsimp only
  by_cases same : components (host.root ++ name) = components (host.root ++ f)
  · rcases saved with there | ⟨gone, there⟩
    · rcases careful (Tree.fileAt_eq_some.mpr ⟨plain, there⟩) same with rfl | skipped
      · exact effect.saved_of_same edited plain unskipped there
      · exact absurd skipped unskipped
    -- already saved, so nothing is left to remove at the path
    · rw [← same, ← components_removedPath] at gone
      rw [effect.of_absent gone]
      rw [components_removedPath, same] at gone
      exact .inr ⟨gone, there⟩
  · exact effect.saved_of_other edited plain mem same saved

/-- Placing an entry leaves alone what is neither at its path or its `.pacnew` path nor on the
way there. -/
theorem ExtractEffect.node_of_other {place : Placement}
    (effect : ExtractEffect (mapDisk system) entry path tree place tree')
    (plain : ∀ hashOrig, place = .compare hashOrig → entry.directory = false)
    (other : ¬ key <+: components path) (beside : ¬ key <+: components (path ++ pacnew)) :
    tree'.node key = tree.node key := by
  have atPath : key ≠ components path := by
    rintro rfl
    exact other prefix_rfl
  have atPacnew : key ≠ components (path ++ pacnew) := by
    rintro rfl
    exact beside prefix_rfl
  have besideNode : (besideDisk (mapDisk system) entry path tree).node key = tree.node key :=
    mapDisk_extract_node beside
  cases effect with
  | none => rfl
  | direct => exact mapDisk_extract_node other
  | beside => exact besideNode
  | discard hashOrig => rw [mapDisk_unlink_node atPacnew, besideNode]
  | install hashOrig extracted agree =>
    have new : (besideDisk (mapDisk system) entry path tree).node (components (path ++ pacnew)) =
        some (.file entry.data.content) := mapDisk_extract_done (plain hashOrig rfl) extracted
    rw [mapDisk_rename_file new, update_of_ne atPath, update_of_ne atPacnew]
    exact besideNode

theorem overwritePlacement_compare {hashOrig : Option CStr}
    (place : overwritePlacement host (some oldpkg) name backup = .compare hashOrig) (hash : CStr)
    (given : hashOrig = some hash) :
    ∃ oldbackup, needbackup name (host.backup oldpkg) = some oldbackup ∧
      oldbackup.hash = some hash := by
  unfold overwritePlacement at place
  rw [Option.bind_some] at place
  cases found : needbackup name (host.backup oldpkg) with
  | some oldbackup =>
    simp only [found] at place
    split at place
    · cases place
    · cases place
      exact ⟨oldbackup, rfl, given⟩
  | none =>
    subst given
    simp only [found] at place
    split_ifs at place
    cases place

theorem overwritePlacement_ne_direct
    (backed : (needbackup name (host.backup oldpkg)).isSome = true ∨ backup.isSome = true) :
    overwritePlacement host (some oldpkg) name backup ≠ .direct := by
  unfold overwritePlacement
  rw [Option.bind_some]
  cases found : needbackup name (host.backup oldpkg) with
  | some oldbackup =>
    dsimp only
    split
    · exact Placement.noConfusion
    · exact Placement.noConfusion
  | none =>
    rw [found] at backed
    have inNew : backup.isSome = true := backed.resolve_left (by simp)
    dsimp only
    rw [if_pos inNew]
    split
    · exact Placement.noConfusion
    · exact Placement.noConfusion

theorem placement_compare_plain {hashOrig : Option CStr}
    (place : placement (mapDisk system) host (some oldpkg) entry backup path tree =
      .compare hashOrig) : entry.directory = false := by
  unfold placement at place
  split at place
  · cases place
  · split_ifs at place with inPlace directory directory
    exact Bool.not_eq_true _ ▸ directory

theorem placement_of_file (there : tree.node (components path) = some (.file c))
    (plain : entry.directory = false) :
    placement (mapDisk system) host (some oldpkg) entry backup path tree =
      overwritePlacement host (some oldpkg) entry.pathname backup := by
  obtain ⟨buf, found, regular⟩ := mapDisk_llstat_file system there
  simp [placement, found, regular, plain]

/-- The state in which an entry of the new package is extracted: a file of the database is not
at the two paths of the content or below, and when the content is at the path of the file, an
entry with that path is the file itself and no directory. -/
def CarefulExtraction (host : FileHost) (newpkg : Pkg) (f : CStr) (c : κ)
    (st : FileExtraction (Tree κ)) (entry : ArchiveEntry (Payload κ)) : Prop :=
  (∀ filename, entry.pathname.head? = some 46 → dbFile host newpkg entry.pathname = some filename →
    ¬ components (host.root ++ f) <+: components filename ∧
      ¬ components (host.root ++ f ++ pacsave) <+: components filename) ∧
  (st.disk.fileAt (host.root ++ f) = some c → entry.pathname ∈ (host.files newpkg).names →
    components (host.root ++ entry.pathname) = components (host.root ++ f) →
      entry.pathname = f ∧ entry.directory = false)

theorem sameHash_iff {hash1 hash2 : Option CStr} :
    sameHash hash1 hash2 = true ↔ ∃ hash, hash1 = some hash ∧ hash2 = some hash := by
  cases hash1 with
  | none => simp [sameHash]
  | some one =>
    cases hash2 with
    | none => simp [sameHash]
    | some two => simp [sameHash, strcmp_eq_zero, eq_comm]

include edited plain in
theorem ExtractEffect.kept_of_same (mem : entry ∈ entries) (same : entry.pathname = f)
    (file : entry.directory = false)
    (backed : (needbackup f (host.backup oldpkg)).isSome = true ∨ backup.isSome = true)
    (there : tree.node (components (host.root ++ f)) = some (.file c))
    (effect : ExtractEffect (mapDisk system) entry (host.root ++ f) tree (overwritePlacement host
      (some oldpkg) f backup) tree') :
    tree'.node (components (host.root ++ f)) = some (.file c) := by
  obtain ⟨front, last, place⟩ := exists_place edited.rootSlash plain
  have atPacnew : components (host.root ++ f) ≠ components (host.root ++ f ++ pacnew) := by
    intro equal
    apply place.not_prefix_pacnew
    rw [← equal]
  have beside : (besideDisk (mapDisk system) entry (host.root ++ f) tree).node
      (components (host.root ++ f)) = some (.file c) :=
    (mapDisk_extract_node place.not_prefix_pacnew).trans there
  generalize placed : overwritePlacement host (some oldpkg) f backup = placement at effect
  cases effect with
  | none => exact there
  | direct => exact absurd placed (overwritePlacement_ne_direct backed)
  | beside => exact beside
  | discard hashOrig => rw [mapDisk_unlink_node atPacnew, beside]
  | install hashOrig extracted agree =>
    -- the file is replaced only if its content is the new or the original one
    exfalso
    have new : (besideDisk (mapDisk system) entry (host.root ++ f) tree).node
        (components (host.root ++ f ++ pacnew)) = some (.file entry.data.content) :=
      mapDisk_extract_done file extracted
    dsimp only at agree
    rw [mapDisk_md5sum beside, mapDisk_md5sum new] at agree
    rcases agree with unchanged | original
    · obtain ⟨hash, ours, theirs⟩ := sameHash_iff.mp unchanged
      have equal : system.md5 entry.data.content = system.md5 c :=
        Option.some.inj (theirs.trans ours.symm)
      have shipped : entry.data.content ∈
          insert c {content | ∃ entry ∈ entries, entry.data.content = content} :=
        Set.mem_insert_of_mem c ⟨entry, mem, rfl⟩
      exact edited.shipped entry mem same (edited.injective shipped (Set.mem_insert c _) equal)
    · obtain ⟨hash, recorded, ours⟩ := sameHash_iff.mp original
      obtain ⟨oldbackup, found, same⟩ := overwritePlacement_compare placed hash recorded
      exact edited.recorded oldbackup found (same.trans ours.symm)

def Guarded (host : FileHost) (newpkg : Pkg) (f : CStr) (c : κ) (st : FileExtraction (Tree κ)) :
    Prop :=
  Kept host f c st.disk ∧ st.backup.map Backup.name = (host.backup newpkg).map Backup.name

include edited plain in
theorem extractEntryTurn_guards (st : FileExtraction (Tree κ)) (entry : ArchiveEntry (Payload κ))
    (guarded : Guarded host newpkg f c st)
    (careful : entry ∈ entries ∧ CarefulExtraction host newpkg f c st entry) :
    Guarded host newpkg f c
      (extractEntryTurn (mapDisk system) host newpkg (some oldpkg) st entry) := by
  obtain ⟨kept, names⟩ := guarded
  obtain ⟨mem, database, careful⟩ := careful
  obtain ⟨front, last, place⟩ := exists_place edited.rootSlash plain
  refine ⟨?_, (extractSingleFile_names newpkg (some oldpkg) entry st.backup st.disk).trans names⟩
  change Kept host f c
    (extractSingleFile (mapDisk system) host newpkg (some oldpkg) entry st.backup st.disk).2.1
  rcases extractSingleFile_cases (mapDisk system) host newpkg (some oldpkg) entry st.backup
    st.disk with
    same | ⟨filename, dotted, found, moved⟩ | ⟨_, listed, _, effect⟩
  · rw [same]
    exact kept
  · obtain ⟨inPlace, saved⟩ := database filename dotted found
    rw [moved]
    rw [kept_iff plain] at kept ⊢
    rw [mapDisk_extract_node inPlace, mapDisk_extract_node saved]
    exact kept
  · have unmarked := (edited.unmarked entry.pathname (.inr listed)).1
    rw [kept_iff plain] at kept ⊢
    rcases kept with there | there
    -- in place: only the file's own entry has its path
    · left
      by_cases same : components (host.root ++ entry.pathname) = components (host.root ++ f)
      · obtain ⟨same, file⟩ := careful (Tree.fileAt_eq_some.mpr ⟨plain, there⟩) listed same
        rw [same, placement_of_file there file, same] at effect
        exact effect.kept_of_same edited plain mem same file (edited.backed names) there
      · obtain ⟨inPlace, beside⟩ := edited.apart plain listed same
        rw [effect.node_of_other (fun _ => placement_compare_plain) inPlace beside]
        exact there
    -- saved: no entry has a path with `.pacsave`
    · right
      rw [effect.node_of_other (fun _ => placement_compare_plain)
        (not_below_saved edited.rootSlash place unmarked)
        (pacnew_not_below_saved edited.rootSlash place unmarked)]
      exact there

def CarefulRemovals (system : MapSystem κ) (host : FileHost) (oldpkg newpkg : Pkg) (f : CStr) (c : κ)
    (tree : Tree κ) : Prop :=
  EveryStep (removeFileTurn (mapDisk system) host oldpkg (some newpkg))
    (CarefulRemoval host newpkg f c)
    ⟨tree, 0⟩ (removalSteps (mapDisk system) host oldpkg (some newpkg) tree)

def CarefulExtractions (system : MapSystem κ) (host : FileHost) (oldpkg newpkg : Pkg)
    (entries : List (ArchiveEntry (Payload κ))) (f : CStr) (c : κ) (tree : Tree κ) : Prop :=
  EveryStep (extractEntryTurn (mapDisk system) host newpkg (some oldpkg))
    (CarefulExtraction host newpkg f c) (beforeExtraction (mapDisk system) host oldpkg newpkg tree)
      entries

include edited plain in
theorem removal_saves (saved : SavedAt host f c tree)
    (removals : CarefulRemovals system host oldpkg newpkg f c tree) :
    EveryState (removeFileTurn (mapDisk system) host oldpkg (some newpkg))
      (fun st => SavedAt host f c st.disk) ⟨tree, 0⟩
      (removalSteps (mapDisk system) host oldpkg (some newpkg) tree) := by
  have keeps : ∀ (st : FileRemoval (Tree κ)) name, SavedAt host f c st.disk →
      name ∈ removalSteps (mapDisk system) host oldpkg (some newpkg) tree ∧
        CarefulRemoval host newpkg f c st name →
      SavedAt host f c (removeFileTurn (mapDisk system) host oldpkg (some newpkg) st name).disk := by
    intro st name before careful
    exact removeFileTurn_saves edited plain st name before
      ⟨mem_names_of_removalSteps _ _ careful.1, careful.2⟩
  exact everyState_of_everyStep keeps saved removals.with_mem

/-- A configuration file that the user has changed is there in its place or as `.pacsave` at
every step of an upgrade, if no entry names it by another name when its turn comes. -/
theorem edited_file_kept (edited : Edited system host oldpkg newpkg entries f c)
    (there : tree.fileAt (host.root ++ f) = some c)
    (removals : CarefulRemovals system host oldpkg newpkg f c tree)
    (extractions : CarefulExtractions system host oldpkg newpkg entries f c tree) :
    EveryState (removeFileTurn (mapDisk system) host oldpkg (some newpkg))
        (fun st => Kept host f c st.disk) ⟨tree, 0⟩
        (removalSteps (mapDisk system) host oldpkg (some newpkg) tree) ∧
      EveryState (extractEntryTurn (mapDisk system) host newpkg (some oldpkg))
        (fun st => Kept host f c st.disk)
          (beforeExtraction (mapDisk system) host oldpkg newpkg tree) entries ∧
      Kept host f c (upgradeFiles (mapDisk system) host oldpkg newpkg entries tree).disk := by
  obtain ⟨plain, node⟩ := Tree.fileAt_eq_some.mp there
  have removed := removal_saves edited plain (.inl node) removals
  have start : Guarded host newpkg f c
      (beforeExtraction (mapDisk system) host oldpkg newpkg tree) := by
    refine ⟨?_, rfl⟩
    unfold beforeExtraction
    dsimp only
    rw [removePackageFiles_disk]
    exact removed.last.kept plain
  have extracted := everyState_of_everyStep
    (fun st entry => extractEntryTurn_guards edited plain st entry) start extractions.with_mem
  exact ⟨removed.mono fun st saved => saved.kept plain, extracted.mono fun st guarded => guarded.1,
    extracted.last.1⟩

end

theorem numberSystem_injective : Function.Injective numberSystem.md5 := by
  intro one two same
  exact replicate_left_injective 49 same

/-- An old version with the given files and backup list, and a new one that has `etc/c` in its
backup list. -/
def etcBackupHost (files : Filelist) (backups : List Backup) : FileHost :=
  FileHost.plain (fun pkg => if pkg = etcOld then files else etcFiles)
    (fun pkg => if pkg = etcOld then backups else [⟨cstr "etc/c", none⟩]) []

theorem edited_etc {files : Filelist} {backups : List Backup}
    (unmarked : ∀ name ∈ files.names, ¬ pacsave <:+: name ∧ ¬ pacnew <:+: name)
    (recorded : ∀ backup ∈ backups, backup.hash.isSome = true ∧
      backup.hash ≠ some (numberSystem.md5 7)) :
    Edited numberSystem (etcBackupHost files backups) etcOld etcNew etcEntries (cstr "etc/c") 7 where
  rootSlash := by
    change endsInSlash (cstr "/") = true
    decide +kernel
  nosave := rfl
  hashed backup member := (recorded backup member).1
  unmarked name member := by
    have new : ∀ name ∈ etcFiles.names, ¬ pacsave <:+: name ∧ ¬ pacnew <:+: name := by decide +kernel
    exact member.elim (unmarked name) (new name)
  alone := by
    change ∀ name ∈ etcFiles.names, _
    decide +kernel
  listed := by
    right
    change cstr "etc/c" ∈ etcFiles.names ∧ ∃ backup ∈ [(⟨cstr "etc/c", none⟩ : Backup)], _
    decide +kernel
  shipped := by decide +kernel
  injective := numberSystem_injective.injOn
  recorded backup found := (recorded backup (needbackup_some found).1).2

def etcRecorded : FileHost := etcBackupHost etcFiles [⟨cstr "etc/c", some (numberSystem.md5 5)⟩]

theorem etc_careful_removals :
    CarefulRemovals numberSystem etcRecorded etcOld etcNew (cstr "etc/c") 7 (etcTree 7) := by
  have steps : removalSteps (mapDisk numberSystem) etcRecorded etcOld (some etcNew) (etcTree 7) =
      [cstr "etc/c", cstr "etc/"] := by decide +kernel
  unfold CarefulRemovals
  rw [steps, everyStep_cons, everyStep_cons]
  refine ⟨?_, ?_, everyStep_nil⟩
  · intro _ _
    exact .inl rfl
  · intro _ same
    exact absurd same (by decide +kernel)

theorem etc_careful_extractions :
    CarefulExtractions numberSystem etcRecorded etcOld etcNew etcEntries (cstr "etc/c") 7
      (etcTree 7) := by
  unfold CarefulExtractions etcEntries
  rw [everyStep_cons, everyStep_cons]
  refine ⟨⟨?_, ?_⟩, ⟨?_, ?_⟩, everyStep_nil⟩
  · intro filename dotted
    exact absurd dotted (by decide)
  · intro _ _ same
    exact absurd same (by decide +kernel)
  · intro filename dotted
    exact absurd dotted (by decide)
  · intro _ _ _
    exact ⟨rfl, rfl⟩

theorem edited_file_kept_etc : (etcTree 7).fileAt (cstr "/etc/c") = some 7 ∧
      Kept etcRecorded (cstr "etc/c") 7
        (upgradeFiles (mapDisk numberSystem) etcRecorded etcOld etcNew etcEntries
          (etcTree 7)).disk := by
  have there : (etcTree 7).fileAt (etcRecorded.root ++ cstr "etc/c") = some 7 := by decide +kernel
  have edited : Edited numberSystem etcRecorded etcOld etcNew etcEntries (cstr "etc/c") 7 :=
    edited_etc (by decide +kernel) (by decide +kernel)
  exact ⟨there, (edited_file_kept edited there etc_careful_removals etc_careful_extractions).2.2⟩

/-- The old version lists a directory `etc/c/`, so its removal takes the file away under a name
that is in no backup list, and the file of the new version comes in its place. -/
def etcReplaced : FileHost := etcBackupHost slashFiles []

theorem upgradeFiles_loses_edited :
    Edited numberSystem etcReplaced etcOld etcNew etcEntries (cstr "etc/c") 7 ∧
      (etcTree 7).fileAt (etcReplaced.root ++ cstr "etc/c") = some 7 ∧
      fnmatchPatterns etcReplaced.fnmatch etcReplaced.noupgrade (cstr "etc/c") ≠ 0 ∧
      cstr "etc/c" ∉ etcReplaced.skipRemove ∧ ¬ Kept etcReplaced (cstr "etc/c") 7
        (upgradeFiles (mapDisk numberSystem) etcReplaced etcOld etcNew etcEntries
          (etcTree 7)).disk := by
  refine ⟨edited_etc (by decide +kernel) (by decide +kernel), by decide +kernel, by decide +kernel,
    by decide +kernel, ?_⟩
  unfold Kept
  decide +kernel

end Dulge
