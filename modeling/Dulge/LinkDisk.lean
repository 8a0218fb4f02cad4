import Dulge.FileRemoval
import Dulge.MapDisk
import Dulge.Lib.Links

/-! A file system with symbolic links: a map from places to files, directories and links, where
the place of a name is the list of the directories above it and the name itself. A call looks its
path up from the root, through links. -/

namespace Dulge
open Links List Function

structure LinkTree (κ : Type) where
  node : List CStr → Option (Inode κ CStr)
  keys : List (List CStr)
  covered : ∀ key, (node key).isSome = true → key ∈ keys

/-- What the map does not say: the hash function, the files that cannot be written because
their file system is read-only, the devices of the directories, the names that may be changed,
and the number of links that a lookup may follow. -/
structure LinkSystem (κ : Type) where
  md5 : κ → CStr
  readonly : CStr → Bool
  device : List CStr → Nat
  permits : List CStr → Bool
  links : Nat

section

variable {κ : Type}

def LinkTree.empty : LinkTree κ where
  node _ := none
  keys := []
  covered := by
    intro key there
    cases there

def LinkTree.set (tree : LinkTree κ) (key : List CStr) (node : Option (Inode κ CStr)) :
    LinkTree κ where
  node := update tree.node key node
  keys := key :: tree.keys
  covered := by
    intro other there
    by_cases same : other = key
    · rw [same]
      exact mem_cons_self
    · rw [update_of_ne same] at there
      exact mem_cons_of_mem key (tree.covered other there)

/-- All that is at or below `src` goes to `dest`. -/
def LinkTree.move (tree : LinkTree κ) (src dest : List CStr) : LinkTree κ where
  node key :=
    if dest <+: key then tree.node (src ++ key.drop dest.length)
    else if src <+: key then none
    else tree.node key
  keys := tree.keys.map (fun key => dest ++ key.drop src.length) ++ tree.keys
  covered := by
    intro key there
    split_ifs at there with below left
    · obtain ⟨rest, rfl⟩ := below
      rw [drop_left] at there
      apply mem_append_left
      rw [mem_map]
      exact ⟨src ++ rest, tree.covered _ there, by rw [drop_left]⟩
    · cases there
    · exact mem_append_right _ (tree.covered key there)

def LinkTree.nodeAt (tree : LinkTree κ) (key : List CStr) : Option (Inode κ CStr) :=
  if key = [] then some .directory else tree.node key

/-- The names in a directory, other than `.` and `..`. -/
def LinkTree.children (tree : LinkTree κ) (key : List CStr) : List CStr :=
  ((tree.keys.filter fun child =>
    child ≠ [] ∧ child.dropLast = key ∧ (tree.node child).isSome).filterMap List.getLast?).filter
      fun name => ¬ (name = cstr "." ∨ name = cstr "..")

def pathSteps (path : CStr) : List (PathStep CStr) :=
  (components path).map fun part =>
    if part = cstr "." then .stay else if part = cstr ".." then .up else .name part

end

section

variable {κ : Type} (system : LinkSystem κ)

def LinkSystem.walk (follow : Bool) (tree : LinkTree κ) (path : CStr) : Walked CStr :=
  Links.walk tree.nodeAt follow system.links [] (pathSteps path)

def LinkSystem.entry (tree : LinkTree κ) (path : CStr) : Option (List CStr) :=
  (system.walk false tree path).found

def LinkSystem.way (tree : LinkTree κ) (path : CStr) : List (List CStr) :=
  (system.walk false tree path).way

def LinkSystem.dirWay (tree : LinkTree κ) (path : CStr) : List (List CStr) :=
  (Links.walk tree.nodeAt true system.links [] (pathSteps path).dropLast).way

def nodeKind : Inode κ CStr → FileKind
  | .file _ => .regular
  | .directory => .directory
  | .link _ => .symlink

def LinkSystem.stat (follow : Bool) (tree : LinkTree κ) (path : CStr) : Option Stat :=
  (system.walk follow tree path).found.bind fun key =>
    (tree.nodeAt key).map fun node => ⟨nodeKind node, system.device key⟩

/-- `rename` between two places. -/
def LinkSystem.renameAt [DecidableEq κ] (tree : LinkTree κ) (src dest : List CStr) :
    Bool × LinkTree κ :=
  match tree.node src with
  | none => (false, tree)
  | some node =>
    if src = dest then (true, tree)
    else if src = [] ∨ dest = [] ∨ system.permits src = false ∨ system.permits dest = false then
      (false, tree)
    else if node = .directory then
      if src <+: dest then (false, tree)
      else if tree.node dest = none ∨
          (tree.node dest = some .directory ∧ tree.children dest = []) then
        (true, tree.move src dest)
      else (false, tree)
    else if tree.node dest = some .directory then (false, tree)
    else (true, (tree.set src none).set dest (some node))

def linkDisk [DecidableEq κ] : Disk (LinkTree κ) (Inode κ CStr) where
  -- a slash at the end makes a call follow a link there
  lstat tree path :=
    match system.stat (endsInSlash path) tree path with
    | none => .error .noent
    | some buf => .ok buf
  stat tree path := system.stat true tree path
  readdir tree path :=
    (system.walk true tree path).found.bind fun key =>
      if tree.nodeAt key = some .directory then some (tree.children key) else none
  accessWrite _ path := if system.readonly path then .error .other else .ok ()
  accessExists tree path := (system.stat false tree path).isSome
  computeMd5sum tree path :=
    (system.walk true tree path).found.bind fun key =>
      match tree.node key with
      | some (.file content) => some (system.md5 content)
      | _ => none
  unlink path tree :=
    match system.entry tree path with
    | none => (false, tree)
    | some key =>
      if endsInSlash path ∨ key = [] ∨ system.permits key = false ∨ tree.node key = none ∨
          tree.node key = some .directory then (false, tree)
      else (true, tree.set key none)
  rmdir path tree :=
    match system.entry tree path with
    | none => (false, tree)
    | some key =>
      if key = [] ∨ system.permits key = false ∨ tree.node key ≠ some .directory ∨
          tree.children key ≠ [] then (false, tree)
      else (true, tree.set key none)
  rename src dest tree :=
    match system.entry tree src, system.entry tree dest with
    | some srcKey, some destKey =>
      -- only a directory may be named with a slash at the end
      if (endsInSlash src ∨ endsInSlash dest) ∧ tree.node srcKey ≠ some .directory then (false, tree)
      else system.renameAt tree srcKey destKey
    | _, _ => (false, tree)
  performExtraction entry path tree :=
    match system.entry tree path with
    | none => (false, tree)
    | some key =>
      if key = [] ∨ system.permits key = false then (false, tree)
      else if entry.directory ∧ tree.node key = some .directory then (true, tree)
      else (true, tree.set key (some entry.data))

end

/-! What a lookup finds. -/

section

variable {κ : Type} {system : LinkSystem κ} {tree tree' : LinkTree κ} {path : CStr}

theorem LinkTree.nodeAt_eq {key : List CStr} (same : key ≠ [] → tree'.node key = tree.node key) :
    tree'.nodeAt key = tree.nodeAt key := by
  unfold LinkTree.nodeAt
  split
  · rfl
  · rename_i inside
    exact same inside

theorem pathSteps_congr {path path' : CStr} (same : components path = components path') :
    pathSteps path = pathSteps path' := by
  unfold pathSteps
  rw [same]

theorem LinkSystem.entry_slash (tree : LinkTree κ) (path : CStr) :
    system.entry tree (path ++ [slash]) = system.entry tree path := by
  unfold LinkSystem.entry LinkSystem.walk
  rw [pathSteps_congr (components_slash path)]

theorem LinkSystem.walk_eq (same : ∀ key ∈ system.way tree path, tree'.nodeAt key = tree.nodeAt key) :
    system.walk false tree' path = system.walk false tree path :=
  walk_congr system.links [] (pathSteps path) same

theorem LinkSystem.stat_eq (same : ∀ key ∈ system.way tree path, tree'.nodeAt key = tree.nodeAt key) :
    system.stat false tree' path = system.stat false tree path := by
  unfold LinkSystem.stat
  rw [system.walk_eq same]
  cases ends : (system.walk false tree path).found with
  | none => rfl
  | some key =>
    have found : tree'.nodeAt key = tree.nodeAt key := by
      rcases walk_found system.links [] (pathSteps path) key ends with root | passed
      · rw [prefix_nil.mp root]
        rfl
      · exact same key passed
    rw [Option.bind_some, Option.bind_some, found]

theorem LinkSystem.stat_some {buf : Stat} (found : system.stat false tree path = some buf) :
    ∃ key node, system.entry tree path = some key ∧ tree.nodeAt key = some node ∧
      buf.kind = nodeKind node := by
  unfold LinkSystem.stat at found
  obtain ⟨key, ends, there⟩ := Option.bind_eq_some_iff.mp found
  obtain ⟨node, here, rfl⟩ := Option.map_eq_some_iff.mp there
  exact ⟨key, node, ends, here, rfl⟩

theorem endsInSlash_stripSlashes (path : CStr) :
    endsInSlash (stripSlashes path) = false ∨ components path = [] := by
  unfold stripSlashes
  split
  · rename_i none
    have all : ∀ c ∈ path, c = slash := by
      intro c mem
      have slashes := dropWhile_eq_nil_iff.mp (reverse_eq_nil_iff.mp none) c
        (mem_reverse.mpr mem)
      exact of_decide_eq_true slashes
    exact .inr (components_slashes all [])
  · rename_i stripped given
    refine .inl (decide_eq_false fun last => ?_)
    rw [List.getLast?_reverse] at last
    have first := List.head?_dropWhile_not (fun c => decide (c = slash)) path.reverse
    rw [last] at first
    exact absurd first (by decide)

/-! What the calls change and what they leave as it is. -/

variable {key : List CStr}

/-- A call that names `path` may change what is at `place`. -/
def LinkSystem.Changes (system : LinkSystem κ) (tree : LinkTree κ) (path : CStr) (place : List CStr) :
    Prop :=
  system.entry tree path = some place ∧ place ≠ [] ∧ system.permits place = true

inductive LinkSystem.Removes (system : LinkSystem κ) (tree : LinkTree κ) (path : CStr) :
    LinkTree κ → Prop
  | refused : system.Removes tree path tree
  | gone (place : List CStr) (opens : system.Changes tree path place) :
      system.Removes tree path (tree.set place none)

theorem LinkTree.nodeAt_set_none (inside : key ≠ []) : (tree.set key none).nodeAt key = none :=
  (if_neg inside).trans (update_self _ _ _)

theorem LinkTree.nodeAt_set_ne {place : List CStr} (node : Option (Inode κ CStr))
    (other : key ≠ place) : (tree.set place node).nodeAt key = tree.nodeAt key :=
  LinkTree.nodeAt_eq fun _ => update_of_ne other _ _

theorem LinkSystem.Removes.nodeAt (removes : system.Removes tree path tree')
    (other : ¬ system.Changes tree path key) : tree'.nodeAt key = tree.nodeAt key := by
  cases removes with
  | refused => rfl
  | gone place opens => exact LinkTree.nodeAt_set_ne none fun same => other (same ▸ opens)

theorem LinkSystem.Removes.fewer (removes : system.Removes tree path tree')
    (key : List CStr) : tree'.nodeAt key = none ∨ tree'.nodeAt key = tree.nodeAt key := by
  cases removes with
  | refused => exact .inr rfl
  | gone place opens =>
    by_cases same : key = place
    · rw [same]
      exact .inl (LinkTree.nodeAt_set_none opens.2.1)
    · exact .inr (LinkTree.nodeAt_set_ne none same)

end

section

variable {κ : Type} [DecidableEq κ] {system : LinkSystem κ} {tree : LinkTree κ}
  {path src dest : CStr} {key : List CStr}

theorem linkDisk_llstat (tree : LinkTree κ) (path : CStr) : (linkDisk system).llstat tree path =
      match system.stat false tree path with
      | none => .error .noent
      | some buf => .ok buf := by
  have same : system.stat (endsInSlash (stripSlashes path)) tree (stripSlashes path) =
      system.stat false tree path := by
    unfold LinkSystem.stat LinkSystem.walk
    rw [pathSteps_congr (components_stripSlashes path)]
    rcases endsInSlash_stripSlashes path with plain | root
    · rw [plain]
    · have none : pathSteps path = [] := by
        unfold pathSteps
        rw [root]
        rfl
      rw [none, walk_nil, walk_nil]
  rw [← same]
  rfl

theorem linkDisk_unlink (tree : LinkTree κ) (path : CStr) :
    system.Removes tree path ((linkDisk system).unlink path tree).2 := by
  simp only [linkDisk]
  split
  · exact .refused
  · rename_i place ends
    split_ifs with refused
    · exact .refused
    · push Not at refused
      exact .gone place ⟨ends, refused.2.1, Bool.eq_true_of_not_eq_false refused.2.2.1⟩

theorem linkDisk_rmdir (tree : LinkTree κ) (path : CStr) :
    system.Removes tree path ((linkDisk system).rmdir path tree).2 := by
  simp only [linkDisk]
  split
  · exact .refused
  · rename_i place ends
    split_ifs with refused
    · exact .refused
    · push Not at refused
      exact .gone place ⟨ends, refused.1, Bool.eq_true_of_not_eq_false refused.2.1⟩

theorem linkDisk_unlink_gone (opens : system.Changes tree path key)
    (plain : endsInSlash path = false) {node : Inode κ CStr} (there : tree.nodeAt key = some node)
    (file : node ≠ .directory) : ((linkDisk system).unlink path tree).2.nodeAt key = none := by
  obtain ⟨ends, inside, permitted⟩ := opens
  have here : tree.node key = some node := (if_neg inside).symm.trans there
  have allowed : ¬ (endsInSlash path = true ∨ key = [] ∨ system.permits key = false ∨
      tree.node key = none ∨ tree.node key = some .directory) := by
    rw [here, plain, permitted]
    simp [inside, file]
  simp only [linkDisk, ends, if_neg allowed]
  exact LinkTree.nodeAt_set_none inside

theorem linkDisk_rmdir_gone (opens : system.Changes tree path key)
    (there : tree.nodeAt key = some .directory) (empty : tree.children key = []) :
    ((linkDisk system).rmdir path tree).2.nodeAt key = none := by
  obtain ⟨ends, inside, permitted⟩ := opens
  have here : tree.node key = some .directory := (if_neg inside).symm.trans there
  have allowed : ¬ (key = [] ∨ system.permits key = false ∨ tree.node key ≠ some .directory ∨
      tree.children key ≠ []) := by
    rw [here, permitted]
    simp [inside, empty]
  simp only [linkDisk, ends, if_neg allowed]
  exact LinkTree.nodeAt_set_none inside

theorem LinkSystem.renameAt_node {src dest : List CStr}
    (source : src ≠ [] → system.permits src = true → ¬ src <+: key)
    (target : dest ≠ [] → system.permits dest = true → ¬ dest <+: key) :
    (system.renameAt tree src dest).2.node key = tree.node key := by
  have apart (allowed : ¬ (src = [] ∨ dest = [] ∨ system.permits src = false ∨
    system.permits dest = false)) :
      ¬ src <+: key ∧ ¬ dest <+: key := by
    push Not at allowed
    exact ⟨source allowed.1 (Bool.eq_true_of_not_eq_false allowed.2.2.1),
      target allowed.2.1 (Bool.eq_true_of_not_eq_false allowed.2.2.2)⟩
  unfold LinkSystem.renameAt
  split
  · rfl
  · split_ifs with same refused directory below free occupied
    · rfl
    · rfl
    · rfl
    · exact (if_neg (apart refused).2).trans (if_neg (apart refused).1)
    · rfl
    · rfl
    · have notSrc : key ≠ src := fun same => (apart refused).1 (same ▸ prefix_rfl)
      have notDest : key ≠ dest := fun same => (apart refused).2 (same ▸ prefix_rfl)
      exact (update_of_ne notDest _ _).trans (update_of_ne notSrc _ _)

theorem linkDisk_rename_nodeAt (source : ∀ place, system.Changes tree src place → ¬ place <+: key)
    (target : ∀ place, system.Changes tree dest place → ¬ place <+: key) :
    ((linkDisk system).rename src dest tree).2.nodeAt key = tree.nodeAt key := by
  simp only [linkDisk]
  split
  · rename_i srcKey destKey srcEnds destEnds
    split_ifs
    · rfl
    · refine LinkTree.nodeAt_eq fun _ => system.renameAt_node ?_ ?_
      · exact fun inside permitted => source srcKey ⟨srcEnds, inside, permitted⟩
      · exact fun inside permitted => target destKey ⟨destEnds, inside, permitted⟩
  · rfl

theorem linkDisk_unlink_slash (ends : endsInSlash path = true) :
    ((linkDisk system).unlink path tree).2 = tree := by
  simp only [linkDisk, ends, true_or, if_true]
  split <;> rfl

theorem linkDisk_rename_slash (ends : endsInSlash src = true) {buf : Stat}
    (found : system.stat false tree src = some buf) (file : buf.kind ≠ .directory) :
    ((linkDisk system).rename src dest tree).2 = tree := by
  obtain ⟨key, node, srcEnds, there, kind⟩ := system.stat_some found
  have plain : tree.node key ≠ some .directory := by
    intro directory
    have here : tree.nodeAt key = some .directory := by
      unfold LinkTree.nodeAt
      split
      · rfl
      · exact directory
    rw [there] at here
    cases here
    exact file kind
  simp only [linkDisk, srcEnds]
  split
  · rename_i srcKey destKey same destEnds
    cases same
    rw [if_pos ⟨.inl ends, plain⟩]
  · rfl

theorem linkDisk_children_of_empty (ends : system.entry tree path = some key)
    (there : tree.nodeAt key = some .directory)
    (empty : filesInDirectory (linkDisk system) tree path = 0) : tree.children key = [] := by
  have plain : ∀ target, (system.walk false tree path).node tree.nodeAt ≠ some (.link target) := by
    intro target linked
    rw [Walked.node, show (system.walk false tree path).found = some key from ends, Option.bind_some,
      there] at linked
    cases linked
  have follows : (system.walk true tree path).found = some key := by
    rw [LinkSystem.walk, walk_follow system.links [] (pathSteps path) plain]
    exact ends
  have names : (linkDisk system).readdir tree path = some (tree.children key) := by
    simp only [linkDisk, follows, Option.bind_some, if_pos there]
  unfold filesInDirectory at empty
  rw [names] at empty
  dsimp only at empty
  split at empty
  · rename_i dots
    refine eq_nil_iff_forall_not_mem.mpr fun name mem => ?_
    have dot := all_eq_true.mp dots name mem
    have other := (mem_filter.mp mem).2
    simp only [decide_eq_true_eq] at dot other
    exact other dot
  · cases empty

end

end Dulge
