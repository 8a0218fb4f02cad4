import Dulge.Disk

/-! A file system without links: a map from paths to files and directories. A path stands for
the list of its components, so that slashes at its end or in a row do not count. Renaming and
unlinking a file that exists succeed; whether an extraction succeeds is part of its entry. -/

namespace Dulge
open List Function

def splitSlash : CStr → List CStr
  | [] => [[]]
  | c :: path => if c = slash then [] :: splitSlash path else (splitSlash path).modifyHead (c :: ·)

def components (path : CStr) : List CStr := (splitSlash path).filter (· ≠ [])

theorem splitSlash_ne_nil (path : CStr) : splitSlash path ≠ [] := by
  induction path with
  | nil => exact cons_ne_nil [] []
  | cons c path ih =>
    unfold splitSlash
    split
    · exact cons_ne_nil _ _
    · simpa [modifyHead_eq_nil_iff] using ih

theorem splitSlash_append (front back : CStr) :
    splitSlash (front ++ slash :: back) = splitSlash front ++ splitSlash back := by
  induction front with
  | nil => simp [splitSlash]
  | cons c front ih =>
    rw [cons_append, splitSlash, splitSlash, ih]
    split
    · rfl
    · cases parts : splitSlash front with
      | nil => exact absurd parts (splitSlash_ne_nil front)
      | cons part rest => rfl

theorem components_append (front back : CStr) :
    components (front ++ slash :: back) = components front ++ components back := by
  rw [components, splitSlash_append, filter_append]
  rfl

theorem splitSlash_of_not_mem {name : CStr} (whole : slash ∉ name) : splitSlash name = [name] := by
  induction name with
  | nil => rfl
  | cons c name ih =>
    rw [mem_cons, not_or] at whole
    rw [splitSlash, if_neg (Ne.symm whole.1), ih whole.2]
    rfl

theorem components_of_not_mem {name : CStr} (whole : slash ∉ name) :
    components name = [name].filter (· ≠ []) := by
  rw [components, splitSlash_of_not_mem whole]

theorem components_of_part {name : CStr} (whole : slash ∉ name) (nonempty : name ≠ []) :
    components name = [name] := by
  rw [components_of_not_mem whole, filter_singleton]
  simp [nonempty]

/-- The last part of a path, behind its last slash, and what is in front of it. -/
structure Stem (path : CStr) (front : List CStr) (last : CStr) : Prop where
  components : components path = front ++ [last].filter (· ≠ [])
  empty : last = [] → path = [] ∨ endsInSlash path = true
  suffix : ∀ suffix, suffix ≠ [] → slash ∉ suffix →
    Dulge.components (path ++ suffix) = front ++ [last ++ suffix]

theorem exists_stem (path : CStr) : ∃ front last, Stem path front last := by
  by_cases inside : slash ∈ path
  · obtain ⟨behind, before, split, whole⟩ := eq_append_cons_of_mem (mem_reverse.mpr inside)
    have shape : path = before.reverse ++ slash :: behind.reverse := by
      rw [← reverse_reverse path, split]
      simp
    have last : slash ∉ behind.reverse := fun mem => whole (mem_reverse.mp mem)
    subst shape
    refine ⟨components before.reverse, behind.reverse, ?_, ?_, ?_⟩
    · rw [components_append, components_of_not_mem last]
    · intro none
      rw [none]
      exact .inr (by simp [endsInSlash])
    · intro suffix nonempty free
      have longer : components (behind.reverse ++ suffix) = [behind.reverse ++ suffix] := by
        apply components_of_part
        · exact fun mem => (mem_append.mp mem).elim last free
        · exact append_ne_nil_of_right_ne_nil _ nonempty
      rw [append_assoc, cons_append, components_append, longer]
  · refine ⟨[], path, ?_, ?_, ?_⟩
    · rw [components_of_not_mem inside, nil_append]
    · exact .inl
    · intro suffix nonempty free
      rw [nil_append, components_of_part]
      · exact fun mem => (mem_append.mp mem).elim inside free
      · exact append_ne_nil_of_right_ne_nil _ nonempty

theorem splitSlash_pieces (path : CStr) :
    ∃ head rest, splitSlash path = head :: rest ∧ head <+: path ∧ ∀ part ∈ rest, part <:+: path := by
  induction path with
  | nil => exact ⟨[], [], rfl, List.nil_prefix, by simp⟩
  | cons c path ih =>
    obtain ⟨head, rest, split, start, pieces⟩ := ih
    have longer : path <:+: c :: path := (suffix_cons c path).isInfix
    unfold splitSlash
    split
    · refine ⟨[], head :: rest, by rw [split], List.nil_prefix, ?_⟩
      intro part mem
      rcases mem_cons.mp mem with rfl | later
      · exact start.isInfix.trans longer
      · exact (pieces part later).trans longer
    · refine ⟨c :: head, rest, by rw [split]; rfl, ?_, ?_⟩
      · exact cons_prefix_cons.mpr ⟨rfl, start⟩
      · exact fun part mem => (pieces part mem).trans longer

theorem infix_of_mem_components {path part : CStr} (mem : part ∈ components path) :
    part <:+: path := by
  obtain ⟨head, rest, split, start, pieces⟩ := splitSlash_pieces path
  have inside := (mem_filter.mp mem).1
  rw [split] at inside
  rcases mem_cons.mp inside with rfl | later
  · exact start.isInfix
  · exact pieces part later

theorem ne_nil_of_mem_components {path part : CStr} (mem : part ∈ components path) : part ≠ [] :=
  of_decide_eq_true (mem_filter.mp mem).2

theorem components_slash (path : CStr) : components (path ++ [slash]) = components path := by
  rw [components_append]
  exact append_nil _

theorem components_root {root : CStr} (ends : endsInSlash root = true) (path : CStr) :
    components (root ++ path) = components root ++ components path := by
  rw [← dropLast_of_endsInSlash ends, append_assoc, singleton_append, components_append,
    components_slash]

theorem components_slashes {tail : CStr} (slashes : ∀ c ∈ tail, c = slash) (path : CStr) :
    components (path ++ tail) = components path := by
  induction tail generalizing path with
  | nil => rw [append_nil]
  | cons c tail ih =>
    rw [slashes c mem_cons_self, append_cons,
      ih (fun d mem => slashes d (mem_cons_of_mem c mem)), components_slash]

theorem components_stripSlashes (path : CStr) : components (stripSlashes path) = components path := by
  have tail : ∀ c ∈ (path.reverse.takeWhile (· = slash)).reverse, c = slash := by
    intro c mem
    have matched := mem_takeWhile_imp (mem_reverse.mp mem)
    exact of_decide_eq_true matched
  have split : path = (path.reverse.dropWhile (· = slash)).reverse ++
      (path.reverse.takeWhile (· = slash)).reverse := by
    rw [← reverse_append, takeWhile_append_dropWhile, reverse_reverse]
  unfold stripSlashes
  split
  · rename_i none
    rw [none, nil_append] at split
    have all : ∀ c ∈ path, c = slash := split ▸ tail
    have first : ∀ c ∈ path.take 1, c = slash := fun c mem => all c (mem_of_mem_take mem)
    exact (components_slashes first []).trans (components_slashes all []).symm
  · conv_rhs => rw [split, components_slashes tail]

inductive TreeNode (κ : Type) where
  | file (content : κ)
  | directory
  deriving DecidableEq

structure Tree (κ : Type) where
  node : List CStr → Option (TreeNode κ)
  keys : List (List CStr)
  covered : ∀ key, (node key).isSome = true → key ∈ keys

/-- What becomes of an extraction. One that fails may leave anything at its path, and may have
made the directories above it. -/
inductive ExtractionOutcome (κ : Type) where
  | done
  | failed (left : Option (TreeNode κ)) (parents : Bool)

structure Payload (κ : Type) where
  content : κ
  outcome : ExtractionOutcome κ

section

variable {κ : Type}

def Tree.empty : Tree κ where
  node _ := none
  keys := []
  covered := by
    intro key there
    cases there

def Tree.set (tree : Tree κ) (key : List CStr) (node : Option (TreeNode κ)) : Tree κ where
  node := update tree.node key node
  keys := key :: tree.keys
  covered := by
    intro other there
    by_cases same : other = key
    · rw [same]
      exact mem_cons_self
    · rw [update_of_ne same] at there
      exact mem_cons_of_mem key (tree.covered other there)

/-- All that is at or below `src` goes to `dest`. -/
def Tree.move (tree : Tree κ) (src dest : List CStr) : Tree κ where
  node key :=
    if dest <+: key then tree.node (src ++ key.drop dest.length)
    else if src <+: key then none
    else tree.node key
  keys := tree.keys.map (fun key => dest ++ key.drop src.length) ++ tree.keys
  covered := by
    intro key there
    split_ifs at there with below left
    · obtain ⟨rest, rfl⟩ := below
      rw [drop_left] at there
      apply mem_append_left
      rw [mem_map]
      exact ⟨src ++ rest, tree.covered _ there, by rw [drop_left]⟩
    · cases there
    · exact mem_append_right _ (tree.covered key there)

def Tree.makeParents (tree : Tree κ) (key : List CStr) : Tree κ where
  node other := if other <+: key ∧ other ≠ key then some .directory else tree.node other
  keys := key.inits ++ tree.keys
  covered := by
    intro other there
    split_ifs at there with above
    · exact mem_append_left _ (mem_inits other key |>.mpr above.1)
    · exact mem_append_right _ (tree.covered other there)

theorem Tree.makeParents_node {tree : Tree κ} {key other : List CStr} (apart : ¬ other <+: key) :
    (tree.makeParents key).node other = tree.node other :=
  if_neg fun above => apart above.1

/-- The content of the regular file at a path. A path to a file does not end in a slash. -/
def Tree.fileAt (tree : Tree κ) (path : CStr) : Option κ :=
  if endsInSlash path then none
  else
    match tree.node (components path) with
    | some (.file content) => some content
    | _ => none

theorem Tree.fileAt_eq_some {tree : Tree κ} {path : CStr} {content : κ} :
    tree.fileAt path = some content ↔
      endsInSlash path = false ∧ tree.node (components path) = some (.file content) := by
  unfold Tree.fileAt
  split
  · rename_i ends
    simp [ends]
  · rename_i plain
    rw [Bool.not_eq_true] at plain
    split
    · rename_i node
      simp [plain, node]
    · rename_i other
      simp only [plain, true_and, reduceCtorEq, false_iff]
      exact other content

def Tree.children (tree : Tree κ) (key : List CStr) : List CStr :=
  (tree.keys.filter fun child => child ≠ [] ∧ child.dropLast = key ∧
    (tree.node child).isSome).filterMap
    List.getLast?

def Tree.rename (tree : Tree κ) (src dest : List CStr) : Bool × Tree κ :=
  match tree.node src with
  | none => (false, tree)
  | some (.file content) => (true, (tree.set src none).set dest (some (.file content)))
  | some .directory =>
    if src <+: dest ∧ src ≠ dest then (false, tree) else (true, tree.move src dest)

def Tree.extract (tree : Tree κ) (entry : ArchiveEntry (Payload κ)) (key : List CStr) :
    Bool × Tree κ :=
  match entry.data.outcome with
  | .done =>
    (true, (tree.makeParents key).set key
      (if entry.directory then some .directory else some (.file entry.data.content)))
  | .failed left parents => (false, (if parents then tree.makeParents key else tree).set key left)

end

/-- What the map does not say: the hash function, the files that cannot be written because
their file system is read-only, and the devices of the directories. -/
structure MapSystem (κ : Type) where
  md5 : κ → CStr
  readonly : CStr → Bool
  device : List CStr → Nat

section

variable {κ : Type} (system : MapSystem κ)

def MapSystem.stat (tree : Tree κ) (path : CStr) : Option Stat :=
  match tree.node (components path) with
  | none => none
  | some (.file _) => some ⟨.regular, system.device (components path)⟩
  | some .directory => some ⟨.directory, system.device (components path)⟩

def mapDisk [DecidableEq κ] : Disk (Tree κ) (Payload κ) where
  lstat tree path :=
    match system.stat tree path with
    | none => .error .noent
    | some buf => .ok buf
  stat tree path := system.stat tree path
  readdir tree path :=
    if tree.node (components path) = some .directory then
      some (tree.children (components path)) else none
  accessWrite _ path := if system.readonly path then .error .other else .ok ()
  accessExists tree path := (tree.node (components path)).isSome
  computeMd5sum tree path :=
    match tree.node (components path) with
    | some (.file content) => some (system.md5 content)
    | _ => none
  unlink path tree :=
    match tree.node (components path) with
    | some (.file _) => (true, tree.set (components path) none)
    | _ => (false, tree)
  rmdir path tree :=
    if tree.node (components path) = some .directory ∧ tree.children (components path) = [] then
      (true, tree.set (components path) none)
    else (false, tree)
  rename src dest tree := tree.rename (components src) (components dest)
  performExtraction entry path tree := tree.extract entry (components path)

/-! What the calls leave as it is. -/

variable [DecidableEq κ] {system} {tree : Tree κ} {path src dest : CStr} {key : List CStr}

theorem mapDisk_llstat (tree : Tree κ) (path : CStr) : (mapDisk system).llstat tree path =
      match system.stat tree path with
      | none => .error .noent
      | some buf => .ok buf := by
  have same : system.stat tree (stripSlashes path) = system.stat tree path := by
    simp only [MapSystem.stat, components_stripSlashes]
  rw [← same]
  rfl

theorem mapDisk_llstat_ok {buf : Stat} (found : (mapDisk system).llstat tree path = .ok buf) :
    (buf.kind = .directory ∧ tree.node (components path) = some .directory) ∨
      buf.kind = .regular ∧ ∃ content, tree.node (components path) = some (.file content) := by
  rw [mapDisk_llstat] at found
  cases there : tree.node (components path) with
  | none => simp [MapSystem.stat, there] at found
  | some node =>
    cases node with
    | file content =>
      simp only [MapSystem.stat, there] at found
      cases found
      exact .inr ⟨rfl, content, rfl⟩
    | directory =>
      simp only [MapSystem.stat, there] at found
      cases found
      exact .inl ⟨rfl, rfl⟩

theorem mapDisk_llstat_file (system : MapSystem κ) {content : κ}
    (there : tree.node (components path) = some (.file content)) :
    ∃ buf, (mapDisk system).llstat tree path = .ok buf ∧ buf.kind = .regular := by
  rw [mapDisk_llstat]
  simp only [MapSystem.stat, there]
  exact ⟨_, rfl, rfl⟩

theorem mapDisk_md5sum {content : κ} (there : tree.node (components path) = some (.file content)) :
    (mapDisk system).computeMd5sum tree path = some (system.md5 content) := by
  simp only [mapDisk, there]

theorem mapDisk_unlink_node (other : key ≠ components path) :
    ((mapDisk system).unlink path tree).2.node key = tree.node key := by
  dsimp only [mapDisk]
  split
  · exact update_of_ne other _ _
  · rfl

theorem mapDisk_rmdir_node (other : tree.node key ≠ some .directory) :
    ((mapDisk system).rmdir path tree).2.node key = tree.node key := by
  dsimp only [mapDisk]
  split
  · rename_i empty
    apply update_of_ne
    rintro rfl
    exact other empty.1
  · rfl

theorem mapDisk_rename_node (source : ¬ components src <+: key) (target : ¬ components dest <+: key) :
    ((mapDisk system).rename src dest tree).2.node key = tree.node key := by
  have fromOther : key ≠ components src := by
    rintro rfl
    exact source prefix_rfl
  have toOther : key ≠ components dest := by
    rintro rfl
    exact target prefix_rfl
  dsimp only [mapDisk, Tree.rename]
  split
  · rfl
  · exact (update_of_ne toOther _ _).trans (update_of_ne fromOther _ _)
  · split
    · rfl
    · exact (if_neg target).trans (if_neg source)

theorem mapDisk_rename_file {content : κ}
    (there : tree.node (components src) = some (.file content)) :
    ((mapDisk system).rename src dest tree).2.node =
      update (update tree.node (components src) none) (components dest) (some (.file content)) := by
  dsimp only [mapDisk, Tree.rename]
  rw [there]
  rfl

theorem mapDisk_extract_node {entry : ArchiveEntry (Payload κ)} (other : ¬ key <+: components path) :
    ((mapDisk system).performExtraction entry path tree).2.node key = tree.node key := by
  have apart : key ≠ components path := by
    rintro rfl
    exact other prefix_rfl
  dsimp only [mapDisk, Tree.extract]
  split
  · exact (update_of_ne apart _ _).trans (Tree.makeParents_node other)
  · refine (update_of_ne apart _ _).trans ?_
    split
    · exact Tree.makeParents_node other
    · rfl

theorem mapDisk_extract_done {entry : ArchiveEntry (Payload κ)} (plain : entry.directory = false)
    (done : ((mapDisk system).performExtraction entry path tree).1 = true) :
    ((mapDisk system).performExtraction entry path tree).2.node (components path) =
      some (.file entry.data.content) := by
  dsimp only [mapDisk, Tree.extract] at done ⊢
  split at done
  · simp [Tree.set, plain]
  · cases done

end

def numberSystem : MapSystem Nat where
  md5 content := List.replicate content 49
  readonly _ := false
  device _ := 0

/-- The directory `etc` with the file `c` in it, below the root. -/
def etcTree (content : Nat) : Tree Nat :=
  ((Tree.empty.set [] (some .directory)).set [cstr "etc"] (some .directory)).set
    [cstr "etc", cstr "c"]
    (some (.file content))

/-- The two versions of a package with the file `etc/c`. -/
def etcOld : Pkg := Pkg.bare 0 (cstr "p") (cstr "1")

def etcNew : Pkg := Pkg.bare 1 (cstr "p") (cstr "2")

def etcFiles : Filelist := ⟨[cstr "etc/", cstr "etc/c"], by unfold Comparator.Sorted; decide⟩

def slashFiles : Filelist := ⟨[cstr "etc/", cstr "etc/c/"], by unfold Comparator.Sorted; decide⟩

def etcEntries : List (ArchiveEntry (Payload Nat)) :=
  [⟨cstr "etc/", true, ⟨0, .done⟩⟩, ⟨cstr "etc/c", false, ⟨8, .done⟩⟩]

end Dulge
