import Dulge.ConfGlob
import Dulge.Disk

/-! `query_fileowner` of `query.c`, with `search_path` and `lrealpath`: the owners of the files that
are named on the command line. Every path that it resolves goes into the buffer `rpath`. -/

namespace Dulge
open Buffer List Option

/-- What the query reads of its surroundings; `path` is the environment variable, `realpath` gives
absolute paths shorter than `PATH_MAX`. -/
structure QueryHost where
  path : Option CStr
  malloc : Nat → Bool
  lstat : CStr → Option FileKind
  realpath : CStr → Option { path : CStr // path ≠ [] ∧ path.length < pathMax }
  root : CStr
  packages : List Pkg
  files : Pkg → Filelist

inductive FileownerLine where
  | noFile | emptyString
  | tooLong (rpath : CStr)
  | noOwner (filename : CStr)
  | owned (filename : CStr) (info : Pkg)

/-- The loop that strips slashes, with `plen` bytes left. At 0 it reads the byte in front of the
component. -/
def trimLoop (path : CStr) : Nat → Option Nat
  | 0 => none
  | plen + 1 => if path[plen]? = some slash then trimLoop path plen else some (plen + 1)

section

variable (host : QueryHost)

/-- The parts between the colons, unless there is no variable or no memory for its copy. -/
def QueryHost.components : List CStr :=
  match host.path with
  | none => []
  | some envpath => if host.malloc (envpath.length + 1) then envpath.splitOn 58 else []

/-- The loop of `search_path`: `filename` behind it, and what kind of file that is. -/
def searchLoop (filename : CStr) : List CStr → Option (CStr × Option FileKind)
  | [] => some (filename, none)
  | path :: rest => do
    let plen ← trimLoop path path.length
    if host.malloc (plen + filename.length + 2) then
      match host.lstat (path.take plen ++ slash :: filename) with
      | some kind => some (path.take plen ++ slash :: filename, some kind)
      | none => searchLoop filename rest
    else some (filename, none)

def searchPath (filename : CStr) : Option (CStr × Option FileKind) :=
  searchLoop host filename host.components

/-- `mdirname`, which needs memory for a copy of the path or of the dot. -/
def QueryHost.dirname (path : CStr) : Option CStr :=
  if (path = [] ∨ host.malloc (path.length + 1)) ∧ (slash ∈ path ∨ host.malloc 2)
  then some (mdirname path) else none

/-- `lrealpath`: the string in the buffer that it is given. -/
def lrealpath (path : CStr) : Option CStr :=
  if mbasename path = cstr "." ∨ mbasename path = cstr ".." then
    -- the entire path needs to be resolved
    (host.realpath path).map Subtype.val
  else do
    let dname ← host.dirname path
    let rpath ← host.realpath dname
    some (rpath.1 ++ (if endsInSlash rpath.1 then [] else [slash]) ++ mbasename path)

/-- One turn of the loop over the targets, with the bytes that it stores in `rpath`. -/
structure Query where
  rpath : Option (Block UInt8)
  lines : List FileownerLine
  found : Bool

def rpathBlock (rpath : CStr) : Option (Block UInt8) := some ⟨pathMax, rpath ++ [0]⟩

def askOwners (filename rpath : CStr) (isDir : Bool) : Query :=
  let owners := host.packages.filter fun info =>
    filelistContains (some (host.files info)) (rpath.drop host.root.length)
  -- only for a directory does the loop go on behind the first owner
  let owners := if isDir then owners else owners.take 1
  ⟨rpathBlock rpath, if owners.isEmpty then [.noOwner filename] else owners.map (.owned rpath),
    !owners.isEmpty⟩

def queryResolved (filename rpath : CStr) (isDir : Bool) : Query :=
  if strncmp rpath host.root host.root.length ≠ 0 then
    -- file is outside root, we know nothing can own it
    ⟨rpathBlock rpath, [.noOwner filename], false⟩
  else if isDir then
    if rpath.length + 2 ≥ pathMax then ⟨rpathBlock rpath, [.tooLong rpath], false⟩
    else askOwners host filename (rpath ++ [slash]) isDir
  else askOwners host filename rpath isDir

/-- The name without trailing slashes, or in `PATH` if it is that of a program. -/
def locate (filename : CStr) : Option (CStr × Option FileKind) :=
  match host.lstat filename with
  | some kind => some (filename, some kind)
  | none => if slash ∈ filename then some (filename, none) else searchPath host filename

/-- A turn of the loop of `query_fileowner`. There is none if a byte in front of a component of
`PATH` has been read. -/
def queryTarget (target : CStr) : Option Query :=
  if host.malloc (target.length + 1) = false then some ⟨none, [], false⟩
  else if target = [] then some ⟨none, [.emptyString], false⟩
  else do
    let (filename, kind) ← locate host (stripSlashes target)
    let isDir := match kind with
      | none => decide (stripSlashes target ≠ target)
      | some kind => decide (kind = .directory)
    -- can't canonicalize path, try to proceed anyway
    let rpath := (lrealpath host filename).getD filename
    some (queryResolved host filename rpath isDir)

structure Owners where
  ret : Nat
  lines : List FileownerLine
  rpaths : List (Block UInt8)

def queryFileowner (targets : List CStr) : Option Owners :=
  if targets = [] then some ⟨1, [.noFile], []⟩
  else do
    let queries ← targets.mapM (queryTarget host)
    some ⟨queries.countP (!·.found), queries.flatMap (·.lines), queries.filterMap (·.rpath)⟩

/-! ### Where the query stays inside of its buffers -/

def OwnersInside (targets : List CStr) : Prop :=
  ∃ owners, queryFileowner host targets = some owners ∧ ∀ rpath ∈ owners.rpaths, rpath.Inside

def fullname (filename component : CStr) : CStr :=
  component.rdropWhile (· = slash) ++ slash :: filename

def QueryHost.ends (filename component : CStr) : Bool :=
  !host.malloc ((fullname filename component).length + 1) ||
    (host.lstat (fullname filename component)).isSome

def QueryHost.visited (filename : CStr) : List CStr → List CStr
  | [] => []
  | c :: rest => if host.ends filename c then [c] else c :: visited filename rest

/-- The name below the first component that ends the search, if there is memory for it. -/
def QueryHost.sought (filename : CStr) (components : List CStr) : CStr :=
  match components.find? (host.ends filename) with
  | some c => if host.malloc ((fullname filename c).length + 1) then fullname filename c else filename
  | none => filename

def QueryHost.InPath (filename : CStr) : Prop := host.lstat filename = none ∧ slash ∉ filename

instance (filename : CStr) : Decidable (host.InPath filename) := inferInstanceAs (Decidable (_ ∧ _))

/-- The resolved path has room in `rpath`, or else the name itself. -/
def QueryHost.Fits (filename : CStr) : Prop :=
  if mbasename filename = cstr "." ∨ mbasename filename = cstr ".." then
    host.realpath filename = none → filename.length < pathMax
  else
    match (host.dirname filename).bind host.realpath with
    | none => filename.length < pathMax
    | some dir =>
      dir.1.length + (if endsInSlash dir.1 then 0 else 1) + (mbasename filename).length < pathMax

/-- Every component of `PATH` that a search for the name visits has a byte that is no slash, and
what is found has room. -/
def QueryHost.Bounded (filename : CStr) : Prop :=
  if host.InPath filename then
    (∀ c ∈ host.visited filename host.components, Named c) ∧
      host.Fits (host.sought filename host.components)
  else host.Fits filename

end

theorem trimLoop_append {front more : CStr} {plen : Nat} (inside : plen ≤ front.length) :
    trimLoop (front ++ more) plen = trimLoop front plen := by
  induction plen with
  | zero => rfl
  | succ plen ih =>
    rw [trimLoop, trimLoop, List.getElem?_append_left inside, ih (Nat.le_of_succ_le inside)]

theorem named_append_slash {front : CStr} : Named (front ++ [slash]) ↔ Named front := by
  simp [Named, or_and_right]

theorem trimLoop_eq (path : CStr) :
    (Named path → trimLoop path path.length = some (path.rdropWhile (· = slash)).length) ∧
      (¬ Named path → trimLoop path path.length = none) := by
  induction path using List.reverseRecOn with
  | nil => exact ⟨fun named => absurd rfl named.nonempty, fun _ => rfl⟩
  | append_singleton front c ih =>
    rw [length_append, length_singleton, trimLoop, List.getElem?_concat_length,
      trimLoop_append (le_refl _)]
    by_cases same : c = slash
    · subst same
      rw [if_pos rfl, named_append_slash, rdropWhile_concat_pos _ _ _ (by simp)]
      exact ih
    · have named : Named (front ++ [c]) := ⟨c, by simp, same⟩
      rw [if_neg (fun found => same (Option.some.inj found)),
        rdropWhile_concat_neg _ _ _ (by simpa using same), length_append]
      exact ⟨fun _ => rfl, fun unnamed => absurd named unnamed⟩

section

variable {host : QueryHost} {filename c : CStr}

theorem searchLoop_named (named : Named c) (rest : List CStr) :
    searchLoop host filename (c :: rest) = if host.malloc ((fullname filename c).length + 1) then
        match host.lstat (fullname filename c) with
        | some kind => some (fullname filename c, some kind)
        | none => searchLoop host filename rest
      else some (filename, none) := by
  have taken : c.take (c.rdropWhile (· = slash)).length = c.rdropWhile (· = slash) :=
    (prefix_iff_eq_take.mp (List.rdropWhile_prefix _ _)).symm
  have size : (c.rdropWhile (· = slash)).length + filename.length + 2 =
      (fullname filename c).length + 1 := by
    rw [fullname, length_append, length_cons]
    omega
  simp only [searchLoop, (trimLoop_eq c).1 named, bind_eq_bind, bind_some, taken, size]
  rfl

/-- The search reads inside of the components that it visits exactly if each has a byte that is no
slash; then it ends with the name that is sought. -/
theorem searchLoop_eq (host : QueryHost) (filename : CStr) (components : List CStr) :
    ((∀ c ∈ host.visited filename components, Named c) →
        ∃ kind, searchLoop host filename components = some (host.sought filename components, kind)) ∧
      ((∃ c ∈ host.visited filename components, ¬ Named c) →
        searchLoop host filename components = none) := by
  induction components with
  | nil => exact ⟨fun _ => ⟨none, rfl⟩, fun ⟨c, mem, _⟩ => by cases mem⟩
  | cons c rest ih =>
    by_cases named : Named c
    · rw [searchLoop_named named, QueryHost.visited, QueryHost.sought]
      by_cases ends : host.ends filename c = true
      · rw [if_pos ends, List.find?_cons_of_pos ends]
        refine ⟨fun _ => ?_, fun ⟨d, mem, other⟩ => ?_⟩
        · dsimp only
          split
          · rename_i memory
            have found : (host.lstat (fullname filename c)).isSome = true := by
              simpa [QueryHost.ends, memory] using ends
            obtain ⟨kind, is⟩ := isSome_iff_exists.mp found
            exact ⟨some kind, by rw [is]⟩
          · exact ⟨none, rfl⟩
        · rw [mem_singleton.mp mem] at other
          exact absurd named other
      · have goes := Bool.eq_false_of_not_eq_true ends
        rw [if_neg ends, List.find?_cons_of_neg ends]
        simp only [QueryHost.ends, Bool.or_eq_false_iff, Bool.not_eq_false', isSome_eq_false_iff,
          isNone_iff_eq_none] at goes
        rw [if_pos goes.1, goes.2]
        refine ⟨fun all => ih.1 (forall_mem_cons.mp all).2, fun ⟨d, mem, other⟩ => ih.2 ?_⟩
        rcases mem_cons.mp mem with rfl | later
        · exact absurd named other
        · exact ⟨d, later, other⟩
    · have first : c ∈ host.visited filename (c :: rest) := by
        rw [QueryHost.visited]
        split <;> exact mem_cons_self
      refine ⟨fun all => absurd (all c first) named, fun _ => ?_⟩
      rw [searchLoop, (trimLoop_eq c).2 named]
      rfl

theorem lrealpath_fits (host : QueryHost) (filename : CStr) :
    ((lrealpath host filename).getD filename).length < pathMax ↔ host.Fits filename := by
  unfold lrealpath QueryHost.Fits
  split
  · cases found : host.realpath filename with
    | none => simp
    | some rpath => simpa using rpath.2.2
  · cases named : host.dirname filename with
    | none => rfl
    | some dname =>
      cases found : host.realpath dname with
      | none => simp [found]
      | some rpath =>
        simp only [bind_eq_bind, bind_some, found, getD_some, length_append]
        split <;> rfl

theorem queryResolved_inside (host : QueryHost) (filename rpath : CStr) (isDir : Bool) :
    ∃ block, (queryResolved host filename rpath isDir).rpath = some block ∧
      (block.Inside ↔ rpath.length < pathMax) := by
  have plain : (⟨pathMax, rpath ++ [0]⟩ : Block UInt8).Inside ↔ rpath.length < pathMax := by
    rw [Block.Inside, length_append]
    exact Nat.succ_le_iff
  unfold queryResolved
  split
  · exact ⟨_, rfl, plain⟩
  · split
    · split
      · exact ⟨_, rfl, plain⟩
      · rename_i room
        refine ⟨_, rfl, ?_⟩
        simp only [Block.Inside, length_append, length_singleton]
        omega
    · exact ⟨_, rfl, plain⟩

theorem locate_bounded (host : QueryHost) (filename : CStr) :
    host.Bounded filename ↔ ∃ found, locate host filename = some found ∧ host.Fits found.1 := by
  unfold QueryHost.Bounded locate
  by_cases inPath : host.InPath filename
  · rw [if_pos inPath, inPath.1]
    dsimp only
    rw [if_neg inPath.2, searchPath]
    have ran := searchLoop_eq host filename host.components
    constructor
    · rintro ⟨named, fits⟩
      obtain ⟨kind, found⟩ := ran.1 named
      exact ⟨_, found, fits⟩
    · rintro ⟨found, searched, fits⟩
      have named : ∀ c ∈ host.visited filename host.components, Named c := by
        intro c mem
        by_contra other
        rw [ran.2 ⟨c, mem, other⟩] at searched
        cases searched
      obtain ⟨kind, sought⟩ := ran.1 named
      rw [sought] at searched
      cases searched
      exact ⟨named, fits⟩
  · rw [if_neg inPath]
    cases kind : host.lstat filename with
    | some kind => simp
    | none =>
      have path : slash ∈ filename := by
        by_contra plain
        exact inPath ⟨kind, plain⟩
      simp [path]

theorem queryTarget_inside {target : CStr} (nonempty : target ≠ []) :
    (∃ query, queryTarget host target = some query ∧ ∀ rpath ∈ query.rpath, rpath.Inside) ↔
      (host.malloc (target.length + 1) = true → host.Bounded (stripSlashes target)) := by
  unfold queryTarget
  by_cases memory : host.malloc (target.length + 1) = true
  · rw [if_neg (by rw [memory]; decide), if_neg nonempty, locate_bounded]
    simp only [memory, forall_const, bind_eq_bind, bind_eq_some_iff]
    constructor
    · rintro ⟨query, ⟨found, located, ran⟩, inside⟩
      refine ⟨found, located, ?_⟩
      cases ran
      obtain ⟨block, stored, fits⟩ := queryResolved_inside host found.1
        ((lrealpath host found.1).getD found.1) _
      rw [← lrealpath_fits, ← fits]
      exact inside block stored
    · rintro ⟨found, located, fits⟩
      refine ⟨_, ⟨found, located, rfl⟩, ?_⟩
      intro rpath stored
      obtain ⟨block, same, inside⟩ := queryResolved_inside host found.1
        ((lrealpath host found.1).getD found.1) _
      rw [same] at stored
      cases stored
      rwa [inside, lrealpath_fits]
  · rw [if_pos (Bool.eq_false_of_not_eq_true memory)]
    exact iff_of_true ⟨_, rfl, by simp⟩ fun allocated => absurd allocated memory

theorem mapM_queryTarget (targets : List CStr) :
    (∃ queries, targets.mapM (queryTarget host) = some queries ∧
        ∀ query ∈ queries, ∀ rpath ∈ query.rpath, rpath.Inside) ↔
      ∀ target ∈ targets, ∃ query, queryTarget host target = some query ∧
        ∀ rpath ∈ query.rpath, rpath.Inside := by
  induction targets with
  | nil => simp
  | cons target targets ih =>
    rw [forall_mem_cons, ← ih]
    simp only [mapM_cons, Option.bind_eq_bind, Option.bind_eq_some_iff, Option.pure_def,
      Option.some.injEq]
    constructor
    · rintro ⟨_, ⟨query, ran, queries, also, rfl⟩, inside⟩
      obtain ⟨first, others⟩ := forall_mem_cons.mp inside
      exact ⟨⟨query, ran, first⟩, queries, also, others⟩
    · rintro ⟨⟨query, ran, first⟩, queries, also, others⟩
      exact ⟨_, ⟨query, ran, queries, also, rfl⟩, forall_mem_cons.mpr ⟨first, others⟩⟩

end

theorem ownersInside_iff (host : QueryHost) (targets : List CStr) :
    OwnersInside host targets ↔ ∀ target ∈ targets, ∃ query,
      queryTarget host target = some query ∧ ∀ rpath ∈ query.rpath, rpath.Inside := by
  rw [← mapM_queryTarget]
  unfold OwnersInside queryFileowner
  by_cases empty : targets = []
  · subst empty
    exact iff_of_true ⟨_, rfl, by simp⟩ ⟨[], rfl, by simp⟩
  · simp only [if_neg empty, bind_eq_bind, bind_eq_some_iff, Option.some.injEq,
      exists_exists_and_eq_and, mem_filterMap]
    refine exists_congr fun queries => and_congr_right fun _ => ?_
    exact ⟨fun inside query mem rpath stored => inside rpath ⟨query, mem, stored⟩,
      fun inside rpath ⟨query, mem, stored⟩ => inside query mem rpath stored⟩

/-- The query stays inside of its buffers exactly if, for every target, each component of `PATH` that
is visited has a byte that is no slash, and the resolved path has room in `rpath`. -/
theorem queryFileowner_inside_iff (host : QueryHost) {targets : List CStr}
    (nonempty : ∀ target ∈ targets, target ≠ []) : OwnersInside host targets ↔ ∀ target ∈ targets,
      host.malloc (target.length + 1) = true → host.Bounded (stripSlashes target) := by
  rw [ownersInside_iff]
  exact forall₂_congr fun target member => queryTarget_inside (nonempty target member)

def rootPath : { path : CStr // path ≠ [] ∧ path.length < pathMax } := ⟨[slash], by decide⟩

def shellHost (path : CStr) : QueryHost where
  path := some path
  malloc := fun _ => true
  lstat := fun name => if name = cstr "/bin/../sh" then some .regular else none
  realpath := fun _ => some rootPath
  root := [slash]
  packages := []
  files := fun _ => ⟨[], List.Pairwise.nil⟩

theorem queryFileowner_inside_shell : OwnersInside (shellHost (cstr "/usr:/bin/..//")) [cstr "sh"] ∧
    (shellHost (cstr "/usr:/bin/..//")).Bounded (cstr "sh") := by
  have inside : OwnersInside (shellHost (cstr "/usr:/bin/..//")) [cstr "sh"] :=
    ⟨_, rfl, by decide +kernel⟩
  exact ⟨inside, (queryFileowner_inside_iff _ (by decide)).mp inside _ mem_cons_self rfl⟩

theorem mbasename_slash_cons {name : CStr} (plain : slash ∉ name) :
    mbasename (slash :: name) = name := by
  have kept : ∀ c ∈ name.reverse, decide (c ≠ slash) = true := by
    intro c mem
    exact decide_eq_true fun same => plain (mem_reverse.mp (same ▸ mem))
  rw [mbasename, reverse_cons, takeWhile_append_of_pos kept,
    takeWhile_cons_of_neg (by decide), append_nil, reverse_reverse]

/-- A name as long as `rpath` is stored there whole. -/
theorem not_ownersInside_of_long {name : CStr} (plain : slash ∉ name) (long : pathMax ≤ name.length) :
    ¬ OwnersInside (shellHost (cstr "/bin")) [slash :: name] := by
  intro inside
  have bounded := (queryTarget_inside (cons_ne_nil _ _)).mp
    ((ownersInside_iff _ _).mp inside _ mem_cons_self) rfl
  have last : endsInSlash (slash :: name) = false := by
    have filled : name ≠ [] := length_pos_iff.mp (Nat.lt_of_lt_of_le (by decide) long)
    rw [← singleton_append, endsInSlash_append filled]
    exact decide_eq_false fun ends => plain (mem_of_getLast? ends)
  have other {short : CStr} (less : short.length < pathMax) : name ≠ short := by
    rintro rfl
    exact absurd long (Nat.not_le_of_lt less)
  rw [stripSlashes_of_plain last, QueryHost.Bounded, if_neg (fun path => path.2 mem_cons_self),
    QueryHost.Fits, mbasename_slash_cons plain,
    if_neg (fun dots => dots.elim (other (by decide)) (other (by decide)))] at bounded
  have resolved : (shellHost (cstr "/bin")).dirname (slash :: name) =
      some (mdirname (slash :: name)) :=
    if_pos ⟨.inr rfl, .inr rfl⟩
  rw [resolved] at bounded
  exact absurd (Nat.lt_of_le_of_lt (Nat.le_add_left _ _) bounded) (Nat.not_lt_of_le long)

/-- An empty component of `PATH`, in front of which a byte is read, and a name that is too long. -/
theorem queryFileowner_outside : (queryFileowner (shellHost (cstr ":/bin")) [cstr "sh"]).isNone ∧
      ¬ OwnersInside (shellHost (cstr "/bin")) [slash :: List.replicate 4096 120] := by
  refine ⟨by decide +kernel, not_ownersInside_of_long ?_ ?_⟩
  · intro member
    exact absurd (eq_of_mem_replicate member) (by decide)
  · rw [length_replicate]
    exact le_refl _

end Dulge
