import Dulge.EntryName
import Dulge.Lib.Run

/-! Loading a package file: `_alpm_pkg_load_internal` over the entries that libarchive hands
out, with the array of the file list and its separate size as the code keeps them. -/

namespace Dulge

open Machine List

/-! ### The growing array -/

/-- `sizeof(alpm_file_t)` -/
def fileBytes : Nat := 24

/-- No object is larger than this, so `realloc` fails for a larger size. -/
def ptrdiffMax : Nat := 2 ^ 63 - 1

/-- `_alpm_greedy_grow`: the size afterwards, or `none` where it returns NULL. `realloc` is
whether there is memory. -/
def greedyGrow (realloc : Bool) (current required : Nat) : Option Nat :=
  if required ≤ current then some current
  else
    let newsize := if current = 0 then required else current * 2 % 2 ^ 64
    if newsize < required then none
    else if realloc ∧ newsize ≤ ptrdiffMax then some newsize
    else none

/-- `alpm_file_t` -/
structure File where
  name : Option CStr
  size : Int
  mode : Nat
  deriving DecidableEq, Repr

/-- `alpm_filelist_t` while it is built: the slots that are allocated, `none` where nothing has
been stored or the slot was cleared, and the number of files. -/
structure FileArray where
  slots : List (Option File)
  count : Nat
  deriving DecidableEq, Repr

/-- What happens to the slots of an array with `count` files in it. -/
inductive SlotEvent where
  /-- The helper clears the slots from `first` on. -/
  | clear (first count : Nat)
  /-- A file goes to the slot `index` of `allocated` slots. -/
  | store (index allocated : Nat)
  deriving DecidableEq, Repr

def SlotEvent.safe : SlotEvent → Bool
  | .clear first count => count ≤ first
  | .store index allocated => index < allocated

/-- The slots after `realloc` to `size` bytes and `memset` from `current` bytes on. -/
def growSlots (slots : List (Option File)) (current size : Nat) : List (Option File) :=
  (slots.take (current / fileBytes) ++ List.replicate (current / fileBytes - slots.length) none) ++
    List.replicate (size / fileBytes - current / fileBytes) none

/-- An entry of an archive or of an mtree as it goes to the file list, and whether the
allocations for it succeed. -/
structure Member where
  pathname : CStr
  filetype : FileKind
  size : Int
  mode : Nat
  realloc : Bool
  malloc : Bool
  deriving DecidableEq, Repr

structure Added where
  files : FileArray
  filesSize : Nat
  ret : Int
  log : List SlotEvent

/-- The copy of the path comes before the store only for a directory that gets its slash. -/
def Member.needsSlash (entry : Member) (path : CStr) : Bool :=
  entry.filetype = .directory && !endsInSlash path

/-- The part of `add_entry_to_files_list` behind the growth: `clear` is what that did. -/
def storeFile (files : FileArray) (filesSize : Nat) (log : List SlotEvent) (entry : Member)
    (path : CStr) : Added :=
  if entry.needsSlash path ∧ ¬ entry.malloc then ⟨files, filesSize, -1, log⟩
  else
    let log := log ++ [.store files.count files.slots.length]
    if entry.malloc then
      let name := if entry.needsSlash path then path ++ [slash] else path
      let file := { name := some name, size := entry.size, mode := entry.mode }
      ⟨⟨files.slots.set files.count (some file), files.count + 1⟩, filesSize, 0, log⟩
    else ⟨files, filesSize, -1, log⟩

def addEntryToFilesList (files : FileArray) (filesSize : Nat) (entry : Member) (path : CStr) :
    Added :=
  let required := (files.count + 1) * fileBytes % 2 ^ 64
  match greedyGrow entry.realloc filesSize required with
  | none => ⟨files, filesSize, -1, []⟩
  | some size =>
    if size = filesSize then storeFile files filesSize [] entry path
    else
      storeFile { files with slots := growSlots files.slots filesSize size } size
        [.clear (filesSize / fileBytes) files.count] entry path

/-- The sizes that an array and its size variable can have, whether or not they belong
together. -/
structure Sane (files : FileArray) (filesSize : Nat) : Prop where
  whole : filesSize % fileBytes = 0
  bounded : filesSize ≤ ptrdiffMax
  allocated : files.slots.length * fileBytes ≤ ptrdiffMax
  filled : files.count ≤ files.slots.length

def Owned (files : FileArray) (filesSize : Nat) : Prop := files.slots.length * fileBytes = filesSize

def grownSize (files : FileArray) (filesSize : Nat) : Nat :=
  if filesSize = 0 then (files.count + 1) * fileBytes else filesSize * 2

/-- There is room for one more file: if the size says so, in the array as well, and if the helper
grows the array, then from the last file on. A size whose double is too small makes the helper
fail. -/
def Roomy (files : FileArray) (filesSize : Nat) (entry : Member) (path : CStr) : Prop :=
  if (files.count + 1) * fileBytes ≤ filesSize then
    (entry.needsSlash path = true → entry.malloc = true) → files.count < files.slots.length
  else
    entry.realloc = true → (files.count + 1) * fileBytes ≤ grownSize files filesSize →
      grownSize files filesSize ≤ ptrdiffMax → files.count ≤ filesSize / fileBytes

theorem growSlots_length (slots : List (Option File)) {current size : Nat} (le : current ≤ size) :
    (growSlots slots current size).length = size / fileBytes := by
  have := Nat.div_le_div_right (c := fileBytes) le
  simp only [growSlots, length_append, length_take, length_replicate]
  omega

variable {files : FileArray} {filesSize : Nat} {log : List SlotEvent} {path : CStr}

theorem storeFile_filesSize {entry : Member} :
    (storeFile files filesSize log entry path).filesSize = filesSize := by
  unfold storeFile
  split
  · rfl
  · dsimp only
    split <;> rfl

theorem storeFile_slots {entry : Member} :
    (storeFile files filesSize log entry path).files.slots.length = files.slots.length := by
  unfold storeFile
  split
  · rfl
  · dsimp only
    split
    · simp
    · rfl

theorem storeFile_count {entry : Member} (room : files.count < files.slots.length) :
    (storeFile files filesSize log entry path).files.count ≤ files.slots.length := by
  unfold storeFile
  split
  · exact room.le
  · dsimp only
    split
    · exact room
    · exact room.le

theorem storeFile_safe {entry : Member} :
    (storeFile files filesSize log entry path).log.all SlotEvent.safe = true ↔
      log.all SlotEvent.safe = true ∧
        ((entry.needsSlash path = true → entry.malloc = true) →
          files.count < files.slots.length) := by
  unfold storeFile
  split
  · rename_i refused
    simp [refused.1, refused.2]
  · rename_i stored
    have stores : entry.needsSlash path = true → entry.malloc = true := by
      simpa using stored
    have event : (log ++ [SlotEvent.store files.count files.slots.length]).all SlotEvent.safe = true ↔
        log.all SlotEvent.safe = true ∧
          ((entry.needsSlash path = true → entry.malloc = true) →
            files.count < files.slots.length) := by
      rw [all_append, Bool.and_eq_true]
      simp only [all_cons, all_nil, Bool.and_true, SlotEvent.safe, decide_eq_true_eq]
      exact and_congr_right fun _ => ⟨fun room _ => room, fun room => room stores⟩
    dsimp only
    split <;> exact event

inductive Growth (files : FileArray) (filesSize : Nat) (entry : Member) (path : CStr) :
    Added → Prop where
  | refused (required : filesSize < (files.count + 1) * fileBytes)
      (stuck : entry.realloc = true → (files.count + 1) * fileBytes ≤ grownSize files filesSize →
        ¬ grownSize files filesSize ≤ ptrdiffMax) :
      Growth files filesSize entry path ⟨files, filesSize, -1, []⟩
  | enough (required : (files.count + 1) * fileBytes ≤ filesSize) :
      Growth files filesSize entry path (storeFile files filesSize [] entry path)
  | grown (required : filesSize < (files.count + 1) * fileBytes) (realloc : entry.realloc = true)
      (large : (files.count + 1) * fileBytes ≤ grownSize files filesSize)
      (bounded : grownSize files filesSize ≤ ptrdiffMax) :
      Growth files filesSize entry path
        (storeFile { files with slots := growSlots files.slots filesSize (grownSize files filesSize) }
          (grownSize files filesSize) [.clear (filesSize / fileBytes) files.count] entry path)

theorem addEntryToFilesList_growth (sane : Sane files filesSize) (entry : Member) (path : CStr) :
    Growth files filesSize entry path (addEntryToFilesList files filesSize entry path) := by
  have bounded := sane.bounded
  have allocated := sane.allocated
  have filled := sane.filled
  simp only [ptrdiffMax, fileBytes] at bounded allocated
  have noWrap : (files.count + 1) * fileBytes % 2 ^ 64 = (files.count + 1) * fileBytes :=
    Nat.mod_eq_of_lt (by simp only [fileBytes]; omega)
  have double : (if filesSize = 0 then (files.count + 1) * fileBytes else filesSize * 2 % 2 ^ 64) =
      grownSize files filesSize := by
    unfold grownSize
    split
    · rfl
    · exact Nat.mod_eq_of_lt (by omega)
  unfold addEntryToFilesList greedyGrow
  simp only [noWrap, double]
  by_cases required : (files.count + 1) * fileBytes ≤ filesSize
  · simp only [required, if_true]
    exact .enough required
  · simp only [required, if_false]
    by_cases large : grownSize files filesSize < (files.count + 1) * fileBytes
    · simp only [large, if_true]
      exact .refused (by omega) (by omega)
    · simp only [large, if_false]
      by_cases memory : entry.realloc = true ∧ grownSize files filesSize ≤ ptrdiffMax
      · have more : grownSize files filesSize ≠ filesSize := by omega
        simp only [memory, and_self, if_true, more, if_false]
        exact .grown (by omega) memory.1 (by omega) memory.2
      · simp only [memory, if_false]
        exact .refused (by omega) (fun realloc _ bound => memory ⟨realloc, bound⟩)

section Adding

variable {files : FileArray} {filesSize : Nat} {entry : Member} {path : CStr} {added : Added}

theorem Growth.safe_iff (growth : Growth files filesSize entry path added) :
    added.log.all SlotEvent.safe = true ↔ Roomy files filesSize entry path := by
  unfold Roomy
  cases growth with
  | refused required stuck =>
    rw [if_neg (by omega)]
    simp only [all_nil, true_iff]
    intro realloc large bounded
    exact absurd bounded (stuck realloc large)
  | enough required =>
    rw [if_pos required, storeFile_safe]
    simp
  | grown required realloc large bounded =>
    -- the helper makes room for the file whatever the array was
    have room : files.count < grownSize files filesSize / fileBytes := by
      rw [Nat.lt_iff_add_one_le, Nat.le_div_iff_mul_le (by decide)]
      exact large
    rw [if_neg (by omega), storeFile_safe, growSlots_length _ (by omega)]
    simp [SlotEvent.safe, realloc, large, bounded, room]

theorem Growth.sane (growth : Growth files filesSize entry path added) (sane : Sane files filesSize)
    (roomy : Roomy files filesSize entry path) : Sane added.files added.filesSize := by
  have safe := growth.safe_iff.mpr roomy
  cases growth with
  | refused required stuck => exact sane
  | enough required =>
    have room := (storeFile_safe.mp safe).2
    refine ⟨?_, ?_, ?_, ?_⟩
    · rw [storeFile_filesSize]
      exact sane.whole
    · rw [storeFile_filesSize]
      exact sane.bounded
    · rw [storeFile_slots]
      exact sane.allocated
    · rw [storeFile_slots]
      unfold storeFile
      split
      · exact sane.filled
      · rename_i stored
        have room := room (by simpa using stored)
        dsimp only
        split
        · exact room
        · exact room.le
  | grown required realloc large bounded =>
    have whole := sane.whole
    have room : files.count < grownSize files filesSize / fileBytes := by
      rw [Nat.lt_iff_add_one_le, Nat.le_div_iff_mul_le (by decide)]
      exact large
    have length := growSlots_length files.slots (le_of_lt (lt_of_lt_of_le required large))
    refine ⟨?_, ?_, ?_, ?_⟩
    · rw [storeFile_filesSize]
      unfold grownSize
      split
      · exact Nat.mul_mod_left _ _
      · rw [Nat.mul_mod, whole, Nat.zero_mul, Nat.zero_mod]
    · rw [storeFile_filesSize]
      exact bounded
    · rw [storeFile_slots, length]
      exact (Nat.div_mul_le_self _ _).trans bounded
    · rw [storeFile_slots]
      exact storeFile_count (by rw [length]; exact room)

theorem roomy_of_owned (sane : Sane files filesSize) (owned : Owned files filesSize) :
    Roomy files filesSize entry path := by
  have filled := sane.filled
  unfold Owned at owned
  unfold Roomy
  split
  · rename_i required
    intro _
    rw [← owned] at required
    exact Nat.lt_of_add_one_le (Nat.le_of_mul_le_mul_right required (by decide))
  · intro _ _ _
    rw [← owned, Nat.mul_div_cancel _ (by decide)]
    exact filled

theorem Growth.owned (growth : Growth files filesSize entry path added) (sane : Sane files filesSize)
    (owned : Owned files filesSize) : Owned added.files added.filesSize := by
  have whole := sane.whole
  unfold Owned at owned ⊢
  cases growth with
  | refused required stuck => exact owned
  | enough required =>
    rw [storeFile_slots, storeFile_filesSize]
    exact owned
  | grown required realloc large bounded =>
    rw [storeFile_slots, storeFile_filesSize, growSlots_length _ (by omega)]
    apply Nat.div_mul_cancel
    unfold grownSize
    split
    · exact Nat.dvd_mul_left _ _
    · exact Dvd.dvd.mul_right (Nat.dvd_of_mod_eq_zero whole) 2

end Adding

/-! ### The loader -/

/-- What libarchive makes of the data of an entry when it is read as an mtree: whether it can be
read and opened, the entries it lists, and whether the list ends without an error. -/
structure Mtree where
  opened : Bool
  members : List Member
  complete : Bool
  deriving DecidableEq, Repr

structure Info where
  name : Option CStr
  version : Option CStr
  deriving DecidableEq, Repr

/-- An entry of the package: its data may be read as a description (`none` if `parse_descfile`
fails on it) or as an mtree, or be skipped. -/
structure PackageEntry extends Member where
  info : Option Info
  mtree : Mtree
  skipped : Bool
  deriving DecidableEq, Repr

def dot : UInt8 := 46

/-- `handle_simple_path`: what is returned, and the scriptlet flag afterwards -/
def handleSimplePath (scriptlet : Bool) (path : CStr) : Bool × Bool :=
  if strcmp path (cstr ".INSTALL") = 0 then (true, true)
  else if path.head? = some dot then (true, scriptlet)
  else (false, scriptlet)

/-- A path of the mtree without a leading `./` -/
def stripDot : CStr → CStr
  | 46 :: 47 :: path => path
  | path => path

structure Built where
  files : FileArray
  filesSize : Nat
  scriptlet : Bool
  ret : Int
  log : List SlotEvent

/-- `add_entry_to_files_list` on the list that is built -/
def Built.add (st : Built) (entry : Member) (path : CStr) : Built :=
  let added := addEntryToFilesList st.files st.filesSize entry path
  { st with
    files := added.files
    filesSize := added.filesSize
    ret := added.ret
    log := st.log ++ added.log }

/-- The loop of `build_filelist_from_mtree` over its own list. -/
def mtreeLoop (st : Built) : List Member → Built
  | [] => st
  | entry :: members =>
    let path := stripDot entry.pathname
    let handled := handleSimplePath st.scriptlet path
    if handled.1 then mtreeLoop { st with scriptlet := handled.2 } members
    else
      let st := st.add entry path
      if st.ret < 0 then st else mtreeLoop st members

/-- `build_filelist_from_mtree`: its own list, to replace the one of the package if it returns 0 -/
def buildFilelistFromMtree (scriptlet : Bool) (mtree : Mtree) : Built :=
  let start : Built := ⟨⟨[], 0⟩, 0, scriptlet, 0, []⟩
  if mtree.opened then
    let built := mtreeLoop start mtree.members
    if built.ret < 0 then built
    else if mtree.complete then built
    else { built with ret := -1 }
  else { start with ret := -1 }

inductive LoadStatus where
  | reading
  | stopped
  | invalid
  | failed
  deriving DecidableEq, Repr

/-- The variables of `_alpm_pkg_load_internal` and the fields of the new package that it sets. -/
structure Load where
  name : Option CStr
  version : Option CStr
  scriptlet : Bool
  files : FileArray
  filesSize : Nat
  config : Bool
  hitMtree : Bool
  status : LoadStatus
  log : List SlotEvent

def Load.start : Load where
  name := none
  version := none
  scriptlet := false
  files := ⟨[], 0⟩
  filesSize := 0
  config := false
  hitMtree := false
  status := .reading
  log := []

def loadInfo (st : Load) (entry : PackageEntry) : Load :=
  match entry.info with
  | none => { st with status := .invalid }
  | some info =>
    let st := { st with name := info.name.or st.name, version := info.version.or st.version }
    if checkInfo st.name st.version = none then { st with config := true }
    else { st with status := .invalid }

def loadMtree (st : Load) (entry : PackageEntry) : Load :=
  let built := buildFilelistFromMtree st.scriptlet entry.mtree
  { st with
    files := if built.ret = 0 then built.files else st.files
    scriptlet := built.scriptlet
    hitMtree := built.ret = 0
    log := st.log ++ built.log }

def loadSkip (full : Bool) (st : Load) (entry : PackageEntry) : Load :=
  if ¬ entry.skipped then { st with status := .failed }
  else if (¬ full ∨ st.hitMtree) ∧ st.config then { st with status := .stopped }
  else st

def loadFile (full : Bool) (st : Load) (entry : PackageEntry) : Load :=
  let added := addEntryToFilesList st.files st.filesSize entry.toMember entry.pathname
  let next := { st with
    files := added.files
    filesSize := added.filesSize
    log := st.log ++ added.log }
  if added.ret < 0 then { next with status := .failed } else loadSkip full next entry

/-- One turn of the loop of `_alpm_pkg_load_internal`. -/
def loadStep (full : Bool) (st : Load) (entry : PackageEntry) : Load :=
  if st.status ≠ .reading then st
  else if strcmp entry.pathname (cstr ".PKGINFO") = 0 then loadInfo st entry
  else if full ∧ strcmp entry.pathname (cstr ".MTREE") = 0 then loadMtree st entry
  else
    let handled := handleSimplePath st.scriptlet entry.pathname
    if handled.1 then { st with scriptlet := handled.2 }
    else if full ∧ ¬ st.hitMtree then loadFile full st entry
    else loadSkip full st entry

structure Built.Good (st : Built) : Prop where
  sane : Sane st.files st.filesSize
  owned : Owned st.files st.filesSize
  safe : st.log.all SlotEvent.safe = true

variable {entry : PackageEntry} {st : Load}

theorem Built.Good.add {st : Built} (good : st.Good) (entry : Member) (path : CStr) :
    (st.add entry path).Good := by
  have growth := addEntryToFilesList_growth good.sane entry path
  have roomy : Roomy st.files st.filesSize entry path := roomy_of_owned good.sane good.owned
  refine ⟨growth.sane good.sane roomy, growth.owned good.sane good.owned, ?_⟩
  change (st.log ++ (addEntryToFilesList st.files st.filesSize entry path).log).all SlotEvent.safe =
    true
  rw [all_append, good.safe, growth.safe_iff.mpr roomy]
  rfl

theorem mtreeLoop_good {st : Built} (good : st.Good) (members : List Member) :
    (mtreeLoop st members).Good := by
  induction members generalizing st with
  | nil => exact good
  | cons entry members ih =>
    rw [mtreeLoop]
    dsimp only
    split
    · exact ih ⟨good.sane, good.owned, good.safe⟩
    · split
      · exact good.add entry _
      · exact ih (good.add entry _)

theorem sane_empty : Sane ⟨[], 0⟩ 0 := ⟨rfl, by decide, by decide, le_rfl⟩

theorem buildFilelistFromMtree_good (scriptlet : Bool) (mtree : Mtree) :
    (buildFilelistFromMtree scriptlet mtree).Good := by
  have start : Built.Good ⟨⟨[], 0⟩, 0, scriptlet, 0, []⟩ := ⟨sane_empty, rfl, rfl⟩
  have built := mtreeLoop_good start mtree.members
  unfold buildFilelistFromMtree
  dsimp only
  split
  · split
    · exact built
    · split
      · exact built
      · exact ⟨built.sane, built.owned, built.safe⟩
  · exact ⟨start.sane, start.owned, start.safe⟩

def Load.appends (st : Load) (entry : PackageEntry) : Bool :=
  st.status = .reading && strcmp entry.pathname (cstr ".PKGINFO") ≠ 0 &&
    strcmp entry.pathname (cstr ".MTREE") ≠ 0 && !(handleSimplePath st.scriptlet entry.pathname).1 &&
      !st.hitMtree

structure SameFiles (st next : Load) : Prop where
  files : next.files = st.files
  filesSize : next.filesSize = st.filesSize
  hitMtree : next.hitMtree = st.hitMtree
  log : next.log = st.log

theorem loadSkip_sameFiles (full : Bool) (st : Load) (entry : PackageEntry) :
    SameFiles st (loadSkip full st entry) := by
  unfold loadSkip
  split
  · exact ⟨rfl, rfl, rfl, rfl⟩
  · split <;> exact ⟨rfl, rfl, rfl, rfl⟩

theorem loadInfo_sameFiles (st : Load) (entry : PackageEntry) : SameFiles st (loadInfo st entry) := by
  unfold loadInfo
  split
  · exact ⟨rfl, rfl, rfl, rfl⟩
  · dsimp only
    split <;> exact ⟨rfl, rfl, rfl, rfl⟩

/-- The package with one more file, as `loadFile` leaves it to what comes behind. -/
def Load.added (st : Load) (entry : PackageEntry) : Load :=
  let added := addEntryToFilesList st.files st.filesSize entry.toMember entry.pathname
  { st with files := added.files, filesSize := added.filesSize, log := st.log ++ added.log }

/-- All that a turn of the full loop can do to the file list. -/
inductive FileTurn (st : Load) (entry : PackageEntry) (next : Load) : Prop where
  | idle (apart : st.appends entry = false) (same : SameFiles st next)
  | mtree (apart : st.appends entry = false) (named : entry.pathname = cstr ".MTREE")
      (replaced : next = loadMtree st entry)
  | file (appended : st.appends entry = true) (same : SameFiles (st.added entry) next)

theorem loadStep_fileTurn (st : Load) (entry : PackageEntry) :
    FileTurn st entry (loadStep true st entry) := by
  unfold loadStep
  by_cases reading : st.status = .reading
  · rw [if_neg (by simp [reading])]
    by_cases info : strcmp entry.pathname (cstr ".PKGINFO") = 0
    · rw [if_pos info]
      exact .idle (by simp [Load.appends, info]) (loadInfo_sameFiles st entry)
    · rw [if_neg info]
      by_cases mtree : strcmp entry.pathname (cstr ".MTREE") = 0
      · rw [if_pos ⟨rfl, mtree⟩]
        exact .mtree (by simp [Load.appends, mtree]) (strcmp_eq_zero.mp mtree) rfl
      · rw [if_neg (fun named => mtree named.2)]
        cases handled : (handleSimplePath st.scriptlet entry.pathname).1 with
        | true =>
          simp only [if_true, handled]
          exact .idle (by simp [Load.appends, handled]) ⟨rfl, rfl, rfl, rfl⟩
        | false =>
          simp only [handled, Bool.false_eq_true, if_false]
          cases hit : st.hitMtree with
          | true =>
            simp only [not_true_eq_false, and_false, if_false]
            exact .idle (by simp [Load.appends, hit]) (loadSkip_sameFiles true st entry)
          | false =>
            simp only [Bool.false_eq_true, not_false_eq_true, and_self, if_true]
            have appended : st.appends entry = true := by
              simp [Load.appends, reading, info, mtree, handled, hit]
            unfold loadFile
            dsimp only
            split
            · exact .file appended ⟨rfl, rfl, rfl, rfl⟩
            · exact .file appended (loadSkip_sameFiles true (st.added entry) entry)
  · rw [if_pos reading]
    exact .idle (by simp [Load.appends, reading]) ⟨rfl, rfl, rfl, rfl⟩

structure Load.Sound (st : Load) : Prop where
  sane : Sane st.files st.filesSize
  safe : st.log.all SlotEvent.safe = true

def FindsRoom (st : Load) (entry : PackageEntry) : Prop :=
  st.appends entry = true → Roomy st.files st.filesSize entry.toMember entry.pathname

theorem FileTurn.safe_iff {next : Load} (turn : FileTurn st entry next) (sound : st.Sound) :
    next.log.all SlotEvent.safe = true ↔ FindsRoom st entry := by
  unfold FindsRoom
  cases turn with
  | idle apart same => simp [same.log, sound.safe, apart]
  | mtree apart named replaced =>
    have built := buildFilelistFromMtree_good st.scriptlet entry.mtree
    rw [replaced, loadMtree]
    simp [sound.safe, built.safe, apart]
  | file appended same =>
    have growth := addEntryToFilesList_growth sound.sane entry.toMember entry.pathname
    rw [same.log, Load.added]
    dsimp only
    rw [all_append, sound.safe, Bool.true_and, growth.safe_iff, appended]
    simp

theorem FileTurn.sound {next : Load} (turn : FileTurn st entry next) (sound : st.Sound)
    (room : FindsRoom st entry) : next.Sound := by
  refine ⟨?_, (turn.safe_iff sound).mpr room⟩
  cases turn with
  | idle apart same =>
    rw [same.files, same.filesSize]
    exact sound.sane
  | mtree apart named replaced =>
    have built := (buildFilelistFromMtree_good st.scriptlet entry.mtree).sane
    rw [replaced, loadMtree]
    dsimp only
    split
    · exact ⟨sound.sane.whole, sound.sane.bounded, built.allocated, built.filled⟩
    · exact sound.sane
  | file appended same =>
    have growth := addEntryToFilesList_growth sound.sane entry.toMember entry.pathname
    rw [same.files, same.filesSize]
    exact growth.sane sound.sane (room appended)

theorem load_start_sound : Load.start.Sound := ⟨sane_empty, rfl⟩

theorem mtreeLoop_ret (st : Built) (scriptlet : Bool) (members : List Member) :
    (mtreeLoop { st with scriptlet := scriptlet } members).ret = (mtreeLoop st members).ret := by
  induction members generalizing st scriptlet with
  | nil => rfl
  | cons entry members ih =>
    have simple : ∀ flag : Bool, (handleSimplePath flag (stripDot entry.pathname)).1 =
        (handleSimplePath st.scriptlet (stripDot entry.pathname)).1 := by
      intro flag
      unfold handleSimplePath
      split
      · rfl
      · split <;> rfl
    simp only [mtreeLoop, simple scriptlet]
    split
    · exact (ih st _).trans (ih st _).symm
    · have added : Built.add { st with scriptlet := scriptlet } entry (stripDot entry.pathname) =
          { st.add entry (stripDot entry.pathname) with scriptlet := scriptlet } := rfl
      rw [added]
      dsimp only
      split
      · rfl
      · exact ih _ _

theorem buildFilelistFromMtree_ret (scriptlet : Bool) (mtree : Mtree) :
    (buildFilelistFromMtree scriptlet mtree).ret = (buildFilelistFromMtree false mtree).ret := by
  have same := mtreeLoop_ret ⟨⟨[], 0⟩, 0, false, 0, []⟩ scriptlet mtree.members
  unfold buildFilelistFromMtree
  dsimp only at same ⊢
  split
  · rw [same]
    split
    · exact same
    · split
      · exact same
      · rfl
  · rfl

def PackageEntry.mtreeParses (entry : PackageEntry) : Bool :=
  entry.pathname = cstr ".MTREE" && (buildFilelistFromMtree false entry.mtree).ret = 0

def PackageEntry.mtreeFails (entry : PackageEntry) : Bool :=
  entry.pathname = cstr ".MTREE" && (buildFilelistFromMtree false entry.mtree).ret ≠ 0

def NoRelapse (entries : List PackageEntry) : Prop :=
  entries.Pairwise fun earlier later => earlier.mtreeParses = true → later.mtreeFails = false

theorem FindsRoom.of_owned (sound : st.Sound)
    (owned : st.hitMtree = false → Owned st.files st.filesSize) : FindsRoom st entry := by
  intro appended
  have fresh : st.hitMtree = false := by
    simp only [Load.appends, Bool.and_eq_true, Bool.not_eq_true'] at appended
    exact appended.2
  exact roomy_of_owned sound.sane (owned fresh)

theorem loadStep_owned (sound : st.Sound)
    (owned : st.hitMtree = false → Owned st.files st.filesSize)
    (firm : st.hitMtree = true → entry.mtreeFails = false)
    (fresh : (loadStep true st entry).hitMtree = false) :
    Owned (loadStep true st entry).files (loadStep true st entry).filesSize := by
  cases loadStep_fileTurn st entry with
  | idle apart same =>
    rw [same.hitMtree] at fresh
    rw [same.files, same.filesSize]
    exact owned fresh
  | mtree apart named replaced =>
    have ret := buildFilelistFromMtree_ret st.scriptlet entry.mtree
    rw [replaced, loadMtree] at fresh ⊢
    have fails : (buildFilelistFromMtree st.scriptlet entry.mtree).ret ≠ 0 := by
      simpa using fresh
    have before : st.hitMtree = false := by
      by_contra hit
      have good := firm (by simpa using hit)
      simp [PackageEntry.mtreeFails, named, ← ret, fails] at good
    simp only [fails, if_false]
    exact owned before
  | file appended same =>
    have growth := addEntryToFilesList_growth sound.sane entry.toMember entry.pathname
    rw [same.hitMtree] at fresh
    rw [same.files, same.filesSize]
    exact growth.owned sound.sane (owned fresh)

theorem loadStep_hitMtree (hit : (loadStep true st entry).hitMtree = true) :
    st.hitMtree = true ∨ entry.mtreeParses = true := by
  cases loadStep_fileTurn st entry with
  | idle apart same =>
    rw [same.hitMtree] at hit
    exact .inl hit
  | mtree apart named replaced =>
    have ret := buildFilelistFromMtree_ret st.scriptlet entry.mtree
    rw [replaced, loadMtree] at hit
    exact .inr (by simpa [PackageEntry.mtreeParses, named, ← ret] using hit)
  | file appended same =>
    rw [same.hitMtree] at hit
    exact .inl hit

theorem everyStep_findsRoom {entries : List PackageEntry} (sound : st.Sound)
    (owned : st.hitMtree = false → Owned st.files st.filesSize)
    (firm : st.hitMtree = true → ∀ later ∈ entries, later.mtreeFails = false)
    (noRelapse : NoRelapse entries) : EveryStep (loadStep true) FindsRoom st entries := by
  induction entries generalizing st with
  | nil => exact everyStep_nil
  | cons entry entries ih =>
    obtain ⟨ahead, noRelapse⟩ := pairwise_cons.mp noRelapse
    have room : FindsRoom st entry := .of_owned sound owned
    refine everyStep_cons.mpr ⟨room, ?_⟩
    refine ih ((loadStep_fileTurn st entry).sound sound room) ?_ ?_ noRelapse
    · exact loadStep_owned sound owned fun hit => firm hit entry mem_cons_self
    · intro hit later mem
      rcases loadStep_hitMtree hit with before | parses
      · exact firm before later (mem_cons_of_mem entry mem)
      · exact ahead later mem parses

/-- Loading a package writes inside its file list and clears none of its files exactly when every
entry that is added finds room, which they do unless an mtree fails behind one that parsed. -/
theorem pkgLoad_slots_safe_iff (entries : List PackageEntry) :
    (EveryState (loadStep true) (fun st => st.log.all SlotEvent.safe = true) .start entries ↔
        EveryStep (loadStep true) FindsRoom .start entries) ∧ (NoRelapse entries →
        EveryState (loadStep true) (fun st => st.log.all SlotEvent.safe = true) .start entries) := by
  have exactly : EveryState (loadStep true) (fun st => st.log.all SlotEvent.safe = true) .start
    entries ↔
      EveryStep (loadStep true) FindsRoom .start entries := by
    refine everyState_iff_everyStep Load.Sound ?_ ?_ ?_ load_start_sound entries
    · intro st entry sound room
      exact (loadStep_fileTurn st entry).sound sound room
    · intro st sound
      exact sound.safe
    · intro st entry sound safe
      exact ((loadStep_fileTurn st entry).safe_iff sound).mp safe
  refine ⟨exactly, fun noRelapse => exactly.mpr ?_⟩
  exact everyStep_findsRoom load_start_sound (fun _ => rfl) (fun hit => by cases hit) noRelapse

def PackageEntry.plain (pathname : CStr) (mtree : Mtree) : PackageEntry where
  pathname := pathname
  filetype := .regular
  size := 0
  mode := 0
  realloc := true
  malloc := true
  info := none
  mtree := mtree
  skipped := true

/-- An empty mtree frees the array, one that cannot be read puts the loader back to adding
files, and the size of the freed array lets it store through NULL. -/
theorem pkgLoad_store_past_end : (run (loadStep true) .start [.plain (cstr "a") ⟨false, [], false⟩,
      .plain (cstr ".MTREE") ⟨true, [], true⟩, .plain (cstr ".MTREE") ⟨false, [], false⟩,
      .plain (cstr "b") ⟨false, [], false⟩]).log = [.clear 0 0, .store 0 1, .store 0 0] ∧
      SlotEvent.safe (.store 0 0) = false := by
  decide +kernel

end Dulge
