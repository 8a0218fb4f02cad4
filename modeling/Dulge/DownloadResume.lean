import Dulge.Disk
import Dulge.Download

/-! What `_alpm_download` does before the first transfer: `prepare_resumable_downloads` notes when
the files that are there were changed, and hands partial files to the user of the sandbox. `chown`
answers zero when it has succeeded, and the assertion around it takes that for a failure: the loop
ends with the first partial file that it has moved. -/

namespace Dulge
open List Function

/-- `pw_uid` and `pw_gid` -/
structure Owner where
  uid : Nat
  gid : Nat
  deriving DecidableEq

structure LocalFile where
  data : CStr
  mtime : Int
  owner : Owner
  deriving DecidableEq

abbrev Directory := CStr → Option LocalFile

namespace Directory

variable (files : Directory)

def rename (old new : CStr) : Directory :=
  if old = new then files
  else update (update files new (files old)) old none

def chown (name : CStr) (owner : Owner) : Directory :=
  update files name ((files name).map fun file => { file with owner })

end Directory

structure SandboxHandle where
  user : Nat
  sandboxuser : Option CStr
  disableSandboxFilesystem : Bool
  disableSandboxSyscalls : Bool

def useSandbox (handle : SandboxHandle) : Bool :=
  handle.user = 0 && handle.sandboxuser.isSome &&
    (!handle.disableSandboxFilesystem || !handle.disableSandboxSyscalls)

structure ResumeSystem where
  getpwnam : CStr → Option Owner
  rename : CStr → CStr → Bool
  chown : CStr → Bool

def getFullpath (path filename suffix : CStr) : CStr := path ++ filename ++ suffix

section Prepare

variable (handle : SandboxHandle) (sys : ResumeSystem) (localpath : CStr)

def finalPath (destfileName : CStr) : CStr := getFullpath localpath (mbasename destfileName) []

def partPath (payload : DloadPayload) : CStr :=
  getFullpath localpath (mbasename payload.tempfileName) []

/-- A file that `stat` finds with a size other than zero. -/
def nonEmpty (files : Directory) (path : CStr) : Option LocalFile :=
  (files path).filter fun file => file.data.length ≠ 0

/-- The first part of the loop body: `mtime_existing_file`. -/
def noteExisting (files : Directory) (payload : DloadPayload) : DloadPayload :=
  match payload.destfileName.bind fun dest => nonEmpty files (finalPath localpath dest) with
  | some file => { payload with mtimeExistingFile := file.mtime }
  | none => payload

/-- The loop of `prepare_resumable_downloads`, with the payloads and files it leaves. -/
def prepareLoop (pw : Option Owner) : List DloadPayload → Directory → List DloadPayload × Directory
  | [], files => ([], files)
  | payload :: rest, files =>
    let noted := noteExisting localpath files payload
    let src := partPath localpath payload
    let goOn := fun files : Directory =>
      let later := prepareLoop pw rest files
      (noted :: later.1, later.2)
    if useSandbox handle = false then goOn files
    else if (nonEmpty files src).isNone then goOn files
    else if sys.rename src payload.tempfileName = false then goOn files
    else
      let moved := files.rename src payload.tempfileName
      match pw with
      | none => goOn moved
      | some owner =>
        -- the assertion returns when `chown` has answered zero
        if sys.chown payload.tempfileName then
          (noted :: rest, moved.chown payload.tempfileName owner)
        else goOn moved

def prepareResumableDownloads (payloads : List DloadPayload) (files : Directory) :
    List DloadPayload × Directory :=
  if useSandbox handle then
    match handle.sandboxuser.bind sys.getpwnam with
    | none => (payloads, files)
    | some owner => prepareLoop handle sys localpath (some owner) payloads files
  else prepareLoop handle sys localpath none payloads files

/-! ### What is to be prepared -/

def Noted (files : Directory) (payload : DloadPayload) (mtime : Int) : Prop :=
  ∀ dest file, payload.destfileName = some dest →
    nonEmpty files (finalPath localpath dest) = some file → mtime = file.mtime

/-- The file is under the new name, whoever owns it, and no longer under the old one. -/
def Moved (files : Directory) (old new : CStr) (file : LocalFile) : Prop :=
  (∃ there, files new = some there ∧ there.data = file.data ∧ there.mtime = file.mtime) ∧
    (old ≠ new → files old = none)

def PartMoved (before after : Directory) (payload : DloadPayload) : Prop :=
  ∀ file, nonEmpty before (partPath localpath payload) = some file →
    Moved after (partPath localpath payload) payload.tempfileName file

/-- Every payload is prepared: `after` is what is left of the payloads and the files. -/
def Prepared (payloads : List DloadPayload) (files : Directory)
    (after : List DloadPayload × Directory) : Prop :=
  List.Forall₂ (fun payload now => Noted localpath files payload now.mtimeExistingFile ∧
    PartMoved localpath files after.2 payload) payloads after.1

variable {localpath}

theorem noteExisting_noted (files : Directory) (payload : DloadPayload) :
    Noted localpath files payload (noteExisting localpath files payload).mtimeExistingFile := by
  intro dest file named found
  simp [noteExisting, named, found]

def Waiting (localpath : CStr) (files : Directory) (payload : DloadPayload) : Prop :=
  (nonEmpty files (partPath localpath payload)).isSome = true

instance (files : Directory) (payload : DloadPayload) :
    Decidable (Waiting localpath files payload) := inferInstanceAs (Decidable (_ = _))

variable {files : Directory} {payload : DloadPayload}

theorem moved_chown {name old new : CStr} {owner : Owner} {file : LocalFile} :
    Moved (files.chown name owner) old new file ↔ Moved files old new file := by
  have found (path : CStr) : (∃ there, files.chown name owner path = some there ∧
      there.data = file.data ∧ there.mtime = file.mtime) ↔
      ∃ there, files path = some there ∧ there.data = file.data ∧ there.mtime = file.mtime := by
    by_cases this : path = name
    · subst this
      simp [Directory.chown]
    · simp [Directory.chown, this]
  have gone (path : CStr) : files.chown name owner path = none ↔ files path = none := by
    by_cases this : path = name
    · subst this
      simp [Directory.chown]
    · simp [Directory.chown, this]
  rw [Moved, Moved, found, gone]

theorem partMoved_chown {after : Directory} {name : CStr} {owner : Owner} :
    PartMoved localpath files (after.chown name owner) payload ↔
      PartMoved localpath files after payload :=
  forall₂_congr fun _ _ => moved_chown

theorem partMoved_rename (files : Directory) (payload : DloadPayload) : PartMoved localpath files
      (files.rename (partPath localpath payload) payload.tempfileName) payload := by
  intro file found
  have there : files (partPath localpath payload) = some file :=
    (Option.filter_eq_some_iff.mp found).1
  unfold Directory.rename
  split
  next same => exact ⟨⟨file, same ▸ there, rfl, rfl⟩, absurd same⟩
  next apart =>
    refine ⟨⟨file, ?_, rfl, rfl⟩, fun _ => update_self ..⟩
    rw [update_of_ne (Ne.symm apart), update_self, there]

/-! ### What the loop does -/

variable {handle sys}

theorem prepareLoop_cons_of_not_waiting (none : ¬ Waiting localpath files payload)
    (pw : Option Owner) (rest : List DloadPayload) :
    prepareLoop handle sys localpath pw (payload :: rest) files =
      (noteExisting localpath files payload :: (prepareLoop handle sys localpath pw rest files).1,
        (prepareLoop handle sys localpath pw rest files).2) := by
  have missing : (nonEmpty files (partPath localpath payload)).isNone = true := by
    simpa [Waiting] using none
  simp [prepareLoop, missing]

theorem prepareLoop_of_none_waiting {payloads : List DloadPayload}
    (none : ∀ payload ∈ payloads, ¬ Waiting localpath files payload) (pw : Option Owner) :
    prepareLoop handle sys localpath pw payloads files =
      (payloads.map (noteExisting localpath files), files) := by
  induction payloads with
  | nil => rfl
  | cons payload rest ih =>
    rw [prepareLoop_cons_of_not_waiting (none payload mem_cons_self),
      ih fun other mem => none other (mem_cons_of_mem _ mem)]
    rfl

theorem prepareLoop_of_waiting (used : useSandbox handle = true)
    (renames : ∀ old new, sys.rename old new = true) (chowns : ∀ name, sys.chown name = true)
    (owner : Owner) {front back : List DloadPayload} {first : DloadPayload}
    (none : ∀ payload ∈ front, ¬ Waiting localpath files payload)
    (waiting : Waiting localpath files first) :
    prepareLoop handle sys localpath (some owner) (front ++ first :: back) files =
      (front.map (noteExisting localpath files) ++ noteExisting localpath files first :: back,
        (files.rename (partPath localpath first) first.tempfileName).chown first.tempfileName
          owner) := by
  induction front with
  | nil =>
    have found : (nonEmpty files (partPath localpath first)).isNone = false := by
      rw [← Option.not_isSome, show (nonEmpty files (partPath localpath first)).isSome = true
        from waiting]
      rfl
    simp [prepareLoop, used, found, renames, chowns]
  | cons payload front ih =>
    rw [cons_append, prepareLoop_cons_of_not_waiting (none payload mem_cons_self),
      ih fun other mem => none other (mem_cons_of_mem _ mem)]
    rfl

end Prepare

/-- Every payload is prepared exactly when nothing is left to do behind the first partial file:
the later payloads know the times of their files, and the one move has put their partial files in
place as well. -/
theorem prepareResumableDownloads_prepared_iff (handle : SandboxHandle) (sys : ResumeSystem)
    (localpath : CStr) (payloads : List DloadPayload) (files : Directory)
    (used : useSandbox handle = true) (user : (handle.sandboxuser.bind sys.getpwnam).isSome = true)
    (renames : ∀ old new, sys.rename old new = true) (chowns : ∀ name, sys.chown name = true) :
    Prepared localpath payloads files
        (prepareResumableDownloads handle sys localpath payloads files) ↔
      ∀ front first back, payloads = front ++ first :: back →
        (∀ payload ∈ front, ¬ Waiting localpath files payload) → Waiting localpath files first →
          ∀ payload ∈ back, Noted localpath files payload payload.mtimeExistingFile ∧
            PartMoved localpath files
              (files.rename (partPath localpath first) first.tempfileName) payload := by
  obtain ⟨owner, found⟩ := Option.isSome_iff_exists.mp user
  have loop : prepareResumableDownloads handle sys localpath payloads files =
      prepareLoop handle sys localpath (some owner) payloads files := by
    rw [prepareResumableDownloads, if_pos used, found]
  rw [loop, Prepared]
  -- the payloads in front of the first partial file, and that one, are prepared in any case
  have front_done (front : List DloadPayload)
      (none : ∀ payload ∈ front, ¬ Waiting localpath files payload) (after : Directory) :
      List.Forall₂ (fun payload now => Noted localpath files payload now.mtimeExistingFile ∧
        PartMoved localpath files after payload) front
          (front.map (noteExisting localpath files)) := by
    rw [List.forall₂_map_right_iff, List.forall₂_same]
    intro payload member
    refine ⟨noteExisting_noted files payload, fun file found => ?_⟩
    exact absurd (by rw [Waiting, found]; rfl) (none payload member)
  constructor
  · intro prepared front first back split none waiting payload member
    subst split
    rw [prepareLoop_of_waiting used renames chowns owner none waiting] at prepared
    have behind := List.forall₂_drop_append _ _ _ prepared
    rw [length_map, drop_left] at behind
    obtain ⟨noted, moved⟩ := List.forall₂_same.mp (List.forall₂_cons.mp behind).2 payload member
    exact ⟨noted, partMoved_chown.mp moved⟩
  · intro rest
    cases search : payloads.find? (fun payload => Waiting localpath files payload) with
    | none =>
      have none : ∀ payload ∈ payloads, ¬ Waiting localpath files payload := by
        simpa using List.find?_eq_none.mp search
      rw [prepareLoop_of_none_waiting none]
      exact front_done payloads none files
    | some first =>
      obtain ⟨waiting, front, back, split, none⟩ := List.find?_eq_some_iff_append.mp search
      have none : ∀ payload ∈ front, ¬ Waiting localpath files payload := by simpa using none
      have waiting : Waiting localpath files first := by simpa using waiting
      have later := rest front first back split none waiting
      subst split
      rw [prepareLoop_of_waiting used renames chowns owner none waiting]
      refine rel_append (front_done front none _) (.cons ?_ ?_)
      · exact ⟨noteExisting_noted files first, partMoved_chown.mpr (partMoved_rename files first)⟩
      · rw [List.forall₂_same]
        exact fun payload member =>
          ⟨(later payload member).1, partMoved_chown.mpr (later payload member).2⟩

def packagePayload (name : CStr) : DloadPayload where
  tempfileName := cstr "/tmp/dl/" ++ name ++ cstr ".part"
  destfileName := some (cstr "/tmp/dl/" ++ name)
  fileurl := none
  filepath := some name
  cacheServers := []
  servers := [cstr "https://one"]
  respcode := 0
  mtimeExistingFile := 0
  initialSize := 0
  maxSize := 0
  force := false
  allowResume := true
  errorsOk := false
  unlinkOnFail := false
  downloadSignature := false
  signatureOptional := false
  signature := false
  requestErrorsOk := false
  localf := none

def rootHandle : SandboxHandle := ⟨0, some (cstr "alpm"), false, false⟩

def willingSystem : ResumeSystem := ⟨fun _ => some ⟨974, 974⟩, fun _ _ => true, fun _ => true⟩

def partialFiles (names : List CStr) : Directory := fun path =>
  if path ∈ names.map (cstr "/cache/" ++ · ++ cstr ".part") then some ⟨[1], 7, ⟨0, 0⟩⟩ else none

theorem prepareResumableDownloads_last_prepared :
    Prepared (cstr "/cache/") [packagePayload (cstr "a"), packagePayload (cstr "b")]
      (partialFiles [cstr "b"]) (prepareResumableDownloads rootHandle willingSystem (cstr "/cache/")
        [packagePayload (cstr "a"), packagePayload (cstr "b")] (partialFiles [cstr "b"])) := by
  refine (prepareResumableDownloads_prepared_iff _ _ _ _ _ rfl rfl (fun _ _ => rfl)
    fun _ => rfl).mpr ?_
  intro front first back split none waiting payload member
  have early : ¬ Waiting (cstr "/cache/") (partialFiles [cstr "b"]) (packagePayload (cstr "a")) := by
    decide
  -- only the last payload has a partial file
  match front, split with
  | [], split =>
    cases split
    exact absurd waiting early
  | [_], split =>
    cases split
    cases member
  | _ :: _ :: _, split => simp at split

/-- Two downloads were interrupted; the partial file of the second one stays where it is. -/
theorem prepareResumableDownloads_second_left :
    ¬ Prepared (cstr "/cache/") [packagePayload (cstr "a"), packagePayload (cstr "b")]
      (partialFiles [cstr "a", cstr "b"])
      (prepareResumableDownloads rootHandle willingSystem (cstr "/cache/")
        [packagePayload (cstr "a"), packagePayload (cstr "b")]
        (partialFiles [cstr "a", cstr "b"])) ∧
    (prepareResumableDownloads rootHandle willingSystem (cstr "/cache/")
        [packagePayload (cstr "a"), packagePayload (cstr "b")]
        (partialFiles [cstr "a", cstr "b"])).2 (cstr "/cache/b.part") = some ⟨[1], 7, ⟨0, 0⟩⟩ := by
  refine ⟨fun prepared => ?_, by decide⟩
  cases prepared with
  | cons _ later =>
    cases later with
    | cons second _ =>
      have gone := (second.2 ⟨[1], 7, ⟨0, 0⟩⟩ (by decide)).2 (by decide)
      revert gone
      decide

end Dulge
