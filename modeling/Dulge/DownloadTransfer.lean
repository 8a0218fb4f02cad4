import Dulge.Download

/-! What the set-up and the end of one transfer do to a name in the download directory. A
payload leaves every name alone that is not one of its own: its temporary file, its
destination and, if it asks for one, its signature. -/

namespace Dulge
open List

/-! ### Names in the directory -/

namespace DownloadDir

variable {dir : DownloadDir} {d : CStr}

theorem has_fopen {name : CStr} (other : name ≠ d) (empty : Bool) :
    (dir.fopen empty name).2.has d = dir.has d := by
  unfold fopen
  split
  · split <;> rfl
  · simp [has, Function.update_of_ne other.symm]

theorem has_ftruncate (file length : Nat) : (dir.ftruncate file length).has d = dir.has d := rfl

theorem has_unlink {name : CStr} (other : name ≠ d) : (dir.unlink name).has d = dir.has d := by
  simp [has, unlink, Function.update_of_ne other.symm]

theorem has_rename {old new : CStr} (otherOld : old ≠ d) (otherNew : new ≠ d) :
    (dir.rename old new).has d = dir.has d := by
  unfold rename
  split
  · rfl
  · simp [has, Function.update_of_ne otherOld.symm, Function.update_of_ne otherNew.symm]

theorem has_rename_new {old : CStr} (there : dir.has old = true) :
    (dir.rename old d).has d = true := by
  unfold rename
  split
  · rename_i same
    rw [← same]
    exact there
  · rename_i differ
    simpa [has, Function.update_of_ne (Ne.symm differ)] using there

end DownloadDir

/-! ### What one payload does -/

structure SameNames (q r : DloadPayload) : Prop where
  temp : r.tempfileName = q.tempfileName
  dest : r.destfileName = q.destfileName
  errorsOk : r.errorsOk = q.errorsOk
  signature : r.signature = q.signature
  downloadSignature : r.downloadSignature = q.downloadSignature

def DloadPayload.realname (q : DloadPayload) : CStr := q.destfileName.getD q.tempfileName

/-- A payload that leaves the name `d` alone, unless its own file has that name. -/
structure Spares (d : CStr) (q : DloadPayload) : Prop where
  temp : q.tempfileName ≠ d
  signature : q.signature = false → q.downloadSignature = true →
    q.realname ++ cstr ".sig" ≠ d ∧ q.realname ++ cstr ".sig.part" ≠ d
  required : q.destfileName = some d → q.errorsOk = false

variable {d : CStr} {q r : DloadPayload}

theorem Spares.congr (spares : Spares d q) (same : SameNames q r) : Spares d r where
  temp := same.temp ▸ spares.temp
  signature := by
    rw [same.signature, same.downloadSignature, DloadPayload.realname, same.temp, same.dest]
    exact spares.signature
  required := by
    rw [same.dest, same.errorsOk]
    exact spares.required

theorem Spares.unlinking (spares : Spares d q) : Spares d { q with unlinkOnFail := true } :=
  ⟨spares.temp, spares.signature, spares.required⟩

theorem payloadNextServer_spec (errors : ServerErrors) (q : DloadPayload) :
    ∃ cacheServers servers requestErrorsOk, (errors.payloadNextServer q).2 = { q with
        cacheServers := cacheServers
        servers := servers
        requestErrorsOk := requestErrorsOk } := by
  unfold ServerErrors.payloadNextServer
  split
  · exact ⟨_, _, _, rfl⟩
  · split
    · exact ⟨_, _, _, rfl⟩
    · exact ⟨_, _, _, rfl⟩

theorem partComplete_congr (dir : DownloadDir) (temp : r.tempfileName = q.tempfileName)
    (force : r.force = q.force) (mtime : r.mtimeExistingFile = q.mtimeExistingFile)
    (resume : r.allowResume = q.allowResume) (initial : r.initialSize = q.initialSize)
    (most : r.maxSize = q.maxSize) : r.partComplete dir = q.partComplete dir := by
  unfold DloadPayload.partComplete curlSetHandleOpts
  rw [temp, force, mtime, resume]
  split
  · simp [initial, most]
  · split
    · split
      · simp [most]
      · simp [initial, most]
    · simp [initial, most]

theorem startUrl_spec {errors : ServerErrors} (started : startUrl errors q = some r) :
    SameNames q r ∧ ∀ dir, r.partComplete dir = q.partComplete dir := by
  unfold startUrl at started
  split at started
  · split at started
    · cases started
    · cases started
      exact ⟨⟨rfl, rfl, rfl, rfl, rfl⟩, fun dir => partComplete_congr dir rfl rfl rfl rfl rfl rfl⟩
  · split at started
    · rename_i server next filepath shown _
      cases started
      obtain ⟨_, _, _, spec⟩ := payloadNextServer_spec errors q
      rw [shown] at spec
      dsimp only at spec
      subst spec
      exact ⟨⟨rfl, rfl, rfl, rfl, rfl⟩, fun dir => partComplete_congr dir rfl rfl rfl rfl rfl rfl⟩
    · cases started

theorem curlSetHandleOpts_same (dir : DownloadDir) (q : DloadPayload) :
    SameNames q (curlSetHandleOpts dir q).1 := by
  unfold curlSetHandleOpts
  split
  · exact ⟨rfl, rfl, rfl, rfl, rfl⟩
  · split
    · split <;> exact ⟨rfl, rfl, rfl, rfl, rfl⟩
    · exact ⟨rfl, rfl, rfl, rfl, rfl⟩

theorem SameNames.trans {t : DloadPayload} (one : SameNames q r) (two : SameNames r t) :
    SameNames q t :=
  ⟨two.temp.trans one.temp, two.dest.trans one.dest, two.errorsOk.trans one.errorsOk,
    two.signature.trans one.signature, two.downloadSignature.trans one.downloadSignature⟩

theorem openLocalf_spec {access : FileAccess} {dir dir' : DownloadDir} {continued : Bool}
    (opened : openLocalf access dir continued q = some (r, dir')) :
    SameNames q r ∧ ∀ d, q.tempfileName ≠ d → dir'.has d = dir.has d := by
  unfold openLocalf at opened
  split at opened
  · cases opened
    exact ⟨⟨rfl, rfl, rfl, rfl, rfl⟩, fun _ _ => rfl⟩
  · split at opened
    · cases opened
      exact ⟨⟨rfl, rfl, rfl, rfl, rfl⟩, fun d other => DownloadDir.has_fopen other _⟩
    · cases opened

/-- What `curl_add_payload` can do: fail, find the temporary file complete, or start a
transfer. -/
inductive AddEffect (q : DloadPayload) (s : Downloader) : Int × Downloader → Prop
  | failed : AddEffect q s (-1, s)
  | complete (complete : q.partComplete s.dir = true) : AddEffect q s (0, s)
  | started {r : DloadPayload} {dir : DownloadDir} (missing : q.partComplete s.dir = false)
      (same : SameNames q r) (kept : ∀ d, q.tempfileName ≠ d → dir.has d = s.dir.has d) :
      AddEffect q s (0, { s with dir := dir, running := s.running ++ [r] })

theorem curlAddPayload_effect (access : FileAccess) (q : DloadPayload) (s : Downloader) :
    AddEffect q s (curlAddPayload access q s) := by
  unfold curlAddPayload
  split
  · exact .failed
  · rename_i r started
    obtain ⟨same, complete⟩ := startUrl_spec started
    split
    · exact .failed
    · dsimp only
      split
      · rename_i full
        exact .complete (complete s.dir ▸ full)
      · rename_i missing
        rw [complete s.dir, Bool.not_eq_true] at missing
        split
        · exact .failed
        · rename_i t dir opened
          obtain ⟨open', kept⟩ := openLocalf_spec opened
          have names := same.trans (curlSetHandleOpts_same s.dir r)
          refine .started missing (names.trans open') ?_
          intro d other
          exact kept d (names.temp ▸ other)

/-! ### What the end of a transfer does -/

/-- What the end of a transfer to `dest` does to the name `d`: nothing, unless `dest` is
that name, and even then `d` does not go away. -/
structure Frame (d : CStr) (dest : Option CStr) (s s' : Downloader) : Prop where
  waiting : s'.waiting = s.waiting
  err : s'.err = s.err
  started : ∃ more, s'.running = s.running ++ more ∧ s.active + more.length ≤ s'.active ∧
    ∀ r ∈ more, Spares d r ∧ (r.destfileName = some d → dest = some d)
  answered : ∃ answers, s'.events = s.events ++ answers ∧ ∀ e ∈ answers, e = .upToDate dest
  kept : s.dir.has d = true → s'.dir.has d = true
  apart : dest ≠ some d → s'.dir.has d = s.dir.has d

namespace Frame

variable {d : CStr} {dest : Option CStr} {s s' s'' : Downloader}

theorem trans (one : Frame d dest s s') (two : Frame d dest s' s'') : Frame d dest s s'' where
  waiting := two.waiting.trans one.waiting
  err := two.err.trans one.err
  started := by
    obtain ⟨first, run, count, spare⟩ := one.started
    obtain ⟨second, run', count', spare'⟩ := two.started
    refine ⟨first ++ second, by rw [run', run, append_assoc], ?_, ?_⟩
    · rw [length_append]
      omega
    · intro r mem
      exact (mem_append.1 mem).elim (spare r) (spare' r)
  answered := by
    obtain ⟨first, events, answer⟩ := one.answered
    obtain ⟨second, events', answer'⟩ := two.answered
    refine ⟨first ++ second, by rw [events', events, append_assoc], ?_⟩
    intro e mem
    exact (mem_append.1 mem).elim (answer e) (answer' e)
  kept there := two.kept (one.kept there)
  apart other := (two.apart other).trans (one.apart other)

variable {dir : DownloadDir}

theorem ofDir {errors : ServerErrors} (kept : s.dir.has d = true → dir.has d = true)
    (apart : dest ≠ some d → dir.has d = s.dir.has d) :
    Frame d dest s { s with errors := errors, dir := dir } where
  waiting := rfl
  err := rfl
  started := ⟨[], (append_nil _).symm, Nat.le_refl _, fun _ mem => nomatch mem⟩
  answered := ⟨[], (append_nil _).symm, fun _ mem => nomatch mem⟩
  kept := kept
  apart := apart

theorem sameDir {errors : ServerErrors} (same : dir.has d = s.dir.has d) :
    Frame d dest s { s with errors := errors, dir := dir } :=
  ofDir (fun there => same.trans there) (fun _ => same)

theorem refl : Frame d dest s s := sameDir rfl

theorem add {r : DloadPayload} (same : dir.has d = s.dir.has d) (spares : Spares d r)
    (mine : r.destfileName = some d → dest = some d) :
    Frame d dest s { s with dir := dir, running := s.running ++ [r], active := s.active + 1 } where
  waiting := rfl
  err := rfl
  started := by
    refine ⟨[r], rfl, Nat.le_refl _, ?_⟩
    intro t mem
    rw [mem_singleton.1 mem]
    exact ⟨spares, mine⟩
  answered := ⟨[], (append_nil _).symm, fun _ mem => nomatch mem⟩
  kept there := same.trans there
  apart _ := same

theorem answer : Frame d dest s { s with events := s.events ++ [.upToDate dest] } where
  waiting := rfl
  err := rfl
  started := ⟨[], (append_nil _).symm, Nat.le_refl _, fun _ mem => nomatch mem⟩
  answered := ⟨[_], rfl, fun _ mem => mem_singleton.1 mem⟩
  kept := id
  apart _ := rfl

theorem count : Frame d dest s { s with active := s.active + 1 } where
  waiting := rfl
  err := rfl
  started := ⟨[], (append_nil _).symm, Nat.le_succ _, fun _ mem => nomatch mem⟩
  answered := ⟨[], (append_nil _).symm, fun _ mem => nomatch mem⟩
  kept := id
  apart _ := rfl

theorem mem_events (frame : Frame d dest s s') {e : DownloadEvent} (mem : e ∈ s.events) :
    e ∈ s'.events := by
  obtain ⟨answers, events, _⟩ := frame.answered
  rw [events]
  exact mem_append_left _ mem

end Frame

def Downloaded (d : CStr) (s : Downloader) : Prop :=
  s.dir.has d = true ∨ .upToDate (some d) ∈ s.events

theorem Frame.downloaded {dest : Option CStr} {s s' : Downloader} (frame : Frame d dest s s')
    (there : Downloaded d s) : Downloaded d s' :=
  there.imp frame.kept frame.mem_events

/-- What follows the end of a transfer to `dest`. -/
structure CheckEffect (d : CStr) (dest : Option CStr) (s : Downloader) (checked : Int × Downloader) :
    Prop where
  frame : Frame d dest s checked.2
  own : dest = some d → checked.1 = -1 ∨ Downloaded d checked.2 ∨
    ∃ r ∈ checked.2.running, r.destfileName = some d

theorem CheckEffect.after {dest : Option CStr} {s s' : Downloader} {checked : Int × Downloader}
    (frame : Frame d dest s s') (effect : CheckEffect d dest s' checked) :
    CheckEffect d dest s checked :=
  ⟨frame.trans effect.frame, effect.own⟩

section Transfer

variable {d : CStr} {q : DloadPayload} {s : Downloader} (access : FileAccess)

theorem cleanup_frame (spares : Spares d q) (ret : Int) :
    Frame d q.destfileName s (cleanup access ret q s).2 := by
  -- the rename comes first, then the temporary file may be unlinked
  have unlinked : ∀ t : Downloader,
      Frame d q.destfileName t { t with dir := t.dir.unlink q.tempfileName } :=
    fun t => Frame.sameDir (DownloadDir.has_unlink spares.temp)
  have renamed : ∀ dest, q.destfileName = some dest → s.dir.has q.tempfileName = true →
      Frame d (some dest) s { s with dir := s.dir.rename q.tempfileName dest } := by
    intro dest _ there
    by_cases own : dest = d
    · rw [own]
      exact Frame.ofDir (fun _ => DownloadDir.has_rename_new there) (fun other => absurd rfl other)
    · exact Frame.sameDir (DownloadDir.has_rename spares.temp own)
  unfold cleanup
  dsimp only
  split
  · rename_i dest named
    rw [named] at unlinked ⊢
    split
    · split
      · rename_i possible
        split
        · exact (renamed dest named possible.1).trans (unlinked _)
        · exact renamed dest named possible.1
      · split
        · exact unlinked s
        · exact .refl
    · split
      · exact unlinked s
      · exact .refl
  · split
    · exact unlinked s
    · exact .refl

theorem cleanup_failed (required : q.errorsOk = false) : (cleanup access (-1) q s).1 = -1 := by
  unfold cleanup
  cases q.destfileName <;> simp [required]

theorem cleanup_received (spares : Spares d q) (mine : q.destfileName = some d) :
    (cleanup access 0 q s).1 = -1 ∨ (cleanup access 0 q s).2.dir.has d = true := by
  unfold cleanup
  simp only [mine, spares.required mine, ↓reduceIte]
  split
  · rename_i possible
    right
    have there : (s.dir.rename q.tempfileName d).has d = true :=
      DownloadDir.has_rename_new possible.1
    split
    · exact (DownloadDir.has_unlink spares.temp).trans there
    · exact there
  · left
    simp

theorem cleanup_error (spares : Spares d q) :
    CheckEffect d q.destfileName s (cleanup access (-1) q s) where
  frame := cleanup_frame access spares (-1)
  own mine := .inl (cleanup_failed access (spares.required mine))

theorem cleanup_error_emptied (empty : Prop) [Decidable empty] (spares : Spares d q) :
    CheckEffect d q.destfileName s
      (cleanup access (-1) (if empty then { q with unlinkOnFail := true } else q) s) := by
  split
  · exact cleanup_error access spares.unlinking
  · exact cleanup_error access spares

theorem curlRetryNextServer_spec {errors : ServerErrors} {dir dir' : DownloadDir} {r : DloadPayload}
    (retried : curlRetryNextServer access errors dir q = some (r, dir')) :
    SameNames q r ∧ dir'.has d = dir.has d := by
  unfold curlRetryNextServer at retried
  split at retried
  · cases retried
  · rename_i server next found
    obtain ⟨_, _, _, spec⟩ := payloadNextServer_spec errors q
    rw [found] at spec
    dsimp only at spec
    subst spec
    dsimp only at retried
    split at retried
    · cases retried
      exact ⟨⟨rfl, rfl, rfl, rfl, rfl⟩, rfl⟩
    · split at retried
      · cases retried
        exact ⟨⟨rfl, rfl, rfl, rfl, rfl⟩, DownloadDir.has_ftruncate _ _⟩
      · cases retried
    · cases retried

theorem retryOr_effect {otherwise : Int × Downloader} (spares : Spares d q)
    (effect : CheckEffect d q.destfileName s otherwise) :
    CheckEffect d q.destfileName s (retryOr access q s otherwise) := by
  unfold retryOr
  split
  · rename_i r dir retried
    obtain ⟨same, kept⟩ := curlRetryNextServer_spec access retried
    refine ⟨Frame.add kept (spares.congr same) fun mine => same.dest ▸ mine, ?_⟩
    intro mine
    exact .inr (.inr ⟨r, mem_append_right _ (mem_singleton.2 rfl), same.dest.trans mine⟩)
  · exact effect

theorem softError_frame (expected : Bool) (url : CStr) (dest : Option CStr) (s : Downloader) :
    Frame d dest s (if expected then s else { s with errors := s.errors.serverSoftError url }) := by
  split
  · exact .refl
  · exact Frame.sameDir rfl

theorem finishRefused_effect (spares : Spares d q) :
    CheckEffect d q.destfileName s (finishRefused access q s) := by
  have failed : ∀ t : Downloader, Frame d q.destfileName s t → CheckEffect d q.destfileName s
      (retryOr access q t (cleanup access (-1) { q with unlinkOnFail := true } t)) := by
    intro t frame
    exact .after frame (retryOr_effect access spares (cleanup_error access spares.unlinking))
  unfold finishRefused
  extract_lets t refused
  have soft : Frame d q.destfileName s t := softError_frame _ _ _ s
  split
  · split
    · split
      · exact failed _ (soft.trans (Frame.sameDir (DownloadDir.has_ftruncate _ _)))
      · exact ⟨soft, fun _ => .inl rfl⟩
    · exact failed t soft
  · exact failed t soft

theorem spares_signaturePayload (dbext : CStr) (fin : Finish) (spares : Spares d q)
    (asked : q.signature = false ∧ q.downloadSignature = true) :
    Spares d (signaturePayload dbext fin q) ∧
      (signaturePayload dbext fin q).destfileName ≠ some d := by
  obtain ⟨dest, temp⟩ := spares.signature asked.1 asked.2
  have other : (signaturePayload dbext fin q).destfileName ≠ some d :=
    fun mine => dest (Option.some.inj mine)
  refine ⟨⟨temp, fun plain => absurd plain Bool.noConfusion, fun mine => absurd mine other⟩, other⟩

theorem startSignature_frame (dbext : CStr) (fin : Finish) (spares : Spares d q) :
    Frame d q.destfileName s (startSignature access dbext fin q s) := by
  unfold startSignature
  split
  · rename_i asked
    obtain ⟨spares', other⟩ := spares_signaturePayload dbext fin spares asked
    have effect := curlAddPayload_effect access (signaturePayload dbext fin q) s
    generalize curlAddPayload access (signaturePayload dbext fin q) s = added at effect
    cases effect with
    | failed => exact .count
    | complete => exact .count
    | started missing same kept =>
      exact .add (kept d spares'.temp) (spares'.congr same)
        fun mine => absurd (same.dest ▸ mine) other
  · exact .refl

theorem finishReceived_effect (dbext : CStr) (fin : Finish) (spares : Spares d q) :
    CheckEffect d q.destfileName s (finishReceived access dbext fin q s) := by
  refine .after (startSignature_frame access dbext fin spares) ?_
  unfold finishReceived
  generalize startSignature access dbext fin q s = t
  dsimp only
  split
  · -- the answer is noted before the temporary file goes
    have answered : Frame d q.destfileName t
        { t with events := t.events ++ [.upToDate q.destfileName] } := .answer
    have frame : ∀ t' : Downloader,
        Frame d q.destfileName { t with events := t.events ++ [.upToDate q.destfileName] } t' →
        CheckEffect d q.destfileName t (cleanup access 1 q t') := by
      intro t' unlinked
      refine ⟨answered.trans (unlinked.trans (cleanup_frame access spares 1)), ?_⟩
      intro mine
      refine .inr (.inl (.inr ?_))
      refine (unlinked.trans (cleanup_frame access spares 1)).mem_events ?_
      exact mem_append_right _ (mem_singleton.2 (mine ▸ rfl))
    split
    · exact frame _ (Frame.sameDir (DownloadDir.has_unlink spares.temp))
    · exact frame _ .refl
  · split
    · exact cleanup_error access spares
    · refine ⟨cleanup_frame access spares 0, ?_⟩
      intro mine
      exact (cleanup_received access spares mine).imp_right fun there => .inl (.inl there)

theorem curlCheckFinishedDownload_effect (dbext : CStr) (fin : Finish) (spares : Spares d q) :
    CheckEffect d q.destfileName s (curlCheckFinishedDownload access dbext fin q s) := by
  unfold curlCheckFinishedDownload
  extract_lets payload url
  have answered : Spares d payload := ⟨spares.temp, spares.signature, spares.required⟩
  change CheckEffect d payload.destfileName s _
  clear_value payload
  split
  · split
    · exact finishRefused_effect access answered
    · exact finishReceived_effect access dbext fin answered
  · split
    · exact .after (Frame.sameDir rfl) (cleanup_error access answered.unlinking)
    · exact cleanup_error access answered
  · exact .after (Frame.sameDir rfl) (retryOr_effect access answered (cleanup_error access answered))
  · exact .after (softError_frame payload.requestErrorsOk url _ s)
      (retryOr_effect access answered (cleanup_error_emptied access _ answered))

end Transfer

end Dulge
