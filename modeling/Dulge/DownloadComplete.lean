import Dulge.DownloadTransfer

/-! What a successful download leaves behind. One file of the list is followed through the
passes of the loop: its payload waits, then runs, and then the file is there or was answered
to be up to date. The exception is a payload that is set up while its temporary file has all
that is expected: nothing is transferred for it and nothing renamed. -/

namespace Dulge
open List

/-! ### One file through the loop -/

/-- A set-up for `d` has started a transfer, or else has found the file. -/
def Transfers (d : CStr) (events : List DownloadEvent) : Prop :=
  ∃ q before, .setUp q before ∈ events ∧ q.destfileName = some d ∧
    (q.partComplete before = true → before.has d = true)

/-- How far the file `d` has come, with the payloads that wait and those whose transfers
have not been looked at since they ended. -/
inductive Phase (d : CStr) (waiting active : List DloadPayload) (s : Downloader) : Prop
  | failed (err : s.err = true)
  | served (transfers : Transfers d s.events)
      (there : Downloaded d s ∨ ∃ q ∈ active, q.destfileName = some d)
  | unserved (transfers : ¬ Transfers d s.events) (unanswered : .upToDate (some d) ∉ s.events)
      (idle : ∀ q ∈ active, q.destfileName ≠ some d)
      (left : s.dir.has d = false ∨ ∃ q ∈ waiting, q.destfileName = some d)

section Phases

variable {d : CStr} {s s' : Downloader} {waiting active : List DloadPayload} {q : DloadPayload}

theorem Phase.congr {active' : List DloadPayload} (phase : Phase d waiting active s)
    (members : ∀ q, q ∈ active' ↔ q ∈ active) (err : s'.err = s.err)
    (events : s'.events = s.events) (kept : s'.dir.has d = s.dir.has d) :
    Phase d waiting active' s' := by
  cases phase with
  | failed failed => exact .failed (err.trans failed)
  | served transfers there =>
    refine .served (events ▸ transfers) (there.imp ?_ ?_)
    · exact Or.imp kept.trans fun answered => events ▸ answered
    · rintro ⟨q, mem, mine⟩
      exact ⟨q, (members q).2 mem, mine⟩
  | unserved transfers unanswered idle left =>
    exact .unserved (events ▸ transfers) (events ▸ unanswered)
      (fun q mem => idle q ((members q).1 mem)) (left.imp_left kept.trans)

theorem transfers_setUp {events : List DownloadEvent} {dir : DownloadDir} :
    Transfers d (events ++ [.setUp q dir]) ↔ Transfers d events ∨
      (q.destfileName = some d ∧ (q.partComplete dir = true → dir.has d = true)) := by
  constructor
  · rintro ⟨r, before, mem, mine, found⟩
    rcases mem_append.1 mem with earlier | last
    · exact .inl ⟨r, before, earlier, mine, found⟩
    · cases mem_singleton.1 last
      exact .inr ⟨mine, found⟩
  · rintro (⟨r, before, mem, mine, found⟩ | ⟨mine, found⟩)
    · exact ⟨r, before, mem_append_left _ mem, mine, found⟩
    · exact ⟨q, dir, mem_append_right _ (mem_singleton.2 rfl), mine, found⟩

theorem Frame.transfers_iff {dest : Option CStr} (frame : Frame d dest s s') :
    Transfers d s'.events ↔ Transfers d s.events := by
  constructor
  · rintro ⟨r, before, mem, mine, found⟩
    obtain ⟨answers, events, answer⟩ := frame.answered
    rw [events] at mem
    rcases mem_append.1 mem with earlier | late
    · exact ⟨r, before, earlier, mine, found⟩
    · cases answer _ late
  · rintro ⟨r, before, mem, mine, found⟩
    exact ⟨r, before, frame.mem_events mem, mine, found⟩

/-- A payload has been set up; it has started no transfer exactly when its temporary file
is complete. -/
theorem Phase.setUp {more : List DloadPayload} (phase : Phase d (q :: waiting) active s)
    (err : s'.err = s.err) (events : s'.events = s.events ++ [.setUp q s.dir])
    (kept : s'.dir.has d = s.dir.has d) (same : ∀ r ∈ more, r.destfileName = q.destfileName)
    (complete : q.partComplete s.dir = true ↔ more = []) : Phase d waiting (active ++ more) s' := by
  have answers : .upToDate (some d) ∈ s'.events ↔ .upToDate (some d) ∈ s.events := by
    rw [events]
    simp
  have transfers_iff : Transfers d s'.events ↔ Transfers d s.events ∨
      (q.destfileName = some d ∧ (q.partComplete s.dir = true → s.dir.has d = true)) := by
    rw [events]
    exact transfers_setUp
  cases phase with
  | failed failed => exact .failed (err.trans failed)
  | served transfers there =>
    refine .served (transfers_iff.2 (.inl transfers)) (there.imp ?_ ?_)
    · exact Or.imp kept.trans answers.2
    · rintro ⟨r, mem, mine⟩
      exact ⟨r, mem_append_left _ mem, mine⟩
  | unserved transfers unanswered idle left =>
    by_cases mine : q.destfileName = some d
    · by_cases found : q.partComplete s.dir = true → s.dir.has d = true
      · -- the file is there, or a transfer to it has started
        refine .served (transfers_iff.2 (.inr ⟨mine, found⟩)) ?_
        by_cases full : q.partComplete s.dir = true
        · exact .inl (.inl (kept.trans (found full)))
        · obtain ⟨r, mem⟩ := exists_mem_of_ne_nil more (mt complete.2 full)
          exact .inr ⟨r, mem_append_right _ mem, (same r mem).trans mine⟩
      · obtain ⟨full, missing⟩ := Classical.not_imp.1 found
        rw [complete.1 full, append_nil]
        refine .unserved ?_ (mt answers.1 unanswered) idle (.inl ?_)
        · rw [transfers_iff]
          exact not_or.2 ⟨transfers, fun served => found served.2⟩
        · rw [kept]
          exact Bool.eq_false_iff.2 missing
    · refine .unserved ?_ (mt answers.1 unanswered) ?_ ?_
      · rw [transfers_iff]
        exact not_or.2 ⟨transfers, fun served => mine served.1⟩
      · intro r mem
        rcases mem_append.1 mem with earlier | new
        · exact idle r earlier
        · rw [same r new]
          exact mine
      · refine left.imp kept.trans ?_
        rintro ⟨r, mem, own⟩
        rcases mem_cons.1 mem with rfl | later
        · exact absurd own mine
        · exact ⟨r, later, own⟩

theorem Phase.checked {ended : List DloadPayload} {checked : Int × Downloader}
    (phase : Phase d waiting (s.running ++ q :: ended) s)
    (effect : CheckEffect d q.destfileName s checked) (fine : checked.1 ≠ -1) :
    Phase d waiting (checked.2.running ++ ended) checked.2 := by
  have frame := effect.frame
  obtain ⟨more, running, _, spare⟩ := frame.started
  cases phase with
  | failed failed => exact .failed (frame.err.trans failed)
  | served transfers there =>
    refine .served (frame.transfers_iff.2 transfers) ?_
    rcases there with there | ⟨r, mem, mine⟩
    · exact .inl (frame.downloaded there)
    · rcases mem_append.1 mem with runs | ends
      · exact .inr ⟨r, mem_append_left _ (running ▸ mem_append_left _ runs), mine⟩
      · rcases mem_cons.1 ends with rfl | later
        · rcases effect.own mine with error | there | ⟨t, again, own⟩
          · exact absurd error fine
          · exact .inl there
          · exact .inr ⟨t, mem_append_left _ again, own⟩
        · exact .inr ⟨r, mem_append_right _ later, mine⟩
  | unserved transfers unanswered idle left =>
    have other : q.destfileName ≠ some d :=
      idle q (mem_append_right _ (mem_cons_self ..))
    refine .unserved (mt frame.transfers_iff.1 transfers) ?_ ?_ ?_
    · obtain ⟨answers, events, answer⟩ := frame.answered
      rw [events]
      intro mem
      rcases mem_append.1 mem with earlier | late
      · exact unanswered earlier
      · exact other (DownloadEvent.upToDate.inj (answer _ late)).symm
    · intro r mem
      rw [running, append_assoc] at mem
      rcases mem_append.1 mem with runs | new
      · exact idle r (mem_append_left _ runs)
      · rcases mem_append.1 new with new | later
        · exact fun mine => other ((spare r new).2 mine)
        · exact idle r (mem_append_right _ (mem_cons_of_mem _ later))
    · exact left.imp_left (frame.apart other).trans

end Phases

/-- The loop as seen from the file `d`. -/
structure Follows (d : CStr) (waiting active : List DloadPayload) (s : Downloader) : Prop where
  waits : ∀ q ∈ waiting, Spares d q
  runs : ∀ q ∈ active, Spares d q
  phase : Phase d waiting active s

section Loop

variable {d : CStr} {s : Downloader} {waiting active : List DloadPayload}

theorem Follows.stop (runs : ∀ q ∈ active, Spares d q) (err : s.err = true) :
    Follows d [] active s :=
  ⟨fun _ mem => (nomatch mem), runs, .failed err⟩

theorem startPayloads_follows (access : FileAccess) (maxStreams : Int) (waiting : List DloadPayload)
    (s : Downloader) (follows : Follows d waiting s.running s) :
    let t := startPayloads access maxStreams waiting s
    Follows d t.waiting t.running t := by
  induction waiting generalizing s with
  | nil => exact ⟨follows.waits, follows.runs, follows.phase.congr (fun _ => .rfl) rfl rfl rfl⟩
  | cons q rest ih =>
    have spares := follows.waits q (mem_cons_self ..)
    have waits : ∀ r ∈ rest, Spares d r := fun r mem => follows.waits r (mem_cons_of_mem _ mem)
    unfold startPayloads
    dsimp only
    split
    · have effect := curlAddPayload_effect access q
        { s with events := s.events ++ [.setUp q s.dir] }
      generalize curlAddPayload access q { s with events := s.events ++ [.setUp q s.dir] } = added
        at effect
      cases effect with
      | failed => exact .stop follows.runs rfl
      | complete full =>
        refine ih _ ⟨waits, follows.runs, ?_⟩
        rw [← append_nil s.running]
        exact follows.phase.setUp rfl rfl rfl (fun r mem => absurd mem not_mem_nil)
          (iff_of_true full rfl)
      | started missing same kept =>
        refine ih _ ⟨waits, ?_, ?_⟩
        · intro r mem
          rcases mem_append.1 mem with earlier | new
          · exact follows.runs r earlier
          · rw [mem_singleton.1 new]
            exact spares.congr same
        · refine follows.phase.setUp rfl rfl (kept d spares.temp) ?_ ?_
          · intro r new
            rw [mem_singleton.1 new]
            exact same.dest
          · exact iff_of_false (Bool.eq_false_iff.1 missing) (cons_ne_nil _ _)
    · exact ⟨follows.waits, follows.runs, follows.phase.congr (fun _ => .rfl) rfl rfl rfl⟩

theorem takeFinished_perm (finished : List (Nat × Finish)) (running : List DloadPayload) :
    ((takeFinished finished running).2 ++ (takeFinished finished running).1.map Prod.fst).Perm
      running := by
  induction finished generalizing running with
  | nil => simp [takeFinished]
  | cons report later ih =>
    unfold takeFinished
    split
    · exact ih running
    · rename_i q found
      obtain ⟨inside, place⟩ := List.getElem?_eq_some_iff.1 found
      refine (perm_middle.trans (.cons q (ih _))).trans ?_
      rw [← place]
      exact getElem_cons_eraseIdx_perm inside

theorem multiPerform_follows (pass : Pass) (follows : Follows d s.waiting s.running s) :
    let performed := multiPerform pass s
    Follows d performed.2.waiting (performed.2.running ++ performed.1.map Prod.fst) performed.2 := by
  have members : ∀ q, q ∈ (takeFinished pass.finished s.running).2 ++
      (takeFinished pass.finished s.running).1.map Prod.fst ↔ q ∈ s.running :=
    fun q => (takeFinished_perm pass.finished s.running).mem_iff
  exact ⟨follows.waits, fun q mem => follows.runs q ((members q).1 mem),
    follows.phase.congr members rfl rfl rfl⟩

theorem noteError_follows (mcOk : Bool) (follows : Follows d s.waiting active s) :
    Follows d (noteError mcOk s).waiting active (noteError mcOk s) := by
  unfold noteError
  split
  · exact follows
  · exact .stop follows.runs rfl

def Downloader.Counted (s : Downloader) : Prop := s.running.length ≤ s.active

theorem handleMessage_follows (access : FileAccess) (dbext : CStr) (message : DloadPayload × Finish)
    (ended : List DloadPayload) (follows : Follows d s.waiting (s.running ++ message.1 :: ended) s)
    (counted : s.Counted) : let t := handleMessage access dbext s message
    Follows d t.waiting (t.running ++ ended) t ∧ t.Counted := by
  have spares := follows.runs message.1 (mem_append_right _ (mem_cons_self ..))
  have effect := curlCheckFinishedDownload_effect (s := s) access dbext message.2 spares
  unfold handleMessage
  generalize curlCheckFinishedDownload access dbext message.2 message.1 s = checked at effect
  obtain ⟨more, running, count, spare⟩ := effect.frame.started
  have runs : ∀ q ∈ checked.2.running ++ ended, Spares d q := by
    intro q mem
    rw [running, append_assoc] at mem
    rcases mem_append.1 mem with runs | new
    · exact follows.runs q (mem_append_left _ runs)
    · rcases mem_append.1 new with new | later
      · exact (spare q new).1
      · exact follows.runs q (mem_append_right _ (mem_cons_of_mem _ later))
  have counted' : checked.2.Counted := by
    unfold Downloader.Counted at counted ⊢
    rw [running, length_append]
    omega
  dsimp only
  split
  · exact ⟨.stop runs rfl, counted'⟩
  · rename_i fine
    have waits : ∀ q ∈ checked.2.waiting, Spares d q := effect.frame.waiting ▸ follows.waits
    have phase : Phase d checked.2.waiting (checked.2.running ++ ended) checked.2 :=
      effect.frame.waiting ▸ follows.phase.checked effect fine
    split
    · exact ⟨⟨waits, runs, phase.congr (fun _ => .rfl) rfl rfl rfl⟩, counted'⟩
    · exact ⟨⟨waits, runs, phase⟩, counted'⟩

theorem messages_follow (access : FileAccess) (dbext : CStr) (messages : List (DloadPayload × Finish))
    (s : Downloader) (follows : Follows d s.waiting (s.running ++ messages.map Prod.fst) s)
    (counted : s.Counted) : let t := messages.foldl (handleMessage access dbext) s
    Follows d t.waiting t.running t ∧ t.Counted := by
  induction messages generalizing s with
  | nil =>
    rw [map_nil, append_nil] at follows
    exact ⟨follows, counted⟩
  | cons message later ih =>
    obtain ⟨follows, counted⟩ := handleMessage_follows access dbext message _ follows counted
    exact ih _ follows counted

theorem downloadPass_follows (maxStreams : Int) (dbext : CStr) (pass : Pass)
    (follows : Follows d s.waiting s.running s) : let t := downloadPass maxStreams dbext s pass
    Follows d t.waiting t.running t ∧ t.Counted := by
  have started := startPayloads_follows pass.access maxStreams s.waiting s follows
  have performed := noteError_follows pass.mcOk (multiPerform_follows pass started)
  have same : ∀ t : Downloader, (noteError pass.mcOk t).running = t.running ∧
      (noteError pass.mcOk t).active = t.active := by
    intro t
    unfold noteError
    split <;> exact ⟨rfl, rfl⟩
  refine messages_follow pass.access dbext _ _ ?_ ?_
  · rw [(same _).1]
    exact performed
  · unfold Downloader.Counted
    rw [(same _).1, (same _).2]
    exact Nat.le_refl _

theorem Follows.last (follows : Follows d s.waiting s.running s) (counted : s.Counted)
    (stops : s.continues = false) : Follows d [] [] s := by
  simp only [Downloader.continues, Bool.or_eq_false_iff, decide_eq_false_iff_not,
    Bool.not_eq_false', List.isEmpty_iff] at stops
  have idle : s.running = [] := by
    apply eq_nil_of_length_eq_zero
    unfold Downloader.Counted at counted
    omega
  rw [stops.2, idle] at follows
  exact follows

theorem downloadLoop_follows (maxStreams : Int) (dbext : CStr) (passes : List Pass)
    {s t : Downloader} (follows : Follows d s.waiting s.running s) (counted : s.Counted)
    (ended : downloadLoop maxStreams dbext passes s = some t) : Follows d [] [] t := by
  induction passes generalizing s with
  | nil =>
    unfold downloadLoop at ended
    split at ended
    · cases ended
    · rename_i stops
      cases ended
      exact follows.last counted (Bool.eq_false_iff.2 stops)
  | cons pass passes ih =>
    unfold downloadLoop at ended
    split at ended
    · obtain ⟨follows, counted⟩ := downloadPass_follows maxStreams dbext pass follows
      exact ih follows counted ended
    · rename_i stops
      cases ended
      exact follows.last counted (Bool.eq_false_iff.2 stops)

theorem downloadStart_follows (errors : ServerErrors) (interrupted : Bool) (dir : DownloadDir)
    {payloads : List DloadPayload} (spares : ∀ q ∈ payloads, Spares d q)
    (listed : ∃ q ∈ payloads, q.destfileName = some d) :
    let s := downloadStart errors interrupted dir payloads
    Follows d s.waiting s.running s := by
  have sorted := listMsort_perm compareDloadPayloadSizes payloads.length payloads
  refine ⟨fun q mem => spares q (sorted.mem_iff.1 mem), fun _ mem => (nomatch mem), ?_⟩
  obtain ⟨q, mem, mine⟩ := listed
  refine .unserved ?_ not_mem_nil (fun _ mem => (nomatch mem)) (.inr ⟨q, ?_, mine⟩)
  · rintro ⟨_, _, mem, _⟩
    exact absurd mem not_mem_nil
  · exact sorted.mem_iff.2 mem

end Loop

/-! ### What is there at the end -/

/-- No payload works under the name of a file that is to be downloaded: not with its
temporary file and not with the signature that it asks for. -/
def NamesApart (payloads : List DloadPayload) : Prop :=
  ∀ p ∈ payloads, ∀ d, p.destfileName = some d → ∀ q ∈ payloads, q.tempfileName ≠ d ∧
    (q.signature = false → q.downloadSignature = true →
      q.realname ++ cstr ".sig" ≠ d ∧ q.realname ++ cstr ".sig.part" ≠ d)

/-- After a successful download every file is there or was answered to be up to date, if and
only if for every file a set-up has started a transfer or has found it. -/
theorem download_leaves_files_iff (errors : ServerErrors) (interrupted : Bool) (dir : DownloadDir)
    (payloads : List DloadPayload) (maxStreams : Int) (dbext : CStr) (passes : List Pass)
    (s : Downloader) (required : ∀ p ∈ payloads, p.errorsOk = false) (apart : NamesApart payloads)
    (ended : downloadLoop maxStreams dbext passes (downloadStart errors interrupted dir payloads) =
      some s) (success : s.ret = 0 ∨ s.ret = 1) :
    (∀ p ∈ payloads, ∀ d, p.destfileName = some d → Downloaded d s) ↔
      ∀ p ∈ payloads, ∀ d, p.destfileName = some d → Transfers d s.events := by
  have fine : s.err ≠ true := by
    intro err
    simp [Downloader.ret, err] at success
  have each : ∀ p ∈ payloads, ∀ d, p.destfileName = some d →
      (Downloaded d s ↔ Transfers d s.events) := by
    intro p mem d dest
    have spares : ∀ q ∈ payloads, Spares d q := by
      intro q mem'
      obtain ⟨temp, signature⟩ := apart p mem d dest q mem'
      exact ⟨temp, signature, fun _ => required q mem'⟩
    have started := downloadStart_follows errors interrupted dir spares ⟨p, mem, dest⟩
    cases (downloadLoop_follows maxStreams dbext passes started (Nat.le_refl 0) ended).phase with
    | failed err => exact absurd err fine
    | served transfers there => exact iff_of_true (there.resolve_right (by simp)) transfers
    | unserved transfers unanswered _ left =>
      refine iff_of_false ?_ transfers
      have missing := left.resolve_right (by simp)
      rintro (there | answered)
      · rw [missing] at there
        cases there
      · exact unanswered answered
  exact forall₂_congr fun p mem => forall₂_congr fun d dest => each p mem d dest

def resumable : DloadPayload where
  tempfileName := cstr "x.part"
  destfileName := some (cstr "x")
  fileurl := some (cstr "https://h/x")
  filepath := none
  cacheServers := []
  servers := []
  respcode := 0
  mtimeExistingFile := 0
  initialSize := 0
  maxSize := 5
  force := false
  allowResume := true
  errorsOk := false
  unlinkOnFail := false
  downloadSignature := false
  signatureOptional := false
  signature := false
  requestErrorsOk := false
  localf := none

def partOnly (size : Nat) : DownloadDir where
  entries name := if name = cstr "x.part" then some 0 else none
  size _ := size
  next := 1

def smoothPass (finished : List (Nat × Finish)) : Pass where
  access := ⟨fun _ => true, fun _ => true, fun _ => true, fun _ _ => true⟩
  sizes _ := 5
  interrupts := false
  mcOk := true
  finished := finished

def unstarted : DloadPayload :=
  { resumable with
    tempfileName := cstr "y.part"
    destfileName := some (cstr "y")
    fileurl := some (cstr "https://h/y") }

/-- A file of which a part is there and one of which nothing is. -/
theorem download_leaves_files_iff_resumed :
    let payloads := [resumable, unstarted]
    let passes := [smoothPass [(1, ⟨.ok, 200, false, 5, 5, cstr "https://h/y"⟩),
      (0, ⟨.ok, 206, false, 2, 2, cstr "https://h/x"⟩)]]
    ∃ s, downloadLoop 5 (cstr ".db") passes
        (downloadStart (fun _ => 0) false (partOnly 3) payloads) = some s ∧
      s.ret = 0 ∧ ∀ p ∈ payloads, ∀ d, p.destfileName = some d → Downloaded d s := by
  intro payloads passes
  have started : downloadStart (fun _ => 0) false (partOnly 3) payloads =
      ⟨fun _ => 0, false, partOnly 3, payloads, [], 0, false, false, []⟩ := by
    have even : compareDloadPayloadSizes resumable unstarted = 0 := rfl
    simp [downloadStart, listMsort, listMmerge, payloads, even]
  have apart : NamesApart payloads := by
    simp only [NamesApart, resumable, unstarted, mem_cons, not_mem_nil, or_false, ne_eq,
      forall_eq_or_imp, Bool.false_eq_true, IsEmpty.forall_iff, imp_self, and_true, forall_eq,
      Option.some.injEq, forall_eq', payloads]
    decide
  refine ⟨_, by rw [started]; rfl, rfl, ?_⟩
  refine (download_leaves_files_iff (fun _ => 0) false (partOnly 3) payloads 5 (cstr ".db") passes _
    (by simp [payloads, resumable, unstarted]) apart (by rw [started]; rfl) (.inl rfl)).2 ?_
  simp only [payloads, forall_mem_cons]
  refine ⟨?_, ?_, by simp⟩
  · rintro d ⟨⟩
    exact ⟨resumable, _, mem_cons_self, rfl, fun full => absurd full (by decide)⟩
  · rintro d ⟨⟩
    exact ⟨unstarted, _, mem_cons_of_mem _ mem_cons_self, rfl, fun full => absurd full (by decide)⟩

theorem download_complete_part : ∃ s, downloadLoop 5 (cstr ".db") [smoothPass []]
        (downloadStart (fun _ => 0) false (partOnly 5) [resumable]) = some s ∧
      s.ret = 1 ∧ ¬ Downloaded (cstr "x") s := by
  refine ⟨_, by rw [downloadStart, listMsort, if_neg (by decide)]; rfl, rfl, ?_⟩
  rintro (there | answered)
  · cases there
  · cases mem_singleton.1 answered

end Dulge
