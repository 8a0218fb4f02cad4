import Dulge.DownloadTransfer

/-! What the bytes of a downloaded file are. A transfer is tried until a server has answered, and
the file behind its stream keeps what the tries have left: `curl_check_finished_download` cuts off
the body of an answer that is an error page when the answer was complete, but not when it was broken
off in the middle. -/

namespace Dulge
open List Function

/-- One try: the file system when it has ended, the number of body bytes that libcurl has written
to the stream, and what it reports. -/
structure Attempt where
  access : FileAccess
  body : Nat
  fin : Finish

structure Transfer where
  payload : DloadPayload
  s : Downloader
  /-- for every byte of the file behind the stream, whether it comes from an error page -/
  page : List Bool

def resized (page : List Bool) (size : Nat) : List Bool :=
  page.take size ++ List.replicate (size - page.length) false

def Attempt.errorPage (a : Attempt) : Bool := 400 ≤ a.fin.respcode

def Attempt.brokenOff (a : Attempt) : Bool :=
  a.fin.result = .couldntResolveHost || a.fin.result = .other

def Transfer.received (a : Attempt) (file : Nat) (t : Transfer) : Downloader :=
  { t.s with dir := { t.s.dir with
    size := update t.s.dir.size file (t.s.dir.size file + a.body) } }

def attempt (dbext : CStr) (t : Transfer) (a : Attempt) : Int × Transfer :=
  match t.payload.localf with
  | none => (-1, t)
  | some file =>
    let checked := curlCheckFinishedDownload a.access dbext a.fin t.payload (t.received a file)
    let page := resized (t.page ++ List.replicate a.body a.errorPage) (checked.2.dir.size file)
    if checked.1 = 2 then
      (2, ⟨checked.2.running.getLast?.getD t.payload,
        { checked.2 with running := checked.2.running.dropLast }, page⟩)
    else (checked.1, ⟨t.payload, checked.2, page⟩)

def attempts (dbext : CStr) : List Attempt → Transfer → Int × Transfer
  | [], t => (2, t)
  | a :: later, t =>
    let tried := attempt dbext t a
    if tried.1 = 2 then attempts dbext later tried.2 else tried

/-! ### A try that is followed by another -/

section Retry

variable {access : FileAccess} {q r : DloadPayload} {file : Nat}

structure Retries (file : Nat) (q : DloadPayload) (base : DownloadDir) (r : DloadPayload)
    (dir : DownloadDir) : Prop where
  stream : r.localf = some file
  temp : r.tempfileName = q.tempfileName
  dest : r.destfileName = q.destfileName
  resume : r.allowResume = q.allowResume
  entries : dir.entries = base.entries
  kept : q.allowResume = true → dir = base ∧ r.initialSize = base.size file
  emptied : q.allowResume = false → dir.size file = 0 ∧ r.initialSize = q.initialSize

theorem curlRetryNextServer_retries {errors : ServerErrors} {base dir : DownloadDir}
    (retried : curlRetryNextServer access errors base q = some (r, dir))
    (stream : q.localf = some file) (named : base.entries q.tempfileName = some file) :
    Retries file q base r dir := by
  unfold curlRetryNextServer at retried
  split at retried
  · cases retried
  next server next found =>
    obtain ⟨_, _, _, spec⟩ := payloadNextServer_spec errors q
    rw [found] at spec
    dsimp only at spec
    subst spec
    have stat : base.stat q.tempfileName = some (base.size file) := by
      rw [DownloadDir.stat, named]
      rfl
    simp only [stat, stream] at retried
    cases resume : q.allowResume with
    | true =>
      rw [resume] at retried
      cases retried
      exact ⟨rfl, rfl, rfl, resume.symm, rfl, fun _ => ⟨rfl, rfl⟩,
        fun other => nomatch resume.symm.trans other⟩
    | false =>
      rw [resume] at retried
      simp only at retried
      split at retried
      · cases retried
        exact ⟨rfl, rfl, rfl, resume.symm, rfl, fun other => (nomatch resume.symm.trans other),
          fun _ => ⟨update_self .., rfl⟩⟩
      · cases retried

theorem cleanup_ret (access : FileAccess) (q : DloadPayload) (ret : Int) (s : Downloader) :
    (cleanup access ret q s).1 = ret ∨ (cleanup access ret q s).1 = -1 ∨
      (cleanup access ret q s).1 = -2 := by
  have settle (value : Int) (either : value = ret ∨ value = -1) :
      (if value = -1 ∧ q.errorsOk = true then -2 else value) = ret ∨
      (if value = -1 ∧ q.errorsOk = true then -2 else value) = -1 ∨
      (if value = -1 ∧ q.errorsOk = true then -2 else value) = -2 := by
    split
    · exact .inr (.inr rfl)
    · exact either.imp_right .inl
  unfold cleanup
  cases q.destfileName with
  | none => exact settle ret (.inl rfl)
  | some dest =>
    apply settle
    dsimp only
    split_ifs with zero renamed
    · exact .inl zero.symm
    · exact .inr rfl
    · exact .inl rfl

theorem cleanup_error_ret (s : Downloader) :
    (cleanup access (-1) q s).1 ≠ 2 ∧ (cleanup access (-1) q s).1 ≠ 0 := by
  rcases cleanup_ret access q (-1) s with ret | ret | ret <;> omega

variable {s : Downloader}

theorem retryOr_two {otherwise : Int × Downloader} (other : otherwise.1 ≠ 2)
    (again : (retryOr access q s otherwise).1 = 2) (stream : q.localf = some file)
    (named : s.dir.entries q.tempfileName = some file) :
    ∃ r dir, Retries file q s.dir r dir ∧
      (retryOr access q s otherwise).2.running = s.running ++ [r] ∧
      (retryOr access q s otherwise).2.dir = dir := by
  unfold retryOr at again ⊢
  split
  next r dir retried =>
    exact ⟨r, dir, curlRetryNextServer_retries retried stream named, rfl, rfl⟩
  next none =>
    rw [none] at again
    exact absurd again other

theorem blamed_keeps (expected : Bool) (errors : ServerErrors) (s : Downloader) :
    ∃ blamed, (if expected = true then s else { s with errors := errors }) = blamed ∧
      blamed.dir = s.dir ∧ blamed.running = s.running := by
  refine ⟨_, rfl, ?_⟩
  split <;> exact ⟨rfl, rfl⟩

/-- The directory from which the next try starts, after an error page has been cut off. -/
structure CutOff (file : Nat) (q : DloadPayload) (dir base : DownloadDir) : Prop where
  entries : base.entries = dir.entries
  size : (base.size file : Int) = q.initialSize ∨ base.size file = q.initialSize.toNat

theorem finishRefused_two (again : (finishRefused access q s).1 = 2) (stream : q.localf = some file)
    (named : s.dir.entries q.tempfileName = some file) :
    ∃ r dir base, CutOff file q s.dir base ∧ Retries file q base r dir ∧
      (finishRefused access q s).2.running = s.running ++ [r] ∧
      (finishRefused access q s).2.dir = dir := by
  obtain ⟨blamed, eq, dir, running⟩ := blamed_keeps q.requestErrorsOk
    (s.errors.serverSoftError (q.fileurl.getD [])) s
  have named : blamed.dir.entries q.tempfileName = some file := dir ▸ named
  simp only [finishRefused, stream, eq] at again ⊢
  split at again
  next longer =>
    rw [if_pos longer]
    split at again
    next cut =>
      rw [if_pos cut]
      obtain ⟨r, dir', retries, added, left⟩ :=
        retryOr_two (cleanup_error_ret _).1 again stream (show _ = some file from named)
      refine ⟨r, dir', _, ⟨?_, .inr ?_⟩, retries, running ▸ added, left⟩
      · show blamed.dir.entries = s.dir.entries
        rw [dir]
      · exact update_self ..
    next => cases again
  next same =>
    rw [if_neg same]
    obtain ⟨r, dir', retries, added, left⟩ :=
      retryOr_two (cleanup_error_ret _).1 again stream named
    refine ⟨r, dir', _, ⟨?_, .inl ?_⟩, retries, running ▸ added, left⟩
    · exact congrArg DownloadDir.entries dir
    · exact not_not.mp same

theorem retryOr_ne_zero {otherwise : Int × Downloader} (other : otherwise.1 ≠ 0) :
    (retryOr access q s otherwise).1 ≠ 0 := by
  unfold retryOr
  split
  · exact show (2 : Int) ≠ 0 by decide
  · exact other

theorem finishRefused_ne_zero : (finishRefused access q s).1 ≠ 0 := by
  obtain ⟨blamed, eq, -, -⟩ := blamed_keeps q.requestErrorsOk
    (s.errors.serverSoftError (q.fileurl.getD [])) s
  simp only [finishRefused, eq]
  split
  · split
    · split
      · exact retryOr_ne_zero (cleanup_error_ret _).2
      · exact show (-1 : Int) ≠ 0 by decide
    · exact retryOr_ne_zero (cleanup_error_ret _).2
  · exact retryOr_ne_zero (cleanup_error_ret _).2

theorem finishReceived_ne_two (dbext : CStr) (fin : Finish) (s : Downloader) :
    (finishReceived access dbext fin q s).1 ≠ 2 := by
  unfold finishReceived
  dsimp only
  split
  · rcases cleanup_ret access q 1 _ with ret | ret | ret <;> rw [ret] <;> decide
  · split
    · exact (cleanup_error_ret _).1
    · rcases cleanup_ret access q 0 _ with ret | ret | ret <;> rw [ret] <;> decide

end Retry

section Check

variable {access : FileAccess} {dbext : CStr} {fin : Finish} {q : DloadPayload} {s : Downloader}
  {file : Nat}

/-- Another try follows: after a complete error page what it had added is cut off, after a try that
was broken off the file is as it was left. -/
theorem check_two (again : (curlCheckFinishedDownload access dbext fin q s).1 = 2)
    (stream : q.localf = some file) (named : s.dir.entries q.tempfileName = some file) :
    ∃ r dir base, Retries file { q with respcode := fin.respcode } base r dir ∧
      (curlCheckFinishedDownload access dbext fin q s).2.running = s.running ++ [r] ∧
      (curlCheckFinishedDownload access dbext fin q s).2.dir = dir ∧
      (CutOff file q s.dir base ∨
        ((fin.result = .couldntResolveHost ∨ fin.result = .other) ∧ base = s.dir)) := by
  unfold curlCheckFinishedDownload at again ⊢
  cases result : fin.result with
  | ok =>
    simp only [result] at again ⊢
    split at again
    next refused =>
      obtain ⟨r, dir, base, cut, retries, added, left⟩ := finishRefused_two again stream named
      rw [if_pos refused]
      exact ⟨r, dir, base, retries, added, left, .inl ⟨cut.entries, cut.size⟩⟩
    next => exact absurd again (finishReceived_ne_two _ _ _)
  | abortedByCallback =>
    simp only [result] at again
    split at again
    · exact absurd again (cleanup_error_ret _).1
    · exact absurd again (cleanup_error_ret _).1
  | couldntResolveHost =>
    simp only [result] at again ⊢
    obtain ⟨r, dir, retries, added, left⟩ :=
      retryOr_two (cleanup_error_ret _).1 again stream (show _ = some file from named)
    exact ⟨r, dir, _, retries, added, left, .inr ⟨.inl trivial, rfl⟩⟩
  | other =>
    obtain ⟨blamed, eq, dir, running⟩ := blamed_keeps q.requestErrorsOk
      (s.errors.serverSoftError (q.fileurl.getD [])) s
    simp only [result, eq] at again ⊢
    obtain ⟨r, dir', retries, added, left⟩ :=
      retryOr_two (cleanup_error_ret _).1 again stream (show _ = some file from dir ▸ named)
    exact ⟨r, dir', _, retries, running ▸ added, left, .inr ⟨.inr trivial, dir⟩⟩

theorem check_zero (done : (curlCheckFinishedDownload access dbext fin q s).1 = 0) :
    ¬ 400 ≤ fin.respcode ∧ curlCheckFinishedDownload access dbext fin q s =
      finishReceived access dbext fin { q with respcode := fin.respcode } s := by
  unfold curlCheckFinishedDownload at done ⊢
  cases result : fin.result with
  | ok =>
    simp only [result] at done ⊢
    split at done
    next => exact absurd done finishRefused_ne_zero
    next received => exact ⟨received, if_neg received⟩
  | abortedByCallback =>
    simp only [result] at done
    split at done
    · exact absurd done (cleanup_error_ret _).2
    · exact absurd done (cleanup_error_ret _).2
  | couldntResolveHost =>
    simp only [result] at done
    exact absurd done (retryOr_ne_zero (cleanup_error_ret _).2)
  | other =>
    simp only [result] at done
    exact absurd done (retryOr_ne_zero (cleanup_error_ret _).2)

end Check

/-! ### The file that is renamed -/

section Named

variable {access : FileAccess} {name : CStr} {file : Nat}

theorem fopen_entries {dir : DownloadDir} (there : dir.entries name = some file) (empty : Bool)
    (other : CStr) : (dir.fopen empty other).2.entries name = some file := by
  unfold DownloadDir.fopen
  split
  · split <;> exact there
  next missing =>
    have apart : name ≠ other := by
      rintro rfl
      cases missing.symm.trans there
    exact (update_of_ne apart ..).trans there

variable {q : DloadPayload} {s : Downloader}

theorem curlAddPayload_entries (there : s.dir.entries name = some file) :
    (curlAddPayload access q s).2.dir.entries name = some file := by
  unfold curlAddPayload
  split
  · exact there
  · split
    · exact there
    · dsimp only
      split
      · exact there
      · split
        · exact there
        next opened =>
          unfold openLocalf at opened
          split at opened
          · cases opened
            exact there
          · split at opened
            · cases opened
              exact fopen_entries there _ _
            · cases opened

theorem startSignature_entries {dbext : CStr} {fin : Finish}
    (there : s.dir.entries name = some file) :
    (startSignature access dbext fin q s).dir.entries name = some file := by
  unfold startSignature
  split
  · exact curlAddPayload_entries there
  · exact there

theorem cleanup_zero (done : (cleanup access 0 q s).1 = 0)
    (named : s.dir.entries q.tempfileName = some file) {dest : CStr}
    (mine : q.destfileName = some dest) {other : Nat}
    (there : (cleanup access 0 q s).2.dir.entries dest = some other) : other = file := by
  have moved (dir : DownloadDir) (at' : dir.entries q.tempfileName = some file) :
      (dir.rename q.tempfileName dest).entries dest = some file := by
    unfold DownloadDir.rename
    split
    next same => rw [← same]; exact at'
    next apart =>
      exact (update_of_ne (Ne.symm apart) ..).trans ((update_self ..).trans at')
  unfold cleanup at done there
  simp only [mine, if_true] at done there
  split at done
  next renames =>
    rw [if_pos renames] at there
    split at there
    · by_cases same : dest = q.tempfileName
      · subst same
        cases (update_self ..).symm.trans there
      · have kept := (update_of_ne same ..).symm.trans there
        exact Option.some.inj (kept.symm.trans (moved s.dir named))
    · exact Option.some.inj (there.symm.trans (moved s.dir named))
  next fails =>
    split at done
    · cases done
    · cases done

theorem finishReceived_zero {dbext : CStr} {fin : Finish}
    (done : (finishReceived access dbext fin q s).1 = 0)
    (named : s.dir.entries q.tempfileName = some file) {dest : CStr}
    (mine : q.destfileName = some dest) {other : Nat}
    (there : (finishReceived access dbext fin q s).2.dir.entries dest = some other) :
    other = file := by
  unfold finishReceived at done there
  dsimp only at done there
  split at done
  next =>
    rcases cleanup_ret access q 1 _ with ret | ret | ret <;> cases ret.symm.trans done
  next untimed =>
    rw [if_neg untimed] at there
    split at done
    next => exact absurd done (cleanup_error_ret _).2
    next whole =>
      rw [if_neg whole] at there
      exact cleanup_zero done (startSignature_entries named) mine there

end Named

/-! ### Whole transfers -/

/-- The file of a transfer between two tries: the stream and the temporary name are the same file,
it is as long as the next try assumes, and nothing of it comes from an error page. -/
structure Transfer.Clean (t : Transfer) (file : Nat) : Prop where
  stream : t.payload.localf = some file
  named : t.s.dir.entries t.payload.tempfileName = some file
  size : t.s.dir.size file = t.page.length
  initial : t.payload.initialSize = t.page.length
  restarts : t.payload.allowResume = false → t.page = []
  clean : ∀ mark ∈ t.page, mark = false

theorem resized_append (page added : List Bool) : resized (page ++ added) page.length = page := by
  simp [resized]

theorem resized_self (page : List Bool) : resized page page.length = page := by
  simp [resized]

variable {size file : Nat} {r : DloadPayload} {s : Downloader} {dbext : CStr} {t : Transfer}
  {dir : DownloadDir}

theorem mem_resized {page : List Bool} (clean : ∀ mark ∈ page, mark = false) :
    ∀ mark ∈ resized page size, mark = false := by
  intro mark mem
  rcases mem_append.mp mem with old | new
  · exact clean mark (mem_of_mem_take old)
  · exact (mem_replicate.mp new).2

/-- The try leaves bytes of an error page behind that the next one continues. -/
def Attempt.Soils (a : Attempt) : Prop := a.brokenOff = true ∧ a.errorPage = true ∧ 0 < a.body

instance (a : Attempt) : Decidable a.Soils :=
  inferInstanceAs (Decidable (a.brokenOff = true ∧ a.errorPage = true ∧ 0 < a.body))

structure Marks (resume : Bool) (r : DloadPayload) (size : Nat) (page : List Bool) : Prop where
  size : size = page.length
  initial : r.initialSize = page.length
  restarts : resume = false → page = []
  clean : ∀ mark ∈ page, mark = false

theorem Transfer.Clean.of_marks {page : List Bool} (stream : r.localf = some file)
    (named : s.dir.entries r.tempfileName = some file)
    (marks : Marks r.allowResume r (s.dir.size file) page) : Transfer.Clean ⟨r, s, page⟩ file :=
  ⟨stream, named, marks.size, marks.initial, marks.restarts, marks.clean⟩

section Marks

variable {t : Transfer} {a : Attempt} {file : Nat} {r : DloadPayload} {base dir : DownloadDir}
  {respcode : Int}

theorem marks_emptied (clean : t.Clean file)
    (retries : Retries file { t.payload with respcode := respcode } base r dir)
    (resume : t.payload.allowResume = false) :
    Marks false r (dir.size file)
      (resized (t.page ++ List.replicate a.body a.errorPage) (dir.size file)) := by
  obtain ⟨empty, same⟩ := retries.emptied resume
  have start : t.payload.initialSize = ([] : List Bool).length :=
    clean.restarts resume ▸ clean.initial
  have none : resized (t.page ++ List.replicate a.body a.errorPage) (dir.size file) = [] := by
    simp [empty, resized]
  rw [none]
  exact ⟨empty, same.trans start, fun _ => rfl, fun _ mem => nomatch mem⟩

theorem marks_cut (clean : t.Clean file)
    (retries : Retries file { t.payload with respcode := respcode } base r dir)
    (resume : t.payload.allowResume = true)
    (cut : CutOff file t.payload (t.received a file).dir base) :
    Marks true r (dir.size file)
      (resized (t.page ++ List.replicate a.body a.errorPage) (dir.size file)) := by
  obtain ⟨rfl, initial⟩ := retries.kept resume
  have size : dir.size file = t.page.length := by
    have start := clean.initial
    rcases cut.size with same | same <;> omega
  rw [size, resized_append]
  exact ⟨rfl, by rw [initial, size], nofun, clean.clean⟩

theorem marks_kept (clean : t.Clean file)
    (retries : Retries file { t.payload with respcode := respcode } (t.received a file).dir r dir)
    (resume : t.payload.allowResume = true) (broken : a.brokenOff = true) (unsoiled : ¬ a.Soils) :
    Marks true r (dir.size file)
      (resized (t.page ++ List.replicate a.body a.errorPage) (dir.size file)) := by
  obtain ⟨rfl, initial⟩ := retries.kept resume
  have size : (t.received a file).dir.size file =
      (t.page ++ List.replicate a.body a.errorPage).length := by
    rw [length_append, length_replicate, ← clean.size]
    exact update_self ..
  rw [size, resized_self]
  refine ⟨rfl, by rw [initial, size], nofun, ?_⟩
  intro mark mem
  rcases mem_append.mp mem with old | new
  · exact clean.clean mark old
  · obtain ⟨some, rfl⟩ := mem_replicate.mp new
    exact eq_false_of_ne_true fun page => unsoiled ⟨broken, page, Nat.pos_of_ne_zero some⟩

end Marks

theorem attempt_two {a : Attempt} (clean : t.Clean file)
    (spared : t.payload.allowResume = false ∨ ¬ a.Soils) (again : (attempt dbext t a).1 = 2) :
    (attempt dbext t a).2.Clean file ∧
      (attempt dbext t a).2.payload.allowResume = t.payload.allowResume ∧
      (attempt dbext t a).2.payload.destfileName = t.payload.destfileName := by
  have named : (t.received a file).dir.entries t.payload.tempfileName = some file := clean.named
  simp only [attempt, clean.stream] at again ⊢
  split at again
  next two =>
    obtain ⟨r, dir, base, retries, added, left, origin⟩ := check_two two clean.stream named
    rw [if_pos two]
    simp only [added, left, List.getLast?_concat, Option.getD_some]
    refine ⟨?_, retries.resume, retries.dest⟩
    have still : dir.entries r.tempfileName = some file := by
      rw [retries.entries, retries.temp]
      rcases origin with cut | ⟨-, rfl⟩
      · exact cut.entries ▸ named
      · exact named
    have marks : Marks t.payload.allowResume r (dir.size file)
        (resized (t.page ++ List.replicate a.body a.errorPage) (dir.size file)) := by
      cases resume : t.payload.allowResume with
      | false => exact marks_emptied clean retries resume
      | true =>
        rcases origin with cut | ⟨broken, rfl⟩
        · exact marks_cut clean retries resume cut
        · have unsoiled : ¬ a.Soils := spared.resolve_left (by simp [resume])
          have off : a.brokenOff = true := by simpa [Attempt.brokenOff] using broken
          exact marks_kept clean retries resume off unsoiled
    have resume : r.allowResume = t.payload.allowResume := retries.resume
    rw [← resume] at marks
    exact .of_marks retries.stream still marks
  next other => exact absurd again other

theorem attempt_zero {a : Attempt} (clean : t.Clean file) (done : (attempt dbext t a).1 = 0) :
    (∀ mark ∈ (attempt dbext t a).2.page, mark = false) ∧
      ∀ dest other, t.payload.destfileName = some dest →
        (attempt dbext t a).2.s.dir.entries dest = some other → other = file := by
  simp only [attempt, clean.stream] at done ⊢
  split at done
  next => cases done
  next other =>
    rw [if_neg other]
    obtain ⟨below, received⟩ := check_zero done
    refine ⟨mem_resized ?_, ?_⟩
    · intro mark mem
      rcases mem_append.mp mem with old | new
      · exact clean.clean mark old
      · rw [(mem_replicate.mp new).2]
        exact decide_eq_false below
    · intro dest other mine there
      simp only [received] at done there
      exact finishReceived_zero done clean.named mine there

theorem attempts_zero {tries : List Attempt} {t' : Transfer} (clean : t.Clean file)
    (spared : t.payload.allowResume = false ∨ ∀ a ∈ tries, ¬ a.Soils)
    (done : attempts dbext tries t = (0, t')) :
    (∀ mark ∈ t'.page, mark = false) ∧ ∀ dest other, t.payload.destfileName = some dest →
      t'.s.dir.entries dest = some other → other = file := by
  induction tries generalizing t with
  | nil => cases done
  | cons a later ih =>
    unfold attempts at done
    dsimp only at done
    split at done
    next again =>
      obtain ⟨still, resume, dest⟩ :=
        attempt_two clean (spared.imp_right fun all => all a mem_cons_self) again
      rw [← resume] at spared
      rw [← dest]
      exact ih still (spared.imp_right fun all b mem => all b (mem_cons_of_mem _ mem)) done
    next =>
      have zero : (attempt dbext t a).1 = 0 := congrArg Prod.fst done
      have result := attempt_zero clean zero
      rw [done] at result
      exact result

/-! ### From the start of a transfer -/

theorem startUrl_keeps {errors : ServerErrors} {q : DloadPayload}
    (started : startUrl errors q = some r) :
    r.initialSize = q.initialSize ∧ r.localf = q.localf ∧ r.allowResume = q.allowResume := by
  unfold startUrl at started
  split at started
  · split at started
    · cases started
    · cases started
      exact ⟨rfl, rfl, rfl⟩
  · split at started
    next server next filepath shown _ =>
      cases started
      obtain ⟨_, _, _, spec⟩ := payloadNextServer_spec errors q
      rw [shown] at spec
      dsimp only at spec
      subst spec
      exact ⟨rfl, rfl, rfl⟩
    · cases started

/-- A payload that no transfer has used: its stream is to be opened or belongs to a new file that
`create_tempfile` has made. -/
structure DloadPayload.Fresh (payload : DloadPayload) (dir : DownloadDir) : Prop where
  initial : payload.initialSize = 0
  stream : ∀ file, payload.localf = some file →
    dir.entries payload.tempfileName = some file ∧ dir.size file = 0

theorem curlSetHandleOpts_cases (dir : DownloadDir) (q : DloadPayload) :
    curlSetHandleOpts dir q = (q, false) ∨
      ∃ size, dir.stat q.tempfileName = some size ∧ q.allowResume = true ∧
        curlSetHandleOpts dir q = ({ q with initialSize := size }, true) := by
  unfold curlSetHandleOpts
  split
  · exact .inl rfl
  · split
    next size found =>
      split
      next resume => exact .inr ⟨size, found, resume, rfl⟩
      · exact .inl rfl
    · exact .inl rfl

theorem stat_some {name : CStr} (found : dir.stat name = some size) :
    ∃ file, dir.entries name = some file ∧ dir.size file = size :=
  Option.map_eq_some_iff.mp found

theorem fopen_named (dir : DownloadDir) (empty : Bool) (name : CStr) :
    (dir.fopen empty name).2.entries name = some (dir.fopen empty name).1 := by
  unfold DownloadDir.fopen
  split
  next file found =>
    split
    · exact found
    · exact found
  next => exact update_self ..

theorem fopen_emptied (dir : DownloadDir) (name : CStr) :
    (dir.fopen true name).2.size (dir.fopen true name).1 = 0 := by
  unfold DownloadDir.fopen
  split
  next => exact update_self ..
  next => exact update_self ..

theorem fopen_continued {name : CStr} (there : dir.entries name = some file) :
    dir.fopen false name = (file, dir) := by
  simp only [DownloadDir.fopen, there]
  rfl

theorem marks_start {resume : Bool} (initial : r.initialSize = size)
    (restarts : resume = false → size = 0) : Marks resume r size (List.replicate size false) where
  size := length_replicate.symm
  initial := by rw [initial, length_replicate]
  restarts none := by rw [restarts none]; rfl
  clean mark member := (mem_replicate.mp member).2

/-- The temporary file has the length that the options assume, since a file that is not to be
continued is emptied when it is opened. -/
theorem openLocalf_clean {access : FileAccess} {q : DloadPayload} (fresh : q.Fresh s.dir)
    (opened : openLocalf access s.dir (curlSetHandleOpts s.dir q).2 (curlSetHandleOpts s.dir q).1 =
      some (r, dir)) :
    r.allowResume = q.allowResume ∧ r.destfileName = q.destfileName ∧
      ∃ file, r.localf = some file ∧ Transfer.Clean
        ⟨r, { s with dir := dir }, List.replicate (dir.size file) false⟩ file := by
  unfold openLocalf at opened
  rcases curlSetHandleOpts_cases s.dir q with opts | ⟨size, found, resume, opts⟩
  · rw [opts] at opened
    split at opened
    next file stream =>
      cases opened
      obtain ⟨named, empty⟩ := fresh.stream file stream
      refine ⟨rfl, rfl, file, stream, .of_marks stream named (marks_start ?_ fun _ => empty)⟩
      rw [fresh.initial, empty]
      rfl
    next =>
      split at opened
      · cases opened
        have empty := fopen_emptied s.dir q.tempfileName
        refine ⟨rfl, rfl, _, rfl, .of_marks rfl (fopen_named ..) (marks_start ?_ fun _ => empty)⟩
        rw [Bool.not_false, empty]
        exact fresh.initial
      · cases opened
  · obtain ⟨file, named, rfl⟩ := stat_some found
    have continued (other : q.allowResume = false) : s.dir.size file = 0 :=
      nomatch resume.symm.trans other
    rw [opts] at opened
    split at opened
    next stream =>
      cases opened
      cases Option.some.inj ((fresh.stream _ stream).1.symm.trans named)
      exact ⟨rfl, rfl, file, stream, .of_marks stream named (marks_start rfl continued)⟩
    next =>
      split at opened
      · simp only [Bool.not_true, fopen_continued named] at opened
        cases opened
        exact ⟨rfl, rfl, file, rfl, .of_marks rfl named (marks_start rfl continued)⟩
      · cases opened

theorem curlAddPayload_clean {access : FileAccess} {payload : DloadPayload}
    (fresh : payload.Fresh s.dir)
    (started : curlAddPayload access payload s =
      (0, { s with dir := dir, running := s.running ++ [r] })) :
    r.allowResume = payload.allowResume ∧ r.destfileName = payload.destfileName ∧
      ∃ file, r.localf = some file ∧ Transfer.Clean
        ⟨r, { s with dir := dir }, List.replicate (dir.size file) false⟩ file := by
  have grown {q : DloadPayload} {dir' : DownloadDir}
      (same : ((0 : Int), { s with dir := dir', running := s.running ++ [q] }) =
        (0, { s with dir := dir, running := s.running ++ [r] })) : dir' = dir ∧ q = r := by
    have running := append_cancel_left (congrArg (·.2.running) same)
    exact ⟨congrArg (·.2.dir) same, singleton_inj.mp running⟩
  unfold curlAddPayload at started
  split at started
  · cases congrArg Prod.fst started
  next q url =>
    split at started
    · cases congrArg Prod.fst started
    · dsimp only at started
      split at started
      · have running := congrArg (fun answer => answer.2.running.length) started
        simp at running
      · split at started
        · cases congrArg Prod.fst started
        next opened =>
          obtain ⟨rfl, rfl⟩ := grown started
          obtain ⟨initial, stream, resume⟩ := startUrl_keeps url
          have names := (startUrl_spec url).1
          have clean := openLocalf_clean ⟨initial.trans fresh.initial, fun file mine =>
            names.temp ▸ fresh.stream file (stream ▸ mine)⟩ opened
          rw [resume, names.dest] at clean
          exact clean

/-- A transfer that `curl_add_payload` has started, before its first try. -/
def startedTransfer (r : DloadPayload) (dir : DownloadDir) (s : Downloader) : Transfer :=
  ⟨r, { s with dir := dir }, List.replicate ((localSize dir r).getD 0) false⟩

/-- If the file is not to be continued, or no answer with an error page has been broken off behind
some bytes of it, then a transfer that ends with success has put a file in place that has no byte of
an error page. -/
theorem download_no_error_page {access : FileAccess} {dbext : CStr} {payload r : DloadPayload}
    {s : Downloader} {dir : DownloadDir} {tries : List Attempt} {t : Transfer}
    (fresh : payload.Fresh s.dir) (started : curlAddPayload access payload s =
      (0, { s with dir := dir, running := s.running ++ [r] }))
    (spared : payload.allowResume = false ∨ ∀ a ∈ tries, ¬ a.Soils)
    (done : attempts dbext tries (startedTransfer r dir s) = (0, t)) :
    (∀ mark ∈ t.page, mark = false) ∧ ∀ dest file, payload.destfileName = some dest →
      t.s.dir.entries dest = some file → r.localf = some file := by
  obtain ⟨resume, dest, file, stream, clean⟩ := curlAddPayload_clean fresh started
  have start : startedTransfer r dir s =
      ⟨r, { s with dir := dir }, List.replicate (dir.size file) false⟩ := by
    rw [startedTransfer, localSize, stream]
    rfl
  rw [start] at done
  obtain ⟨marks, moved⟩ := attempts_zero clean (spared.imp_left resume.trans) done
  refine ⟨marks, fun name other mine there => ?_⟩
  rw [stream, moved name other (dest.trans mine) there]

/-! ### A package from two servers -/

/-- `a.pkg` from two servers. -/
def mirrorPayload : DloadPayload where
  tempfileName := cstr "a.pkg.part"
  destfileName := some (cstr "a.pkg")
  fileurl := none
  filepath := some (cstr "a.pkg")
  cacheServers := []
  servers := [cstr "https://one", cstr "https://two"]
  respcode := 0
  mtimeExistingFile := 0
  initialSize := 0
  maxSize := 0
  force := false
  allowResume := true
  errorsOk := false
  unlinkOnFail := false
  downloadSignature := false
  signatureOptional := false
  signature := false
  requestErrorsOk := false
  localf := none

def openAccess : FileAccess := ⟨fun _ => true, fun _ => true, fun _ => true, fun _ _ => true⟩

def idleDownloader : Downloader where
  errors := fun _ => 0
  interrupted := false
  dir := ⟨fun _ => none, fun _ => 0, 0⟩
  waiting := []
  running := []
  active := 0
  err := false
  updated := false
  events := []

/-- An answer with `body` bytes. -/
def answeredTry (result : CurlResult) (respcode : Int) (body : Nat) : Attempt where
  access := openAccess
  body := body
  fin :=
    { result := result
      respcode := respcode
      timecond := false
      bytesDl := body
      remoteSize := -1
      effectiveUrl := cstr "https://one/a.pkg" }

/-- What `curl_add_payload` makes of the payload. -/
def mirrorStart : Downloader :=
  (curlAddPayload openAccess mirrorPayload idleDownloader).2

def mirrorRunning : DloadPayload :=
  mirrorStart.running.headD mirrorPayload

def mirrorTransfer : Transfer :=
  startedTransfer mirrorRunning mirrorStart.dir idleDownloader

def completePages : List Attempt := [answeredTry .ok 404 3, answeredTry .ok 200 4]

theorem download_no_error_page_complete :
    (attempts (cstr ".db") completePages mirrorTransfer).1 = 0 ∧
      ∀ mark ∈ (attempts (cstr ".db") completePages mirrorTransfer).2.page, mark = false := by
  have fresh : mirrorPayload.Fresh idleDownloader.dir := ⟨rfl, fun _ other => nomatch other⟩
  have started : curlAddPayload openAccess mirrorPayload idleDownloader =
      (0, { idleDownloader with
        dir := mirrorStart.dir
        running := idleDownloader.running ++ [mirrorRunning] }) := rfl
  have done : (attempts (cstr ".db") completePages mirrorTransfer).1 = 0 := by decide +kernel
  exact ⟨done, (download_no_error_page fresh started (.inr (by decide)) (Prod.ext done rfl)).1⟩

def brokenPages : List Attempt := [answeredTry .other 500 3, answeredTry .ok 206 4]

/-- The package is put in place with the bytes of an error page. -/
theorem download_keeps_error_page : (attempts (cstr ".db") brokenPages mirrorTransfer).1 = 0 ∧
      (attempts (cstr ".db") brokenPages mirrorTransfer).2.s.dir.entries (cstr "a.pkg") =
        mirrorRunning.localf ∧ mirrorRunning.localf = some 0 ∧
      (attempts (cstr ".db") brokenPages mirrorTransfer).2.page =
        [true, true, true, false, false, false, false] := by
  decide +kernel

end Dulge
