import Dulge.Download
import Dulge.Lib.Run

/-! The progress callback of `dload.c`. libcurl calls it for every running transfer, in any order.
All calls of a process share `dload_interrupted`, which nothing sets back to zero. -/

namespace Dulge

open Machine List

structure ProgressCall where
  addr : Nat
  remoteName : CStr
  payload : DloadPayload
  dltotal : Int
  dlnow : Int

/-- `alpm_download_event_progress_t`, with the name that goes with it. -/
structure ProgressEvent where
  remoteName : CStr
  total : Int
  downloaded : Int
  deriving DecidableEq

structure ProgressState where
  /-- `dload_interrupted` -/
  interrupted : Bool
  /-- `prevprogress` of each payload -/
  prevprogress : Nat → Int
  events : List ProgressEvent

def ProgressState.initial : ProgressState := ⟨false, fun _ => 0, []⟩

namespace ProgressCall

variable (call : ProgressCall)

def currentSize : Int := call.payload.initialSize + call.dlnow

def Exceeds : Prop := call.payload.maxSize ≠ 0 ∧ call.payload.maxSize < call.currentSize

def Sound : Prop := ¬ (call.dlnow < 0 ∨ call.dltotal ≤ 0 ∨ call.dltotal < call.dlnow)

/-- The call meets the limit: it is not one for a redirect, and its figures are taken seriously. -/
def Trips : Prop := call.payload.respcode < 300 ∧ call.Sound ∧ call.Exceeds

instance : Decidable call.Exceeds := inferInstanceAs (Decidable (_ ∧ _))

instance : Decidable call.Sound := inferInstanceAs (Decidable (¬ _))

instance : Decidable call.Trips := inferInstanceAs (Decidable (_ ∧ _))

end ProgressCall

/-- `dload_progress_cb`; `dlcb` says whether the front end has a callback. -/
def dloadProgressCb (dlcb : Bool) (s : ProgressState) (call : ProgressCall) : Int × ProgressState :=
  if 300 ≤ call.payload.respcode then (0, s)
  else if s.interrupted then (1, s)
  else if call.dlnow < 0 ∨ call.dltotal ≤ 0 ∨ call.dltotal < call.dlnow then (0, s)
  else if call.payload.maxSize ≠ 0 ∧ call.payload.maxSize < call.currentSize then
    (1, { s with interrupted := true })
  else if dlcb = false then (0, s)
  else if s.prevprogress call.addr = call.payload.initialSize + call.dltotal then (0, s)
  else
    (0, { s with
      prevprogress := Function.update s.prevprogress call.addr call.currentSize
      events := s.events ++ [⟨call.remoteName, call.dltotal, call.dlnow⟩] })

def progressStep (dlcb : Bool) (s : ProgressState) (call : ProgressCall) : ProgressState :=
  (dloadProgressCb dlcb s call).2

section Calls

variable (dlcb : Bool) (s : ProgressState)

theorem dloadProgressCb_aborts_iff (call : ProgressCall) : (dloadProgressCb dlcb s call).1 = 1 ↔
      call.payload.respcode < 300 ∧ (s.interrupted = true ∨ call.Trips) := by
  unfold dloadProgressCb ProgressCall.Trips ProgressCall.Sound ProgressCall.Exceeds
  split_ifs <;> grind

theorem progressStep_interrupted (call : ProgressCall) :
    (progressStep dlcb s call).interrupted = true ↔ s.interrupted = true ∨ call.Trips := by
  unfold progressStep dloadProgressCb ProgressCall.Trips ProgressCall.Sound ProgressCall.Exceeds
  split_ifs <;> grind

theorem run_progressStep_interrupted (calls : List ProgressCall) :
    (run (progressStep dlcb) s calls).interrupted = true ↔
      s.interrupted = true ∨ ∃ call ∈ calls, call.Trips := by
  induction calls generalizing s with
  | nil => simp [run]
  | cons call later ih =>
    rw [show run (progressStep dlcb) s (call :: later) =
      run (progressStep dlcb) (progressStep dlcb s call) later from rfl, ih,
      progressStep_interrupted]
    simp [or_assoc]

end Calls

def OverOwnLimit (done : List ProgressCall) (call : ProgressCall) : Prop :=
  ∃ seen ∈ done ++ [call], seen.addr = call.addr ∧ seen.Exceeds

/-- Transfers are only aborted for their own size exactly when no other transfer of the process
goes on, below response code 300, behind a call that met its limit. -/
theorem dloadProgressCb_own_limit_iff (dlcb : Bool) (calls : List ProgressCall) :
    (∀ done call rest, calls = done ++ call :: rest →
      (dloadProgressCb dlcb (run (progressStep dlcb) .initial done) call).1 = 1 →
        OverOwnLimit done call) ↔
    ∀ done call rest, calls = done ++ call :: rest → call.payload.respcode < 300 →
      (∃ other ∈ done, other.Trips) → OverOwnLimit done call := by
  simp only [dloadProgressCb_aborts_iff, run_progressStep_interrupted]
  constructor
  · intro own done call rest split below tripped
    exact own done call rest split ⟨below, .inl (.inr tripped)⟩
  · rintro own done call rest split ⟨below, (initial | tripped) | trips⟩
    · cases initial
    · exact own done call rest split below tripped
    · exact ⟨call, mem_append_right _ mem_cons_self, rfl, trips.2.2⟩

def databaseCall (addr : Nat) (maxSize dlnow : Int) : ProgressCall where
  addr := addr
  remoteName := cstr "core.db"
  payload :=
    { tempfileName := cstr "core.db.part", destfileName := some (cstr "core.db"), fileurl := none
      filepath := some (cstr "core.db"), cacheServers := [], servers := [cstr "https://one"]
      respcode := 200, mtimeExistingFile := 0, initialSize := 0, maxSize := maxSize, force := true
      allowResume := false, errorsOk := false, unlinkOnFail := true, downloadSignature := false
      signatureOptional := false, signature := false, requestErrorsOk := false, localf := none }
  dltotal := 100
  dlnow := dlnow

/-- The first transfer is over its limit of 10 bytes; the second one has no limit and is aborted. -/
theorem dloadProgressCb_aborts_other :
    (dloadProgressCb true (run (progressStep true) .initial [databaseCall 0 10 20])
      (databaseCall 1 0 1)).1 = 1 ∧ ¬ OverOwnLimit [databaseCall 0 10 20] (databaseCall 1 0 1) := by
  refine ⟨by decide, ?_⟩
  rintro ⟨seen, member, same, exceeds⟩
  rcases mem_append.mp member with first | second
  · rw [mem_singleton.mp first] at same
    cases same
  · rw [mem_singleton.mp second] at exceeds
    exact exceeds.1 rfl

end Dulge
