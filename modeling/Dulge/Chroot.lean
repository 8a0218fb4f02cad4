import Dulge.LocalDb

/-! The parent's side of `_alpm_run_chroot`: the poll loop that reads the output of the child,
feeds its standard input from a callback, and reports what it has read line by line. What
`poll`, `read` and `send` give is the input of each step; the bytes that have passed each pipe
are kept beside the buffers. -/

namespace Dulge
open Machine List

/-- What `read` from the child gives. `retry` is `EAGAIN`, `EWOULDBLOCK` or `EINTR`. -/
inductive ReadResult where
  | bytes (data : List UInt8) | endOfFile | retry | error
  deriving DecidableEq, Repr

/-- What `send` to the child gives. -/
inductive SendResult where
  | wrote (n : Nat) | retry | error
  deriving DecidableEq, Repr

/-- The `revents` of one descriptor: nothing, the event that was asked for and what the call
behind it gives, or only other bits. -/
inductive Revents (ρ : Type) where
  | quiet | ready (result : ρ) | other
  deriving DecidableEq, Repr

/-- One turn of `poll`: interrupted, failed, or the events of `child2parent` and
`parent2child`. -/
inductive Poll where
  | interrupted | failed
  | events (input : Revents ReadResult) (output : Revents SendResult)
  deriving DecidableEq, Repr

/-- A line that `_alpm_chroot_process_output` gets, and whether the parent has put the newline
at its end. -/
structure Report where
  line : CStr
  inserted : Bool
  deriving DecidableEq, Repr

def Report.text (report : Report) : CStr :=
  if report.inserted then report.line.dropLast else report.line

inductive PipeError where
  | unableToWrite | unableToRead
  deriving DecidableEq, Repr

/-- The variables of the loop. A descriptor that is `-1` is not `reading` or not `writing`, and
`polling` ends with the `break`. -/
structure Pipes (κ : Type) where
  ibuf : List UInt8
  obuf : List UInt8
  ctx : κ
  reading : Bool
  writing : Bool
  polling : Bool
  received : List UInt8
  sent : List UInt8
  reports : List Report
  errors : List PipeError
  deriving DecidableEq, Repr

variable {κ : Type}

def Pipes.start (ctx : κ) (callback : Bool) : Pipes κ :=
  ⟨[], [], ctx, true, callback, true, [], [], [], []⟩

/-- `_alpm_chroot_process_output` of a line in the buffer, which ends at its first NUL. -/
def Pipes.report (io : Pipes κ) (line : List UInt8) (inserted : Bool) : Pipes κ :=
  { io with reports := io.reports ++ [⟨line.takeWhile (· ≠ 0), inserted⟩] }

def Pipes.flush (io : Pipes κ) : Pipes κ :=
  if io.ibuf = [] then io else io.report (io.ibuf ++ [newline]) true

def Pipes.takeLine (io : Pipes κ) (line rest : List UInt8) : Pipes κ :=
  { io.report (line ++ [newline]) false with ibuf := rest }

def Pipes.processLines (io : Pipes κ) : Pipes κ :=
  match _found : memchr newline io.ibuf with
  | none => io
  | some (line, rest) => (io.takeLine line rest).processLines
termination_by io.ibuf.length
decreasing_by
  have split := congrArg List.length (memchr_some _found).1
  simp only [length_append, length_cons] at split
  show rest.length < io.ibuf.length
  omega

/-- The bytes that `read` has put behind those in the buffer. -/
def Pipes.fill (io : Pipes κ) (data : List UInt8) : Pipes κ :=
  { io with ibuf := io.ibuf ++ data, received := io.received ++ data }

/-- `_alpm_chroot_read_from_child` and what the loop does with its result. Two bytes of the
buffer are reserved for a newline and the terminator. -/
def readFromChild (limit : Nat) (io : Pipes κ) : ReadResult → Pipes κ
  | .bytes data =>
    let space := limit - io.ibuf.length - 2
    -- the first newline is looked for in what is new
    match memchr newline data with
    | some (line, rest) => ((io.fill data).takeLine (io.ibuf ++ line) rest).processLines
    | none =>
      if data.length = space then { (io.fill data).flush with ibuf := [] } else io.fill data
  -- the size of the buffer stays what it was
  | .endOfFile => { io.flush with reading := false }
  | .retry => io
  | .error => { io.flush with reading := false, errors := io.errors ++ [.unableToRead] }

/-- `send` of the buffer, as far as it goes. -/
def sendBuffer (io : Pipes κ) : SendResult → Pipes κ
  | .wrote n => { io with obuf := io.obuf.drop n, sent := io.sent ++ io.obuf.take n }
  | .retry => io
  | .error => { io with writing := false, errors := io.errors ++ [.unableToWrite] }

/-- `_alpm_chroot_write_to_child` and what the loop does with its result. -/
def writeToChild (limit : Nat) (outCb : Nat → κ → List UInt8 × κ) (io : Pipes κ)
    (result : SendResult) : Pipes κ :=
  if io.obuf = [] then
    match outCb limit io.ctx with
    | ([], ctx) => { io with ctx := ctx, writing := false }
    | (data, ctx) => sendBuffer { io with obuf := data, ctx := ctx } result
  else sendBuffer io result

/-- The part of a turn that looks at `child2parent`. -/
def pollInput (limit : Nat) (io : Pipes κ) : Revents ReadResult → Pipes κ
  | .quiet => io
  | .ready result => if io.reading then readFromChild limit io result else io
  | .other => { io with reading := false }

/-- The part of a turn that looks at `parent2child`. -/
def pollOutput (limit : Nat) (outCb : Nat → κ → List UInt8 × κ) (io : Pipes κ) :
    Revents SendResult → Pipes κ
  | .quiet => io
  | .ready result => if io.writing then writeToChild limit outCb io result else io
  | .other => { io with writing := false }

/-- `ilimit` and `olimit` are the sizes of `ibuf` and `obuf`. -/
def pollStep (ilimit olimit : Nat) (outCb : Nat → κ → List UInt8 × κ) (io : Pipes κ)
    (event : Poll) : Pipes κ :=
  if io.polling ∧ (io.reading ∨ io.writing) then
    match event with
    | .interrupted => io
    | .failed => { io with polling := false }
    | .events input output => pollOutput olimit outCb (pollInput ilimit io input) output
  else io

/-- The loop, and the report of what is left in the input buffer behind it. -/
def runChrootIo (ilimit olimit : Nat) (outCb : Nat → κ → List UInt8 × κ) (io : Pipes κ)
    (polls : List Poll) : Pipes κ :=
  (run (pollStep ilimit olimit outCb) io polls).flush

/-! ### What has been reported -/

def Pipes.told (io : Pipes κ) : CStr := io.reports.flatMap Report.text

variable {line rest : List UInt8}

theorem takeWhile_ne_nul (text : (0 : UInt8) ∉ line) : line.takeWhile (· ≠ 0) = line :=
  takeWhile_eq_self_iff.mpr (decide_ne_of_not_mem text)

theorem nul_not_mem_line (text : (0 : UInt8) ∉ line) : (0 : UInt8) ∉ line ++ [newline] := by
  rw [mem_append, mem_singleton]
  exact fun mem => mem.elim text (by decide)

variable (io : Pipes κ)

theorem told_report_own (text : (0 : UInt8) ∉ line) :
    (io.report (line ++ [newline]) false).told = io.told ++ (line ++ [newline]) := by
  simp only [Pipes.told, Pipes.report, takeWhile_ne_nul (nul_not_mem_line text),
    flatMap_append, flatMap_singleton]
  rfl

theorem told_report_inserted (text : (0 : UInt8) ∉ line) :
    (io.report (line ++ [newline]) true).told = io.told ++ line := by
  simp only [Pipes.told, Pipes.report, takeWhile_ne_nul (nul_not_mem_line text),
    flatMap_append, flatMap_singleton, Report.text, if_true, dropLast_concat]

theorem told_flush (text : (0 : UInt8) ∉ io.ibuf) : io.flush.told = io.told ++ io.ibuf := by
  unfold Pipes.flush
  split
  · rename_i empty
    rw [empty, append_nil]
  · exact told_report_inserted io text

theorem flush_eq : io.flush = { io with reports := io.flush.reports } := by
  unfold Pipes.flush
  split <;> rfl

def Pipes.account (io : Pipes κ) : CStr := io.told ++ io.ibuf

theorem account_takeLine (split : io.ibuf = line ++ newline :: rest) (text : (0 : UInt8) ∉ io.ibuf) :
    (io.takeLine line rest).account = io.account := by
  have lineText : (0 : UInt8) ∉ line := fun mem =>
    text (split ▸ mem_append_left _ mem)
  calc (io.takeLine line rest).told ++ rest = io.told ++ (line ++ [newline]) ++ rest := by
        rw [show (io.takeLine line rest).told = _ from told_report_own io lineText]
    _ = io.told ++ io.ibuf := by
        rw [split]
        simp

structure LinesTaken (io io' : Pipes κ) : Prop where
  account : (0 : UInt8) ∉ io.ibuf → io'.account = io.account
  buffer : io'.ibuf <:+ io.ibuf
  others : io' = { io with ibuf := io'.ibuf, reports := io'.reports }

theorem LinesTaken.refl : LinesTaken io io :=
  ⟨fun _ => rfl, suffix_refl _, rfl⟩

theorem LinesTaken.trans {first second third : Pipes κ} (one : LinesTaken first second)
    (two : LinesTaken second third) : LinesTaken first third := by
  refine ⟨?_, two.buffer.trans one.buffer, ?_⟩
  · intro text
    rw [two.account fun mem => text (one.buffer.subset mem), one.account text]
  · rw [two.others, one.others]

theorem takeLine_taken (split : io.ibuf = line ++ newline :: rest) :
    LinesTaken io (io.takeLine line rest) where
  account := account_takeLine io split
  buffer := by
    rw [split]
    exact (suffix_cons newline rest).trans (suffix_append line _)
  others := rfl

theorem processLines_taken : LinesTaken io io.processLines := by
  induction io using Pipes.processLines.induct with
  | case1 io absent =>
    rw [Pipes.processLines]
    split <;> rename_i found
    · exact .refl io
    · rw [absent] at found
      cases found
  | case2 io line rest here ih =>
    rw [Pipes.processLines]
    split <;> rename_i found
    · rw [here] at found
      cases found
    · rw [here] at found
      cases found
      exact (takeLine_taken io (memchr_some here).1).trans ih

theorem fill_taken {data : List UInt8} (found : memchr newline data = some (line, rest)) :
    LinesTaken (io.fill data) ((io.fill data).takeLine (io.ibuf ++ line) rest).processLines := by
  have split : (io.fill data).ibuf = (io.ibuf ++ line) ++ newline :: rest := by
    rw [append_assoc, ← (memchr_some found).1]
    rfl
  exact (takeLine_taken _ split).trans (processLines_taken _)

/-- How many bytes there are behind the last newline. -/
def openLine (text : List UInt8) : Nat := (text.reverse.takeWhile (· ≠ newline)).length

theorem openLine_append (text : List UInt8) (plain : newline ∉ rest) :
    openLine (text ++ rest) = openLine text + rest.length := by
  have all : ∀ c ∈ rest.reverse, decide (c ≠ newline) = true :=
    decide_ne_of_not_mem (mt mem_reverse.mp plain)
  rw [openLine, openLine, reverse_append, takeWhile_append_of_pos all, length_append,
    length_reverse, Nat.add_comm]

theorem openLine_newline (line rest : List UInt8) :
    openLine (line ++ newline :: rest) = openLine rest := by
  rw [openLine, openLine, reverse_append, reverse_cons, append_assoc, takeWhile_append]
  split
  next whole => rw [whole, singleton_append, takeWhile_cons_of_neg (by simp), append_nil]
  next => rfl

theorem processLines_ibuf : io.processLines.ibuf.length = openLine io.ibuf := by
  induction io using Pipes.processLines.induct with
  | case1 io absent =>
    have plain : newline ∉ io.ibuf := by simp [← memchr_isSome, absent]
    rw [Pipes.processLines]
    split <;> rename_i found
    · rw [← nil_append io.ibuf, openLine_append [] plain]
      exact (Nat.zero_add _).symm
    · rw [absent] at found
      cases found
  | case2 io line rest here ih =>
    rw [Pipes.processLines]
    split <;> rename_i found
    · rw [here] at found
      cases found
    · rw [here] at found
      cases found
      rw [ih, (memchr_some here).1, openLine_newline]
      rfl

/-- The state while the child's output is being read: what has been reported and what waits in
the buffer are together what has been received. What waits is the rest of the last line, without
the pieces that have filled the buffer. -/
structure Intake (limit : Nat) (io : Pipes κ) : Prop where
  reading : io.reading = true
  polling : io.polling = true
  waits : io.ibuf.length = openLine io.received % (limit - 2)
  text : (0 : UInt8) ∉ io.ibuf
  account : io.account = io.received

/-- What a turn may bring before the end of the output: bytes that fit into the room the buffer
has, or nothing this time. The other pipe may do anything. -/
def ReadsOn (limit : Nat) (io : Pipes κ) : Poll → Prop
  | .interrupted => True
  | .failed => False
  | .events .quiet _ => True
  | .events (.ready (.bytes data)) _ =>
    data ≠ [] ∧ data.length ≤ limit - io.ibuf.length - 2 ∧ (0 : UInt8) ∉ data
  | .events (.ready .retry) _ => True
  | .events (.ready _) _ => False
  | .events .other _ => False

instance (limit : Nat) (io : Pipes κ) : DecidablePred (ReadsOn limit io)
  | .interrupted => .isTrue trivial
  | .failed => .isFalse id
  | .events .quiet _ => .isTrue trivial
  | .events (.ready (.bytes data)) _ =>
    inferInstanceAs (Decidable (data ≠ [] ∧ data.length ≤ limit - io.ibuf.length - 2 ∧
      (0 : UInt8) ∉ data))
  | .events (.ready .retry) _ => .isTrue trivial
  | .events (.ready .endOfFile) _ => .isFalse id
  | .events (.ready .error) _ => .isFalse id
  | .events .other _ => .isFalse id

def Pipes.input (io : Pipes κ) : List UInt8 × Bool × List UInt8 × List Report :=
  (io.ibuf, io.reading, io.received, io.reports)

section Steps

variable {limit ilimit olimit : Nat} {outCb : Nat → κ → List UInt8 × κ} {io : Pipes κ}

theorem sendBuffer_input (io : Pipes κ) (result : SendResult) :
    (sendBuffer io result).input = io.input ∧ (sendBuffer io result).polling = io.polling := by
  cases result <;> exact ⟨rfl, rfl⟩

theorem pollOutput_input (io : Pipes κ) (output : Revents SendResult) :
    (pollOutput olimit outCb io output).input = io.input ∧
      (pollOutput olimit outCb io output).polling = io.polling := by
  cases output with
  | quiet => exact ⟨rfl, rfl⟩
  | other => exact ⟨rfl, rfl⟩
  | ready result =>
    simp only [pollOutput, writeToChild]
    split
    · split
      · split
        · exact ⟨rfl, rfl⟩
        · exact sendBuffer_input _ result
      · exact sendBuffer_input io result
    · exact ⟨rfl, rfl⟩

theorem Intake.of_input {io' : Pipes κ} (intake : Intake limit io)
    (same : io'.input = io.input ∧ io'.polling = io.polling) : Intake limit io' := by
  obtain ⟨input, polling⟩ := same
  simp only [Pipes.input, Prod.mk.injEq] at input
  obtain ⟨ibuf, reading, received, reports⟩ := input
  refine ⟨?_, ?_, ?_, ?_, ?_⟩
  · rw [reading, intake.reading]
  · rw [polling, intake.polling]
  · rw [ibuf, received]
    exact intake.waits
  · rw [ibuf]
    exact intake.text
  · have account := intake.account
    unfold Pipes.account Pipes.told at account ⊢
    rw [ibuf, received, reports, account]

theorem Intake.pollStep_eq (intake : Intake limit io) (input : Revents ReadResult)
    (output : Revents SendResult) : pollStep ilimit olimit outCb io (.events input output) =
      pollOutput olimit outCb (pollInput ilimit io input) output := by
  unfold pollStep
  rw [if_pos ⟨intake.polling, .inl intake.reading⟩]

theorem Intake.bytes (intake : Intake limit io) (roomy : 3 ≤ limit) {data : List UInt8}
    (fits : data.length ≤ limit - io.ibuf.length - 2) (text : (0 : UInt8) ∉ data) :
    Intake limit (readFromChild limit io (.bytes data)) := by
  have waits := intake.waits
  have room : io.ibuf.length < limit - 2 := waits ▸ Nat.mod_lt _ (by omega)
  have account : (io.fill data).account = io.received ++ data := by
    rw [← intake.account]
    exact (append_assoc _ _ _).symm
  have clean : (0 : UInt8) ∉ (io.fill data).ibuf := fun mem =>
    (mem_append.mp mem).elim intake.text text
  simp only [readFromChild]
  split
  · rename_i line rest found
    have length := congrArg List.length (memchr_some found).1
    simp only [length_append, length_cons] at length
    have taken := fill_taken io found
    have received : _ = io.received ++ data := congrArg Pipes.received taken.others
    refine ⟨?_, ?_, ?_, ?_, ?_⟩
    · exact (congrArg Pipes.reading taken.others).trans intake.reading
    · exact (congrArg Pipes.polling taken.others).trans intake.polling
    · refine (processLines_ibuf _).trans ?_
      show openLine rest = _
      rw [received, (memchr_some found).1, ← append_assoc, openLine_newline]
      have short : openLine rest ≤ rest.length := by
        rw [← length_reverse]
        exact (List.takeWhile_prefix _).length_le
      exact (Nat.mod_eq_of_lt (by omega)).symm
    · exact fun mem => clean (taken.buffer.subset mem)
    · rw [taken.account clean, account]
      exact received.symm
  · rename_i absent
    have plain : newline ∉ data := by simp [← memchr_isSome, absent]
    have tail := openLine_append io.received plain
    split
    · -- the buffer is full and goes out with a newline of the parent
      rename_i full
      have flushed := flush_eq (io.fill data)
      refine ⟨?_, ?_, ?_, ?_, ?_⟩
      · exact (congrArg Pipes.reading flushed).trans intake.reading
      · exact (congrArg Pipes.polling flushed).trans intake.polling
      · have whole := Nat.div_add_mod (openLine io.received) (limit - 2)
        have pieces : openLine (io.received ++ data) =
            (limit - 2) * (openLine io.received / (limit - 2) + 1) := by
          rw [tail, full, waits, Nat.mul_succ]
          omega
        rw [congrArg Pipes.received flushed]
        exact (pieces ▸ Nat.mul_mod_right _ _).symm
      · exact not_mem_nil
      · refine (append_nil _).trans ?_
        refine (told_flush _ clean).trans (account.trans ?_)
        exact (congrArg Pipes.received flushed).symm
    · refine ⟨intake.reading, intake.polling, ?_, clean, account⟩
      show (io.ibuf ++ data).length = openLine (io.received ++ data) % (limit - 2)
      rw [length_append, tail, Nat.add_mod, ← waits,
        Nat.mod_eq_of_lt (show data.length < limit - 2 by omega), Nat.mod_eq_of_lt (by omega)]

theorem Intake.step (roomy : 3 ≤ ilimit) (intake : Intake ilimit io) {event : Poll}
    (on : ReadsOn ilimit io event) :
    Intake ilimit (pollStep ilimit olimit outCb io event) := by
  cases event with
  | interrupted =>
    have same : pollStep ilimit olimit outCb io .interrupted = io := ite_self io
    rw [same]
    exact intake
  | failed => exact on.elim
  | events input output =>
    rw [intake.pollStep_eq]
    refine Intake.of_input ?_ (pollOutput_input _ output)
    cases input with
    | quiet => exact intake
    | other => exact on.elim
    | ready result =>
      simp only [pollInput, intake.reading, if_true]
      cases result with
      | bytes data =>
        obtain ⟨-, fits, text⟩ := on
        exact intake.bytes roomy fits text
      | retry => exact intake
      | endOfFile => exact on.elim
      | error => exact on.elim

/-- The output has ended: all of it has been reported, and `left` is still in the buffer. -/
structure OutputEnded (output left : List UInt8) (io : Pipes κ) : Prop where
  closed : io.reading = false
  left : io.ibuf = left
  told : io.told = output

theorem OutputEnded.of_input {output left : List UInt8} {io' : Pipes κ}
    (ended : OutputEnded output left io) (same : io'.input = io.input) :
    OutputEnded output left io' := by
  simp only [Pipes.input, Prod.mk.injEq] at same
  obtain ⟨ibuf, reading, _, reports⟩ := same
  refine ⟨reading.trans ended.closed, ibuf.trans ended.left, ?_⟩
  rw [Pipes.told, reports]
  exact ended.told

theorem Intake.endOfFile (intake : Intake ilimit io) (output : Revents SendResult) :
    OutputEnded io.received io.ibuf
      (pollStep ilimit olimit outCb io (.events (.ready .endOfFile) output)) := by
  rw [intake.pollStep_eq]
  refine OutputEnded.of_input ?_ (pollOutput_input _ output).1
  simp only [pollInput, intake.reading, if_true, readFromChild]
  refine ⟨rfl, ?_, ?_⟩
  · show io.flush.ibuf = io.ibuf
    rw [flush_eq]
  · exact (told_flush io intake.text).trans intake.account

theorem pollStep_closed (closed : io.reading = false) (event : Poll) :
    (pollStep ilimit olimit outCb io event).input = io.input := by
  unfold pollStep
  split
  · cases event with
    | interrupted => rfl
    | failed => rfl
    | events input output =>
      refine (pollOutput_input _ output).1.trans ?_
      cases input with
      | quiet => rfl
      | ready result => simp only [pollInput, closed, Bool.false_eq_true, if_false]
      | other =>
        simp only [pollInput, Pipes.input]
        rw [closed]
  · rfl

theorem OutputEnded.run {output left : List UInt8} (ended : OutputEnded output left io)
    (polls : List Poll) :
    OutputEnded output left (run (pollStep ilimit olimit outCb) io polls) := by
  induction polls generalizing io with
  | nil => exact ended
  | cons event polls ih => exact ih (ended.of_input (pollStep_closed ended.closed event))

end Steps

/-- The reports tell the child's output exactly when the bytes behind its last newline fill the
buffer a whole number of times, none included: what waits in the buffer at the end of the output is
reported by the read that finds the end and again behind the loop. -/
theorem runChrootIo_told_iff {ilimit olimit : Nat} (roomy : 3 ≤ ilimit)
    (outCb : Nat → κ → List UInt8 × κ) (ctx : κ) (callback : Bool) (before after : List Poll)
    (output : Revents SendResult)
    (reads : EveryStep (pollStep ilimit olimit outCb) (ReadsOn ilimit) (.start ctx callback) before) :
    let polls := before ++ .events (.ready .endOfFile) output :: after
    let last := run (pollStep ilimit olimit outCb) (.start ctx callback) before
    (runChrootIo ilimit olimit outCb (.start ctx callback) polls).told = last.received ↔
      openLine last.received % (ilimit - 2) = 0 := by
  intro polls last
  have started : Intake ilimit (Pipes.start ctx callback) :=
    ⟨rfl, rfl, (Nat.zero_mod _).symm, not_mem_nil, rfl⟩
  have intake : Intake ilimit last :=
    (everyState_of_everyStep (fun _ _ intake on => intake.step roomy on) started reads).last
  have ended : OutputEnded last.received last.ibuf
      (run (pollStep ilimit olimit outCb) (.start ctx callback) polls) := by
    rw [show polls = before ++ .events (.ready .endOfFile) output :: after from rfl, run,
      foldl_append]
    exact (intake.endOfFile output).run after
  have text : (0 : UInt8) ∉ (run (pollStep ilimit olimit outCb) (.start ctx callback) polls).ibuf :=
    ended.left ▸ intake.text
  rw [runChrootIo, told_flush _ text, ended.told, ended.left, ← intake.waits, length_eq_zero_iff]
  exact append_right_eq_self

def noInput (_ : Nat) (ctx : Unit) : List UInt8 × Unit := ([], ctx)

/-- A child that writes a line and then ends, seen in two turns with a `read` in vain. -/
def linePolls : List Poll :=
  [.events (.ready (.bytes (cstr "ok"))) .quiet, .events (.ready .retry) .quiet,
    .events (.ready (.bytes [newline])) .quiet]

theorem runChrootIo_told_line : (runChrootIo 2048 4096 noInput (.start () false)
      (linePolls ++ [.events (.ready .endOfFile) .quiet])).told = cstr "ok" ++ [newline] := by
  have reads : EveryStep (pollStep 2048 4096 noInput) (ReadsOn 2048) (.start () false)
      linePolls := by
    refine everyStep_cons.mpr ⟨by decide +kernel, ?_⟩
    refine everyStep_cons.mpr ⟨trivial, ?_⟩
    refine everyStep_cons.mpr ⟨by decide +kernel, everyStep_nil⟩
  refine Eq.trans ((runChrootIo_told_iff (by decide) noInput () false linePolls [] .quiet
    reads).mpr ?_) ?_ <;> decide +kernel

/-- A child whose last line has no newline: the line is reported twice. -/
theorem runChrootIo_told_twice : let polls : List Poll :=
      [.events (.ready (.bytes (cstr "ok"))) .quiet, .events (.ready .endOfFile) .quiet]
    let io := runChrootIo 2048 4096 noInput (.start () false) polls
    io.received = cstr "ok" ∧ io.told = cstr "okok" ∧
      io.reports = [⟨cstr "ok" ++ [newline], true⟩, ⟨cstr "ok" ++ [newline], true⟩] := by
  decide +kernel

/-! ### What is fed to the child -/

def Pipes.output (io : Pipes κ) : List UInt8 × κ × Bool × List UInt8 :=
  (io.obuf, io.ctx, io.writing, io.sent)

theorem flush_output : io.flush.output = io.output ∧ io.flush.polling = io.polling := by
  rw [flush_eq]
  exact ⟨rfl, rfl⟩

theorem readFromChild_output (limit : Nat) (io : Pipes κ) (result : ReadResult) :
    (readFromChild limit io result).output = io.output ∧
      (readFromChild limit io result).polling = io.polling := by
  cases result with
  | bytes data =>
    simp only [readFromChild]
    split
    · rename_i line rest found
      rw [(fill_taken io found).others]
      exact ⟨rfl, rfl⟩
    · split
      · exact flush_output (io.fill data)
      · exact ⟨rfl, rfl⟩
  | endOfFile => exact flush_output io
  | retry => exact ⟨rfl, rfl⟩
  | error => exact flush_output io

theorem pollInput_output (limit : Nat) (io : Pipes κ) (input : Revents ReadResult) :
    (pollInput limit io input).output = io.output ∧
      (pollInput limit io input).polling = io.polling := by
  cases input with
  | quiet => exact ⟨rfl, rfl⟩
  | other => exact ⟨rfl, rfl⟩
  | ready result =>
    simp only [pollInput]
    split
    · exact readFromChild_output limit io result
    · exact ⟨rfl, rfl⟩

/-- The callback gives what is pending piece by piece, and gives nothing only at its end. -/
structure Feeds (limit : Nat) (outCb : Nat → κ → List UInt8 × κ) (pending : κ → List UInt8) :
    Prop where
  keeps : ∀ ctx, (outCb limit ctx).1 ++ pending (outCb limit ctx).2 = pending ctx
  ends : ∀ ctx, (outCb limit ctx).1 = [] → pending ctx = []

/-- What has been sent, what waits in the buffer and what the callback still has are together
everything, and the pipe is closed only when all of it has been sent. -/
structure Feeding (pending : κ → List UInt8) (everything : List UInt8) (io : Pipes κ) : Prop where
  account : io.sent ++ (io.obuf ++ pending io.ctx) = everything
  closed : io.writing = false → io.obuf = [] ∧ pending io.ctx = []

/-- A turn in which nothing goes wrong with the child's standard input: a `send` of any part of
the buffer or of nothing. -/
def SendsOn : Poll → Prop
  | .events _ (.ready .error) => False
  | .events _ .other => False
  | _ => True

section Feeding

variable {ilimit olimit : Nat} {outCb : Nat → κ → List UInt8 × κ} {pending : κ → List UInt8}
  {everything : List UInt8} {io : Pipes κ}

theorem Feeding.of_output {io' : Pipes κ} (feeding : Feeding pending everything io)
    (same : io'.output = io.output) : Feeding pending everything io' := by
  simp only [Pipes.output, Prod.mk.injEq] at same
  obtain ⟨obuf, ctx, writing, sent⟩ := same
  refine ⟨?_, ?_⟩
  · rw [sent, obuf, ctx]
    exact feeding.account
  · rw [obuf, ctx, writing]
    exact feeding.closed

theorem Feeding.sendBuffer (feeding : Feeding pending everything io) (writing : io.writing = true)
    {result : SendResult} (fine : result ≠ .error) :
    Feeding pending everything (sendBuffer io result) := by
  have still : io.writing ≠ false := by
    rw [writing]
    exact Bool.noConfusion
  cases result with
  | wrote n =>
    refine ⟨?_, fun closed => absurd closed still⟩
    have account := feeding.account
    rw [← take_append_drop n io.obuf] at account
    simpa only [Dulge.sendBuffer, append_assoc] using account
  | retry => exact feeding
  | error => exact absurd rfl fine

theorem Feeding.writeToChild (feeds : Feeds olimit outCb pending)
    (feeding : Feeding pending everything io) (writing : io.writing = true)
    {result : SendResult} (fine : result ≠ .error) :
    Feeding pending everything (writeToChild olimit outCb io result) := by
  simp only [Dulge.writeToChild]
  split
  · rename_i empty
    have keeps := feeds.keeps io.ctx
    have account := feeding.account
    rw [empty, nil_append] at account
    split
    · rename_i ctx given
      have done := feeds.ends io.ctx (by rw [given])
      rw [given, nil_append, done] at keeps
      rw [done] at account
      refine ⟨?_, fun _ => ⟨empty, keeps⟩⟩
      show io.sent ++ (io.obuf ++ pending ctx) = everything
      rw [empty, keeps, nil_append]
      exact account
    · rename_i data ctx _ given
      rw [given] at keeps
      have filled : Feeding pending everything { io with obuf := data, ctx := ctx } := by
        refine ⟨?_, fun closed => absurd (writing.symm.trans closed) Bool.noConfusion⟩
        show io.sent ++ (data ++ pending ctx) = everything
        rw [keeps]
        exact account
      exact filled.sendBuffer writing fine
  · exact feeding.sendBuffer writing fine

variable {event : Poll} {polls : List Poll}

theorem Feeding.step (feeds : Feeds olimit outCb pending) (feeding : Feeding pending everything io)
    (on : SendsOn event) : Feeding pending everything (pollStep ilimit olimit outCb io event) := by
  unfold pollStep
  split
  · cases event with
    | interrupted => exact feeding
    | failed => exact feeding.of_output rfl
    | events input output =>
      have after := feeding.of_output (pollInput_output ilimit io input).1
      cases output with
      | quiet => exact after
      | other => exact on.elim
      | ready result =>
        simp only [pollOutput]
        split
        · rename_i writing
          refine after.writeToChild feeds writing ?_
          rintro rfl
          exact on
        · exact after
  · exact feeding

/-- In every run in which no `send` fails, the pipe is closed after everything has been sent
and nothing else. -/
theorem Feeding.run (feeds : Feeds olimit outCb pending) (feeding : Feeding pending everything io)
    (sends : ∀ event ∈ polls, SendsOn event) :
    Feeding pending everything (run (pollStep ilimit olimit outCb) io polls) := by
  induction polls generalizing io with
  | nil => exact feeding
  | cons event polls ih =>
    obtain ⟨on, later⟩ := forall_mem_cons.mp sends
    exact ih (feeding.step feeds on) later

theorem Feeding.sent_of_closed (feeding : Feeding pending everything io)
    (closed : io.writing = false) : io.sent = everything := by
  obtain ⟨empty, nothing⟩ := feeding.closed closed
  have account := feeding.account
  rwa [empty, nothing, append_nil, append_nil] at account

/-- A `send` that takes a byte at least. -/
def Poll.delivers : Poll → Bool
  | .events _ (.ready (.wrote n)) => 0 < n
  | _ => false

/-- What a turn does to the output pipe, if it leaves it open. -/
structure Proceeds (event : Poll) (io io' : Pipes κ) : Prop where
  open_before : io.writing = true
  sent : io.sent.length + (if event.delivers then 1 else 0) ≤ io'.sent.length

theorem sendBuffer_sent (io : Pipes κ) (some : io.obuf ≠ []) (input : Revents ReadResult)
    (result : SendResult) :
    io.sent.length + (if (Poll.events input (.ready result)).delivers then 1 else 0) ≤
      (sendBuffer io result).sent.length := by
  have bytes := length_pos_iff.mpr some
  cases result with
  | wrote n =>
    simp only [Poll.delivers, sendBuffer, length_append, length_take,
      decide_eq_true_eq]
    split <;> omega
  | retry => exact Nat.le_refl _
  | error => exact Nat.le_refl _

theorem writeToChild_sent (writing : io.writing = true) (input : Revents ReadResult)
    (result : SendResult) (opened : (writeToChild olimit outCb io result).writing = true) :
    Proceeds (.events input (.ready result)) io (writeToChild olimit outCb io result) := by
  refine ⟨writing, ?_⟩
  revert opened
  simp only [writeToChild]
  split
  · split
    · intro opened
      cases opened
    · rename_i data ctx some given
      intro _
      exact sendBuffer_sent { io with obuf := data, ctx := ctx } some input result
  · rename_i some
    intro _
    exact sendBuffer_sent io some input result

theorem pollStep_polling (fine : event ≠ .failed) :
    (pollStep ilimit olimit outCb io event).polling = io.polling := by
  unfold pollStep
  split
  · cases event with
    | interrupted => rfl
    | failed => exact absurd rfl fine
    | events input output =>
      exact (pollOutput_input _ output).2.trans (pollInput_output ilimit io input).2
  · rfl

theorem pollStep_proceeds (polling : io.polling = true) (fine : event ≠ .failed)
    (opened : (pollStep ilimit olimit outCb io event).writing = true) :
    Proceeds event io (pollStep ilimit olimit outCb io event) := by
  revert opened
  unfold pollStep
  split
  · cases event with
    | interrupted => exact fun opened => ⟨opened, Nat.le_refl _⟩
    | failed => exact absurd rfl fine
    | events input output =>
      have same := (pollInput_output ilimit io input).1
      simp only [Pipes.output, Prod.mk.injEq] at same
      obtain ⟨-, -, writing, sent⟩ := same
      have proceeds {io' : Pipes κ} (later : Proceeds (.events input output)
          (pollInput ilimit io input) io') : Proceeds (.events input output) io io' :=
        ⟨writing ▸ later.open_before, sent ▸ later.sent⟩
      intro opened
      apply proceeds
      cases output with
      | quiet => exact ⟨opened, Nat.le_refl _⟩
      | other => cases opened
      | ready result =>
        revert opened
        simp only [pollOutput]
        split
        · rename_i before
          exact writeToChild_sent before input result
        · rename_i shut
          exact fun opened => absurd opened shut
  · rename_i stopped
    exact fun opened => absurd ⟨polling, .inr opened⟩ stopped

theorem run_delivers (polling : io.polling = true) (fine : .failed ∉ polls)
    (opened : (run (pollStep ilimit olimit outCb) io polls).writing = true) :
    io.writing = true ∧ io.sent.length + polls.countP Poll.delivers ≤
      (run (pollStep ilimit olimit outCb) io polls).sent.length := by
  induction polls generalizing io with
  | nil => exact ⟨opened, Nat.le_refl _⟩
  | cons event polls ih =>
    obtain ⟨here, rest⟩ := not_or.mp (mt mem_cons.mpr fine)
    obtain ⟨stillOpen, later⟩ := ih ((pollStep_polling (Ne.symm here)).trans polling) rest opened
    have now := pollStep_proceeds polling (Ne.symm here) stillOpen
    refine ⟨now.open_before, ?_⟩
    rw [countP_cons, Nat.add_comm (polls.countP _), ← Nat.add_assoc]
    exact (Nat.add_le_add_right now.sent _).trans later

theorem Feeding.closes (feeds : Feeds olimit outCb pending)
    (feeding : Feeding pending everything io) (polling : io.polling = true)
    (sends : ∀ event ∈ polls, SendsOn event) (fine : .failed ∉ polls)
    (enough : everything.length < polls.countP Poll.delivers) :
    (Machine.run (pollStep ilimit olimit outCb) io polls).writing = false := by
  by_contra opened
  have delivered := (run_delivers polling fine (Bool.not_eq_false _ ▸ opened)).2
  have ended : Feeding pending everything (Machine.run (pollStep ilimit olimit outCb) io polls) :=
    feeding.run feeds sends
  have whole := congrArg List.length ended.account
  rw [length_append] at whole
  omega

end Feeding

end Dulge
