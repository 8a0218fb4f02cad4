import Dulge.CopyFile
import Dulge.Disk
import Dulge.Lib.Words

/-! The pipe between the sandboxed downloader and its parent: the callbacks of the child
(`sandbox.c`) write log messages and download events as records, and the loop of
`curl_download_internal_sandboxed` (`dload.c`) reads them and calls the front end. All fields of a
record are read until they are whole, but for the first one: the type of a record is read with a
single `read`. -/

namespace Dulge

open Calls Iterate Words List

/-! ### Messages -/

/-- The data of a download event, with the bytes that fill up `alpm_download_event_completed_t`. -/
inductive CbData where
  | init (optional : BitVec 32)
  | progress (downloaded total : BitVec 64)
  | retry (resume : BitVec 32)
  | completed (total : BitVec 64) (result padding : BitVec 32)
  deriving DecidableEq

/-- `alpm_download_event_type_t` -/
def CbData.event : CbData → Nat
  | init _ => 0
  | progress _ _ => 1
  | retry _ => 2
  | completed _ _ _ => 3

def CbData.bytes : CbData → List UInt8
  | init optional => toBytes 4 optional.toNat
  | progress downloaded total => toBytes 8 downloaded.toNat ++ toBytes 8 total.toNat
  | retry resume => toBytes 4 resume.toNat
  | completed total result padding =>
    toBytes 8 total.toNat ++ (toBytes 4 result.toNat ++ toBytes 4 padding.toNat)

inductive SandboxMessage where
  | log (level : BitVec 32) (string : CStr)
  | download (data : CbData) (filename : CStr)
  deriving DecidableEq

/-- `ALPM_SANDBOX_CB_LOG` and `ALPM_SANDBOX_CB_DOWNLOAD` -/
def SandboxMessage.type : SandboxMessage → Nat
  | log _ _ => 0
  | download _ _ => 1

/-! ### The child -/

def shouldRetry (errnum : Errno) : Bool := errnum = eintr

/-- `write_to_pipe`: what it has written, and the answers of the coming writes. -/
def writeToPipe (answers : List (Answer Errno)) (field : List UInt8) :
    List UInt8 × List (Answer Errno) :=
  if 0 < field.length then
    let written := emit shouldRetry answers field
    (written.1, written.2.1)
  else ([], answers)

/-- The fields of a record. What `write_to_pipe` returns is not looked at. -/
def writeFields : List (Answer Errno) → List (List UInt8) → List UInt8 × List (Answer Errno)
  | answers, [] => ([], answers)
  | answers, field :: rest =>
    let written := writeToPipe answers field
    let later := writeFields written.2 rest
    (written.1 ++ later.1, later.2)

def SandboxMessage.fields : SandboxMessage → List (List UInt8)
  | log level string => [toBytes 4 level.toNat, toBytes 4 string.length, string]
  | download data filename =>
    [toBytes 4 data.event, data.bytes, toBytes 8 filename.length, filename]

def SandboxMessage.record (message : SandboxMessage) : List (List UInt8) :=
  toBytes 4 message.type :: message.fields

/-- `_alpm_sandbox_cb_log`, for a message that is formatted. One that is empty, or too long for an
`int` with room for its end, is not written. -/
def sandboxCbLog (memory : Nat → Bool) (answers : List (Answer Errno)) (level : BitVec 32)
    (string : CStr) : List UInt8 × List (Answer Errno) :=
  if 0 < string.length ∧ string.length + 1 < 2 ^ 31 ∧ memory (string.length + 1) then
    writeFields answers (SandboxMessage.log level string).record
  else ([], answers)

def sandboxCbDl (answers : List (Answer Errno)) (data : CbData) (filename : CStr) :
    List UInt8 × List (Answer Errno) :=
  writeFields answers (SandboxMessage.download data filename).record

def sandboxCb (memory : Nat → Bool) (answers : List (Answer Errno)) :
    SandboxMessage → List UInt8 × List (Answer Errno)
  | .log level string => sandboxCbLog memory answers level string
  | .download data filename => sandboxCbDl answers data filename

def sandboxStream (memory : Nat → Bool) : List (Answer Errno) → List SandboxMessage → List UInt8
  | _, [] => []
  | answers, message :: rest =>
    let written := sandboxCb memory answers message
    written.1 ++ sandboxStream memory written.2 rest

/-! ### The parent -/

structure SandboxFront where
  memory : Nat → Bool
  logcb : Bool
  dlcb : Bool

def SandboxFront.hears (front : SandboxFront) : SandboxMessage → Bool
  | .log _ _ => front.logcb
  | .download _ _ => front.dlcb

def readFromPipe (count : Nat) : Reader UInt8 Errno (List UInt8) := fun source =>
  if 0 < count then collect shouldRetry source.answers source.rest count else none

def cString (buffer : List UInt8) : CStr := buffer.takeWhile (· ≠ 0)

section Parent

variable (front : SandboxFront)

def sandboxProcessCbLog : Reader UInt8 Errno SandboxMessage :=
  (readFromPipe 4).andThen fun level =>
    (readFromPipe 4).andThen fun size =>
      -- an `int` from here on is negative
      if 0 < ofBytes size ∧ ofBytes size < 2 ^ 31 ∧ front.memory (ofBytes size + 1) then
        (readFromPipe (ofBytes size)).andThen fun string =>
          .yield (.log (BitVec.ofNat 32 (ofBytes level)) (cString string))
      else fun _ => none

def readCbData (event : Nat) : Reader UInt8 Errno CbData :=
  match event with
  | 0 => (readFromPipe 4).andThen fun data => .yield (.init (BitVec.ofNat 32 (ofBytes data)))
  | 1 =>
    (readFromPipe 16).andThen fun data =>
      .yield (.progress (BitVec.ofNat 64 (ofBytes (data.take 8)))
        (BitVec.ofNat 64 (ofBytes (data.drop 8))))
  | 2 => (readFromPipe 4).andThen fun data => .yield (.retry (BitVec.ofNat 32 (ofBytes data)))
  | 3 =>
    (readFromPipe 16).andThen fun data =>
      .yield (.completed (BitVec.ofNat 64 (ofBytes (data.take 8)))
        (BitVec.ofNat 32 (ofBytes ((data.drop 8).take 4)))
        (BitVec.ofNat 32 (ofBytes ((data.drop 8).drop 4))))
  | _ => fun _ => none

def sandboxProcessCbDownload : Reader UInt8 Errno SandboxMessage :=
  (readFromPipe 4).andThen fun event =>
    (readCbData (ofBytes event)).andThen fun data =>
      (readFromPipe 8).andThen fun size =>
        if ofBytes size < pathMax ∧ front.memory (ofBytes size + 1) then
          (readFromPipe (ofBytes size)).andThen fun filename =>
            .yield (.download data (cString filename))
        else fun _ => none

structure ParentState where
  source : Source UInt8 Errno
  /-- the calls of the front end -/
  called : List SandboxMessage

inductive StreamEnd where
  | endOfFile
  | broken
  deriving DecidableEq

/-- A turn of the loop of `curl_download_internal_sandboxed`. The first `read` is not repeated. -/
def parentTurn (s : ParentState) : ParentState ⊕ (List SandboxMessage × StreamEnd) :=
  let process := fun reader : Reader UInt8 Errno SandboxMessage => fun source =>
    match reader source with
    | some (message, source) => .inl ⟨source, s.called ++ [message].filter front.hears⟩
    | none => .inr (s.called, .broken)
  match s.source.read 4 0 with
  | (none, _, _) => .inr (s.called, .broken)
  | (some callbackType, _, source) =>
    if callbackType = [] then .inr (s.called, .endOfFile)
    else if callbackType.length ≠ 4 then .inr (s.called, .broken)
    else if ofBytes callbackType = 1 then process (sandboxProcessCbDownload front) source
    else if ofBytes callbackType = 0 then process (sandboxProcessCbLog front) source
    else .inl { s with source }

end Parent

/-! ### What is written is what is read -/

/-- A message that the protocol is made for: a C string that is not empty and, for a log
message, not longer than an `int` allows, for a file name, shorter than `PATH_MAX`. -/
def SandboxMessage.Sendable : SandboxMessage → Prop
  | log _ string => string ≠ [] ∧ string.length + 1 < 2 ^ 31 ∧ 0 ∉ string
  | download _ filename => filename ≠ [] ∧ filename.length < pathMax ∧ 0 ∉ filename

def SandboxMessage.bytes (message : SandboxMessage) : List UInt8 := message.record.flatten

theorem CbData.length_bytes_pos (data : CbData) : 0 < data.bytes.length := by
  cases data <;> simp [CbData.bytes]

theorem SandboxMessage.Sendable.record_ne_nil {message : SandboxMessage}
    (sendable : message.Sendable) : ∀ field ∈ message.record, 0 < field.length := by
  cases message with
  | log level string =>
    have text := length_pos_iff.mpr sendable.1
    simp [SandboxMessage.record, SandboxMessage.fields, text]
  | download data filename =>
    have name := length_pos_iff.mpr sendable.1
    simp [SandboxMessage.record, SandboxMessage.fields, name, data.length_bytes_pos]

variable {answers : List (Answer Errno)}

theorem writeFields_retried (retried : Retried shouldRetry answers) {fields : List (List UInt8)}
    (some : ∀ field ∈ fields, 0 < field.length) :
    (writeFields answers fields).1 = fields.flatten ∧ (writeFields answers fields).2 <:+ answers := by
  induction fields generalizing answers with
  | nil => exact ⟨rfl, suffix_rfl⟩
  | cons field rest ih =>
    obtain ⟨all, left⟩ := emit_retried retried field
    have here : writeToPipe answers field = (field, (emit shouldRetry answers field).2.1) := by
      simp only [writeToPipe, if_pos (some field mem_cons_self), all]
    obtain ⟨later, further⟩ := ih (retried.of_suffix left)
      fun other mem => some other (mem_cons_of_mem _ mem)
    rw [writeFields, here]
    exact ⟨congrArg (field ++ ·) later, further.trans left⟩

theorem sandboxStream_eq {memory : Nat → Bool} (allocates : ∀ n, memory n = true)
    (retried : Retried shouldRetry answers) {messages : List SandboxMessage}
    (sendable : ∀ message ∈ messages, message.Sendable) :
    sandboxStream memory answers messages = messages.flatMap SandboxMessage.bytes := by
  induction messages generalizing answers with
  | nil => rfl
  | cons message rest ih =>
    have this := sendable message mem_cons_self
    obtain ⟨all, left⟩ := writeFields_retried retried this.record_ne_nil
    have written : sandboxCb memory answers message = writeFields answers message.record := by
      cases message with
      | log level string =>
        exact if_pos ⟨length_pos_iff.mpr this.1, this.2.1, allocates _⟩
      | download data filename => rfl
    rw [sandboxStream, written, flatMap_cons]
    change (writeFields answers message.record).1 ++ _ = _
    rw [all, ih (retried.of_suffix left) fun other mem =>
      sendable other (mem_cons_of_mem _ mem)]
    rfl

/-! ### The fields of a record are read whole -/

open Reader

theorem takes_readFromPipe {bytes : List UInt8} (some : bytes ≠ []) {count : Nat}
    (length : bytes.length = count) : Takes shouldRetry (readFromPipe count) bytes bytes := by
  intro rest answers retried
  subst length
  rw [readFromPipe, if_pos (length_pos_iff.mpr some)]
  exact collect_append retried some rest

theorem takes_word (width n : Nat) (pos : 0 < width) :
    Takes shouldRetry (readFromPipe width) (toBytes width n) (toBytes width n) := by
  refine takes_readFromPipe ?_ (length_toBytes width n)
  rw [← length_pos_iff, length_toBytes]
  exact pos

theorem cString_eq {string : CStr} (clean : 0 ∉ string) : cString string = string := by
  rw [cString, takeWhile_eq_self_iff]
  intro c mem
  exact decide_eq_true fun zero => clean (zero ▸ mem)

theorem ofBytes_bitVec {width w : Nat} (value : BitVec w) (fits : 2 ^ w ≤ 256 ^ width) :
    BitVec.ofNat w (ofBytes (toBytes width value.toNat)) = value := by
  rw [ofBytes_toBytes (Nat.lt_of_lt_of_le value.isLt fits), BitVec.ofNat_toNat, BitVec.setWidth_eq]

theorem takes_readCbData (data : CbData) :
    Takes shouldRetry (readCbData data.event) data.bytes data := by
  have sixteen {left right : List UInt8} (first : left.length = 8) (second : right.length = 8) :
      Takes shouldRetry (readFromPipe 16) (left ++ right) (left ++ right) := by
    have length : (left ++ right).length = 16 := by rw [length_append, first, second]
    exact takes_readFromPipe (ne_nil_of_length_pos (length ▸ by decide)) length
  cases data with
  | init optional =>
    have taken := (takes_word 4 optional.toNat (by decide)).andThen_yield fun data =>
      CbData.init (BitVec.ofNat 32 (ofBytes data))
    rwa [ofBytes_bitVec optional (by decide)] at taken
  | progress downloaded total =>
    have taken := (sixteen (length_toBytes 8 downloaded.toNat)
      (length_toBytes 8 total.toNat)).andThen_yield fun data =>
        CbData.progress (BitVec.ofNat 64 (ofBytes (data.take 8)))
          (BitVec.ofNat 64 (ofBytes (data.drop 8)))
    rwa [take_left' (length_toBytes 8 _), drop_left' (length_toBytes 8 _),
      ofBytes_bitVec downloaded (by decide), ofBytes_bitVec total (by decide)] at taken
  | retry resume =>
    have taken := (takes_word 4 resume.toNat (by decide)).andThen_yield fun data =>
      CbData.retry (BitVec.ofNat 32 (ofBytes data))
    rwa [ofBytes_bitVec resume (by decide)] at taken
  | completed total result padding =>
    have half : (toBytes 4 result.toNat ++ toBytes 4 padding.toNat).length = 8 := by simp
    have taken := (sixteen (length_toBytes 8 total.toNat) half).andThen_yield fun data =>
      CbData.completed (BitVec.ofNat 64 (ofBytes (data.take 8)))
        (BitVec.ofNat 32 (ofBytes ((data.drop 8).take 4)))
        (BitVec.ofNat 32 (ofBytes ((data.drop 8).drop 4)))
    rwa [take_left' (length_toBytes 8 _), drop_left' (length_toBytes 8 _),
      take_left' (length_toBytes 4 _), drop_left' (length_toBytes 4 _),
      ofBytes_bitVec total (by decide), ofBytes_bitVec result (by decide),
      ofBytes_bitVec padding (by decide)] at taken

theorem CbData.event_lt (data : CbData) : data.event < 4 := by
  cases data <;> simp [CbData.event]

variable {front : SandboxFront}

theorem takes_sandboxProcessCbLog (allocates : ∀ n, front.memory n = true) {level : BitVec 32}
    {string : CStr} (sendable : (SandboxMessage.log level string).Sendable) :
    Takes shouldRetry (sandboxProcessCbLog front) (SandboxMessage.log level string).fields.flatten
      (.log level string) := by
  obtain ⟨some, fits, clean⟩ := sendable
  have size : ofBytes (toBytes 4 string.length) = string.length :=
    ofBytes_toBytes (Nat.lt_of_lt_of_le (Nat.lt_of_succ_lt fits) (by decide))
  have text := (takes_readFromPipe some rfl).andThen_yield fun got =>
    SandboxMessage.log (BitVec.ofNat 32 (ofBytes (toBytes 4 level.toNat))) (cString got)
  rw [cString_eq clean, ofBytes_bitVec level (by decide)] at text
  refine (takes_word 4 level.toNat (by decide)).andThen
    ((takes_word 4 string.length (by decide)).andThen ?_)
  rw [size, if_pos ⟨length_pos_iff.mpr some, Nat.lt_of_succ_lt fits, allocates _⟩,
    flatten_cons, flatten_nil, append_nil, ofBytes_bitVec level (by decide)]
  exact text

theorem takes_sandboxProcessCbDownload (allocates : ∀ n, front.memory n = true) {data : CbData}
    {filename : CStr} (sendable : (SandboxMessage.download data filename).Sendable) :
    Takes shouldRetry (sandboxProcessCbDownload front)
      (SandboxMessage.download data filename).fields.flatten (.download data filename) := by
  obtain ⟨some, fits, clean⟩ := sendable
  have event : ofBytes (toBytes 4 data.event) = data.event :=
    ofBytes_toBytes (Nat.lt_trans data.event_lt (by decide))
  have size : ofBytes (toBytes 8 filename.length) = filename.length :=
    ofBytes_toBytes (Nat.lt_trans fits (by decide))
  have name := (takes_readFromPipe some rfl).andThen_yield fun got =>
    SandboxMessage.download data (cString got)
  rw [cString_eq clean] at name
  refine (takes_word 4 data.event (by decide)).andThen ?_
  rw [event]
  refine (takes_readCbData data).andThen ((takes_word 8 filename.length (by decide)).andThen ?_)
  rw [size, if_pos ⟨fits, allocates _⟩, flatten_cons, flatten_nil, append_nil]
  exact name

/-! ### The parent's loop -/

/-- The next `read`, of the type of a record, is answered in one piece. -/
def FramingWhole (source : Source UInt8 Errno) : Prop :=
  match source.answers with
  | [] => True
  | .done limit _ :: _ => source.rest = [] ∨ 4 ≤ limit
  | .failed _ :: _ => False

theorem read_framing {front rest : List UInt8} (length : front.length = 4)
    (whole : FramingWhole ⟨front ++ rest, answers⟩) (errno : Errno) :
    ∃ after, (Source.mk (front ++ rest) answers).read 4 errno =
      (some front, after, ⟨rest, answers.tail⟩) := by
  have take : (front ++ rest).take 4 = front := take_left' length
  have drop : (front ++ rest).drop 4 = rest := drop_left' length
  cases answers with
  | nil => exact ⟨errno, by rw [Source.read, take, drop]; rfl⟩
  | cons answer later =>
    cases answer with
    | done limit leaves =>
      have some : front ++ rest ≠ [] := by
        rw [← length_pos_iff, length_append, length]
        omega
      have enough : 4 ≤ limit := whole.resolve_left some
      have all : amount (min 4 (front ++ rest).length) limit = 4 := by
        rw [amount, length_append, length]
        omega
      exact ⟨leaves.getD errno, by simp only [Source.read, all, take, drop]; rfl⟩
    | failed error => exact absurd whole id

/-- A record at the front of the stream is replayed if its type comes in one piece. -/
theorem parentTurn_record (allocates : ∀ n, front.memory n = true) {message : SandboxMessage}
    (sendable : message.Sendable) {rest : List UInt8} (retried : Retried shouldRetry answers)
    (whole : FramingWhole ⟨message.bytes ++ rest, answers⟩) (called : List SandboxMessage) :
    ∃ left, Retried shouldRetry left ∧ parentTurn front ⟨⟨message.bytes ++ rest, answers⟩, called⟩ =
        .inl ⟨⟨rest, left⟩, called ++ [message].filter front.hears⟩ := by
  have split : message.bytes ++ rest = toBytes 4 message.type ++
      (message.fields.flatten ++ rest) := by
    rw [SandboxMessage.bytes, SandboxMessage.record, flatten_cons, append_assoc]
  rw [split] at whole ⊢
  obtain ⟨after, read⟩ := read_framing (length_toBytes 4 message.type) whole 0
  have behind : Retried shouldRetry answers.tail := retried.of_suffix (tail_suffix _)
  have length := length_toBytes 4 message.type
  have some : toBytes 4 message.type ≠ [] := by
    rw [← length_pos_iff, length]
    decide
  simp only [parentTurn, read, if_neg some, length, ne_eq, not_true, if_false]
  cases message with
  | log level string =>
    have type : ofBytes (toBytes 4 (SandboxMessage.log level string).type) = 0 :=
      ofBytes_toBytes (show 0 < 256 ^ 4 by decide)
    obtain ⟨left, suffix, eq⟩ := takes_sandboxProcessCbLog allocates sendable rest _ behind
    refine ⟨left, behind.of_suffix suffix, ?_⟩
    simp only [type, eq]
    rfl
  | download data filename =>
    have type : ofBytes (toBytes 4 (SandboxMessage.download data filename).type) = 1 :=
      ofBytes_toBytes (show 1 < 256 ^ 4 by decide)
    obtain ⟨left, suffix, eq⟩ := takes_sandboxProcessCbDownload allocates sendable rest _ behind
    refine ⟨left, behind.of_suffix suffix, ?_⟩
    simp only [type, eq]
    rfl

variable (front) in
theorem parentTurn_end (whole : FramingWhole ⟨[], answers⟩) (called : List SandboxMessage) :
    parentTurn front ⟨⟨[], answers⟩, called⟩ = .inr (called, .endOfFile) := by
  cases answers with
  | nil => rfl
  | cons answer later =>
    cases answer with
    | done limit leaves => simp [parentTurn, Source.read]
    | failed error => exact absurd whole id

variable (front) in
theorem parentTurn_broken {source : Source UInt8 Errno} (split : ¬ FramingWhole source)
    (called : List SandboxMessage) : parentTurn front ⟨source, called⟩ = .inr (called, .broken) := by
  obtain ⟨rest, answers⟩ := source
  cases answers with
  | nil => exact absurd trivial split
  | cons answer later =>
    cases answer with
    | done limit leaves =>
      obtain ⟨more, short⟩ : rest ≠ [] ∧ ¬ 4 ≤ limit := not_or.mp split
      have available := length_pos_iff.mpr more
      have read : (Source.mk rest (.done limit leaves :: later)).read 4 (0 : Errno) =
        (some (rest.take (amount (min 4 rest.length) limit)), _, _) := rfl
      have length : (rest.take (amount (min 4 rest.length) limit)).length =
          amount (min 4 rest.length) limit := by
        rw [length_take, amount]
        omega
      have some : rest.take (amount (min 4 rest.length) limit) ≠ [] := by
        rw [← length_pos_iff, length]
        exact amount_pos (by omega) limit
      have partly : amount (min 4 rest.length) limit ≠ 4 := by
        rw [amount]
        omega
      simp only [parentTurn, read, if_neg some, length, ne_eq, partly, not_false_eq_true, if_true]
    | failed error => rfl

theorem parent_replays_iff (allocates : ∀ n, front.memory n = true) {messages : List SandboxMessage}
    (sendable : ∀ message ∈ messages, message.Sendable) (retried : Retried shouldRetry answers)
    (called : List SandboxMessage) : (∃ turns, within (parentTurn front) turns
      ⟨⟨messages.flatMap SandboxMessage.bytes, answers⟩, called⟩ =
        some (called ++ messages.filter front.hears, .endOfFile)) ↔
    ∀ t, Reaches (parentTurn front) ⟨⟨messages.flatMap SandboxMessage.bytes, answers⟩, called⟩ t →
      FramingWhole t.source := by
  induction messages generalizing answers called with
  | nil =>
    by_cases whole : FramingWhole ⟨[], answers⟩
    · have stops := parentTurn_end front whole called
      rw [flatMap_nil, exists_within_inr stops, forall_reaches_inr stops]
      exact iff_of_true (by simp) whole
    · have stops := parentTurn_broken front whole called
      rw [flatMap_nil, exists_within_inr stops, forall_reaches_inr stops]
      exact iff_of_false (fun same => nomatch congrArg Prod.snd same) whole
  | cons message rest ih =>
    rw [flatMap_cons]
    by_cases whole : FramingWhole ⟨message.bytes ++ rest.flatMap SandboxMessage.bytes, answers⟩
    · obtain ⟨left, still, goes⟩ := parentTurn_record allocates
        (sendable message mem_cons_self) retried whole called
      rw [exists_within_inl goes, forall_reaches_inl goes, and_iff_right whole,
        ← ih (fun other mem => sendable other (mem_cons_of_mem _ mem)) still,
        append_assoc, ← filter_append]
      rfl
    · have stops := parentTurn_broken front whole called
      rw [exists_within_inr stops, forall_reaches_inr stops]
      exact iff_of_false (fun same => nomatch congrArg Prod.snd same) whole

/-- The parent replays what the child has sent, up to the end of the stream, exactly when every
`read` of the type of a record, and the one that finds the end, is answered in one piece. -/
theorem sandbox_replays_iff (memory : Nat → Bool) (front : SandboxFront)
    (messages : List SandboxMessage) (writes reads : List (Answer Errno))
    (sendable : ∀ message ∈ messages, message.Sendable)
    (childAllocates : ∀ n, memory n = true) (parentAllocates : ∀ n, front.memory n = true)
    (writesRetried : Retried shouldRetry writes) (readsRetried : Retried shouldRetry reads) :
    (∃ turns, within (parentTurn front) turns ⟨⟨sandboxStream memory writes messages, reads⟩, []⟩ =
      some (messages.filter front.hears, .endOfFile)) ↔
    ∀ t, Reaches (parentTurn front) ⟨⟨sandboxStream memory writes messages, reads⟩, []⟩ t →
      FramingWhole t.source := by
  rw [sandboxStream_eq childAllocates writesRetried sendable]
  exact parent_replays_iff parentAllocates sendable readsRetried []

def attentive : SandboxFront := ⟨fun _ => true, true, true⟩

def greeting : List SandboxMessage := [.log 1 (cstr "hi"), .download (.retry 1) (cstr "core.db")]

theorem greeting_sendable : ∀ message ∈ greeting, message.Sendable := by
  simp [greeting, SandboxMessage.Sendable, cstr, pathMax]

/-- The first write is interrupted and split; so is the level of the log message when it is read. -/
theorem sandbox_greeting_replayed : (∃ turns, within (parentTurn attentive) turns
      ⟨⟨sandboxStream (fun _ => true) [.failed eintr, .done 1 none] greeting,
        [.done 4 none, .failed eintr, .done 1 none]⟩, []⟩ = some (greeting, .endOfFile)) ∧
    ∀ t, Reaches (parentTurn attentive)
      ⟨⟨sandboxStream (fun _ => true) [.failed eintr, .done 1 none] greeting,
        [.done 4 none, .failed eintr, .done 1 none]⟩, []⟩ t → FramingWhole t.source :=
  have replayed : ∃ turns, within (parentTurn attentive) turns
      ⟨⟨sandboxStream (fun _ => true) [.failed eintr, .done 1 none] greeting,
        [.done 4 none, .failed eintr, .done 1 none]⟩, []⟩ = some (greeting, .endOfFile) :=
    ⟨3, by decide +kernel⟩
  ⟨replayed, (sandbox_replays_iff _ attentive greeting [.failed eintr, .done 1 none]
    [.done 4 none, .failed eintr, .done 1 none] greeting_sendable (fun _ => rfl) (fun _ => rfl)
    (by simp [Retried, shouldRetry]) (by simp [Retried, shouldRetry])).mp replayed⟩

/-- The type of the first record comes in two pieces, or its `read` is interrupted: nothing is
replayed. -/
theorem sandbox_split_type_lost :
    within (parentTurn attentive) 1 ⟨⟨sandboxStream (fun _ => true) [] greeting, [.done 2 none]⟩,
      []⟩ =
      some ([], .broken) ∧ within (parentTurn attentive) 1
      ⟨⟨sandboxStream (fun _ => true) [] greeting, [.failed eintr]⟩, []⟩ = some ([], .broken) := by
  decide +kernel

end Dulge
