import Dulge.EntryName
import Dulge.Lib.Blocks
import Dulge.LocalDb

/-! Lines of a file in an archive: `_alpm_archive_fgets`. The archive hands out the file in
blocks, and a line is put together in a buffer that is replaced when a line outgrows it. -/

namespace Dulge
open List

/-! ### The reader -/

def archiveOk : Int := 0

def archiveEof : Int := 1

def erange : Int := 34

/-- A piece of memory from `calloc`. Pieces have different addresses, also after one of them
was freed. -/
structure Allocation where
  addr : Nat
  cells : List UInt8
deriving DecidableEq, Repr

def Allocation.store (line : Allocation) (offset : Nat) (data : List UInt8) : Option Allocation :=
  if offset + data.length ≤ line.cells.length then
    some { line with cells := line.cells.take offset ++ data ++
      line.cells.drop (offset + data.length) }
  else none

def Allocation.text (line : Allocation) : CStr := line.cells.takeWhile (· ≠ 0)

/-- `struct archive_read_buffer`. The pointer into the line is an offset, and `rest` are the
bytes of the block from `block_offset` on. -/
structure ReadBuffer where
  line : Option Allocation
  lineOffset : Nat
  lineSize : Nat
  maxLineSize : Nat
  realLineSize : Nat
  blockSize : Nat
  rest : List UInt8
  ret : Int
deriving DecidableEq, Repr

def ReadBuffer.zeroed : ReadBuffer := ⟨none, 0, 0, 0, 0, 0, [], 0⟩

structure ReadState where
  buffer : ReadBuffer
  allocations : Nat
deriving DecidableEq, Repr

/-- What a call ends with: `fault` where it writes or reads outside of the line. -/
inductive Fgets where
  | fault
  | ret (code : Int)
deriving DecidableEq, Repr

/-- What one call of `archive_read_data_block` gives. -/
abbrev Delivery := Int × List UInt8

/-- An archive and the buffer that it is read through. Behind the last block the archive
gives `ARCHIVE_EOF` and an empty block. -/
structure ArchiveReader where
  archive : List Delivery
  state : ReadState
deriving DecidableEq, Repr

/-- A line buffer for `new` more bytes and the terminator. -/
def ensureLine (new : Nat) (st : ReadState) : Except Fgets (Allocation × ReadState) :=
  let b := st.buffer
  match b.line with
  | none =>
    let line : Allocation := ⟨st.allocations, List.replicate (b.blockSize + 1) 0⟩
    .ok (line, ⟨{ b with lineSize := b.blockSize + 1, lineOffset := 0 }, st.allocations + 1⟩)
  | some line =>
    let needed := b.lineOffset + new + 1
    if needed > b.maxLineSize then .error (.ret (-erange))
    else if needed > b.lineSize then
      -- `line_size` bytes of the old buffer are copied
      if line.cells.length < b.lineSize then .error .fault
      else
        let line : Allocation :=
          ⟨st.allocations, line.cells.take b.lineSize ++ List.replicate (needed - b.lineSize) 0⟩
        .ok (line, ⟨{ b with lineSize := needed }, st.allocations + 1⟩)
    else .ok (line, st)

def cutLine (text : CStr) : Option (CStr × CStr) := (memchr newline text).or (memchr 0 text)

variable {parts : CStr × CStr} {new size : Nat} {st st' : ReadState} {line : Allocation}
  {r : ArchiveReader} {part : CStr} {blocks : List CStr}

theorem cutLine_some {text : CStr} (found : cutLine text = some parts) :
    ∃ c, text = parts.1 ++ c :: parts.2 := by
  rcases Option.or_eq_some_iff.mp found with found | ⟨_, found⟩
  · exact ⟨newline, (memchr_some found).1⟩
  · exact ⟨0, (memchr_some found).1⟩

def lineEnd : Cutter UInt8 where
  cut := cutLine
  shorter := by
    intro text parts found
    obtain ⟨c, shape⟩ := cutLine_some found
    rw [shape, length_append, length_cons]
    omega

/-- `memcpy` to `line_offset` -/
def ReadState.store (st : ReadState) (line : Allocation) (data : List UInt8) :
    Except Fgets ReadState :=
  match line.store st.buffer.lineOffset data with
  | none => .error .fault
  | some line => .ok { st with buffer := { st.buffer with line := some line } }

def ReadState.lineEnded (st : ReadState) (len : Nat) (behind : List UInt8) : ReadState :=
  { st with buffer := { st.buffer with
      rest := behind
      realLineSize := st.buffer.lineOffset + len } }

def ReadState.textEnded (st : ReadState) : ReadState :=
  { st with buffer := { st.buffer with realLineSize := st.buffer.lineOffset } }

def ReadState.blockCopied (st : ReadState) (len : Nat) : ReadState :=
  { st with buffer := { st.buffer with
      lineOffset := st.buffer.lineOffset + len
      rest := [] } }

/-- The turn of the loop from the search for the end of the line on. It says whether a line is
there; a block that holds nothing ends the line. -/
def copyBlock (st : ReadState) : Except Fgets (Bool × ReadState) :=
  let rest := st.buffer.rest
  let eol := cutLine rest
  let new := match eol with
    | some parts => parts.1.length
    | none => rest.length
  match ensureLine new st with
  | .error failed => .error failed
  | .ok (line, st) =>
    match eol with
    | some parts =>
      (st.store line (parts.1 ++ [0])).map fun st => (true, st.lineEnded parts.1.length parts.2)
    | none =>
      if rest.length = 0 then (st.store line [0]).map fun st => (true, st.textEnded)
      else (st.store line rest).map fun st => (false, st.blockCopied rest.length)

/-- The label `cleanup` -/
def fgetsCleanup (archive : List Delivery) (st : ReadState) (result : Fgets) :
    Fgets × ArchiveReader :=
  (result, ⟨archive, { st with buffer := .zeroed }⟩)

def ReadState.deliver (st : ReadState) (delivery : Delivery) : ReadState :=
  { st with buffer := { st.buffer with
      ret := delivery.1
      blockSize := delivery.2.length
      rest := delivery.2 } }

/-- The loop, entered where the block has been processed. -/
def nextBlock : List Delivery → ReadState → Fgets × ArchiveReader
  | archive, st =>
    if st.buffer.ret = archiveEof then fgetsCleanup archive st (.ret archiveEof)
    else
      match archive with
      | [] =>
        let st := st.deliver (archiveEof, [])
        match copyBlock st with
        | .error failed => fgetsCleanup [] st failed
        | .ok (true, st) => (.ret archiveOk, ⟨[], st⟩)
        | .ok (false, st) => fgetsCleanup [] st (.ret archiveEof)
      | delivery :: archive =>
        let st := st.deliver delivery
        if delivery.1 < archiveOk then fgetsCleanup archive st (.ret delivery.1)
        else
          match copyBlock st with
          | .error failed => fgetsCleanup archive st failed
          | .ok (true, st) => (.ret archiveOk, ⟨archive, st⟩)
          | .ok (false, st) => nextBlock archive st

/-- The loop. Only its first turn can find a block that is not processed. -/
def fgetsLoop (archive : List Delivery) (st : ReadState) : Fgets × ArchiveReader :=
  if st.buffer.rest = [] then nextBlock archive st
  else
    match copyBlock st with
    | .error failed => fgetsCleanup archive st failed
    | .ok (true, st) => (.ret archiveOk, ⟨archive, st⟩)
    | .ok (false, st) => nextBlock archive st

def archiveFgets (r : ArchiveReader) : Fgets × ArchiveReader :=
  fgetsLoop r.archive { r.state with buffer := { r.state.buffer with lineOffset := 0 } }

def ArchiveReader.start (blocks : List (List UInt8)) (maxLineSize : Nat) : ArchiveReader :=
  ⟨blocks.map fun block => (archiveOk, block),
    { ReadBuffer.zeroed with maxLineSize := maxLineSize }, 0⟩

/-! ### Progress -/

def ArchiveReader.left (r : ArchiveReader) : Nat :=
  r.state.buffer.rest.length + (r.archive.map fun delivery => delivery.2.length + 1).sum +
    if r.state.buffer.ret = archiveEof then 0 else 1

theorem ArchiveReader.left_le (archive : List Delivery) (st : ReadState) :
    (⟨archive, st⟩ : ArchiveReader).left ≤
      st.buffer.rest.length + (archive.map fun delivery => delivery.2.length + 1).sum + 1 := by
  unfold ArchiveReader.left
  split
  · exact Nat.le_succ _
  · exact Nat.le_refl _

theorem ensureLine_sameBlock (ensured : ensureLine new st = .ok (line, st')) :
    st'.buffer.rest = st.buffer.rest ∧ st'.buffer.ret = st.buffer.ret := by
  unfold ensureLine at ensured
  dsimp only at ensured
  split at ensured
  · cases ensured
    exact ⟨rfl, rfl⟩
  · split_ifs at ensured
    · cases ensured
      exact ⟨rfl, rfl⟩
    · cases ensured
      exact ⟨rfl, rfl⟩

theorem store_map {data : List UInt8} {f : ReadState → Bool × ReadState} {out : Bool × ReadState}
    (mapped : (st.store line data).map f = .ok out) : ∃ after, f after = out ∧
      after.buffer.rest = st.buffer.rest ∧ after.buffer.ret = st.buffer.ret := by
  unfold ReadState.store at mapped
  split at mapped
  · cases mapped
  · exact ⟨_, Except.ok.inj mapped, rfl, rfl⟩

/-- A turn keeps the state of the archive. It shortens the block, ends a line at an empty one, or
uses the block up. -/
theorem copyBlock_rest {ended : Bool} (copied : copyBlock st = .ok (ended, st')) :
    st'.buffer.ret = st.buffer.ret ∧
      (st'.buffer.rest.length < st.buffer.rest.length ∨ ended = true ∧ st.buffer.rest = [] ∧
        st'.buffer.rest = []) ∧
      (ended = false → st'.buffer.rest = []) := by
  unfold copyBlock at copied
  dsimp only at copied
  split at copied
  · cases copied
  rename_i line mid ensured
  obtain ⟨rest, ret⟩ := ensureLine_sameBlock ensured
  split at copied
  · rename_i parts cut
    obtain ⟨after, ⟨⟩, _, ret'⟩ := store_map copied
    exact ⟨ret'.trans ret, .inl (lineEnd.shorter cut), by simp⟩
  · split at copied
    · rename_i empty
      obtain ⟨after, ⟨⟩, rest', ret'⟩ := store_map copied
      have read := length_eq_zero_iff.mp empty
      exact ⟨ret'.trans ret, .inr ⟨rfl, read, (rest'.trans rest).trans read⟩, by simp⟩
    · rename_i filled
      obtain ⟨after, ⟨⟩, _, ret'⟩ := store_map copied
      exact ⟨ret'.trans ret, .inl (Nat.pos_of_ne_zero filled), fun _ => rfl⟩

theorem copyBlock_error {failed : Fgets} (error : copyBlock st = .error failed) :
    failed ≠ .ret archiveOk := by
  have store : ∀ {st : ReadState} {line : Allocation} {data : List UInt8}
      {f : ReadState → Bool × ReadState},
      (st.store line data).map f = .error failed → failed ≠ .ret archiveOk := by
    intro st line data f mapped
    unfold ReadState.store at mapped
    split at mapped
    · cases mapped
      decide
    · cases mapped
  unfold copyBlock at error
  dsimp only at error
  split at error
  · rename_i ensured
    cases error
    unfold ensureLine at ensured
    dsimp only at ensured
    split at ensured
    · cases ensured
    · split_ifs at ensured
      · cases ensured
        decide
      · cases ensured
        decide
  · split at error
    · exact store error
    · split at error
      · exact store error
      · exact store error

theorem nextBlock_left {archive : List Delivery} (read : st.buffer.rest = [])
    (found : nextBlock archive st = (.ret archiveOk, r)) :
    r.left < (⟨archive, st⟩ : ArchiveReader).left := by
  have total {delivery : Delivery} {archive : List Delivery} {st : ReadState}
      (going : ¬ st.buffer.ret = archiveEof) (read : st.buffer.rest = []) :
      (⟨delivery :: archive, st⟩ : ArchiveReader).left =
        delivery.2.length + 1 + (archive.map fun delivery => delivery.2.length + 1).sum + 1 := by
    simp [ArchiveReader.left, read, going]
  fun_induction nextBlock archive st with
  | case1 => cases found
  | case2 _ _ _ _ copied => exact absurd (Prod.mk.inj found).1 (copyBlock_error copied)
  | case3 st going _ after copied =>
    cases found
    obtain ⟨ret, shorter, _⟩ := copyBlock_rest copied
    have last : after.buffer.ret = archiveEof := ret
    rcases shorter with shorter | ⟨_, _, none⟩
    · exact absurd shorter (Nat.not_lt_zero _)
    · simp [ArchiveReader.left, none, last, read, going]
  | case4 => cases found
  | case5 _ _ _ _ _ negative => exact absurd (Fgets.ret.inj (Prod.mk.inj found).1) negative.ne
  | case6 _ _ _ _ _ _ _ copied => exact absurd (Prod.mk.inj found).1 (copyBlock_error copied)
  | case7 st going delivery archive _ _ after copied =>
    cases found
    obtain ⟨_, shorter, _⟩ := copyBlock_rest copied
    have block : (st.deliver delivery).buffer.rest = delivery.2 := rfl
    have most := ArchiveReader.left_le archive after
    rw [total going read]
    rcases shorter with shorter | ⟨_, _, none⟩
    · rw [block] at shorter
      omega
    · rw [none, length_nil] at most
      omega
  | case8 st going delivery archive _ _ after copied ih =>
    have none := (copyBlock_rest copied).2.2 rfl
    have later := ih none found
    have most := ArchiveReader.left_le archive after
    rw [none, length_nil] at most
    rw [total going read]
    omega

theorem archiveFgets_left {r' : ArchiveReader} (found : archiveFgets r = (.ret archiveOk, r')) :
    r'.left < r.left := by
  unfold archiveFgets fgetsLoop at found
  dsimp only at found
  split at found
  · rename_i read
    refine (nextBlock_left ?_ found).trans_le (le_refl _)
    exact read
  · rename_i unread
    split at found
    · rename_i failed copied
      exact absurd (Prod.mk.inj found).1 (copyBlock_error copied)
    · rename_i after copied
      cases found
      obtain ⟨ret, shorter, _⟩ := copyBlock_rest copied
      rcases shorter with shorter | ⟨_, read, _⟩
      · unfold ArchiveReader.left
        dsimp only at ret shorter ⊢
        rw [ret]
        omega
      · exact absurd read unread
    · rename_i after copied
      obtain ⟨ret, shorter, used⟩ := copyBlock_rest copied
      refine (nextBlock_left (used rfl) found).trans_le ?_
      unfold ArchiveReader.left
      dsimp only at ret ⊢
      rw [ret, used rfl, length_nil]
      omega

/-! ### Writing to the line -/

structure Filling (st : ReadState) (part : CStr) : Prop where
  inside : st.buffer.rest.length ≤ st.buffer.blockSize
  offset : st.buffer.lineOffset = part.length
  started : st.buffer.line = none → part = []
  held : ∀ line ∈ st.buffer.line, part <+: line.cells ∧
    line.cells.length = st.buffer.lineSize ∧ line.addr < st.allocations

/-- From a buffer with some room to one for `size` bytes: the line is moved exactly if the room
was too small. -/
structure Grown (room size : Nat) (st st' : ReadState) : Prop where
  lineSize : st'.buffer.lineSize = max room size
  limit : st'.buffer.maxLineSize = st.buffer.maxLineSize
  same : ∀ line ∈ st.buffer.line, size ≤ room → ∃ line' ∈ st'.buffer.line, line'.addr = line.addr
  moved : ∀ line ∈ st.buffer.line, room < size → ∃ line' ∈ st'.buffer.line, line.addr < line'.addr

theorem Grown.addr_le {room : Nat} (grown : Grown room size st st') (before : line ∈ st.buffer.line) :
    ∃ line' ∈ st'.buffer.line, line.addr ≤ line'.addr := by
  rcases Nat.lt_or_ge room size with small | large
  · obtain ⟨line', after, less⟩ := grown.moved line before small
    exact ⟨line', after, less.le⟩
  · obtain ⟨line', after, equal⟩ := grown.same line before large
    exact ⟨line', after, equal.ge⟩

theorem Grown.trans {room size' : Nat} {mid mid' : ReadState} (first : Grown room size st mid)
    (second : Grown (max room size) size' mid' st') (kept : mid'.buffer.line = mid.buffer.line)
    (limit : mid'.buffer.maxLineSize = mid.buffer.maxLineSize) (more : size ≤ size') :
    Grown room size' st st' where
  lineSize := by
    rw [second.lineSize]
    omega
  limit := by rw [second.limit, limit, first.limit]
  same := by
    intro line before large
    obtain ⟨line', between, equal⟩ := first.same line before (more.trans large)
    obtain ⟨line'', after, equal'⟩ := second.same line' (kept ▸ between) (by omega)
    exact ⟨line'', after, equal'.trans equal⟩
  moved := by
    intro line before small
    rcases Nat.lt_or_ge room size with already | fine
    · obtain ⟨line', between, less⟩ := first.moved line before already
      obtain ⟨line'', after, later⟩ := second.addr_le (kept ▸ between)
      exact ⟨line'', after, less.trans_le later⟩
    · obtain ⟨line', between, equal⟩ := first.same line before fine
      obtain ⟨line'', after, less⟩ := second.moved line' (kept ▸ between) (by omega)
      exact ⟨line'', after, equal ▸ less⟩

theorem Allocation.store_inside {data : CStr} (held : part <+: line.cells)
    (room : part.length + data.length ≤ line.cells.length) :
    ∃ line', line.store part.length data = some line' ∧ part ++ data <+: line'.cells ∧
      line'.cells.length = line.cells.length ∧ line'.addr = line.addr := by
  obtain ⟨behind, shape⟩ := held
  have front : line.cells.take part.length = part := by rw [← shape, take_left]
  refine ⟨_, if_pos room, ?_, ?_, rfl⟩
  · rw [front]
    exact prefix_append _ _
  · rw [front]
    simp only [length_append, length_drop]
    omega

def ReadBuffer.room (b : ReadBuffer) : Nat :=
  match b.line with
  | none => b.blockSize + 1
  | some _ => b.lineSize

structure SameBlock (st st' : ReadState) : Prop where
  blockSize : st'.buffer.blockSize = st.buffer.blockSize
  rest : st'.buffer.rest = st.buffer.rest
  ret : st'.buffer.ret = st.buffer.ret

theorem ensureLine_ok (filling : Filling st part) (inside : new ≤ st.buffer.blockSize)
    (fits : part.length + new + 1 ≤ st.buffer.maxLineSize) :
    ∃ line st', ensureLine new st = .ok (line, st') ∧ part <+: line.cells ∧
      line.cells.length = st'.buffer.lineSize ∧ line.addr < st'.allocations ∧
      st'.buffer.lineOffset = part.length ∧ SameBlock st st' ∧
      Grown st.buffer.room (part.length + new + 1) st
        { st' with buffer := { st'.buffer with line := some line } } := by
  unfold ensureLine
  dsimp only
  cases shape : st.buffer.line with
  | none =>
    have empty := filling.started shape
    subst empty
    refine ⟨_, _, rfl, List.nil_prefix, by simp, Nat.lt_succ_self _, rfl, ⟨rfl, rfl, rfl⟩, ?_⟩
    refine ⟨?_, rfl, by simp [shape], by simp [shape]⟩
    simp only [ReadBuffer.room, shape, length_nil]
    omega
  | some line =>
    obtain ⟨holds, length, known⟩ := filling.held line shape
    have room : st.buffer.room = st.buffer.lineSize := by simp [ReadBuffer.room, shape]
    dsimp only
    rw [filling.offset, if_neg (by omega), room]
    split
    · rename_i large
      have whole : ¬ line.cells.length < st.buffer.lineSize := by omega
      rw [if_neg whole, take_of_length_le length.le]
      refine ⟨_, _, rfl, holds.trans (prefix_append _ _), ?_, Nat.lt_succ_self _, rfl,
        ⟨rfl, rfl, rfl⟩, ?_⟩
      · simp only [length_append, length_replicate, length]
        omega
      · refine ⟨?_, rfl, ?_, ?_⟩
        · dsimp only
          omega
        · intro other _ small
          omega
        · intro other before _
          rw [shape] at before
          cases before
          exact ⟨_, rfl, known⟩
    · rename_i small
      refine ⟨line, st, rfl, holds, length, known, filling.offset, ⟨rfl, rfl, rfl⟩, ?_⟩
      refine ⟨?_, rfl, ?_, ?_⟩
      · dsimp only
        omega
      · intro other before _
        rw [shape] at before
        cases before
        exact ⟨_, rfl, rfl⟩
      · intro other _ large
        omega

structure Written (st st' : ReadState) (part data : CStr) (size : Nat) : Prop where
  line : ∃ line, st'.buffer.line = some line ∧ part ++ data <+: line.cells ∧
    line.cells.length = st'.buffer.lineSize ∧ line.addr < st'.allocations
  offset : st'.buffer.lineOffset = part.length
  sameBlock : SameBlock st st'
  grown : Grown st.buffer.room size st st'

theorem write_ok (filling : Filling st part) {data : CStr} (inside : new ≤ st.buffer.blockSize)
    (fits : part.length + new + 1 ≤ st.buffer.maxLineSize) (short : data.length ≤ new + 1) :
    ∃ line mid st', ensureLine new st = .ok (line, mid) ∧ mid.store line data = .ok st' ∧
      Written st st' part data (part.length + new + 1) := by
  obtain ⟨line, mid, ensured, holds, length, known, offset, sameBlock, grown⟩ :=
    ensureLine_ok filling inside fits
  have size : mid.buffer.lineSize = max st.buffer.room (part.length + new + 1) := grown.lineSize
  obtain ⟨line', stored, holds', length', addr⟩ :=
    Allocation.store_inside holds (show part.length + data.length ≤ line.cells.length by omega)
  let after : ReadState := { mid with buffer := { mid.buffer with line := some line' } }
  have stores : mid.store line data = .ok after := by rw [ReadState.store, offset, stored]
  refine ⟨line, mid, after, ensured, stores, ⟨line', rfl, holds', length'.trans length, addr ▸ known⟩,
    offset, ⟨sameBlock.blockSize, sameBlock.rest, sameBlock.ret⟩, ?_⟩
  · refine ⟨grown.lineSize, grown.limit, ?_, ?_⟩
    · intro other before large
      obtain ⟨found, mem, equal⟩ := grown.same other before large
      cases mem
      exact ⟨line', rfl, addr.trans equal⟩
    · intro other before small
      obtain ⟨found, mem, less⟩ := grown.moved other before small
      cases mem
      exact ⟨line', rfl, addr ▸ less⟩

/-! ### One turn of the loop -/

structure HoldsLine (st : ReadState) (text : CStr) : Prop where
  line : ∃ line, st.buffer.line = some line ∧ text ++ [0] <+: line.cells ∧
    line.cells.length = st.buffer.lineSize ∧ line.addr < st.allocations
  realLineSize : st.buffer.realLineSize = text.length

theorem copyBlock_cut (filling : Filling st part) (cut : cutLine st.buffer.rest = some parts)
    (fits : (part ++ parts.1).length + 1 ≤ st.buffer.maxLineSize) :
    ∃ st', copyBlock st = .ok (true, st') ∧ HoldsLine st' (part ++ parts.1) ∧
      Grown st.buffer.room ((part ++ parts.1).length + 1) st st' ∧ st'.buffer.rest = parts.2 ∧
      st'.buffer.rest.length ≤ st'.buffer.blockSize ∧ st'.buffer.ret = st.buffer.ret := by
  obtain ⟨c, shape⟩ := cutLine_some cut
  have inside := filling.inside
  have length := congrArg List.length shape
  rw [length_append, length_cons] at length
  rw [length_append] at fits ⊢
  have short : (parts.1 ++ [0]).length ≤ parts.1.length + 1 := by simp
  obtain ⟨line, mid, after, ensured, stored, ⟨line', held, holds, size, known⟩, offset,
    ⟨blockSize, _, ret⟩, grown⟩ := write_ok filling (show parts.1.length ≤ _ by omega) fits short
  have copied : copyBlock st = .ok (true, after.lineEnded parts.1.length parts.2) := by
    simp only [copyBlock, cut, ensured, stored, Except.map]
  refine ⟨_, copied, ⟨⟨line', held, by rwa [append_assoc], size, known⟩, ?_⟩,
    ⟨grown.lineSize, grown.limit, grown.same, grown.moved⟩, rfl, ?_, ret⟩
  · change after.buffer.lineOffset + parts.1.length = _
    rw [offset, length_append]
  · change parts.2.length ≤ after.buffer.blockSize
    omega

theorem copyBlock_more (filling : Filling st part) (whole : cutLine st.buffer.rest = none)
    (unread : st.buffer.rest ≠ [])
    (fits : (part ++ st.buffer.rest).length + 1 ≤ st.buffer.maxLineSize) :
    ∃ st', copyBlock st = .ok (false, st') ∧ Filling st' (part ++ st.buffer.rest) ∧
      Grown st.buffer.room ((part ++ st.buffer.rest).length + 1) st st' ∧
      st'.buffer.ret = st.buffer.ret ∧ st'.buffer.line ≠ none := by
  rw [length_append] at fits ⊢
  obtain ⟨line, mid, after, ensured, stored, ⟨line', held, holds, size, known⟩, offset, ⟨_, _, ret⟩,
    grown⟩ := write_ok filling filling.inside fits (Nat.le_succ _)
  have copied : copyBlock st = .ok (false, after.blockCopied st.buffer.rest.length) := by
    have filled : ¬ st.buffer.rest.length = 0 := by simpa using unread
    simp only [copyBlock, whole, ensured, stored, Except.map, if_neg filled]
  have line : (after.blockCopied st.buffer.rest.length).buffer.line = some line' := held
  refine ⟨_, copied, ⟨Nat.zero_le _, ?_, by simp [line], ?_⟩,
    ⟨grown.lineSize, grown.limit, grown.same, grown.moved⟩,
    ret, by simp [line]⟩
  · change after.buffer.lineOffset + st.buffer.rest.length = _
    rw [offset, length_append]
  · intro other before
    rw [line] at before
    cases before
    exact ⟨holds, size, known⟩

theorem copyBlock_end (filling : Filling st part) (read : st.buffer.rest = [])
    (fits : part.length + 1 ≤ st.buffer.maxLineSize) :
    ∃ st', copyBlock st = .ok (true, st') ∧ HoldsLine st' part ∧
      Grown st.buffer.room (part.length + 1) st st' ∧ SameBlock st st' := by
  have short : ([0] : CStr).length ≤ 0 + 1 := le_refl 1
  obtain ⟨line, mid, after, ensured, stored, ⟨line', held, holds, size, known⟩, offset, sameBlock,
    grown⟩ := write_ok filling (Nat.zero_le _) fits short
  have copied : copyBlock st = .ok (true, after.textEnded) := by
    have nothing : cutLine [] = none := rfl
    simp only [copyBlock, read, nothing, length_nil, ensured, stored, Except.map, if_true]
  exact ⟨_, copied, ⟨⟨line', held, holds, size, known⟩, offset⟩,
    ⟨grown.lineSize, grown.limit, grown.same, grown.moved⟩,
    ⟨sameBlock.blockSize, sameBlock.rest, sameBlock.ret⟩⟩

/-! ### One call -/

structure Ready (r : ArchiveReader) (rest : CStr) (blocks : List CStr) : Prop where
  archive : r.archive = blocks.map fun block => (archiveOk, block)
  filled : [] ∉ blocks
  rest : r.state.buffer.rest = rest
  inside : r.state.buffer.rest.length ≤ r.state.buffer.blockSize
  ret : r.state.buffer.ret = archiveOk
  line : ∀ line ∈ r.state.buffer.line,
    line.cells.length = r.state.buffer.lineSize ∧ line.addr < r.state.allocations

structure Ended (r : ArchiveReader) : Prop where
  processed : r.state.buffer.rest = []
  ret : r.state.buffer.ret = archiveEof

def Behind (r : ArchiveReader) : Option (CStr × List CStr) → Prop
  | none => Ended r
  | some (rest, blocks) => Ready r rest blocks

def ReadState.room (st : ReadState) (blocks : List CStr) : Nat :=
  match st.buffer.line with
  | some _ => st.buffer.lineSize
  | none => (if st.buffer.rest = [] then (blocks.head?.getD []).length else st.buffer.blockSize) + 1

theorem ReadState.room_unread (unread : st.buffer.rest ≠ []) (blocks : List CStr) :
    st.room blocks = st.buffer.room := by
  unfold ReadState.room ReadBuffer.room
  rw [if_neg unread]
  cases st.buffer.line <;> rfl

theorem nextBlock_deliver (going : st.buffer.ret = archiveOk) {block : List UInt8}
    (filled : block ≠ []) (archive : List Delivery) :
    nextBlock ((archiveOk, block) :: archive) st =
      fgetsLoop archive (st.deliver (archiveOk, block)) := by
  have fresh : ¬ (st.deliver (archiveOk, block)).buffer.rest = [] := filled
  rw [nextBlock, fgetsLoop, going, if_neg (by decide), if_neg fresh]
  rfl

theorem Filling.deliver (filling : Filling st part) (delivery : Delivery) :
    Filling (st.deliver delivery) part :=
  ⟨le_rfl, filling.offset, filling.started, filling.held⟩

theorem nextBlock_end (filling : Filling st part) (going : st.buffer.ret = archiveOk)
    (fits : part.length + 1 ≤ st.buffer.maxLineSize) :
    ∃ r', nextBlock [] st = (.ret archiveOk, r') ∧ HoldsLine r'.state part ∧
      Grown (st.deliver (archiveEof, [])).buffer.room (part.length + 1) st r'.state ∧ Ended r' := by
  obtain ⟨after, copied, holds, grown, ⟨_, rest, ret⟩⟩ :=
    copyBlock_end (filling.deliver (archiveEof, [])) rfl fits
  refine ⟨⟨[], after⟩, ?_, holds, ⟨grown.lineSize, grown.limit, grown.same, grown.moved⟩, rest, ret⟩
  rw [nextBlock, going, if_neg (by decide)]
  dsimp only
  rw [copied]

theorem fgetsLoop_whole (filling : Filling st part) (whole : cutLine st.buffer.rest = none)
    (fits : (part ++ st.buffer.rest).length + 1 ≤ st.buffer.maxLineSize) (archive : List Delivery) :
    ∃ st', fgetsLoop archive st = nextBlock archive st' ∧ Filling st' (part ++ st.buffer.rest) ∧
      st'.buffer.ret = st.buffer.ret ∧ st'.buffer.maxLineSize = st.buffer.maxLineSize ∧
      (st.buffer.rest = [] ∧ st' = st ∨ st.buffer.rest ≠ [] ∧ st'.buffer.line ≠ none ∧
        Grown st.buffer.room ((part ++ st.buffer.rest).length + 1) st st') := by
  by_cases read : st.buffer.rest = []
  · refine ⟨st, ?_, ?_, rfl, rfl, .inl ⟨read, rfl⟩⟩
    · rw [fgetsLoop, if_pos read]
    · rwa [read, append_nil]
  · obtain ⟨after, copied, filling', grown, ret, line⟩ := copyBlock_more filling whole read fits
    refine ⟨after, ?_, filling', ret, grown.limit, .inr ⟨read, line, grown⟩⟩
    rw [fgetsLoop, if_neg read, copied]

theorem Grown.after_whole {after after' : ReadState} {delivery : Delivery} {size' : Nat}
    (head : delivery.2 = blocks.head?.getD [])
    (copied : st.buffer.rest = [] ∧ after = st ∨ st.buffer.rest ≠ [] ∧ after.buffer.line ≠ none ∧
      Grown st.buffer.room size st after)
    (later : Grown (after.deliver delivery).buffer.room size' after after') (more : size ≤ size') :
    Grown (st.room blocks) size' st after' := by
  rcases copied with ⟨read, rfl⟩ | ⟨unread, line, first⟩
  · have room : after.room blocks = (after.deliver delivery).buffer.room := by
      unfold ReadState.room ReadBuffer.room
      rw [if_pos read, ← head]
      dsimp only [ReadState.deliver]
      cases after.buffer.line <;> rfl
    rwa [room]
  · have room : (after.deliver delivery).buffer.room = max st.buffer.room size := by
      obtain ⟨line, shape⟩ := Option.ne_none_iff_exists'.mp line
      rw [← first.lineSize]
      simp only [ReadBuffer.room, ReadState.deliver, shape]
    rw [room] at later
    rw [st.room_unread unread]
    exact first.trans later rfl rfl more

theorem fgetsLoop_cut (filling : Filling st part) (filled : [] ∉ blocks)
    (going : st.buffer.ret = archiveOk) (cut : cutLine st.buffer.rest = some parts)
    (fits : (part ++ parts.1).length + 1 ≤ st.buffer.maxLineSize) :
    ∃ r', fgetsLoop (blocks.map fun block => (archiveOk, block)) st = (.ret archiveOk, r') ∧
      HoldsLine r'.state (part ++ parts.1) ∧
      Grown (st.room blocks) ((part ++ parts.1).length + 1) st r'.state ∧
        Ready r' parts.2 blocks := by
  have unread : st.buffer.rest ≠ [] := by
    intro read
    rw [read] at cut
    cases cut
  obtain ⟨after, copied, holds, grown, rest, inside', ret⟩ := copyBlock_cut filling cut fits
  refine ⟨⟨_, after⟩, ?_, holds, ?_, rfl, filled, rest, inside', ret.trans going, ?_⟩
  · rw [fgetsLoop, if_neg unread, copied]
  · rwa [st.room_unread unread]
  · obtain ⟨line, shape, _, size, known⟩ := holds.line
    intro other mem
    rw [show after.buffer.line = _ from shape] at mem
    cases mem
    exact ⟨size, known⟩

/-- The loop puts the next line together, however many blocks it takes. The induction is on the
blocks; `part` is what earlier blocks gave of the line. -/
theorem fgetsLoop_line (filling : Filling st part) (filled : [] ∉ blocks)
    (going : st.buffer.ret = archiveOk)
    (fits : (part ++ (lineEnd.next blocks st.buffer.rest).1).length + 1 ≤ st.buffer.maxLineSize) :
    ∃ r', fgetsLoop (blocks.map fun block => (archiveOk, block)) st = (.ret archiveOk, r') ∧
      HoldsLine r'.state (part ++ (lineEnd.next blocks st.buffer.rest).1) ∧
      Grown (st.room blocks) ((part ++ (lineEnd.next blocks st.buffer.rest).1).length + 1) st
        r'.state ∧
      Behind r' (lineEnd.next blocks st.buffer.rest).2 := by
  induction blocks generalizing st part with
  | nil =>
    cases cut : lineEnd.cut st.buffer.rest with
    | some parts =>
      rw [Cutter.next_of_some cut] at fits ⊢
      exact fgetsLoop_cut filling filled going cut fits
    | none =>
      rw [Cutter.next_nil_of_none cut] at fits ⊢
      obtain ⟨after, loop, filling', ret, limit, copied⟩ := fgetsLoop_whole filling cut fits []
      obtain ⟨r', ended, holds, grown, last⟩ :=
        nextBlock_end filling' (ret.trans going) (limit.symm ▸ fits)
      exact ⟨r', loop.trans ended, holds, .after_whole rfl copied grown (le_refl _), last⟩
  | cons block blocks ih =>
    obtain ⟨headFilled, tailFilled⟩ : block ≠ [] ∧ [] ∉ blocks := by
      rw [mem_cons, not_or] at filled
      exact ⟨Ne.symm filled.1, filled.2⟩
    cases cut : lineEnd.cut st.buffer.rest with
    | some parts =>
      rw [Cutter.next_of_some cut] at fits ⊢
      exact fgetsLoop_cut filling filled going cut fits
    | none =>
      rw [Cutter.next_cons_of_none cut] at fits ⊢
      rw [← append_assoc] at fits ⊢
      have whole : (part ++ st.buffer.rest).length + 1 ≤ st.buffer.maxLineSize := by
        rw [length_append] at fits
        omega
      obtain ⟨after, loop, filling', ret, limit, copied⟩ :=
        fgetsLoop_whole filling cut whole
          ((archiveOk, block) :: blocks.map fun block => (archiveOk, block))
      have rest : (after.deliver (archiveOk, block)).buffer.rest = block := rfl
      obtain ⟨r', line, holds, grown, behind⟩ := ih (filling'.deliver (archiveOk, block)) tailFilled
        rfl (by rw [rest]; exact limit.symm ▸ fits)
      rw [rest] at holds grown behind
      refine ⟨r', ?_, holds, ?_, behind⟩
      · rw [map_cons, loop, nextBlock_deliver (ret.trans going) headFilled, line]
      · rw [(after.deliver _).room_unread (by rw [rest]; exact headFilled)] at grown
        have longer : (part ++ st.buffer.rest).length ≤
            (part ++ st.buffer.rest ++ (lineEnd.next blocks block).1).length :=
          (prefix_append _ _).length_le
        exact .after_whole rfl copied ⟨grown.lineSize, grown.limit, grown.same, grown.moved⟩
          (Nat.succ_le_succ longer)

theorem archiveFgets_line {rest : CStr} (ready : Ready r rest blocks)
    (fits : (lineEnd.next blocks rest).1.length < r.state.buffer.maxLineSize) :
    ∃ r', archiveFgets r = (.ret archiveOk, r') ∧ HoldsLine r'.state (lineEnd.next blocks rest).1 ∧
      Grown (r.state.room blocks) ((lineEnd.next blocks rest).1.length + 1) r.state r'.state ∧
      Behind r' (lineEnd.next blocks rest).2 := by
  obtain ⟨archive, filled, rfl, inside, ret, line⟩ := ready
  let st : ReadState := { r.state with buffer := { r.state.buffer with lineOffset := 0 } }
  have filling : Filling st [] :=
    ⟨inside, rfl, fun _ => rfl, fun line' mem => ⟨List.nil_prefix, line line' mem⟩⟩
  obtain ⟨r', loop, holds, grown, behind⟩ := fgetsLoop_line filling filled ret fits
  refine ⟨r', ?_, holds, ⟨grown.lineSize, grown.limit, grown.same, grown.moved⟩, behind⟩
  rw [archiveFgets, archive, loop]

theorem archiveFgets_ended (ended : Ended r) : (archiveFgets r).1 = .ret archiveEof := by
  unfold archiveFgets fgetsLoop
  rw [if_pos ended.processed]
  unfold nextBlock
  rw [if_pos ended.ret]
  rfl

/-! ### All calls -/

/-- The calls give these lines one after the other, each with its terminator at the start of
the line buffer, and then `ARCHIVE_EOF`. -/
def Delivers : List CStr → ArchiveReader → Prop
  | [], r => (archiveFgets r).1 = .ret archiveEof
  | text :: texts, r =>
    (archiveFgets r).1 = .ret archiveOk ∧
      (∃ line, (archiveFgets r).2.state.buffer.line = some line ∧ text ++ [0] <+: line.cells) ∧
      (archiveFgets r).2.state.buffer.realLineSize = text.length ∧ Delivers texts (archiveFgets r).2

theorem delivers_lines {rest : CStr} (ready : Ready r rest blocks)
    (fit : ∀ line ∈ lineEnd.lines blocks rest, line.length < r.state.buffer.maxLineSize) :
    Delivers (lineEnd.lines blocks rest) r := by
  induction blocks, rest using Cutter.lines.induct lineEnd generalizing r with
  | case1 blocks rest ended =>
    rw [Cutter.lines_last ended] at fit ⊢
    obtain ⟨r', call, holds, _, behind⟩ := archiveFgets_line ready (fit _ mem_cons_self)
    rw [ended] at behind
    obtain ⟨line, shape, text, _⟩ := holds.line
    rw [Delivers, call]
    exact ⟨rfl, ⟨line, shape, text⟩, holds.realLineSize, archiveFgets_ended behind⟩
  | case2 blocks rest behindRest later found ih =>
    rw [Cutter.lines_cons found] at fit ⊢
    obtain ⟨r', call, holds, grown, behind⟩ := archiveFgets_line ready (fit _ mem_cons_self)
    rw [found] at behind
    obtain ⟨line, shape, text, _⟩ := holds.line
    rw [Delivers, call]
    refine ⟨rfl, ⟨line, shape, text⟩, holds.realLineSize, ih behind ?_⟩
    intro other mem
    rw [grown.limit]
    exact fit other (mem_cons_of_mem _ mem)

theorem lineEnd_findsFirst : lineEnd.FindsFirst (· ≠ 0) newline where
  found := by
    intro text parts plain found
    rcases Option.or_eq_some_iff.mp found with found | ⟨_, found⟩
    · exact memchr_some found
    · have zero : 0 ∈ text := by
        rw [(memchr_some found).1]
        exact mem_append_right _ mem_cons_self
      exact absurd rfl (plain 0 zero)
  missed := by
    intro text _ missed
    rw [← memchr_isSome, (Option.or_eq_none_iff.mp missed).1]
    exact Bool.false_ne_true

theorem ready_start (filled : [] ∉ blocks) (maxLineSize : Nat) :
    Ready (.start blocks maxLineSize) [] blocks where
  archive := rfl
  filled := filled
  rest := rfl
  inside := Nat.le_refl 0
  ret := rfl
  line := by
    intro line mem
    cases mem

/-- The lines of a file in an archive do not depend on the blocks it comes in. -/
theorem archiveFgets_delivers (blocks : List CStr) (maxLineSize : Nat) (filled : [] ∉ blocks)
    (plain : 0 ∉ blocks.flatten)
    (fit : ∀ line ∈ blocks.flatten.splitOn newline, line.length + 1 < maxLineSize) :
    Delivers (blocks.flatten.splitOn newline) (.start blocks maxLineSize) := by
  have letters : ∀ c ∈ [] ++ blocks.flatten, c ≠ 0 := by
    rintro c member rfl
    exact plain member
  have lines : lineEnd.lines blocks [] = blocks.flatten.splitOn newline :=
    Cutter.lines_eq_splitOn lineEnd_findsFirst blocks [] letters
  rw [← lines] at fit ⊢
  refine delivers_lines (ready_start filled maxLineSize) ?_
  intro line member
  exact Nat.lt_of_succ_lt (fit line member)

/-- Two lines in three blocks, the first of which ends inside of a line. -/
theorem archiveFgets_delivers_blocks :
    Delivers [cstr "foo", cstr "bar", []] (.start [cstr "fo", cstr "o\nb", cstr "ar\n"] 16) :=
  archiveFgets_delivers [cstr "fo", cstr "o\nb", cstr "ar\n"] 16 (by decide) (by decide) (by decide)

end Dulge
