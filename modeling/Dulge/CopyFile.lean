import Dulge.CString
import Dulge.Lib.Calls
import Dulge.Lib.Iterate

/-! `_alpm_copyfile` of `util.c`, over calls that move a part of a block only or are interrupted.
Every write of a block starts at the result of the write before it, not behind all that has been
written of the block, and the destination is opened without `O_TRUNC`. -/

namespace Dulge

open Calls Iterate List

abbrev Errno := Nat

def eintr : Errno := 4

def alpmBufferSize : Nat := 8192

/-- The macro `OPEN`, and the loop around the other `open`: the errors of the first tries are
given, and the try behind them succeeds. The answer comes with the error number. -/
def openLoop : List Errno → Errno → Bool × Errno
  | [], errno => (true, errno)
  | error :: later, _ => if error = eintr then openLoop later error else (false, error)

structure RegularFile where
  content : List UInt8
  mode : Nat
  deriving DecidableEq

/-- What a call of `_alpm_copyfile` meets. -/
structure CopySystem where
  allocates : Bool
  /-- `errno` when the function is called -/
  errno : Errno
  openIn : List Errno
  openOut : List Errno
  fstat : Bool
  fchmod : Bool
  reads : List (Answer Errno)
  writes : List (Answer Errno)
  /-- the byte in front of the buffer -/
  before : UInt8

section Write

variable (before : UInt8) (block : List UInt8)

/-- So many bytes from `buf + nwrite` on. -/
def chunk (nwrite : Int) (n : Nat) : List UInt8 := ((before :: block).drop (nwrite + 1).toNat).take n

/-- How the inner loop ends: with all of the block written, or with a failed write. -/
structure WriteEnd where
  finished : Bool
  writes : List (Answer Errno)
  errno : Errno
  written : List UInt8

/-- The inner loop; `nread` bytes of the block are still to be written. -/
def writeLoop : List (Answer Errno) → Int → Nat → Errno → List UInt8 → WriteEnd
  | [], nwrite, nread, errno, written => ⟨true, [], errno, written ++ chunk before block nwrite nread⟩
  | .done limit leaves :: later, nwrite, nread, errno, written =>
    let n := amount nread limit
    let written := written ++ chunk before block nwrite n
    if 0 < nread - n then writeLoop later n (nread - n) (leaves.getD errno) written
    else ⟨true, later, leaves.getD errno, written⟩
  | .failed error :: later, _, nread, _, written =>
    if error ≠ eintr then ⟨false, later, error, written⟩
    else if 0 < nread then writeLoop later (-1) nread error written
    else ⟨true, later, error, written⟩

end Write

structure CopyState where
  source : Source UInt8 Errno
  writes : List (Answer Errno)
  errno : Errno
  /-- what has been written to the destination, from its start on -/
  written : List UInt8

/-- A turn of the loop that does the actual copy; it ends with the value of `ret` and with what
has been written. -/
def copyTurn (before : UInt8) (s : CopyState) : CopyState ⊕ (Int × List UInt8) :=
  match s.source.read alpmBufferSize s.errno with
  | (none, errno, source) =>
    if errno = eintr then .inl { s with source, errno } else .inr (0, s.written)
  | (some block, errno, source) =>
    if 0 < block.length ∨ errno = eintr then
      let ended := writeLoop before block s.writes 0 block.length errno s.written
      if ended.finished then .inl ⟨source, ended.writes, ended.errno, ended.written⟩
      else .inr (1, ended.written)
    else .inr (0, s.written)

def copyStart (sys : CopySystem) (src : RegularFile) : Option CopyState :=
  let opened := openLoop sys.openIn sys.errno
  let created := openLoop sys.openOut opened.2
  if sys.allocates && opened.1 && created.1 && sys.fstat && sys.fchmod then
    some ⟨⟨src.content, sys.reads⟩, sys.writes, created.2, []⟩
  else none

/-- `_alpm_copyfile`, if its loop ends within this number of turns: the result, and the destination
it leaves. The destination is not emptied when it is opened. -/
def copyfile (sys : CopySystem) (src dest : RegularFile) (turns : Nat) : Option (Int × RegularFile) :=
  match copyStart sys src with
  | none => some (1, dest)
  | some start =>
    (within (copyTurn sys.before) turns start).map fun (ret, written) =>
      (ret, ⟨written ++ dest.content.drop written.length, src.mode⟩)

theorem openLoop_errno {tries : List Errno} {errno : Errno}
    (opened : (openLoop tries errno).1 = true) :
    (openLoop tries errno).2 = eintr ↔ errno = eintr ∨ tries ≠ [] := by
  induction tries generalizing errno with
  | nil => simp [openLoop]
  | cons error later ih =>
    unfold openLoop at opened ⊢
    split at opened
    next again =>
      rw [if_pos again, ih opened]
      simp [again]
    next => cases opened

theorem copyStart_some {sys : CopySystem} {src : RegularFile} {start : CopyState}
    (started : copyStart sys src = some start) :
    start.source = ⟨src.content, sys.reads⟩ ∧ start.writes = sys.writes ∧ start.written = [] ∧
      (start.errno = eintr ↔ sys.errno = eintr ∨ sys.openIn ≠ [] ∨ sys.openOut ≠ []) := by
  simp only [copyStart, Bool.and_eq_true] at started
  split at started
  next all =>
    cases started
    refine ⟨rfl, rfl, rfl, ?_⟩
    rw [openLoop_errno all.1.1.2, openLoop_errno all.1.1.1.2, or_assoc]
  next => cases started

/-! ### What is written of a block -/

section Block

variable {before : UInt8} {block : List UInt8} {writes : List (Answer Errno)} {nwrite : Int}
  {nread : Nat} {errno : Errno} {written : List UInt8}

theorem chunk_at (place n : Nat) : chunk before block place n = (block.drop place).take n := by
  rw [chunk, show ((place : Int) + 1).toNat = place + 1 by omega, drop_succ_cons]

theorem length_chunk {n : Nat} (low : -1 ≤ nwrite) (inside : nwrite + nread ≤ block.length)
    (fits : n ≤ nread) : (chunk before block nwrite n).length = n := by
  rw [chunk, length_take, length_drop, length_cons]
  omega

theorem writeLoop_extends :
    written <+: (writeLoop before block writes nwrite nread errno written).written := by
  fun_induction writeLoop before block writes nwrite nread errno written with
  | case1 => exact prefix_append _ _
  | case2 _ _ _ _ _ _ _ _ _ _ ih => exact (prefix_append _ _).trans ih
  | case3 => exact prefix_append _ _
  | case4 => exact prefix_rfl
  | case5 _ _ _ _ _ _ _ _ ih => exact ih
  | case6 => exact prefix_rfl

theorem writeLoop_length (low : -1 ≤ nwrite) (inside : nwrite + nread ≤ block.length)
    (left : nread ≤ block.length)
    (finished : (writeLoop before block writes nwrite nread errno written).finished = true) :
    (writeLoop before block writes nwrite nread errno written).written.length =
      written.length + nread := by
  fun_induction writeLoop before block writes nwrite nread errno written with
  | case1 => rw [length_append, length_chunk low inside le_rfl]
  | case2 limit _ _ _ nread _ _ n _ more ih =>
    have fits : n ≤ nread := amount_le nread limit
    rw [ih (by omega) (by omega) (by omega) finished, length_append, length_chunk low inside fits]
    omega
  | case3 limit _ _ _ nread _ _ n _ last =>
    have fits : n ≤ nread := amount_le nread limit
    rw [length_append, length_chunk low inside fits]
    omega
  | case4 => cases finished
  | case5 _ _ _ _ _ _ _ _ ih => exact ih (by decide) (by omega) left finished
  | case6 _ _ _ nread _ _ _ none => exact (Nat.add_eq_left.mpr (Nat.eq_zero_of_not_pos none)).symm

/-- So many bytes of a block are written by at most `k` writes, none of them interrupted. -/
def WrittenIn : Nat → List (Answer Errno) → Nat → Prop
  | 0, _, nread => nread = 0
  | _ + 1, [], _ => True
  | k + 1, .done limit _ :: later, nread => WrittenIn k later (nread - amount nread limit)
  | _ + 1, .failed _ :: _, nread => nread = 0

theorem writtenIn_zero (k : Nat) (writes : List (Answer Errno)) : WrittenIn k writes 0 := by
  induction k generalizing writes with
  | zero => rfl
  | succ k ih =>
    cases writes with
    | nil => trivial
    | cons answer later =>
      cases answer with
      | done limit leaves => simpa [WrittenIn] using ih later
      | failed error => rfl

/-- So many writes of a block are still right, the next of them from `nwrite`, when its first
`place` bytes have been written. -/
inductive Aims : Nat → Int → Nat → Prop where
  | first : Aims 2 0 0
  | second {place : Nat} (behind : 0 < place) : Aims 1 place place
  | third {nwrite : Int} {place : Nat} (misplaced : nwrite ≠ place) : Aims 0 nwrite place

variable {k n size place : Nat}

theorem Aims.eq (aims : Aims (k + 1) nwrite place) : nwrite = place := by
  cases aims with
  | first => rfl
  | second => rfl

/-- A write starts where the one before it has ended, counted from that one's own start. -/
theorem Aims.next (aims : Aims (k + 1) nwrite place) (some : 0 < n) : Aims k n (place + n) := by
  cases aims with
  | first => simpa using Aims.second some
  | second => exact .third (by omega)

theorem drop_place (block : List UInt8) (place n : Nat) :
    (block.drop place).take n ++ block.drop (place + n) = block.drop place := by
  rw [← drop_drop, take_append_drop]

theorem writeLoop_right (aims : Aims k nwrite place) (some : 0 < k ∨ place < block.length)
    (few : WrittenIn k writes (block.length - place))
    (finished : (writeLoop before block writes nwrite (block.length - place) errno
      written).finished = true) :
    (writeLoop before block writes nwrite (block.length - place) errno written).written =
      written ++ block.drop place := by
  induction k generalizing nwrite place writes errno written with
  | zero =>
    have none : block.length - place = 0 := few
    omega
  | succ k ih =>
    cases writes with
    | nil => rw [writeLoop, aims.eq, chunk_at, ← length_drop, take_length]
    | cons answer later =>
      cases answer with
      | failed error =>
        have none : block.length - place = 0 := few
        simp only [writeLoop, none] at finished ⊢
        split at finished
        next => cases finished
        next again => simp [again, drop_eq_nil_of_le (Nat.le_of_sub_eq_zero none)]
      | done limit leaves =>
        have positive := @amount_pos (block.length - place)
        change WrittenIn k later (block.length - place - amount (block.length - place) limit) at few
        simp only [writeLoop, aims.eq, chunk_at] at finished ⊢
        rw [Nat.sub_sub] at few finished ⊢
        split at finished
        next more =>
          rw [if_pos more, ih (aims.next (positive (by omega) limit)) (.inr (by omega)) few finished,
            append_assoc, drop_place]
        next all =>
          rw [if_neg all, take_of_length_le]
          rw [length_drop]
          omega

/-- A block of the byte in front of the buffer, with another byte at one place. -/
def marked (before : UInt8) (size place : Nat) : List UInt8 :=
  (List.replicate size before).set place (before + 1)

theorem drop_marked (inside : place < size) (added : List UInt8) :
    before :: added ≠ (marked before size place).drop place := by
  intro same
  have first : (marked before size place)[place]? = some before := by
    rw [← head?_drop, ← same]
    rfl
  rw [marked, getElem?_set_self (by simpa using inside)] at first
  simp at first

variable (before) in
theorem chunk_marked (inside : nwrite < size) (misplaced : nwrite ≠ place) (more : 0 < n) :
    ∃ tail, chunk before (marked before size place) nwrite n = before :: tail := by
  rw [← head?_eq_some_iff, chunk, head?_take, if_neg (Nat.ne_of_gt more), head?_drop]
  cases index : (nwrite + 1).toNat with
  | zero => rfl
  | succ i =>
    rw [getElem?_cons_succ, marked, getElem?_set_ne (by omega), getElem?_replicate,
      if_pos (by omega)]

/-- A write that does not start where its bytes are writes the byte that is everywhere else. -/
theorem writeLoop_marked (inside : nwrite < size) (misplaced : nwrite ≠ place) (more : 0 < nread)
    (finished : (writeLoop before (marked before size place) writes nwrite nread errno
      written).finished = true) :
    ∃ added, (writeLoop before (marked before size place) writes nwrite nread errno
      written).written = written ++ before :: added := by
  fun_induction writeLoop before (marked before size place) writes nwrite nread errno written with
  | case1 =>
    obtain ⟨tail, first⟩ := chunk_marked before inside misplaced more
    exact ⟨tail, congrArg _ first⟩
  | case2 limit =>
    obtain ⟨tail, first⟩ := chunk_marked before inside misplaced (amount_pos more limit)
    obtain ⟨added, rest⟩ := writeLoop_extends
    refine ⟨tail ++ added, rest.symm.trans ?_⟩
    rw [← cons_append, ← first, append_assoc]
  | case3 limit =>
    obtain ⟨tail, first⟩ := chunk_marked before inside misplaced (amount_pos more limit)
    exact ⟨tail, congrArg _ first⟩
  | case4 => cases finished
  | case5 _ _ _ _ _ _ _ _ ih => exact ih (by omega) (by omega) more finished
  | case6 _ _ _ _ _ _ _ none => exact absurd more none

theorem writeLoop_ne_marked (low : nwrite < size) (misplaced : nwrite ≠ place)
    (more : 0 < size - place)
    (finished : (writeLoop before (marked before size place) writes nwrite (size - place) errno
      written).finished = true) :
    (writeLoop before (marked before size place) writes nwrite (size - place) errno
      written).written ≠ written ++ (marked before size place).drop place := by
  obtain ⟨added, eq⟩ := writeLoop_marked low misplaced more finished
  exact fun same => drop_marked (by omega) added (append_cancel_left (eq.symm.trans same))

variable (before) in
/-- A block that takes more writes, or one that is interrupted, is damaged for some content of
it. -/
theorem writeLoop_wrong (aims : Aims k nwrite place) (low : nwrite < size)
    (slow : ¬ WrittenIn k writes (size - place)) :
    ∃ block : List UInt8, block.length = size ∧ ∀ errno written,
      (writeLoop before block writes nwrite (size - place) errno written).finished = true →
      (writeLoop before block writes nwrite (size - place) errno written).written ≠
        written ++ block.drop place := by
  have more : 0 < size - place := by
    rw [Nat.pos_iff_ne_zero]
    exact fun none => slow (none ▸ writtenIn_zero k writes)
  induction k generalizing nwrite place writes with
  | zero =>
    cases aims with
    | third misplaced =>
      exact ⟨marked before size place, by simp [marked],
        fun errno written => writeLoop_ne_marked low misplaced more⟩
  | succ k ih =>
    cases writes with
    | nil => exact absurd trivial slow
    | cons answer later =>
      cases answer with
      | failed error =>
        refine ⟨marked before size place, by simp [marked], fun errno written finished => ?_⟩
        simp only [writeLoop, if_pos more] at finished ⊢
        split at finished
        next => cases finished
        next again =>
          rw [if_neg again]
          exact writeLoop_ne_marked (by omega) (by omega) more finished
      | done limit leaves =>
        have fits := amount_le (size - place) limit
        have positive := amount_pos more limit
        change ¬ WrittenIn k later (size - place - amount (size - place) limit) at slow
        simp only [writeLoop, aims.eq, chunk_at]
        generalize amount (size - place) limit = n at *
        rw [Nat.sub_sub] at slow ⊢
        have left : 0 < size - (place + n) := by
          rw [Nat.pos_iff_ne_zero]
          exact fun none => slow (none ▸ writtenIn_zero k later)
        obtain ⟨block, size_eq, damaged⟩ := ih (aims.next positive) (by omega) slow left
        refine ⟨block, size_eq, fun errno written => ?_⟩
        have rest := damaged (leaves.getD errno) (written ++ (block.drop place).take n)
        rw [append_assoc, drop_place] at rest
        rwa [if_pos left]

end Block

/-! ### What a turn does -/

/-- The turn moves bytes from the source to the destination as they are. -/
def MovesAsIs (before : UInt8) (s : CopyState) : Prop :=
  ∀ next, copyTurn before s = .inl next →
    next.written ++ next.source.rest = s.written ++ s.source.rest

def OnlyInterrupted (answers : List (Answer Errno)) : Prop :=
  ∀ error, .failed error ∈ answers → error = eintr

/-- The next block, if there is one, takes two writes at most. -/
def TwoWrites (s : CopyState) : Prop :=
  ∀ block errno source, s.source.read alpmBufferSize s.errno = (some block, errno, source) →
    WrittenIn 2 s.writes block.length

/-- The ways to the next turn. -/
inductive CopyNext (before : UInt8) (s : CopyState) : CopyState → Prop where
  | interrupted {errno : Errno} {source : Source UInt8 Errno}
      (read : s.source.read alpmBufferSize s.errno = (none, errno, source)) (again : errno = eintr) :
      CopyNext before s { s with source, errno }
  | block {block : List UInt8} {errno : Errno} {source : Source UInt8 Errno} {ended : WriteEnd}
      (read : s.source.read alpmBufferSize s.errno = (some block, errno, source))
      (goes : 0 < block.length ∨ errno = eintr)
      (wrote : writeLoop before block s.writes 0 block.length errno s.written = ended)
      (finished : ended.finished = true) :
      CopyNext before s ⟨source, ended.writes, ended.errno, ended.written⟩

theorem alpmBufferSize_pos : 0 < alpmBufferSize := by decide

section Turn

variable {before : UInt8} {s t : CopyState}

theorem copyTurn_inl (turn : copyTurn before s = .inl t) : CopyNext before s t := by
  unfold copyTurn at turn
  split at turn
  next read =>
    split at turn
    next again =>
      cases turn
      exact .interrupted read again
    next => cases turn
  next read =>
    split at turn
    next goes =>
      dsimp only at turn
      split at turn
      next finished =>
        cases turn
        exact .block read goes rfl finished
      next => cases turn
    next => cases turn

/-- What a turn reads is gone from the source, and as many bytes are written. -/
theorem copyTurn_moves (goes : copyTurn before s = .inl t) :
    ∃ bytes added, s.source.rest = bytes ++ t.source.rest ∧ t.written = s.written ++ added ∧
      added.length = bytes.length ∧ t.source.answers = s.source.answers.tail := by
  have answers := Source.read_answers alpmBufferSize s.errno s.source
  cases copyTurn_inl goes with
  | interrupted read =>
    rw [read] at answers
    exact ⟨[], [], (Source.read_none read).2.symm, (append_nil _).symm, rfl, answers⟩
  | @block block _ _ _ read _ wrote finished =>
    subst wrote
    rw [read] at answers
    obtain ⟨added, eq⟩ := writeLoop_extends
    have size := writeLoop_length (by decide) (by omega) le_rfl finished
    rw [← eq, length_append] at size
    exact ⟨block, added, (Source.read_some alpmBufferSize_pos read).1, eq.symm, by omega, answers⟩

theorem copyTurn_zero (only : OnlyInterrupted s.source.answers) {written : List UInt8}
    (stops : copyTurn before s = .inr (0, written)) : written = s.written ∧ s.source.rest = [] := by
  unfold copyTurn at stops
  split at stops
  next read =>
    rw [if_pos (only _ ((Source.read_none read).1 ▸ mem_cons_self))] at stops
    cases stops
  next read =>
    split at stops
    · dsimp only at stops
      split at stops <;> cases stops
    next none =>
      cases stops
      refine ⟨rfl, (Source.read_some alpmBufferSize_pos read).2 ?_⟩
      exact length_eq_zero_iff.mp (Nat.eq_zero_of_not_pos fun more => none (.inl more))

theorem TwoWrites.movesAsIs (two : TwoWrites s) : MovesAsIs before s := by
  intro next goes
  cases copyTurn_inl goes with
  | interrupted read => exact congrArg (s.written ++ ·) (Source.read_none read).2
  | block read _ wrote finished =>
    subst wrote
    dsimp only
    have right := writeLoop_right .first (.inl Nat.two_pos) (two _ _ _ read) finished
    rw [Nat.sub_zero, drop_zero] at right
    rw [right, append_assoc, (Source.read_some alpmBufferSize_pos read).1]

/-- A loop that ends with zero has written as many bytes as were left, and they are the right ones
exactly when every turn on the way was faithful. -/
theorem within_copyTurn {turns : Nat} {written : List UInt8} (only : OnlyInterrupted s.source.answers)
    (ended : within (copyTurn before) turns s = some (0, written)) :
    ∃ added, written = s.written ++ added ∧ added.length = s.source.rest.length ∧
      (added = s.source.rest ↔ ∀ t, Reaches (copyTurn before) s t → MovesAsIs before t) := by
  induction turns generalizing s with
  | zero => cases ended
  | succ turns ih =>
    cases turn : copyTurn before s with
    | inl next =>
      obtain ⟨bytes, first, rest, wrote, length, answers⟩ := copyTurn_moves turn
      have right : MovesAsIs before s ↔ first = bytes := by
        constructor
        · intro faithful
          have same := faithful next turn
          rw [wrote, rest, append_assoc, append_cancel_left_eq] at same
          exact append_cancel_right same
        · rintro rfl other goes
          cases turn.symm.trans goes
          rw [wrote, rest, append_assoc]
      have later : OnlyInterrupted next.source.answers := fun error failed =>
        only error (mem_of_mem_tail (answers ▸ failed))
      obtain ⟨added, eq, length', right'⟩ := ih later (within_inl turn turns ▸ ended)
      rw [forall_reaches_inl turn, right, ← right']
      refine ⟨first ++ added, ?_, ?_, ?_⟩
      · rw [eq, wrote, append_assoc]
      · rw [rest, length_append, length_append, length, length']
      · rw [rest]
        constructor
        · exact fun same => append_inj same length
        · rintro ⟨here, later⟩
          rw [here, later]
    | inr result =>
      cases Option.some.inj ((within_inr turn turns).symm.trans ended)
      obtain ⟨rfl, none⟩ := copyTurn_zero only turn
      rw [forall_reaches_inr turn]
      refine ⟨[], (append_nil _).symm, by rw [none], iff_of_true none.symm fun next goes => ?_⟩
      cases turn.symm.trans goes

end Turn

theorem copyfile_eq_iff {sys : CopySystem} {src : RegularFile} {start : CopyState}
    (only : OnlyInterrupted sys.reads) (started : copyStart sys src = some start)
    (dest : RegularFile) (turns : Nat) : copyfile sys src dest turns = some (0, src) ↔
      dest.content.length ≤ src.content.length ∧
        within (copyTurn sys.before) turns start = some (0, src.content) := by
  obtain ⟨source, -, empty, -⟩ := copyStart_some started
  rw [copyfile, started]
  dsimp only
  rw [Option.map_eq_some_iff]
  constructor
  · rintro ⟨⟨ret, written⟩, ended, eq⟩
    simp only [Prod.mk.injEq] at eq
    obtain ⟨rfl, eq⟩ := eq
    obtain ⟨added, same, length, -⟩ := within_copyTurn (source ▸ only) ended
    rw [empty, nil_append] at same
    rw [source, ← same] at length
    have both : written ++ dest.content.drop written.length = src.content ++ [] := by
      rw [append_nil]
      exact congrArg RegularFile.content eq
    obtain ⟨whole, tail⟩ := append_inj both length
    exact ⟨length ▸ drop_eq_nil_iff.mp tail, whole ▸ ended⟩
  · rintro ⟨short, ended⟩
    refine ⟨_, ended, ?_⟩
    dsimp only
    rw [drop_eq_nil_of_le short, append_nil]

/-! ### Whatever the source contains -/

/-- States that differ in the bytes only, those to come and those that have been written. -/
structure CopyState.Alike (s t : CopyState) : Prop where
  source : s.source.Alike t.source
  writes : s.writes = t.writes
  errno : s.errno = t.errno

theorem CopyState.Alike.symm {s t : CopyState} (alike : s.Alike t) : t.Alike s :=
  ⟨alike.source.symm, alike.writes.symm, alike.errno.symm⟩

/-- The state with other bytes to come. -/
def CopyState.holding (s : CopyState) (rest : List UInt8) : CopyState :=
  { s with source := ⟨rest, s.source.answers⟩ }

section Runs

variable {before : UInt8} {s t u : CopyState} {turns : Nat} {written : List UInt8}

theorem writeLoop_alike (before : UInt8) (one two : List UInt8) (writes : List (Answer Errno))
    (nwrite : Int) (nread : Nat) (errno : Errno) (written written' : List UInt8) :
    let first := writeLoop before one writes nwrite nread errno written
    let second := writeLoop before two writes nwrite nread errno written'
    first.finished = second.finished ∧ first.writes = second.writes ∧ first.errno = second.errno := by
  fun_induction writeLoop before one writes nwrite nread errno written generalizing written' with
  | case1 => exact ⟨rfl, rfl, rfl⟩
  | case2 limit _ _ _ nread _ _ _ _ more ih =>
    have more : 0 < nread - amount nread limit := more
    simp only [writeLoop, if_pos more]
    exact ih _
  | case3 limit _ _ _ nread _ _ _ _ last =>
    have last : ¬ 0 < nread - amount nread limit := last
    simp only [writeLoop, if_neg last, and_self]
  | case4 _ _ _ _ _ _ other => simp [writeLoop, other]
  | case5 _ _ _ _ _ _ again more ih => simpa only [writeLoop, if_neg again, if_pos more] using ih _
  | case6 _ _ _ _ _ _ again none => simp only [writeLoop, if_neg again, if_neg none, and_self]

theorem copyTurn_alike (s t : CopyState) (alike : s.Alike t) :
    InStep CopyState.Alike (fun a b => a.1 = b.1) (copyTurn before s) (copyTurn before t) := by
  unfold copyTurn
  rw [← alike.errno, ← alike.writes]
  cases read : s.source.read alpmBufferSize s.errno with
  | mk got after =>
    obtain ⟨errno, source⟩ := after
    cases got with
    | none =>
      obtain ⟨source', read', alike'⟩ := alike.source.read_none read
      rw [read']
      dsimp only
      split
      · exact .goes ⟨alike', rfl, rfl⟩
      · exact .stops rfl
    | some block =>
      obtain ⟨block', source', read', size, alike'⟩ := alike.source.read_some read
      rw [read']
      dsimp only
      rw [size]
      obtain ⟨finished, writes, errno⟩ := writeLoop_alike before block block' s.writes 0
        block.length errno s.written t.written
      split
      · rw [← finished]
        split
        · exact .goes ⟨alike', writes, errno⟩
        · exact .stops rfl
      · exact .stops rfl

theorem TwoWrites.alike (two : TwoWrites s) (alike : s.Alike t) : TwoWrites t := by
  intro block errno source read
  rw [← alike.errno] at read
  obtain ⟨block', source', read', size, _⟩ := alike.source.symm.read_some read
  rw [← size, ← alike.writes]
  exact two block' errno source' read'

theorem reaches_rest (reaches : Reaches (copyTurn before) s u) : u.source.rest <:+ s.source.rest := by
  induction reaches with
  | refl => exact suffix_rfl
  | tail _ last ih =>
    obtain ⟨bytes, -, rest, -⟩ := copyTurn_moves last
    exact IsSuffix.trans ⟨bytes, rest.symm⟩ ih

/-- In a run that ends with zero, a turn that reads a block goes on with all of it written. -/
theorem copyTurn_of_reaches (ended : within (copyTurn before) turns s = some (0, written))
    (reaches : Reaches (copyTurn before) s u) {block : List UInt8} {errno : Errno}
    {source : Source UInt8 Errno}
    (read : u.source.read alpmBufferSize u.errno = (some block, errno, source)) (any : block ≠ []) :
    let wrote := writeLoop before block u.writes 0 block.length errno u.written
    wrote.finished = true ∧
      copyTurn before u = .inl ⟨source, wrote.writes, wrote.errno, wrote.written⟩ := by
  obtain ⟨m, ended⟩ := within_of_reaches reaches ended
  by_cases finished : (writeLoop before block u.writes 0 block.length errno u.written).finished
  · exact ⟨finished, by simp [copyTurn, read, length_pos_iff.mpr any, finished]⟩
  · have stops : copyTurn before u =
        .inr (1, (writeLoop before block u.writes 0 block.length errno u.written).written) := by
      simp [copyTurn, read, length_pos_iff.mpr any, finished]
    cases (exists_within_inr stops).mp ⟨m, ended⟩

theorem alike_holding {rest : List UInt8} (size : rest.length = s.source.rest.length) :
    s.Alike (s.holding rest) :=
  ⟨⟨rfl, size.symm⟩, rfl, rfl⟩

/-- A source of the same length with other bytes in the place of a block: they are read where the
block was. -/
theorem reaches_replaced {block other : List UInt8} {errno : Errno} {source : Source UInt8 Errno}
    (reaches : Reaches (copyTurn before) s u) (size : other.length = block.length)
    (read : u.source.read alpmBufferSize u.errno = (some block, errno, source)) :
    ∃ rest v source', rest.length = s.source.rest.length ∧
      Reaches (copyTurn before) (s.holding rest) v ∧ u.Alike v ∧
      v.source.read alpmBufferSize v.errno = (some other, errno, source') := by
  obtain ⟨front, whole⟩ := reaches_rest reaches
  have rest := (Source.read_some alpmBufferSize_pos read).1
  have length : (front ++ (other ++ source.rest)).length = s.source.rest.length := by
    rw [← whole, rest]
    simp [size]
  obtain ⟨v, reached, same⟩ := reaches_in_step copyTurn_alike (alike_holding length) reaches
  obtain ⟨block', source', read', size', _⟩ := same.source.read_some read
  have ahead : v.source.rest = other ++ source.rest := by
    have suffix : v.source.rest <:+ front ++ (other ++ source.rest) := reaches_rest reached
    refine (suffix_of_suffix_length_le suffix (suffix_append _ _) ?_).eq_of_length ?_
    · simp [← same.source.length, rest, size]
    · simp [← same.source.length, rest, size]
  have rest' := (Source.read_some alpmBufferSize_pos read').1
  obtain ⟨rfl, -⟩ := append_inj (rest'.symm.trans ahead) (size'.trans size.symm)
  rw [same.errno] at read'
  exact ⟨_, v, source', length, reached, same, read'⟩

/-- A run that ends with zero ends with a copy of whatever it reads exactly when every block of it
takes two writes at most. -/
theorem copies_iff_twoWrites (only : OnlyInterrupted s.source.answers)
    (ended : within (copyTurn before) turns s = some (0, written)) :
    (∀ rest, rest.length = s.source.rest.length →
        within (copyTurn before) turns (s.holding rest) = some (0, s.written ++ rest)) ↔
      ∀ u, Reaches (copyTurn before) s u → TwoWrites u := by
  have run {rest : List UInt8} (size : rest.length = s.source.rest.length) :
      within (copyTurn before) turns (s.holding rest) = some (0, s.written ++ rest) ↔
        ∀ v, Reaches (copyTurn before) (s.holding rest) v → MovesAsIs before v := by
    obtain ⟨⟨ret, copied⟩, ended', rfl⟩ := within_in_step copyTurn_alike (alike_holding size) ended
    have same : OnlyInterrupted (s.holding rest).source.answers := only
    obtain ⟨added, rfl, _, right⟩ := within_copyTurn same ended'
    rw [ended', ← right]
    simp [CopyState.holding]
  constructor
  · intro copies u reaches block errno source read
    by_contra slow
    have any : block ≠ [] := by
      rintro rfl
      exact slow (writtenIn_zero 2 u.writes)
    obtain ⟨other, size, damaged⟩ :=
      writeLoop_wrong before .first (Int.natCast_pos.mpr (length_pos_iff.mpr any)) slow
    -- a source with a damaged block in the place of this one
    obtain ⟨rest, v, source', length, reached, same, read'⟩ := reaches_replaced reaches size read
    have copied := copies rest length
    obtain ⟨finished, goes⟩ := copyTurn_of_reaches copied reached read' (by
      rw [← length_pos_iff, size]
      exact length_pos_iff.mpr any)
    have faithful := (run length).mp copied v reached _ goes
    dsimp only at faithful
    rw [(Source.read_some alpmBufferSize_pos read').1, ← append_assoc] at faithful
    rw [size, ← same.writes] at finished faithful
    exact damaged errno v.written finished (append_cancel_right faithful)
  · intro two rest size
    refine (run size).mpr fun v reached => ?_
    obtain ⟨u, reached', same⟩ := reaches_in_step copyTurn_alike (alike_holding size).symm reached
    exact ((two u reached').alike same.symm).movesAsIs

end Runs

theorem copyStart_content {sys : CopySystem} {src : RegularFile} {start : CopyState}
    (started : copyStart sys src = some start) (content : List UInt8) :
    copyStart sys { src with content } = some (start.holding content) := by
  unfold copyStart at started ⊢
  dsimp only at started ⊢
  split at started
  · cases started
    exact if_pos ‹_›
  · cases started

/-- For given answers of the system, a copy that returns zero is one whatever the source contains
exactly when the destination held no more bytes than the source and every block was written in two
writes at most, none of them interrupted. -/
theorem copyfile_content_iff (sys : CopySystem) (src dest : RegularFile) (turns : Nat)
    (only : OnlyInterrupted sys.reads) {copy : RegularFile}
    (returned : copyfile sys src dest turns = some (0, copy)) :
    (∀ content, content.length = src.content.length →
        copyfile sys { src with content } dest turns = some (0, { src with content })) ↔
      dest.content.length ≤ src.content.length ∧ ∀ start, copyStart sys src = some start →
        ∀ t, Reaches (copyTurn sys.before) start t → TwoWrites t := by
  cases started : copyStart sys src with
  | none => simp [copyfile, started] at returned
  | some start =>
    obtain ⟨source, -, empty, -⟩ := copyStart_some started
    have ends : ∃ written, within (copyTurn sys.before) turns start = some (0, written) := by
      rw [copyfile, started] at returned
      obtain ⟨⟨ret, written⟩, ended, eq⟩ := Option.map_eq_some_iff.mp returned
      cases eq
      exact ⟨written, ended⟩
    obtain ⟨written, ended⟩ := ends
    have size : start.source.rest.length = src.content.length := by rw [source]
    simp only [Option.some.injEq, forall_eq']
    rw [← copies_iff_twoWrites (source ▸ only) ended, size, empty]
    have each (content : List UInt8) :=
      copyfile_eq_iff only (copyStart_content started content) dest turns
    constructor
    · intro copies
      refine ⟨((each src.content).mp (copies _ rfl)).1, fun content same => ?_⟩
      exact ((each content).mp (copies content same)).2
    · rintro ⟨short, copies⟩ content same
      exact (each content).mpr ⟨short.trans same.ge, copies content same⟩

def copyingSystem (writes : List (Answer Errno)) : CopySystem where
  allocates := true
  errno := 0
  openIn := []
  openOut := []
  fstat := true
  fchmod := true
  reads := []
  writes := writes
  before := 0

/-- Blocks of two and of three bytes, with an interrupted read between them, and each of them written
in two writes. -/
theorem copyfile_copies_in_two_writes :
    let sys := { copyingSystem [.done 1 none, .done 1 none, .done 2 none] with
      reads := [.done 2 none, .failed eintr, .done 3 (some 0)] }
    (∃ copy, copyfile sys ⟨[1, 2, 3, 4, 5], 420⟩ ⟨[9, 9], 0⟩ 5 = some (0, copy)) ∧
      ∀ content : List UInt8, content.length = 5 →
        copyfile sys ⟨content, 420⟩ ⟨[9, 9], 0⟩ 5 = some (0, ⟨content, 420⟩) := by
  intro sys
  have returned : copyfile sys ⟨[1, 2, 3, 4, 5], 420⟩ ⟨[9, 9], 0⟩ 5 =
    some (0, ⟨[1, 2, 3, 4, 5], 420⟩) := by decide
  have only : OnlyInterrupted sys.reads := by simp [OnlyInterrupted, sys]
  refine ⟨⟨_, returned⟩, (copyfile_content_iff sys _ _ 5 only returned).mpr ⟨by decide, ?_⟩⟩
  have reads {s : CopyState} {block : List UInt8} {errno : Errno} {source : Source UInt8 Errno}
      (read : s.source.read alpmBufferSize s.errno = (some block, errno, source))
      (fast : WrittenIn 2 s.writes block.length) : TwoWrites s := by
    intro other errno' source' got
    cases read.symm.trans got
    exact fast
  rintro start started
  cases started
  refine (forall_reaches_inl (by rfl)).mpr ⟨reads (by rfl) (by rfl), ?_⟩
  refine (forall_reaches_inl (by rfl)).mpr ⟨fun _ _ _ got => (by cases got), ?_⟩
  refine (forall_reaches_inl (by rfl)).mpr ⟨reads (by rfl) (by trivial), ?_⟩
  exact (forall_reaches_inr (by rfl)).mpr (reads (by rfl) (by trivial))

/-- A destination that was longer keeps its end; the third write of a block takes bytes that were
written before; and a write that follows an interrupted one starts in front of the buffer. -/
theorem copyfile_damages :
    copyfile (copyingSystem []) ⟨[1], 420⟩ ⟨[9, 9, 9], 0⟩ 2 = some (0, ⟨[1, 9, 9], 420⟩) ∧
    copyfile (copyingSystem [.done 1 none, .done 1 none, .done 1 none]) ⟨[1, 2, 3], 420⟩ ⟨[], 0⟩ 2 =
      some (0, ⟨[1, 2, 2], 420⟩) ∧
    copyfile (copyingSystem [.failed eintr, .done 3 (some 0)]) ⟨[1, 2, 3], 420⟩ ⟨[], 0⟩ 2 =
      some (0, ⟨[0, 1, 2], 420⟩) := by
  decide

end Dulge
