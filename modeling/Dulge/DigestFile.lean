import Dulge.CopyFile

/-! `md5_file` and `sha256_file` of `util.c`, and when the read loops of these two and of
`_alpm_copyfile` end. The loops go on while `read` gives something or `errno` is `EINTR`. At the
end of the file `read` gives zero and leaves `errno` alone, so an interruption that lies behind keeps
them running for ever. -/

namespace Dulge

open Calls Iterate List

/-- What a call of `md5_file` or `sha256_file` meets. -/
structure DigestSystem where
  allocates : Bool
  /-- `errno` when the function is called -/
  errno : Errno
  opens : List Errno
  reads : List (Answer Errno)

structure DigestState where
  source : Source UInt8 Errno
  errno : Errno
  /-- what the digest has been updated with -/
  ctx : List UInt8

/-- A turn of the read loop; it ends with `n` and the bytes that the digest has got. -/
def digestTurn (s : DigestState) : DigestState ⊕ (Int × List UInt8) :=
  match s.source.read alpmBufferSize s.errno with
  | (none, errno, source) =>
    if errno = eintr then .inl { s with source, errno } else .inr (-1, s.ctx)
  | (some block, errno, source) =>
    if 0 < block.length ∨ errno = eintr then .inl ⟨source, errno, s.ctx ++ block⟩
    else .inr (0, s.ctx)

def digestStart (sys : DigestSystem) (content : List UInt8) : Option DigestState :=
  let opened := openLoop sys.opens sys.errno
  if sys.allocates && opened.1 then some ⟨⟨content, sys.reads⟩, opened.2, []⟩ else none

/-- The common body of `md5_file` and `sha256_file`, if the loop ends within this number of turns:
the result, and the output if it is written. -/
def digestFile (digest : List UInt8 → List UInt8) (sys : DigestSystem) (content : List UInt8)
    (turns : Nat) : Option (Int × Option (List UInt8)) :=
  match digestStart sys content with
  | none => some (1, none)
  | some start =>
    (within digestTurn turns start).map fun (n, ctx) =>
      if n < 0 then (2, none) else (0, some (digest ctx))

section Digests

/- The digests of the crypto library. -/
variable (md5 sha256 : List UInt8 → List UInt8)

def md5File := digestFile md5

def sha256File := digestFile sha256

end Digests

/-! ### The loop over a file for its digest -/

def Broken (answers : List (Answer Errno)) : Prop :=
  ∃ error, .failed error ∈ answers ∧ error ≠ eintr

/-- Calls that succeed leave `errno` alone. -/
def Silent (answers : List (Answer Errno)) : Prop := ∀ answer ∈ answers, answer.Silent

theorem onlyInterrupted_of_not_broken {answers : List (Answer Errno)} (sound : ¬ Broken answers) :
    OnlyInterrupted answers := by
  intro error failed
  by_contra other
  exact sound ⟨error, failed, other⟩

/-- The next `read` is interrupted. -/
def ReadInterrupted (source : Source UInt8 Errno) : Prop :=
  ∃ later, source.answers = .failed eintr :: later

/-- The next `read` does not fail. -/
def ReadAnswered (source : Source UInt8 Errno) : Prop :=
  ∀ error later, source.answers ≠ .failed error :: later

theorem ReadAnswered.not_interrupted {source : Source UInt8 Errno} (answered : ReadAnswered source) :
    ¬ ReadInterrupted source := fun ⟨later, hit⟩ => answered eintr later hit

inductive DigestStep (s : DigestState) : DigestState ⊕ (Int × List UInt8) → Prop where
  | broken {error : Errno} {later : List (Answer Errno)} (other : error ≠ eintr)
      (answers : s.source.answers = .failed error :: later) : DigestStep s (.inr (-1, s.ctx))
  | interrupted {next : DigestState} (hit : ReadInterrupted s.source) (errno : next.errno = eintr)
      (answers : next.source.answers = s.source.answers.tail) : DigestStep s (.inl next)
  | block {next : DigestState} {bytes : List UInt8} (answered : ReadAnswered s.source)
      (goes : bytes ≠ [] ∨ next.errno = eintr) (rest : s.source.rest = bytes ++ next.source.rest)
      (answers : next.source.answers = s.source.answers.tail)
      (errno : Silent s.source.answers → next.errno = s.errno) : DigestStep s (.inl next)
  | ended (answered : ReadAnswered s.source)
      (errno : Silent s.source.answers → s.errno ≠ eintr) : DigestStep s (.inr (0, s.ctx))

theorem digestTurn_step (s : DigestState) : DigestStep s (digestTurn s) := by
  have tail := Source.read_answers alpmBufferSize s.errno s.source
  unfold digestTurn
  cases read : s.source.read alpmBufferSize s.errno with
  | mk got after =>
    obtain ⟨errno, source⟩ := after
    rw [read] at tail
    cases got with
    | none =>
      have answers := (Source.read_none read).1
      by_cases again : errno = eintr
      · simp only [if_pos again]
        exact .interrupted ⟨_, again ▸ answers⟩ again tail
      · simp only [if_neg again]
        exact .broken again answers
    | some block =>
      obtain ⟨answered, silent⟩ := Source.read_some_answer read
      by_cases goes : 0 < block.length ∨ errno = eintr
      · simp only [if_pos goes]
        have rest := (Source.read_some alpmBufferSize_pos read).1
        exact .block answered (goes.imp_left length_pos_iff.mp) rest tail silent
      · simp only [if_neg goes]
        exact .ended answered fun quiet => silent quiet ▸ (not_or.mp goes).2

theorem Broken.tail {answers : List (Answer Errno)} (broken : Broken answers)
    (fine : ∀ error later, answers = .failed error :: later → error = eintr) :
    Broken answers.tail ∧ answers.tail.length < answers.length := by
  obtain ⟨error, failed, other⟩ := broken
  cases answers with
  | nil => cases failed
  | cons answer later =>
    rcases mem_cons.mp failed with rfl | behind
    · exact absurd (fine error later rfl) other
    · exact ⟨⟨error, behind, other⟩, Nat.lt_succ_self _⟩

theorem ReadInterrupted.fine {source : Source UInt8 Errno} (hit : ReadInterrupted source)
    (error : Errno) (later : List (Answer Errno)) (here : source.answers = .failed error :: later) :
    error = eintr := by
  obtain ⟨_, hit⟩ := hit
  cases here.symm.trans hit
  rfl

theorem digestTurn_ends_of_broken {s : DigestState} (broken : Broken s.source.answers) :
    Ends digestTurn s := by
  refine ends_of_measure (fun s => Broken s.source.answers) (fun s => s.source.answers.length) ?_
    broken
  intro s next broken turn
  have step := digestTurn_step s
  rw [turn] at step
  cases step with
  | interrupted hit _ answers => exact answers ▸ broken.tail hit.fine
  | block answered _ _ answers =>
    exact answers ▸ broken.tail fun error later here => absurd here (answered error later)

/-- Calls fail by an interruption only, and those that succeed leave `errno` alone. -/
structure Undamaged (answers : List (Answer Errno)) : Prop where
  silent : Silent answers
  only : OnlyInterrupted answers

theorem Undamaged.tail {answers : List (Answer Errno)} (sound : Undamaged answers) :
    Undamaged answers.tail where
  silent answer later := sound.silent answer (mem_of_mem_tail later)
  only error later := sound.only error (mem_of_mem_tail later)

/-- Once `errno` is `EINTR` it stays so, and there is no way out of the loop. -/
theorem digestTurn_goes_on {s : DigestState} (sound : Undamaged s.source.answers)
    (hit : s.errno = eintr ∨ ReadInterrupted s.source) :
    ∃ next, digestTurn s = .inl next ∧ Undamaged next.source.answers ∧ next.errno = eintr := by
  have step := digestTurn_step s
  cases turn : digestTurn s with
  | inl next =>
    rw [turn] at step
    refine ⟨next, rfl, ?_⟩
    cases step with
    | interrupted _ errno answers => exact ⟨answers ▸ sound.tail, errno⟩
    | block answered _ _ answers errno =>
      have before := hit.resolve_right answered.not_interrupted
      exact ⟨answers ▸ sound.tail, (errno sound.silent).trans before⟩
  | inr result =>
    rw [turn] at step
    cases step with
    | broken other answers => exact absurd (sound.only _ (answers ▸ mem_cons_self)) other
    | ended answered errno =>
      exact absurd (hit.resolve_right answered.not_interrupted) (errno sound.silent)

/-- The loop ends when a call fails for good, or when `errno` is not `EINTR` at its start and no
`read` up to the end of the file is interrupted; only then. -/
theorem digestTurn_ends_iff {s : DigestState} (silent : Silent s.source.answers) :
    Ends digestTurn s ↔ Broken s.source.answers ∨
      (s.errno ≠ eintr ∧ ∀ t, Reaches digestTurn s t → ¬ ReadInterrupted t.source) := by
  by_cases broken : Broken s.source.answers
  · exact iff_of_true (digestTurn_ends_of_broken broken) (.inl broken)
  rw [or_iff_right broken]
  have sound : Undamaged s.source.answers := ⟨silent, onlyInterrupted_of_not_broken broken⟩
  refine ends_iff_no_hit (fun s : DigestState => Undamaged s.source.answers)
    (fun s => s.errno = eintr) (fun s => ReadInterrupted s.source) (fun s => s.source.rest.length)
    (fun s => digestTurn_goes_on) ?_ sound
  intro s next sound errno unhit turn
  have step := digestTurn_step s
  rw [turn] at step
  cases step with
  | interrupted hit => exact absurd hit unhit
  | @block _ bytes _ goes rest answers errno' =>
    have kept := errno' sound.silent
    have some : bytes ≠ [] := goes.resolve_right (kept ▸ errno)
    refine ⟨answers ▸ sound.tail, kept ▸ errno, ?_⟩
    rw [rest, length_append]
    exact Nat.lt_add_of_pos_left (length_pos_iff.mpr some)

/-! ### The loop that copies -/

/-- A write of a block of which `nread` bytes are left is interrupted. -/
def BlockInterrupted : Nat → List (Answer Errno) → Prop
  | _, [] => False
  | nread, .done limit _ :: later =>
    0 < nread - amount nread limit ∧ BlockInterrupted (nread - amount nread limit) later
  | _, .failed error :: _ => error = eintr

theorem onlyInterrupted_nil : OnlyInterrupted [] := fun _ failed => nomatch failed

theorem Undamaged.of_suffix {answers later : List (Answer Errno)} (sound : Undamaged answers)
    (behind : later <:+ answers) : Undamaged later where
  silent answer member := sound.silent answer (behind.subset member)
  only error member := sound.only error (behind.subset member)

section Block

variable {before : UInt8} {block : List UInt8} {writes : List (Answer Errno)} {nwrite : Int}
  {nread : Nat} {errno : Errno} {written : List UInt8}

theorem onlyInterrupted_cons {answer : Answer Errno} {later : List (Answer Errno)} :
    OnlyInterrupted (answer :: later) ↔
      (∀ error, answer = .failed error → error = eintr) ∧ OnlyInterrupted later := by
  simp only [OnlyInterrupted, mem_cons, or_imp, forall_and, eq_comm]

/-- The answers that the writes of a block take: at least one, and none of them fails for good. -/
theorem writeLoop_used
    (finished : (writeLoop before block writes nwrite nread errno written).finished = true) :
    ∃ used, writes = used ++ (writeLoop before block writes nwrite nread errno written).writes ∧
      OnlyInterrupted used ∧ (writes ≠ [] → used ≠ []) := by
  -- the first answer, and what the rest of the loop takes
  have longer {answer : Answer Errno} {later used left : List (Answer Errno)}
      (split : later = used ++ left) (only : OnlyInterrupted used)
      (fine : ∀ error, answer = .failed error → error = eintr) :
      ∃ used, answer :: later = used ++ left ∧ OnlyInterrupted used ∧
        (answer :: later ≠ [] → used ≠ []) :=
    ⟨answer :: used, congrArg (answer :: ·) split, onlyInterrupted_cons.mpr ⟨fine, only⟩,
      fun _ => cons_ne_nil _ _⟩
  fun_induction writeLoop before block writes nwrite nread errno written with
  | case1 => exact ⟨[], rfl, onlyInterrupted_nil, id⟩
  | case2 _ _ _ _ _ _ _ _ _ _ ih =>
    obtain ⟨used, split, only, _⟩ := ih finished
    exact longer split only (by simp)
  | case3 => exact longer (nil_append _).symm onlyInterrupted_nil (by simp)
  | case4 => cases finished
  | case5 _ _ _ _ _ _ again _ ih =>
    obtain ⟨used, split, only, _⟩ := ih finished
    exact longer split only (by simpa using again)
  | case6 _ _ _ _ _ _ again =>
    exact longer (nil_append _).symm onlyInterrupted_nil (by simpa using again)

theorem writeLoop_finished_of_only (only : OnlyInterrupted writes) :
    (writeLoop before block writes nwrite nread errno written).finished = true := by
  fun_induction writeLoop before block writes nwrite nread errno written with
  | case1 => rfl
  | case2 _ _ _ _ _ _ _ _ _ _ ih => exact ih (onlyInterrupted_cons.mp only).2
  | case3 => rfl
  | case4 _ _ _ _ _ _ other => exact absurd (only _ mem_cons_self) other
  | case5 _ _ _ _ _ _ _ _ ih => exact ih (onlyInterrupted_cons.mp only).2
  | case6 => rfl

/-- After a block that was written `errno` is `EINTR` if it was before or if a write was
interrupted. -/
theorem writeLoop_errno (silent : Silent writes)
    (finished : (writeLoop before block writes nwrite nread errno written).finished = true) :
    (writeLoop before block writes nwrite nread errno written).errno = eintr ↔
      errno = eintr ∨ BlockInterrupted nread writes := by
  fun_induction writeLoop before block writes nwrite nread errno written with
  | case1 => simp [BlockInterrupted]
  | case2 limit leaves _ _ _ _ _ _ _ more ih =>
    obtain ⟨rfl, behind⟩ := forall_mem_cons.mp silent
    rw [ih behind finished, BlockInterrupted, and_iff_right more]
    rfl
  | case3 limit leaves _ _ _ _ _ _ _ last =>
    obtain ⟨rfl, -⟩ := forall_mem_cons.mp silent
    rw [BlockInterrupted, or_iff_left fun hit => last hit.1]
    rfl
  | case4 => cases finished
  | case5 _ _ _ _ _ _ again _ ih =>
    have again := not_not.mp again
    rw [ih (forall_mem_cons.mp silent).2 finished]
    exact iff_of_true (.inl again) (.inr again)
  | case6 _ _ _ _ _ _ again =>
    have again := not_not.mp again
    exact iff_of_true again (.inr again)

end Block

/-- A call of the next turn is interrupted: the read, or a write of the block it gives. -/
def CopyInterrupted (s : CopyState) : Prop :=
  ReadInterrupted s.source ∨ ∃ block errno source,
    s.source.read alpmBufferSize s.errno = (some block, errno, source) ∧ block ≠ [] ∧
      BlockInterrupted block.length s.writes

theorem copyInterrupted_iff {s : CopyState} {block : List UInt8} {errno : Errno}
    {source : Source UInt8 Errno}
    (read : s.source.read alpmBufferSize s.errno = (some block, errno, source)) (some : block ≠ []) :
    CopyInterrupted s ↔ BlockInterrupted block.length s.writes := by
  obtain ⟨answered, -⟩ := Source.read_some_answer read
  constructor
  · rintro (hit | ⟨block', errno', source', got, -, hit⟩)
    · exact absurd hit (ReadAnswered.not_interrupted answered)
    · cases read.symm.trans got
      exact hit
  · exact fun hit => .inr ⟨block, errno, source, read, some, hit⟩

inductive CopyGoes (before : UInt8) (s next : CopyState) : Prop where
  | interrupted (hit : ReadInterrupted s.source) (errno : next.errno = eintr)
      (answers : next.source.answers = s.source.answers.tail)
      (rest : next.source.rest = s.source.rest) (writes : next.writes = s.writes)
  | block {bytes : List UInt8} {used : List (Answer Errno)} (answered : ReadAnswered s.source)
      (answers : next.source.answers = s.source.answers.tail)
      (rest : s.source.rest = bytes ++ next.source.rest)
      (split : s.writes = used ++ next.writes) (only : OnlyInterrupted used)
      (took : s.writes ≠ [] → used ≠ [])
      (goes : Silent s.source.answers → bytes ≠ [] ∨ s.errno = eintr)
      (errno : Silent s.source.answers → Silent s.writes →
        (next.errno = eintr ↔ s.errno = eintr ∨ CopyInterrupted s))

theorem copyTurn_goes {before : UInt8} {s next : CopyState} (turn : copyTurn before s = .inl next) :
    CopyGoes before s next := by
  have tail := Source.read_answers alpmBufferSize s.errno s.source
  cases copyTurn_inl turn with
  | interrupted read again =>
    obtain ⟨answers, rest⟩ := Source.read_none read
    rw [read] at tail
    exact .interrupted ⟨_, again ▸ answers⟩ again tail rest rfl
  | block read goes wrote finished =>
    subst wrote
    rw [read] at tail
    obtain ⟨rest, -⟩ := Source.read_some alpmBufferSize_pos read
    obtain ⟨answered, silent⟩ := Source.read_some_answer read
    obtain ⟨used, split, only, took⟩ := writeLoop_used finished
    refine .block answered tail rest split only took ?_ ?_
    · intro quiet
      rw [← silent quiet]
      exact goes.imp_left length_pos_iff.mp
    · intro quiet quietWrites
      rw [writeLoop_errno quietWrites finished, silent quiet]
      by_cases marked : s.errno = eintr
      · exact iff_of_true (.inl marked) (.inl marked)
      · have some := (goes.resolve_right (silent quiet ▸ marked))
        rw [or_iff_right marked, or_iff_right marked]
        exact (copyInterrupted_iff read (length_pos_iff.mp some)).symm

def CopyState.Broken (s : CopyState) : Prop := Dulge.Broken s.source.answers ∨ Dulge.Broken s.writes

structure CopyState.Undamaged (s : CopyState) : Prop where
  reads : Dulge.Undamaged s.source.answers
  writes : Dulge.Undamaged s.writes

theorem CopyState.Undamaged.goes {before : UInt8} {s next : CopyState} (sound : s.Undamaged)
    (goes : CopyGoes before s next) : next.Undamaged := by
  cases goes with
  | interrupted _ _ answers _ writes => exact ⟨answers ▸ sound.reads.tail, writes ▸ sound.writes⟩
  | block _ answers _ split =>
    exact ⟨answers ▸ sound.reads.tail, sound.writes.of_suffix ⟨_, split.symm⟩⟩

/-- Without a failure for good, the loop goes on while there is something to copy or `errno` is
`EINTR`. -/
theorem exists_copyTurn {before : UInt8} {s : CopyState} (sound : s.Undamaged)
    (hit : s.errno = eintr ∨ CopyInterrupted s) : ∃ next, copyTurn before s = .inl next := by
  unfold copyTurn
  cases read : s.source.read alpmBufferSize s.errno with
  | mk got after =>
    obtain ⟨errno, source⟩ := after
    cases got with
    | none =>
      obtain ⟨answers, -⟩ := Source.read_none read
      exact ⟨_, if_pos (sound.reads.only errno (answers ▸ mem_cons_self))⟩
    | some block =>
      obtain ⟨answered, silent⟩ := Source.read_some_answer read
      have goes : 0 < block.length ∨ errno = eintr := by
        rcases hit with marked | early | ⟨block', errno', source', got, some, -⟩
        · exact .inr ((silent sound.reads.silent).trans marked)
        · exact absurd early (ReadAnswered.not_interrupted answered)
        · cases read.symm.trans got
          exact .inl (length_pos_iff.mpr some)
      simp only [if_pos goes, writeLoop_finished_of_only sound.writes.only, if_true]
      exact ⟨_, rfl⟩

theorem copyTurn_ends_of_broken {before : UInt8} {s : CopyState} (broken : s.Broken) :
    Ends (copyTurn before) s := by
  refine ends_of_measure CopyState.Broken
    (fun s => s.source.answers.length + s.writes.length + s.source.rest.length) ?_ broken
  intro s next broken turn
  cases copyTurn_goes turn with
  | interrupted hit _ answers rest writes =>
    refine ⟨broken.imp (fun reads => answers ▸ (reads.tail hit.fine).1) (writes ▸ ·), ?_⟩
    obtain ⟨later, hit⟩ := hit
    rw [writes, rest, answers, hit, tail_cons, length_cons]
    omega
  | @block bytes used answered answers rest split only took =>
    have less : s.source.answers.tail.length ≤ s.source.answers.length := by simp
    have writes : s.writes.length = used.length + next.writes.length := by
      rw [split, length_append]
    have left : s.source.rest.length = bytes.length + next.source.rest.length := by
      rw [rest, length_append]
    rcases broken with reads | ⟨error, failed, other⟩
    · obtain ⟨behind, shorter⟩ :=
        reads.tail fun error later here => absurd here (answered error later)
      exact ⟨.inl (answers ▸ behind), by rw [answers]; omega⟩
    · have some : 0 < used.length := length_pos_iff.mpr (took (ne_nil_of_mem failed))
      rw [split] at failed
      have behind : .failed error ∈ next.writes := by
        rcases mem_append.mp failed with early | behind
        · exact absurd (only error early) other
        · exact behind
      exact ⟨.inr ⟨error, behind, other⟩, by rw [answers]; omega⟩

theorem copyTurn_ends_iff {before : UInt8} {s : CopyState} (reads : Silent s.source.answers)
    (writes : Silent s.writes) : Ends (copyTurn before) s ↔ s.Broken ∨
      (s.errno ≠ eintr ∧ ∀ t, Reaches (copyTurn before) s t → ¬ CopyInterrupted t) := by
  by_cases broken : s.Broken
  · exact iff_of_true (copyTurn_ends_of_broken broken) (.inl broken)
  rw [or_iff_right broken]
  obtain ⟨readsFine, writesFine⟩ := not_or.mp broken
  have sound : s.Undamaged := ⟨⟨reads, onlyInterrupted_of_not_broken readsFine⟩,
    ⟨writes, onlyInterrupted_of_not_broken writesFine⟩⟩
  refine ends_iff_no_hit CopyState.Undamaged (·.errno = eintr) CopyInterrupted
    (·.source.rest.length) ?_ ?_ sound
  · intro s sound hit
    obtain ⟨next, turn⟩ : ∃ next, copyTurn before s = .inl next := exists_copyTurn sound hit
    have goes := copyTurn_goes turn
    refine ⟨next, turn, sound.goes goes, ?_⟩
    cases goes with
    | interrupted _ errno => exact errno
    | block _ _ _ _ _ _ _ errno => exact (errno sound.reads.silent sound.writes.silent).mpr hit
  · intro s next sound unmarked unhit turn
    have goes := copyTurn_goes turn
    refine ⟨sound.goes goes, ?_⟩
    cases goes with
    | interrupted hit => exact absurd (.inl hit) unhit
    | @block bytes _ _ _ rest _ _ _ some errno =>
      have kept := errno sound.reads.silent sound.writes.silent
      refine ⟨fun marked => (kept.mp marked).elim unmarked unhit, ?_⟩
      have more : bytes ≠ [] := (some sound.reads.silent).resolve_right unmarked
      rw [rest, length_append]
      exact Nat.lt_add_of_pos_left (length_pos_iff.mpr more)

/-! ### The three functions -/

/-- The read loop of `md5_file` or `sha256_file`, if it is entered, ends: some `read` fails for
good, or neither `errno` at the call nor an `open` nor a `read` up to the end of the file is
`EINTR`. -/
def DigestCalm (sys : DigestSystem) (content : List UInt8) : Prop :=
  ∀ start, digestStart sys content = some start → Broken sys.reads ∨
    ((sys.errno ≠ eintr ∧ sys.opens = []) ∧
      ∀ t, Reaches digestTurn start t → ¬ ReadInterrupted t.source)

/-- The same for `_alpm_copyfile`, with its two `open` loops and its writes. -/
def CopyCalm (sys : CopySystem) (src : RegularFile) : Prop :=
  ∀ start, copyStart sys src = some start → (Broken sys.reads ∨ Broken sys.writes) ∨
    ((sys.errno ≠ eintr ∧ sys.openIn = [] ∧ sys.openOut = []) ∧
      ∀ t, Reaches (copyTurn sys.before) start t → ¬ CopyInterrupted t)

theorem digestStart_some {sys : DigestSystem} {content : List UInt8} {start : DigestState}
    (started : digestStart sys content = some start) :
    start.source = ⟨content, sys.reads⟩ ∧
      (start.errno = eintr ↔ sys.errno = eintr ∨ sys.opens ≠ []) := by
  simp only [digestStart, Bool.and_eq_true] at started
  split at started
  next all =>
    cases started
    exact ⟨rfl, openLoop_errno all.2⟩
  next => cases started

theorem digestFile_ends_iff (digest : List UInt8 → List UInt8) {sys : DigestSystem}
    {content : List UInt8} (silent : Silent sys.reads) :
    (∃ turns, (digestFile digest sys content turns).isSome = true) ↔ DigestCalm sys content := by
  unfold digestFile DigestCalm
  cases started : digestStart sys content with
  | none => simp
  | some start =>
    obtain ⟨source, errno⟩ := digestStart_some started
    have ends := digestTurn_ends_iff (s := start) (source ▸ silent)
    simp only [Option.isSome_map, Option.some.injEq, forall_eq']
    rw [show (∃ turns, (within digestTurn turns start).isSome = true) ↔ Ends digestTurn start
      from Iff.rfl, ends, source, ne_eq, errno]
    simp [not_or]

theorem copyfile_ends_iff {sys : CopySystem} {src dest : RegularFile} (reads : Silent sys.reads)
    (writes : Silent sys.writes) :
    (∃ turns, (copyfile sys src dest turns).isSome = true) ↔ CopyCalm sys src := by
  unfold copyfile CopyCalm
  cases started : copyStart sys src with
  | none => simp
  | some start =>
    obtain ⟨source, answers, -, errno⟩ := copyStart_some started
    have ends : Ends (copyTurn sys.before) start ↔ _ :=
      copyTurn_ends_iff (source ▸ reads) (answers ▸ writes)
    simp only [Option.isSome_map, Option.some.injEq, forall_eq']
    rw [show (∃ turns, (within (copyTurn sys.before) turns start).isSome = true) ↔
      Ends (copyTurn sys.before) start from Iff.rfl, ends, ne_eq, errno, CopyState.Broken, source,
      answers]
    simp [not_or]

/-- The read loops end exactly when no interruption lies behind at the end of the file. -/
theorem readLoops_end_iff (md5 sha256 : List UInt8 → List UInt8) (digesting : DigestSystem)
    (content : List UInt8) (copying : CopySystem) (src dest : RegularFile)
    (digestReads : Silent digesting.reads) (copyReads : Silent copying.reads)
    (copyWrites : Silent copying.writes) :
    ((∃ turns, (md5File md5 digesting content turns).isSome = true) ↔
      DigestCalm digesting content) ∧
    ((∃ turns, (sha256File sha256 digesting content turns).isSome = true) ↔
      DigestCalm digesting content) ∧
    ((∃ turns, (copyfile copying src dest turns).isSome = true) ↔ CopyCalm copying src) :=
  ⟨digestFile_ends_iff md5 digestReads, digestFile_ends_iff sha256 digestReads,
    copyfile_ends_iff copyReads copyWrites⟩

/-- A digest that meets an error behind an interrupted `read`, and a copy of two blocks, the first
of them in two writes. -/
theorem readLoops_calm_blocks :
    DigestCalm ⟨true, 0, [], [.done 2 none, .failed eintr, .failed 5]⟩ [1, 2, 3] ∧
      CopyCalm { copyingSystem [.done 1 none] with reads := [.done 2 none] } ⟨[1, 2, 3], 420⟩ := by
  have ends := readLoops_end_iff id id ⟨true, 0, [], [.done 2 none, .failed eintr, .failed 5]⟩
    [1, 2, 3] { copyingSystem [.done 1 none] with reads := [.done 2 none] } ⟨[1, 2, 3], 420⟩ ⟨[], 0⟩
    (by simp [Silent, Answer.Silent]) (by simp [Silent, Answer.Silent])
    (by simp [Silent, Answer.Silent, copyingSystem])
  exact ⟨ends.1.mp ⟨3, rfl⟩, ends.2.2.mp ⟨3, rfl⟩⟩

/-- One interrupted `read` of a file of one byte, or `EINTR` in `errno` when the copy is called:
the loops never end. -/
theorem readLoops_never_end :
    (∀ turns, md5File id ⟨true, 0, [], [.failed eintr]⟩ [1] turns = none) ∧
    (∀ turns, sha256File id ⟨true, 0, [], [.failed eintr]⟩ [1] turns = none) ∧
    ∀ turns, copyfile { copyingSystem [] with errno := eintr } ⟨[1], 420⟩ ⟨[], 0⟩ turns = none := by
  have digest (turns : Nat) : digestFile id ⟨true, 0, [], [.failed eintr]⟩ [1] turns = none := by
    have silent : Silent [.failed eintr] := by simp [Silent, Answer.Silent]
    rw [← Option.not_isSome_iff_eq_none]
    intro ended
    rcases (digestFile_ends_iff id silent).mp ⟨turns, ended⟩ _ rfl with ⟨error, failed, other⟩ | calm
    · exact other (by simpa using failed)
    · exact calm.2 _ .refl ⟨[], rfl⟩
  refine ⟨digest, digest, fun turns => ?_⟩
  have silent : Silent [] := fun _ member => nomatch member
  rw [← Option.not_isSome_iff_eq_none]
  intro ended
  rcases (copyfile_ends_iff silent silent).mp ⟨turns, ended⟩ _ rfl with broken | calm
  · rcases broken with ⟨_, failed, _⟩ | ⟨_, failed, _⟩
    · cases failed
    · cases failed
  · exact calm.1.1 rfl

end Dulge
