import Dulge.Lib.Buffer
import Dulge.Multiselect

/-! `multiselect_question`: prompting for a selection until an answer is valid. An answer is read
with `fgets` into a buffer that is made longer while the line has not ended, which is told from
the two bytes at the end of the buffer. The buffer, these two bytes included, is kept for the next
prompt. Reads are not interrupted, and the standard input is no terminal. -/
namespace Dulge
open List

/-- What `malloc` and `realloc` return, and what `multiselect_parse` leaves in the bytes of its text,
which it cuts into tokens. -/
structure QuestionEnv where
  noconfirm : Bool
  count : Int
  alloc : Nat → Bool
  scribble : CStr → Nat → UInt8

/-- The buffer, which `realloc` has made longer `grown` times, and the unread input. -/
structure Response where
  memory : Nat → UInt8
  grown : Nat
  stdin : CStr

namespace Response

/-- `response_len` -/
def size (r : Response) : Nat := 64 * (r.grown + 1)

/-- `*lastchar` -/
def lastchar (r : Response) : UInt8 := r.memory (r.size - 1)

/-- `lastchar[-1]` -/
def beforeLast (r : Response) : UInt8 := r.memory (r.size - 2)

/-- `fgets` into the buffer: nothing is read at the end of the input, or into no room at all. -/
def fgets (r : Response) (offset : Nat) (n : Int) : Option (CStr × Response) :=
  let taken := LineReader.takeLine newline (n - 1).toNat r.stdin
  if n ≤ 0 ∨ (n ≠ 1 ∧ r.stdin = []) then none
  else some (taken.1,
    { r with memory := Buffer.write r.memory offset (taken.1 ++ [0]), stdin := taken.2 })

def grow (r : Response) : Response :=
  { r with
    memory := Buffer.write r.memory (r.size + 64 - 1) [1]
    grown := r.grown + 1 }

/-- `strtrim` on the buffer, with the length that it returns. -/
def trim (r : Response) : Nat × Response :=
  let str := Buffer.string 0 r.memory r.size
  let pch := str.dropWhile isspace
  if str = [] then (0, r)
  else if pch ≠ str ∧ pch = [] then (0, { r with memory := Buffer.write r.memory 0 [0] })
  else
    let memory := if pch ≠ str then Buffer.write r.memory 0 (pch ++ [0]) else r.memory
    let kept := pch.rdropWhile isspace
    (kept.length, { r with memory := Buffer.write memory kept.length [0] })

end Response

/-- How far a line was read: the bytes taken from the input for it, and whether it was an error. -/
structure LineRead where
  consumed : CStr
  failed : Bool
  response : Response

/-- The loop for lines that do not fit; `none` only if `fuel` runs out. -/
def readRest (env : QuestionEnv) : Nat → CStr → Response → Option LineRead
  | 0, _, _ => none
  | fuel + 1, consumed, r =>
    if r.lastchar = 0 ∧ r.beforeLast ≠ newline then
      if env.alloc (r.size + 64) then
        match r.grow.fgets (r.grow.size - 64 - 1) 65 with
        | none => some ⟨consumed, true, r.grow⟩
        | some (chunk, r) => readRest env fuel (consumed ++ chunk) r
      else some ⟨consumed, true, r⟩
    else some ⟨consumed, false, r⟩

/-- A prompt: what it met, what it took from the input and the text that was given to
`multiselect_parse`. -/
structure Prompt where
  before : Response
  consumed : CStr
  parsed : Option CStr

/-- The result of `multiselect_question`, the array, the prompts and what is left of the input. -/
structure Question where
  ret : Int
  array : Selected
  prompts : List Prompt
  stdin : CStr

/-- `memset(array, 1, count)` -/
def selectAll (count : Int) (array : Selected) : Selected :=
  fun i => if 0 ≤ i ∧ i < count then 1 else array i

/-- What is known of an answer when `multiselect_parse` returns. -/
def answered (env : QuestionEnv) (array : Selected) (r : Response) :
    Option CStr × Multiselect × Response :=
  let trimmed := r.trim
  if trimmed.1 > 0 then
    let text := Buffer.string 0 trimmed.2.memory trimmed.2.size
    (some text, multiselectParse array env.count text,
      { trimmed.2 with memory := fun i =>
        if i < text.length then env.scribble text i else trimmed.2.memory i })
  else (none, ⟨0, array, none⟩, trimmed.2)

inductive Turn where
  | done (question : Question)
  | again (prompts : List Prompt) (array : Selected) (r : Response)

def afterAnswer (prompts : List Prompt) (r : Response) (consumed : CStr)
    (answer : Option CStr × Multiselect × Response) : Turn :=
  if answer.2.1.ret = -1 then
    .again (prompts ++ [⟨r, consumed, answer.1⟩]) answer.2.1.array answer.2.2
  else .done ⟨0, answer.2.1.array, prompts ++ [⟨r, consumed, answer.1⟩], answer.2.2.stdin⟩

def afterLine (env : QuestionEnv) (prompts : List Prompt) (array : Selected) (r : Response)
    (line : LineRead) : Turn :=
  if line.failed then .done ⟨-1, array, prompts ++ [⟨r, line.consumed, none⟩], line.response.stdin⟩
  else afterAnswer prompts r line.consumed (answered env array line.response)

/-- One turn of the loop of `multiselect_question`. -/
def questionTurn (env : QuestionEnv) (prompts : List Prompt) (array : Selected) (r : Response) :
    Option Turn :=
  if env.noconfirm then
    some (.done ⟨0, selectAll env.count array, prompts ++ [⟨r, [], none⟩], r.stdin⟩)
  else
    match r.fgets 0 (toInt r.size) with
    | none => some (.done ⟨-1, selectAll env.count array, prompts ++ [⟨r, [], none⟩], r.stdin⟩)
    | some (chunk, read) =>
      (readRest env (read.stdin.length + 1) chunk read).map
        (afterLine env prompts (selectAll env.count array) r)

/-- The loop of `multiselect_question`; `none` only if `fuel` runs out. -/
def questionLoop (env : QuestionEnv) : Nat → List Prompt → Selected → Response → Option Question
  | 0, _, _, _ => none
  | fuel + 1, prompts, array, r =>
    match questionTurn env prompts array r with
    | none => none
    | some (.done question) => some question
    | some (.again prompts array r) => questionLoop env fuel prompts array r

/-- `multiselect_question`, on memory as `malloc` hands it out -/
def multiselectQuestion (env : QuestionEnv) (memory : Nat → UInt8) (array : Selected)
    (stdin : CStr) :
    Option Question :=
  if env.alloc 64 then
    questionLoop env (stdin.length + 1) [] array ⟨Buffer.write memory 63 [1], 0, stdin⟩
  else some ⟨-1, array, [], stdin⟩

section Reading

open Buffer

variable {env : QuestionEnv} {r : Response} {line text : CStr}

/-- `fgets` where a line is ahead. -/
theorem fgets_line (whole : newline ∉ line) (ahead : r.stdin = line ++ newline :: text)
    (offset : Nat)
    {n : Int} (room : 1 < n) : r.fgets offset n = some ((line ++ [newline]).take (n - 1).toNat,
      { r with
        memory := write r.memory offset ((line ++ [newline]).take (n - 1).toNat ++ [0])
        stdin := (line ++ [newline]).drop (n - 1).toNat ++ text }) := by
  have reads : ¬ (n ≤ 0 ∨ (n ≠ 1 ∧ r.stdin = [])) := by
    rw [ahead]
    simp
    omega
  unfold Response.fgets
  dsimp only
  rw [if_neg reads, ahead, LineReader.takeLine_line whole]

theorem readRest_ended (fuel : Nat) (consumed : CStr) (ended : r.beforeLast = newline) :
    readRest env (fuel + 1) consumed r = some ⟨consumed, false, r⟩ :=
  if_neg fun unended => unended.2 ended

theorem readRest_short (fuel : Nat) (consumed : CStr) (short : r.lastchar ≠ 0) :
    readRest env (fuel + 1) consumed r = some ⟨consumed, false, r⟩ :=
  if_neg fun unended => short unended.1

structure Whole (line text : CStr) (r : Response) : Prop where
  held : Holds r.memory 0 (line ++ [newline] ++ [0])
  fits : line.length + 1 < r.size
  behind : r.stdin = text

theorem beforeLast_of_holds {done : CStr} {c : UInt8} (held : Holds r.memory 0 (done ++ [c] ++ [0]))
    (filled : done.length + 2 = r.size) : r.beforeLast = c := by
  have place : r.size - 2 = done.length := by omega
  rw [Response.beforeLast, place]
  exact held.left.middle

/-- The buffer with the next 64 bytes of a line behind `done`, and the input behind them. -/
def Response.continued (r : Response) (done chunk rest : CStr) : Response :=
  ⟨write r.grow.memory done.length (chunk ++ [0]), r.grown + 1, rest⟩

/-- `done` fills the buffer, without a newline. -/
structure PartRead (done : CStr) (r : Response) : Prop where
  held : Holds r.memory 0 (done ++ [0])
  filled : done.length + 1 = r.size
  unended : newline ∉ done

theorem PartRead.unfinished {done : CStr} (part : PartRead done r) :
    r.lastchar = 0 ∧ r.beforeLast ≠ newline := by
  have size : r.size = 64 * (r.grown + 1) := rfl
  have filled := part.filled
  have place : r.size - 1 = done.length := by omega
  refine ⟨(congrArg r.memory place).trans part.held.middle, ?_⟩
  obtain rfl | ⟨front, c, rfl⟩ := eq_nil_or_concat' done
  · rw [length_nil] at filled
    omega
  · rw [length_append, length_singleton] at filled
    rw [beforeLast_of_holds part.held (by omega)]
    rintro rfl
    exact part.unended (by simp)

theorem PartRead.continued {done : CStr} (part : PartRead done r) (chunk rest : CStr) :
    Holds (r.continued done chunk rest).memory 0 (done ++ (chunk ++ [0])) ∧
      (r.continued done chunk rest).size = r.size + 64 := by
  have filled := part.filled
  have front : Holds r.grow.memory 0 done := part.held.left.write_outside (.inl (by omega))
  exact ⟨front.extend _, by simp only [Response.size, Response.continued]; omega⟩

theorem readRest_turn (memory : ∀ size, env.alloc size = true) (fuel : Nat) {done : CStr}
    (part : PartRead done r) (whole : newline ∉ line) (ahead : r.stdin = line ++ newline :: text) :
    readRest env (fuel + 1) done r = readRest env fuel (done ++ (line ++ [newline]).take 64)
      (r.continued done ((line ++ [newline]).take 64) ((line ++ [newline]).drop 64 ++ text)) := by
  have filled := part.filled
  have place : r.grow.size - 64 - 1 = done.length := by
    have grown : r.grow.size = r.size + 64 := by simp only [Response.size, Response.grow]; omega
    omega
  rw [readRest, if_pos part.unfinished, if_pos (memory _), place,
    fgets_line whole (r := r.grow) ahead done.length (by decide)]
  rfl

theorem line_split_inside {n : Nat} (long : n ≤ line.length) :
    (line ++ [newline]).take n = line.take n ∧
      (line ++ [newline]).drop n = line.drop n ++ [newline] :=
  ⟨take_append_of_le_length long, drop_append_of_le_length long⟩

theorem line_split_behind {n : Nat} (short : ¬ n ≤ line.length) :
    (line ++ [newline]).take n = line ++ [newline] ∧ (line ++ [newline]).drop n = [] := by
  have all : (line ++ [newline]).length ≤ n := by
    rw [length_append, length_singleton]
    omega
  exact ⟨take_of_length_le all, drop_of_length_le all⟩

/-- The loop on the rest of a line. The induction is on the turns, each of which takes 64 bytes of the
line or its end. -/
theorem readRest_line (memory : ∀ size, env.alloc size = true) {fuel : Nat} {done : CStr}
    (enough : line.length + 1 < fuel) (part : PartRead done r) (whole : newline ∉ line)
    (ahead : r.stdin = line ++ newline :: text) :
    ∃ r', readRest env fuel done r = some ⟨done ++ line ++ [newline], false, r'⟩ ∧
      Whole (done ++ line) text r' := by
  induction fuel generalizing done line r with
  | zero => omega
  | succ fuel ih =>
    have filled := part.filled
    rw [readRest_turn memory fuel part whole ahead]
    by_cases long : 64 ≤ line.length
    · obtain ⟨chunk, rest⟩ := line_split_inside long
      have full : (line.take 64).length = 64 := length_take_of_le long
      rw [chunk, rest]
      obtain ⟨held, size⟩ := part.continued (line.take 64) (line.drop 64 ++ [newline] ++ text)
      have next : PartRead (done ++ line.take 64)
          (r.continued done (line.take 64) (line.drop 64 ++ [newline] ++ text)) := by
        refine ⟨by rw [append_assoc done]; exact held, by rw [length_append]; omega, fun mem => ?_⟩
        exact (mem_append.mp mem).elim part.unended fun late => whole (mem_of_mem_take late)
      obtain ⟨r', read, stands⟩ := ih (by rw [length_drop]; omega) next
        (fun mem => whole (mem_of_mem_drop mem)) (append_assoc _ _ _)
      rw [append_assoc done, take_append_drop] at read stands
      exact ⟨r', read, stands⟩
    · obtain ⟨chunk, rest⟩ := line_split_behind long
      obtain ⟨turns, rfl⟩ : ∃ turns, fuel = turns + 1 := ⟨fuel - 1, by omega⟩
      rw [chunk, rest, nil_append, ← append_assoc]
      obtain ⟨held, size⟩ := part.continued (line ++ [newline]) text
      rw [← append_assoc, ← append_assoc] at held
      have length : (done ++ line).length = done.length + line.length := length_append
      refine ⟨_, ?_, held, by omega, rfl⟩
      by_cases full : line.length + 1 = 64
      · exact readRest_ended turns _ (beforeLast_of_holds held (by omega))
      · refine readRest_short turns _ ?_
        have place : (r.continued done (line ++ [newline]) text).size - 1 =
            r.size + 64 - 1 := by omega
        have outside : done.length + (line ++ [newline] ++ [0]).length ≤
            r.size + 64 - 1 := by simp; omega
        have kept : (r.continued done (line ++ [newline]) text).memory (r.size + 64 - 1)
            = r.grow.memory (r.size + 64 - 1) := write_of_outside (.inr outside)
        rw [Response.lastchar, place, kept]
        exact (holds_write r.memory (r.size + 64 - 1) [1] 0 1 rfl).trans_ne (by decide)

def Response.nextLine (r : Response) : CStr :=
  (LineReader.takeLine newline r.stdin.length r.stdin).1

/-- The buffer is no longer than an `int` can say, and its last two bytes, which the read of the next
line may leave as they are, do not say that the line goes on. -/
def Response.Steady (r : Response) : Prop :=
  r.stdin ≠ [] → r.size < 2 ^ 31 ∧
    (r.lastchar ≠ 0 ∨ r.size - 1 ≤ r.nextLine.length ∨
      (r.beforeLast = newline ∧ r.nextLine.length < r.size - 2))

theorem toInt_size_ne_one (r : Response) : toInt r.size ≠ 1 := by
  intro one
  have low : toInt r.size % ((2 ^ 32 : Nat) : Int) = (r.size : Int) % ((2 ^ 32 : Nat) : Int) :=
    Int.bmod_emod
  rw [one, Response.size] at low
  omega

theorem read_line (memory : ∀ size, env.alloc size = true) (steady : r.Steady)
    (whole : newline ∉ line) (ahead : r.stdin = line ++ newline :: text) :
    ∃ chunk read r', r.fgets 0 (toInt r.size) = some (chunk, read) ∧
      readRest env (read.stdin.length + 1) chunk read = some ⟨line ++ [newline], false, r'⟩ ∧
      Whole line text r' := by
  have size : r.size = 64 * (r.grown + 1) := rfl
  have next : r.nextLine = line ++ [newline] := by
    rw [Response.nextLine, ahead, LineReader.takeLine_fits whole (by simp)]
  obtain ⟨int, tail⟩ := steady (by simp [ahead])
  rw [next, length_append, length_singleton] at tail
  have same : toInt r.size = r.size := Int.bmod_eq_of_le_mul_two (by omega) (by omega)
  have room : ((r.size : Int) - 1).toNat = r.size - 1 := by omega
  have read := fgets_line whole ahead 0 (n := r.size) (by omega)
  rw [room] at read
  rw [same]
  by_cases long : r.size - 1 ≤ line.length
  · obtain ⟨chunk, rest⟩ := line_split_inside long
    rw [chunk, rest] at read
    have part : PartRead (line.take (r.size - 1))
        ⟨write r.memory 0 (line.take (r.size - 1) ++ [0]), r.grown, line.drop (r.size - 1) ++
          [newline] ++ text⟩ := by
      refine ⟨holds_write r.memory 0 (line.take (r.size - 1) ++ [0]),
        ?_, fun mem => whole (mem_of_mem_take mem)⟩
      rw [length_take_of_le long]
      exact Nat.sub_add_cancel (by omega)
    have enough : (line.drop (r.size - 1)).length + 1 <
        (line.drop (r.size - 1) ++ [newline] ++ text).length + 1 := by
      simp
    obtain ⟨r', rest, stands⟩ := readRest_line memory enough part
      (fun mem => whole (mem_of_mem_drop mem)) (append_assoc _ _ _)
    rw [take_append_drop] at rest stands
    exact ⟨_, _, r', read, rest, stands⟩
  · obtain ⟨chunk, rest⟩ := line_split_behind long
    rw [chunk, rest, nil_append] at read
    have held := holds_write r.memory 0 (line ++ [newline] ++ [0])
    have fits : line.length + 1 < r.size := by omega
    refine ⟨_, _, ⟨write r.memory 0 (line ++ [newline] ++ [0]), r.grown, text⟩, read, ?_, held,
      fits, rfl⟩
    have length : (line ++ [newline] ++ [0]).length = line.length + 2 := by simp
    by_cases full : line.length + 2 = r.size
    · exact readRest_ended _ _ (beforeLast_of_holds held full)
    · have last : write r.memory 0 (line ++ [newline] ++ [0]) (r.size - 1) = r.lastchar :=
        write_of_outside (.inr (by omega))
      rcases tail with short | fills | ⟨ended, short⟩
      · exact readRest_short _ _ (last.trans_ne short)
      · omega
      · have before : write r.memory 0 (line ++ [newline] ++ [0]) (r.size - 2) = r.beforeLast :=
          write_of_outside (.inr (by omega))
        exact readRest_ended _ _ (before.trans ended)

/-- `strtrim` on a string in the buffer. -/
theorem trim_string {str : CStr} (held : Holds r.memory 0 (str ++ [0])) (plain : (0 : UInt8) ∉ str)
    (fits : str.length < r.size) :
    r.trim.1 = (strtrim str).length ∧
      Buffer.string 0 r.trim.2.memory r.trim.2.size = strtrim str := by
  have same : Buffer.string 0 r.memory r.size = str := string_of_holds held plain fits
  have suffix : str.dropWhile isspace <:+ str := dropWhile_suffix _
  have kept : strtrim str <+: str.dropWhile isspace := List.rdropWhile_prefix _ _
  have cut : ∀ {memory : Nat → UInt8}, Holds memory 0 (str.dropWhile isspace ++ [0]) →
      Buffer.string 0 (write memory (strtrim str).length [0]) r.size = strtrim str := by
    intro memory moved
    have ⟨tail, whole⟩ := kept
    rw [← whole, append_assoc] at moved
    exact string_of_holds (moved.left.extend [0])
      (fun mem => plain (suffix.subset (kept.subset mem)))
      ((kept.length_le.trans suffix.length_le).trans_lt fits)
  unfold Response.trim
  rw [same]
  dsimp only
  split_ifs with empty blank moved
  · subst empty
    exact ⟨rfl, same⟩
  · rw [strtrim, blank.2]
    exact ⟨rfl, string_of_holds (holds_write r.memory 0 [0]) not_mem_nil (Nat.zero_lt_of_lt fits)⟩
  · exact ⟨rfl, cut (holds_write r.memory 0 _)⟩
  · rw [not_not] at moved
    exact ⟨rfl, cut (moved.symm ▸ held)⟩

theorem trim_stdin (r : Response) : r.trim.2.stdin = r.stdin := by
  unfold Response.trim
  dsimp only
  split_ifs <;> rfl

theorem answered_stdin (env : QuestionEnv) (array : Selected) (r : Response) :
    (answered env array r).2.2.stdin = r.stdin := by
  unfold answered
  dsimp only
  split <;> exact trim_stdin r

theorem strtrim_newline (line : CStr) : strtrim (line ++ [newline]) = strtrim line := by
  unfold strtrim
  by_cases blank : ∀ c ∈ line, isspace c = true
  · rw [dropWhile_append_of_pos blank, dropWhile_eq_nil_iff.mpr blank]
    rfl
  · obtain ⟨c, rest, shape⟩ := exists_cons_of_ne_nil (mt dropWhile_eq_nil_iff.mp blank)
    rw [dropWhile_append, shape]
    exact rdropWhile_concat_pos _ _ _ (by decide)

theorem answered_line (array : Selected) (stands : Whole line text r) (plain : (0 : UInt8) ∉ line) :
    (answered env array r).1 = if strtrim line = [] then none else some (strtrim line) := by
  obtain ⟨length, string⟩ := trim_string stands.held (by simpa [newline] using plain)
    (by simpa using stands.fits)
  rw [strtrim_newline] at length string
  unfold answered
  dsimp only
  rw [length, string]
  by_cases blank : strtrim line = []
  · rw [if_pos blank, if_neg (by simp [blank])]
  · rw [if_neg blank, if_pos (length_pos_iff.mpr blank)]

end Reading

section Runs

variable {env : QuestionEnv} {r : Response}

theorem fgets_shorter {offset : Nat} {n : Int} {chunk : CStr} {r' : Response}
    (read : r.fgets offset n = some (chunk, r')) (room : n ≠ 1) :
    r'.stdin.length < r.stdin.length := by
  unfold Response.fgets at read
  dsimp only at read
  split at read
  · cases read
  · rename_i reads
    cases read
    obtain ⟨c, rest, ahead⟩ :=
      exists_cons_of_ne_nil fun empty : r.stdin = [] => reads (.inr ⟨room, empty⟩)
    obtain ⟨places, some_⟩ : ∃ places, (n - 1).toNat = places + 1 := ⟨(n - 2).toNat, by omega⟩
    have both := LineReader.takeLine_length newline (places + 1) (c :: rest)
    have taken : 0 < (LineReader.takeLine newline (places + 1) (c :: rest)).1.length := by
      rw [LineReader.takeLine]
      split <;> simp
    dsimp only
    rw [ahead, some_]
    omega

theorem readRest_total (env : QuestionEnv) {fuel : Nat} (consumed : CStr)
    (enough : r.stdin.length < fuel) :
    ∃ out, readRest env fuel consumed r = some out ∧
      out.response.stdin.length ≤ r.stdin.length := by
  induction fuel generalizing consumed r with
  | zero => omega
  | succ fuel ih =>
    rw [readRest]
    split_ifs
    · cases read : r.grow.fgets (r.grow.size - 64 - 1) 65 with
      | none => exact ⟨_, rfl, le_rfl⟩
      | some next =>
        have shorter : next.2.stdin.length < r.stdin.length :=
          fgets_shorter (r := r.grow) read (by decide)
        obtain ⟨out, rest, less⟩ := ih (consumed ++ next.1) (by omega : next.2.stdin.length < fuel)
        exact ⟨out, rest, by omega⟩
    · exact ⟨_, rfl, le_rfl⟩
    · exact ⟨_, rfl, le_rfl⟩

variable (prompts : List Prompt) (array : Selected)

theorem questionTurn_read (asks : env.noconfirm = false) {chunk : CStr} {read : Response}
    (found : r.fgets 0 (toInt r.size) = some (chunk, read)) :
    questionTurn env prompts array r = (readRest env (read.stdin.length + 1) chunk read).map
      (afterLine env prompts (selectAll env.count array) r) := by
  rw [questionTurn, if_neg (by simp [asks]), found]

theorem questionTurn_ended (asks : env.noconfirm = false)
    (ended : r.fgets 0 (toInt r.size) = none) :
    questionTurn env prompts array r
      = some (.done ⟨-1, selectAll env.count array, prompts ++ [⟨r, [], none⟩], r.stdin⟩) := by
  rw [questionTurn, if_neg (by simp [asks]), ended]

theorem questionTurn_total : ∃ p, p.before = r ∧
      ((∃ run, questionTurn env prompts array r = some (.done run) ∧ run.prompts = prompts ++ [p]) ∨
        ∃ array' r', questionTurn env prompts array r = some (.again (prompts ++ [p]) array' r') ∧
          r'.stdin.length < r.stdin.length) := by
  cases asks : env.noconfirm with
  | true => exact ⟨_, rfl, .inl ⟨_, if_pos asks, rfl⟩⟩
  | false =>
    cases found : r.fgets 0 (toInt r.size) with
    | none => exact ⟨_, rfl, .inl ⟨_, questionTurn_ended prompts array asks found, rfl⟩⟩
    | some next =>
      obtain ⟨chunk, read⟩ := next
      have shorter := fgets_shorter found (toInt_size_ne_one r)
      obtain ⟨out, rest, less⟩ := readRest_total env chunk (Nat.lt_succ_self read.stdin.length)
      have turn := questionTurn_read prompts array asks found
      rw [rest, Option.map_some, afterLine] at turn
      split at turn
      · exact ⟨_, rfl, .inl ⟨_, turn, rfl⟩⟩
      · rw [afterAnswer] at turn
        split at turn
        · refine ⟨_, rfl, .inr ⟨_, _, turn, ?_⟩⟩
          rw [answered_stdin]
          omega
        · exact ⟨_, rfl, .inl ⟨_, turn, rfl⟩⟩

theorem questionLoop_total {fuel : Nat} (enough : r.stdin.length < fuel) :
    ∃ run p later, questionLoop env fuel prompts array r = some run ∧
      p.before = r ∧ run.prompts = prompts ++ p :: later := by
  induction fuel generalizing prompts array r with
  | zero => omega
  | succ fuel ih =>
    obtain ⟨p, before, ⟨run, turn, log⟩ | ⟨array', r', turn, shorter⟩⟩ :=
      questionTurn_total prompts array
    · exact ⟨run, p, [], by rw [questionLoop, turn], before, log⟩
    · obtain ⟨run, q, later, ended, _, log⟩ :=
        ih (prompts ++ [p]) array' (by omega : r'.stdin.length < fuel)
      exact ⟨run, p, q :: later, by rw [questionLoop, turn]; exact ended, before,
        by rw [log, append_assoc, singleton_append]⟩

theorem fgets_end (offset : Nat) {n : Int} (room : n ≠ 1) (ended : r.stdin = []) :
    r.fgets offset n = none :=
  if_pos (.inr ⟨room, ended⟩)

def linesText (lines : List CStr) : CStr := lines.flatMap (· ++ [newline])

/-- A prompt took the line and nothing else, and what was parsed is the line without the white space
around it, unless nothing is left of it then. -/
structure Prompt.Reads (p : Prompt) (line : CStr) : Prop where
  consumed : p.consumed = line ++ [newline]
  parsed : p.parsed = if strtrim line = [] then none else some (strtrim line)

structure Question.OneLineEach (run : Question) (lines : List CStr) (asked : List Prompt) :
    Prop where
  left : run.stdin = linesText (lines.drop asked.length)
  reads : ∀ (j : Nat) (p : Prompt) (line : CStr), asked[j]? = some p → lines[j]? = some line →
    p.Reads line
  ended : ∀ (j : Nat) (p : Prompt), asked[j]? = some p → lines[j]? = none → p.consumed = [] ∧
    p.parsed = none ∧ run.ret = -1

theorem Question.OneLineEach.cons {run : Question} {lines : List CStr} {asked : List Prompt}
    {p : Prompt} {line : CStr} (later : run.OneLineEach lines asked) (reads : p.Reads line) :
    run.OneLineEach (line :: lines) (p :: asked) := by
  refine ⟨later.left, fun j q text asks there => ?_, fun j q asks missing => ?_⟩
  · cases j with
    | zero =>
      cases asks
      cases there
      exact reads
    | succ j => exact later.reads j q text asks there
  · cases j with
    | zero => cases missing
    | succ j => exact later.ended j q asks missing

/-- The loop of prompts. The induction is on its turns; a prompt that is not steady is not followed
further. -/
theorem questionLoop_lines (asks : env.noconfirm = false) (memory : ∀ size, env.alloc size = true)
    {lines : List CStr} (clean : ∀ line ∈ lines, (0 : UInt8) ∉ line ∧ newline ∉ line) {fuel : Nat}
    (ahead : r.stdin = linesText lines) (enough : r.stdin.length < fuel) (prompts : List Prompt)
    (array : Selected) :
    ∃ run asked, questionLoop env fuel prompts array r = some run ∧ run.prompts = prompts ++ asked ∧
      ((∀ p ∈ asked, p.before.Steady) → run.OneLineEach lines asked) := by
  induction fuel generalizing lines prompts array r with
  | zero => omega
  | succ fuel ih =>
    cases lines with
    | nil =>
      have turn := questionTurn_ended prompts array asks (fgets_end 0 (toInt_size_ne_one r) ahead)
      refine ⟨_, _, by rw [questionLoop, turn],
        rfl, fun _ => ⟨ahead, fun j p line _ there => (by cases there), ?_⟩⟩
      intro j p asked _
      obtain rfl := mem_singleton.mp (mem_of_getElem? asked)
      exact ⟨rfl, rfl, rfl⟩
    | cons line lines =>
      obtain ⟨plain, whole⟩ := clean line mem_cons_self
      have first : r.stdin = line ++ newline :: linesText lines := by
        rw [ahead, linesText, flatMap_cons, append_assoc]
        rfl
      by_cases steady : r.Steady
      · obtain ⟨chunk, read, r', found, rest, stands⟩ := read_line memory steady whole first
        obtain ⟨answer, given⟩ : ∃ answer, answered env (selectAll env.count array) r' = answer :=
          ⟨_, rfl⟩
        have turn : questionTurn env prompts array r
            = some (afterAnswer prompts r (line ++ [newline]) answer) := by
          rw [questionTurn_read prompts array asks found, rest, ← given]
          rfl
        have reads : Prompt.Reads ⟨r, line ++ [newline], answer.1⟩ line :=
          ⟨rfl, given ▸ answered_line _ stands plain⟩
        have behind : answer.2.2.stdin = linesText lines := by
          rw [← given, answered_stdin, stands.behind]
        rw [afterAnswer] at turn
        split at turn
        · have less : answer.2.2.stdin.length < fuel := by
            rw [behind]
            rw [first, length_append, length_cons] at enough
            omega
          obtain ⟨run, asked, ended, log, each⟩ := ih (fun l mem => clean l (mem_cons_of_mem _ mem))
            behind less (prompts ++ [⟨r, line ++ [newline], answer.1⟩]) answer.2.1.array
          rw [append_assoc, singleton_append] at log
          refine ⟨run, _, by rw [questionLoop, turn]; exact ended, log, fun all => ?_⟩
          exact (each fun p mem => all p (mem_cons_of_mem _ mem)).cons reads
        · refine ⟨_, [⟨r, line ++ [newline], answer.1⟩], by rw [questionLoop, turn], rfl,
            fun _ => Question.OneLineEach.cons ?_ reads⟩
          exact ⟨behind, fun j p line asks _ => (by cases asks), fun j p asks _ => (by cases asks)⟩
      · obtain ⟨run, p, later, ended, before, log⟩ := questionLoop_total prompts array enough
        refine ⟨run, p :: later, ended, log, fun all => absurd ?_ steady⟩
        exact before ▸ all p mem_cons_self

/-- If all prompts are steady, each reads exactly one line, and the text parsed for it is that line
without the white space around it. -/
theorem multiselectQuestion_one_line_each (env : QuestionEnv) (asks : env.noconfirm = false)
    (memory : ∀ size, env.alloc size = true) (fresh : Nat → UInt8) (array : Selected)
    (lines : List CStr) (clean : ∀ line ∈ lines, (0 : UInt8) ∉ line ∧ newline ∉ line) :
    ∃ run, multiselectQuestion env fresh array (linesText lines) = some run ∧
      ((∀ p ∈ run.prompts, p.before.Steady) → run.OneLineEach lines run.prompts) := by
  obtain ⟨run, asked, ended, log, each⟩ := questionLoop_lines asks memory clean
    (r := ⟨Buffer.write fresh 63 [1], 0, linesText lines⟩) rfl (Nat.lt_succ_self _) [] array
  obtain rfl : run.prompts = asked := log
  exact ⟨run, by rw [multiselectQuestion, if_pos (memory 64), ended], each⟩

instance (r : Response) : Decidable r.Steady := inferInstanceAs (Decidable (_ → _))

def threePackages : QuestionEnv := ⟨false, 3, fun _ => true, fun _ _ => 0⟩

theorem multiselectQuestion_second_answer :
    ∃ run, multiselectQuestion threePackages (fun _ => 0) (fun _ => 0)
      (linesText [cstr "5", cstr " 1"]) = some run ∧
      run.OneLineEach [cstr "5", cstr " 1"] run.prompts := by
  obtain ⟨run, ended, each⟩ :=
    multiselectQuestion_one_line_each threePackages rfl (fun _ => rfl) (fun _ => 0)
    (fun _ => 0) [cstr "5", cstr " 1"] (by decide +kernel)
  have steady :
    (multiselectQuestion threePackages (fun _ => 0) (fun _ => 0)
    (linesText [cstr "5", cstr " 1"])).map
      (fun run => run.prompts.all fun p => decide p.before.Steady) = some true := by decide +kernel
  rw [ended, Option.map_some, Option.some_inj, all_eq_true] at steady
  exact ⟨run, ended, each fun p member => of_decide_eq_true (steady p member)⟩

/-- An invalid answer of 62 bytes fills the buffer. The next prompt then takes two lines. -/
theorem multiselectQuestion_two_lines : (multiselectQuestion threePackages (fun _ => 0) (fun _ => 0)
        (linesText [List.replicate 62 120, cstr "1", cstr "2"])).map
        (fun run => run.prompts.map fun p => (p.consumed, p.parsed))
      = some [(List.replicate 62 120 ++ [newline], some (List.replicate 62 120)),
        (cstr "1\n2\n", some (cstr "1"))] := by
  decide +kernel

end Runs

end Dulge
