import Mathlib.Data.List.Basic
import Mathlib.Order.Basic

/-! Calls that move a part of what they are asked to move, or fail. The answers of the coming
calls are given as a list; behind its end every call moves all that it can. The error number is a
variable of its own: a failed call sets it, and a call that succeeds may leave what it likes. -/

namespace Calls
open List

/-- What one call answers: it moves at most this much, and at least one unit if there is one, or
it fails. -/
inductive Answer (ε : Type*) where
  | done (limit : Nat) (leaves : Option ε)
  | failed (error : ε)
  deriving DecidableEq

def amount (available limit : Nat) : Nat := min (max 1 limit) available

theorem amount_le (available limit : Nat) : amount available limit ≤ available :=
  Nat.min_le_right _ _

theorem amount_pos {available : Nat} (some : 0 < available) (limit : Nat) :
    0 < amount available limit :=
  Nat.lt_min.mpr ⟨Nat.lt_of_lt_of_le Nat.zero_lt_one (Nat.le_max_left 1 limit), some⟩

/-- A call that succeeds leaves the error number as it was. -/
def Answer.Silent {ε : Type*} : Answer ε → Prop
  | .done _ leaves => leaves = none
  | .failed _ => True

structure Source (α ε : Type*) where
  rest : List α
  answers : List (Answer ε)

namespace Source

variable {α ε : Type*}

/-- `read`: what it has put into the buffer, unless it has failed, and the error number. -/
def read (want : Nat) (errno : ε) (source : Source α ε) : Option (List α) × ε × Source α ε :=
  match source.answers with
  | [] => (some (source.rest.take want), errno, ⟨source.rest.drop want, []⟩)
  | .done limit leaves :: later =>
    let n := amount (min want source.rest.length) limit
    (some (source.rest.take n), leaves.getD errno, ⟨source.rest.drop n, later⟩)
  | .failed error :: later => (none, error, ⟨source.rest, later⟩)

variable {want : Nat} {errno errno' : ε} {source source' : Source α ε} {block : List α}

theorem read_answers (want : Nat) (errno : ε) (source : Source α ε) :
    (source.read want errno).2.2.answers = source.answers.tail := by
  unfold read
  split
  next answers => rw [answers]; rfl
  next answers => rw [answers]; rfl
  next answers => rw [answers]; rfl

theorem read_none (failed : source.read want errno = (none, errno', source')) :
    source.answers = .failed errno' :: source'.answers ∧ source'.rest = source.rest := by
  unfold read at failed
  split at failed
  · cases failed
  · cases failed
  next answers =>
    cases failed
    exact ⟨answers, rfl⟩

theorem read_some (pos : 0 < want) (got : source.read want errno = (some block, errno', source')) :
    source.rest = block ++ source'.rest ∧ (block = [] → source.rest = []) := by
  unfold read at got
  split at got
  next answers =>
    cases got
    refine ⟨(take_append_drop _ _).symm, ?_⟩
    intro empty
    rcases take_eq_nil_iff.mp empty with none | ended
    · omega
    · exact ended
  next limit leaves later answers =>
    cases got
    refine ⟨(take_append_drop _ _).symm, ?_⟩
    intro empty
    rcases take_eq_nil_iff.mp empty with none | ended
    · by_contra more
      have some : 0 < min want source.rest.length :=
        Nat.lt_min.mpr ⟨pos, length_pos_iff.mpr more⟩
      exact absurd none (Nat.ne_of_gt (amount_pos some limit))
    · exact ended
  · cases got

theorem read_some_answer (got : source.read want errno = (some block, errno', source')) :
    (∀ error later, source.answers ≠ .failed error :: later) ∧
      ((∀ answer ∈ source.answers, answer.Silent) → errno' = errno) := by
  unfold read at got
  split at got
  next answers =>
    cases got
    exact ⟨fun _ _ other => (nomatch answers.symm.trans other), fun _ => rfl⟩
  next limit leaves later answers =>
    cases got
    refine ⟨fun _ _ other => (nomatch answers.symm.trans other), fun silent => ?_⟩
    have none : leaves = none := silent (.done limit leaves) (answers ▸ mem_cons_self)
    rw [none]
    rfl
  · cases got

/-- Sources with the same answers and as much in them, whatever it is. -/
structure Alike (one two : Source α ε) : Prop where
  answers : one.answers = two.answers
  length : one.rest.length = two.rest.length

variable {one two one' : Source α ε}

theorem Alike.symm (alike : one.Alike two) : two.Alike one := ⟨alike.answers.symm, alike.length.symm⟩

theorem Alike.read_none (alike : one.Alike two)
    (failed : one.read want errno = (none, errno', one')) :
    ∃ two', two.read want errno = (none, errno', two') ∧ one'.Alike two' := by
  unfold read at failed ⊢
  rw [← alike.answers]
  split at failed
  · cases failed
  · cases failed
  · cases failed
    exact ⟨_, rfl, rfl, alike.length⟩

theorem Alike.read_some (alike : one.Alike two)
    (got : one.read want errno = (some block, errno', one')) :
    ∃ block' two', two.read want errno = (some block', errno', two') ∧
      block'.length = block.length ∧ one'.Alike two' := by
  have drops (n : Nat) : (one.rest.drop n).length = (two.rest.drop n).length := by
    rw [length_drop, length_drop, alike.length]
  have takes (n : Nat) : (two.rest.take n).length = (one.rest.take n).length := by
    rw [length_take, length_take, alike.length]
  unfold read at got ⊢
  rw [← alike.answers, ← alike.length]
  split at got
  · cases got
    exact ⟨_, _, rfl, takes want, rfl, drops want⟩
  · cases got
    exact ⟨_, _, rfl, takes _, rfl, drops _⟩
  · cases got

end Source

/-! ### Whole transfers

A transfer repeats its call until all is moved, and again after an error that `retry` accepts. -/

section Transfers

variable {α ε : Type*} (retry : ε → Bool)

def Retried (answers : List (Answer ε)) : Prop :=
  ∀ error, .failed error ∈ answers → retry error = true

def emit : List (Answer ε) → List α → List α × List (Answer ε) × Bool
  | [], bytes => (bytes, [], true)
  | .done limit _ :: later, bytes =>
    let n := amount bytes.length limit
    if n < bytes.length then
      let rest := emit later (bytes.drop n)
      (bytes.take n ++ rest.1, rest.2)
    else (bytes, later, true)
  | .failed error :: later, bytes => if retry error then emit later bytes else ([], later, false)

/-- A transfer of so many units from a source, if they are all there. -/
def collect : List (Answer ε) → List α → Nat → Option (List α × Source α ε)
  | [], rest, need => if need ≤ rest.length then some (rest.take need, ⟨rest.drop need, []⟩) else none
  | .done limit _ :: later, rest, need =>
    let n := amount (min need rest.length) limit
    if n = 0 then none
    else if n < need then
      (collect later (rest.drop n) (need - n)).map fun got => (rest.take n ++ got.1, got.2)
    else some (rest.take n, ⟨rest.drop n, later⟩)
  | .failed error :: later, rest, need => if retry error then collect later rest need else none

variable {retry} {answers later : List (Answer ε)}

theorem Retried.of_suffix (retried : Retried retry answers) (behind : later <:+ answers) :
    Retried retry later := fun error failed => retried error (behind.subset failed)

theorem emit_retried (retried : Retried retry answers) (bytes : List α) :
    (emit retry answers bytes).1 = bytes ∧ (emit retry answers bytes).2.1 <:+ answers := by
  induction answers generalizing bytes with
  | nil => exact ⟨rfl, suffix_rfl⟩
  | cons answer later ih =>
    have behind := suffix_cons answer later
    have rest := ih (retried.of_suffix behind)
    cases answer with
    | done limit leaves =>
      simp only [emit]
      split
      · obtain ⟨all, left⟩ := rest (bytes.drop (amount bytes.length limit))
        exact ⟨by rw [all, take_append_drop], left.trans behind⟩
      · exact ⟨rfl, behind⟩
    | failed error =>
      rw [emit, if_pos (retried error mem_cons_self)]
      exact ⟨(rest bytes).1, (rest bytes).2.trans behind⟩

theorem collect_append (retried : Retried retry answers) {bytes : List α} (some : bytes ≠ [])
    (rest : List α) : ∃ left, left <:+ answers ∧
      collect retry answers (bytes ++ rest) bytes.length = Option.some (bytes, ⟨rest, left⟩) := by
  induction answers generalizing bytes with
  | nil =>
    refine ⟨[], suffix_rfl, ?_⟩
    rw [collect, if_pos (by simp), take_left, drop_left]
  | cons answer later ih =>
    have behind := suffix_cons answer later
    have inner := retried.of_suffix behind
    cases answer with
    | done limit leaves =>
      have available : min bytes.length (bytes ++ rest).length = bytes.length := by simp
      have pos := amount_pos (length_pos_iff.mpr some) limit
      have most := amount_le bytes.length limit
      simp only [collect, available, if_neg (Nat.ne_of_gt pos)]
      generalize amount bytes.length limit = n at *
      rw [take_append_of_le_length most, drop_append_of_le_length most]
      split
      next more =>
        have tail : bytes.drop n ≠ [] := by
          rw [ne_eq, drop_eq_nil_iff]
          omega
        obtain ⟨left, suffix, eq⟩ := ih inner tail
        rw [length_drop] at eq
        refine ⟨left, suffix.trans behind, ?_⟩
        rw [eq, Option.map_some, take_append_drop]
      next all =>
        have whole : n = bytes.length := by omega
        refine ⟨later, behind, ?_⟩
        rw [whole, take_length, drop_length, nil_append]
    | failed error =>
      obtain ⟨left, suffix, eq⟩ := ih inner some
      refine ⟨left, suffix.trans behind, ?_⟩
      rw [collect, if_pos (retried error mem_cons_self), eq]

end Transfers

/-! ### Readers -/

abbrev Reader (α ε β : Type*) := Source α ε → Option (β × Source α ε)

namespace Reader

variable {α ε β γ : Type*}

def yield (value : β) : Reader α ε β := fun source => some (value, source)

def andThen (first : Reader α ε β) (second : β → Reader α ε γ) : Reader α ε γ := fun source =>
  (first source).bind fun got => second got.1 got.2

def Takes (retry : ε → Bool) (reader : Reader α ε β) (bytes : List α) (value : β) : Prop :=
  ∀ rest answers, Retried retry answers →
    ∃ left, left <:+ answers ∧ reader ⟨bytes ++ rest, answers⟩ = some (value, ⟨rest, left⟩)

variable {retry : ε → Bool}

theorem Takes.andThen {first : Reader α ε β} {second : β → Reader α ε γ} {front back : List α}
    {middle : β} {value : γ} (one : Takes retry first front middle)
    (two : Takes retry (second middle) back value) :
    Takes retry (first.andThen second) (front ++ back) value := by
  intro rest answers retried
  obtain ⟨left, behind, eq⟩ := one (back ++ rest) answers retried
  obtain ⟨last, further, eq'⟩ := two rest left (retried.of_suffix behind)
  refine ⟨last, further.trans behind, ?_⟩
  rw [Reader.andThen, append_assoc, eq]
  exact eq'

theorem Takes.andThen_yield {first : Reader α ε β} {bytes : List α} {value : β}
    (one : Takes retry first bytes value) (make : β → γ) :
    Takes retry (first.andThen fun got => yield (make got)) bytes (make value) := by
  intro rest answers retried
  obtain ⟨left, behind, eq⟩ := one rest answers retried
  refine ⟨left, behind, ?_⟩
  rw [Reader.andThen, eq]
  rfl

end Reader

end Calls
