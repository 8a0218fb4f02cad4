import Mathlib

/-! Reading a text line by line through a buffer of fixed size, the way `fgets` does it: a
read stops behind a newline, at the end of the text or when the buffer is full, so a long
line comes in pieces. What is seen of a line ends at its first zero byte, wherever the newline
is. At the end of the text a read leaves the buffer as it was. -/

structure LineReader (α : Type) where
  text : List α
  eof : Bool
  line : List α
deriving DecidableEq

namespace LineReader
open List

variable {α : Type} [DecidableEq α] (newline nul : α) (room : Nat)

def takeLine : Nat → List α → List α × List α
  | 0, text => ([], text)
  | _ + 1, [] => ([], [])
  | room + 1, c :: text =>
    if c = newline then ([c], text)
    else
      let taken := takeLine room text
      (c :: taken.1, taken.2)

def chomp (line : List α) : List α := (line.takeWhile (· ≠ nul)).rdropWhile (· = newline)

/-- One read that finds something. A line that neither fills the buffer nor has a newline
was stopped by the end of the text. -/
def next? (r : LineReader α) : Option (LineReader α) :=
  let taken := takeLine newline room r.text
  if taken.1 = [] then none
  else
    some
      { text := taken.2
        eof := r.eof || decide (taken.1.length < room ∧ newline ∉ taken.1)
        line := chomp newline nul taken.1 }

def readNext (r : LineReader α) : LineReader α :=
  match r.next? newline nul room with
  | some r' => r'
  | none => { r with eof := true, line := chomp newline nul r.line }

theorem takeLine_length (text : List α) :
    (takeLine newline room text).1.length + (takeLine newline room text).2.length
      = text.length := by
  induction room, text using takeLine.induct newline with
  | case1 text => simp [takeLine]
  | case2 room => simp [takeLine]
  | case3 room text => simp [takeLine]; omega
  | case4 room c text other ih =>
    rw [takeLine, if_neg other]
    simp only [length_cons]
    omega

variable {newline nul room}

variable {r r' : LineReader α} {line text old : List α} {eof : Bool}

theorem next?_spec (found : r.next? newline nul room = some r') :
    (takeLine newline room r.text).1 ≠ [] ∧ r'.text = (takeLine newline room r.text).2 ∧
      (r.eof = true → r'.eof = true) := by
  unfold next? at found
  dsimp only at found
  split at found
  · cases found
  · rename_i filled
    cases found
    refine ⟨filled, rfl, ?_⟩
    intro ended
    rw [ended]
    rfl

theorem next?_length (found : r.next? newline nul room = some r') :
    r'.text.length < r.text.length := by
  obtain ⟨filled, text, _⟩ := next?_spec found
  have both := takeLine_length newline room r.text
  have positive := length_pos_iff.mpr filled
  rw [text]
  omega

def left (r : LineReader α) : Nat := r.text.length + if r.eof then 0 else 1

theorem next?_left (found : r.next? newline nul room = some r') : r'.left < r.left := by
  have shorter := next?_length found
  obtain ⟨_, _, ended⟩ := next?_spec found
  unfold left
  cases eof : r.eof with
  | false => split <;> simp <;> omega
  | true => simpa [ended eof] using shorter

theorem readNext_left (unread : r.eof = false) : (r.readNext newline nul room).left < r.left := by
  unfold readNext
  split
  · exact next?_left ‹_›
  · simp [left, unread]

theorem readNext_left_le (r : LineReader α) : (r.readNext newline nul room).left ≤ r.left := by
  unfold readNext
  split
  · exact (next?_left ‹_›).le
  · simp [left]

def readBlock (newline nul : α) (room : Nat) (r : LineReader α) : List (List α) × LineReader α :=
  match _found : r.next? newline nul room with
  | none => ([], { r with eof := true })
  | some r' =>
    if r'.line = [] then ([], r')
    else
      let block := readBlock newline nul room r'
      (r'.line :: block.1, block.2)
termination_by r.text.length
decreasing_by exact next?_length _found

theorem readBlock_none (ended : r.next? newline nul room = none) :
    r.readBlock newline nul room = ([], { r with eof := true }) := by
  rw [readBlock]
  split
  · rfl
  · rename_i found
    rw [ended] at found
    cases found

theorem readBlock_some (found : r.next? newline nul room = some r') : r.readBlock newline nul room =
      if r'.line = [] then ([], r')
      else (r'.line :: (r'.readBlock newline nul room).1, (r'.readBlock newline nul room).2) := by
  rw [readBlock]
  split
  · rename_i ended
    rw [found] at ended
    cases ended
  · rename_i same
    rw [found] at same
    cases same
    rfl

theorem readBlock_left (r : LineReader α) : (r.readBlock newline nul room).2.left ≤ r.left := by
  induction r using readBlock.induct newline nul room with
  | case1 r ended =>
    rw [readBlock_none ended]
    simp [left]
  | case2 r r' found blank =>
    rw [readBlock_some found, if_pos blank]
    exact (next?_left found).le
  | case3 r r' found filled ih =>
    rw [readBlock_some found, if_neg filled]
    exact ih.trans (next?_left found).le

/-! ### Lines that fit -/

theorem takeLine_line (whole : newline ∉ line) (room : Nat) (text : List α) :
    takeLine newline room (line ++ newline :: text)
      = ((line ++ [newline]).take room, (line ++ [newline]).drop room ++ text) := by
  induction line generalizing room with
  | nil =>
    cases room with
    | zero => rfl
    | succ room => simp [takeLine]
  | cons c line ih =>
    obtain ⟨other, rest⟩ : newline ≠ c ∧ newline ∉ line := by simpa using whole
    cases room with
    | zero => simp [takeLine]
    | succ room =>
      rw [cons_append, takeLine, if_neg (Ne.symm other), ih rest]
      rfl

theorem takeLine_fits (whole : newline ∉ line) {room : Nat} (short : line.length < room)
    (text : List α) :
    takeLine newline room (line ++ newline :: text) = (line ++ [newline], text) := by
  have fits : (line ++ [newline]).length ≤ room := by simpa using short
  rw [takeLine_line whole, take_of_length_le fits, drop_of_length_le fits, nil_append]

/-- A line that comes back as it is. -/
structure Plain (newline nul : α) (line : List α) : Prop where
  whole : newline ∉ line
  clean : nul ∉ line

omit [DecidableEq α] in
theorem plain_nil : Plain newline nul [] := ⟨not_mem_nil, not_mem_nil⟩

theorem rdropWhile_newline (whole : newline ∉ line) : line.rdropWhile (· = newline) = line := by
  rw [rdropWhile_eq_self_iff]
  intro filled last
  rw [decide_eq_true_eq] at last
  exact whole (last ▸ getLast_mem filled)

theorem Plain.chomp (plain : Plain newline nul line) : chomp newline nul line = line := by
  have kept : ∀ c ∈ line, decide (c ≠ nul) = true :=
    fun c mem => decide_eq_true (ne_of_mem_of_not_mem mem plain.clean)
  rw [LineReader.chomp, takeWhile_eq_self_iff.mpr kept, rdropWhile_newline plain.whole]

theorem Plain.chomp_newline (plain : Plain newline nul line) :
    LineReader.chomp newline nul (line ++ [newline]) = line := by
  have kept : ∀ c ∈ line, decide (c ≠ nul) = true :=
    fun c mem => decide_eq_true (ne_of_mem_of_not_mem mem plain.clean)
  rw [LineReader.chomp, takeWhile_append_of_pos kept]
  by_cases apart : newline ≠ nul
  · rw [takeWhile_cons_of_pos (by simpa using apart), takeWhile_nil,
      rdropWhile_concat_pos _ _ _ (by simp), rdropWhile_newline plain.whole]
  · rw [takeWhile_cons_of_neg (by simpa using apart), append_nil, rdropWhile_newline plain.whole]

theorem next?_fits (plain : Plain newline nul line) (short : line.length < room) :
    next? newline nul room ⟨line ++ newline :: text, eof, old⟩ = some ⟨text, eof, line⟩ := by
  unfold next?
  dsimp only
  rw [takeLine_fits plain.whole short]
  simp [plain.chomp_newline]

theorem readBlock_fits {lines : List (List α)}
    (fits : ∀ line ∈ lines, Plain newline nul line ∧ line.length < room ∧ line ≠ [])
    (open' : 0 < room) :
    readBlock newline nul room
      ⟨lines.flatMap (fun line => line ++ [newline]) ++ newline :: text, eof, old⟩
      = (lines, ⟨text, eof, []⟩) := by
  induction lines generalizing old with
  | nil =>
    have blank : next? newline nul room ⟨newline :: text, eof, old⟩ = some ⟨text, eof, []⟩ :=
      next?_fits plain_nil open'
    exact (readBlock_some blank).trans (if_pos rfl)
  | cons line lines ih =>
    obtain ⟨plain, short, filled⟩ := fits line mem_cons_self
    rw [flatMap_cons, append_assoc, append_assoc, singleton_append,
      readBlock_some (next?_fits plain short), if_neg filled,
      ih fun other mem => fits other (mem_cons_of_mem line mem)]

/-! ### All lines of a text -/

def lines (newline nul : α) (room : Nat) (text : List α) : List (List α) :=
  match _found : next? newline nul room ⟨text, false, []⟩ with
  | none => []
  | some r => r.line :: lines newline nul room r.text
termination_by text.length
decreasing_by exact next?_length _found

theorem next?_congr (newline nul : α) (room : Nat) (r : LineReader α) :
    (next? newline nul room ⟨r.text, false, []⟩).map (fun r' => (r'.text, r'.line))
      = (r.next? newline nul room).map fun r' => (r'.text, r'.line) := by
  unfold next?
  dsimp only
  split <;> rfl

theorem lines_none (ended : r.next? newline nul room = none) :
    lines newline nul room r.text = [] := by
  have same := next?_congr newline nul room r
  rw [ended, Option.map_none, Option.map_eq_none_iff] at same
  rw [lines]
  split
  · rfl
  · rename_i found
    rw [same] at found
    cases found

theorem lines_some (found : r.next? newline nul room = some r') :
    lines newline nul room r.text = r'.line :: lines newline nul room r'.text := by
  have same := next?_congr newline nul room r
  rw [found, Option.map_some, Option.map_eq_some_iff] at same
  obtain ⟨twin, again, equal⟩ := same
  rw [Prod.mk.injEq] at equal
  rw [lines]
  split
  · rename_i ended
    rw [again] at ended
    cases ended
  · rename_i found'
    rw [again] at found'
    cases found'
    rw [equal.1, equal.2]

def rawLines (newline : α) (room : Nat) (text : List α) : List (List α) :=
  if (takeLine newline room text).1 = [] then []
  else (takeLine newline room text).1 :: rawLines newline room (takeLine newline room text).2
termination_by text.length
decreasing_by
  rename_i filled
  have both := takeLine_length newline room text
  have positive := length_pos_iff.mpr filled
  omega

theorem readBlock_lines (r : LineReader α) :
    (r.readBlock newline nul room).1 = (lines newline nul room r.text).takeWhile (· ≠ []) ∧
      lines newline nul room (r.readBlock newline nul room).2.text
        = ((lines newline nul room r.text).dropWhile (· ≠ [])).tail := by
  induction r using readBlock.induct newline nul room with
  | case1 r ended =>
    have none := lines_none ended
    rw [readBlock_none ended]
    dsimp only
    rw [none]
    exact ⟨rfl, rfl⟩
  | case2 r r' found blank =>
    rw [readBlock_some found, if_pos blank, lines_some found, blank]
    exact ⟨rfl, rfl⟩
  | case3 r r' found filled ih =>
    rw [readBlock_some found, if_neg filled, lines_some found,
      takeWhile_cons_of_pos (by simpa using filled),
      dropWhile_cons_of_pos (by simpa using filled)]
    exact ⟨congrArg _ ih.1, ih.2⟩

/-- The pieces in which a line is read. Behind a last piece that fills the buffer comes a
blank one, for the newline. -/
def pieces (room : Nat) (line : List α) : List (List α) :=
  if room = 0 ∨ line.length < room then [line]
  else line.take room :: pieces room (line.drop room)
termination_by line.length
decreasing_by
  rw [length_drop]
  omega

omit [DecidableEq α] in
theorem pieces_shape (positive : 0 < room) (line : List α) :
    ∃ full last, pieces room line = full ++ [last] ∧ (∀ piece ∈ full, piece.length = room) ∧
      last.length < room ∧ full.flatten ++ last = line := by
  induction line using pieces.induct room with
  | case1 line short =>
    rw [pieces, if_pos short]
    exact ⟨[], line, rfl, by simp, by omega, rfl⟩
  | case2 line long ih =>
    obtain ⟨full, last, shape, filled, short, whole⟩ := ih
    rw [pieces, if_neg long, shape]
    refine ⟨line.take room :: full, last, rfl, ?_, short, ?_⟩
    · intro piece mem
      rcases mem_cons.mp mem with rfl | later
      · rw [length_take]
        omega
      · exact filled piece later
    · rw [flatten_cons, append_assoc, whole, take_append_drop]

theorem takeLine_full (whole : newline ∉ line) (text : List α) :
    takeLine newline line.length (line ++ text) = (line, text) := by
  induction line with
  | nil => rfl
  | cons c line ih =>
    have other : c ≠ newline := fun same => whole (same ▸ mem_cons_self)
    rw [length_cons, cons_append, takeLine, if_neg other,
      ih fun mem => whole (mem_cons_of_mem c mem)]

theorem next?_full (plain : Plain newline nul line) (filled : line ≠ []) (text : List α) :
    next? newline nul line.length ⟨line ++ text, false, []⟩ = some ⟨text, false, line⟩ := by
  unfold next?
  dsimp only
  rw [takeLine_full plain.whole, if_neg filled, plain.chomp]
  simp

theorem lines_append (positive : 0 < room) (plain : Plain newline nul line) (text : List α) :
    lines newline nul room (line ++ newline :: text)
      = pieces room line ++ lines newline nul room text := by
  induction line using pieces.induct room with
  | case1 line short =>
    have fits : line.length < room := by omega
    rw [pieces, if_pos short]
    exact lines_some (r := ⟨_, false, []⟩) (next?_fits plain fits)
  | case2 line long ih =>
    have size : (line.take room).length = room := by
      rw [length_take]
      omega
    have full : next? newline nul room
        ⟨line.take room ++ (line.drop room ++ newline :: text), false, []⟩ = some
          ⟨line.drop room ++ newline :: text, false, line.take room⟩ := by
      have front : Plain newline nul (line.take room) :=
        ⟨fun mem => plain.whole (mem_of_mem_take mem), fun mem => plain.clean (mem_of_mem_take mem)⟩
      have filled : line.take room ≠ [] := ne_nil_of_length_pos (by omega)
      have read := next?_full front filled (line.drop room ++ newline :: text)
      rwa [size] at read
    have first := lines_some full
    rw [← append_assoc, take_append_drop] at first
    rw [pieces, if_neg long, first, ih ⟨fun mem => plain.whole (mem_of_mem_drop mem),
      fun mem => plain.clean (mem_of_mem_drop mem)⟩]
    rfl

end LineReader
