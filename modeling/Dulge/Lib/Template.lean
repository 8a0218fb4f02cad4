import Mathlib

/-! Templates whose codes are two letters long, a mark and the letter behind it. `substitute`
fills in all codes in one scan. `replace` fills in one code and goes over the whole text, values
already filled in included, so that filling in one code after the other is something else: which
letters it takes for a code is followed here on `Piece`s, which know where a letter comes from. -/
namespace Template
open List

variable {α : Type}

inductive Piece (α : Type) where
  | text (a : α)
  | code (c : α)
  deriving DecidableEq

section Definitions

variable [DecidableEq α] (mark : α)

/-- One scan from the left: a code of the table becomes its value. -/
def substitute (table : List (α × List α)) : List α → List α
  | a :: b :: rest =>
    match if a = mark then table.lookup b else none with
    | some value => value ++ substitute table rest
    | none => a :: substitute table (b :: rest)
  | short => short

def replace (c : α) (value : List α) : List α → List α
  | a :: b :: rest =>
    if a = mark ∧ b = c then value ++ replace c value rest else a :: replace c value (b :: rest)
  | short => short

omit mark in
/-- One scan from the left for a text of any length: its leftmost occurrences that do not overlap
become the value. -/
def replaceAll (needle value : List α) (text : List α) : List α :=
  match text with
  | [] => []
  | a :: rest =>
    if needle ≠ [] ∧ needle <+: a :: rest then
      value ++ replaceAll needle value ((a :: rest).drop needle.length)
    else a :: replaceAll needle value rest
termination_by text.length
decreasing_by
  · rename_i here
    have filled := length_pos_iff.mpr here.1
    rw [length_drop, length_cons]
    omega
  · exact Nat.lt_succ_self _

def parse (isCode : α → Bool) : List α → List (Piece α)
  | a :: b :: rest =>
    if a = mark ∧ isCode b then .code b :: parse isCode rest else .text a :: parse isCode (b :: rest)
  | short => short.map .text

def Piece.letters : Piece α → List α
  | .text a => [a]
  | .code c => [mark, c]

def flat (pieces : List (Piece α)) : List α := pieces.flatMap (Piece.letters mark)

/-- `replace` on pieces: two letters that read as the code are taken for it, wherever they come
from. -/
def replaceIn (c : α) (value : List α) : List (Piece α) → List (Piece α)
  | [] => []
  | .code d :: rest =>
    if d = c then value.map .text ++ replaceIn c value rest else .code d :: replaceIn c value rest
  | .text a :: .text b :: rest =>
    if a = mark ∧ b = c then value.map .text ++ replaceIn c value rest
    else .text a :: replaceIn c value (.text b :: rest)
  | .text a :: rest => .text a :: replaceIn c value rest

/-- What filling in a code is meant to do: only the codes of the template change. -/
def fill (c : α) (value : List α) (pieces : List (Piece α)) : List (Piece α) :=
  pieces.flatMap fun piece => if piece = .code c then value.map .text else [piece]

/-- Two letters side by side that read as the code `c` and are no code of the template. -/
def Mistakable (c : α) (pieces : List (Piece α)) : Prop := [.text mark, .text c] <:+: pieces

/-- When the codes are filled in one after the other by `stage`, no letters can be mistaken for
the code whose turn it is. -/
def Unmistaken (stage : α → List α → List (Piece α) → List (Piece α)) :
    List (α × List α) → List (Piece α) → Prop
  | [], _ => True
  | (c, value) :: table, pieces =>
    ¬ Mistakable mark c pieces ∧ Unmistaken stage table (stage c value pieces)

def Proper (pieces : List (Piece α)) : Prop := ∀ c, Piece.code c ∈ pieces → c ≠ mark

def Piece.value (table : List (α × List α)) : Piece α → List α
  | .text a => [a]
  | .code c => (table.lookup c).getD [mark, c]

end Definitions

section Letters

variable {mark : α}

@[simp] theorem flat_text (a : α) (pieces : List (Piece α)) :
    flat mark (.text a :: pieces) = a :: flat mark pieces := rfl

@[simp] theorem flat_code (c : α) (pieces : List (Piece α)) :
    flat mark (.code c :: pieces) = mark :: c :: flat mark pieces := rfl

@[simp] theorem flat_append (left right : List (Piece α)) :
    flat mark (left ++ right) = flat mark left ++ flat mark right := flatMap_append

@[simp] theorem flat_map_text (letters : List α) : flat mark (letters.map .text) = letters := by
  induction letters with
  | nil => rfl
  | cons a rest ih => rw [map_cons, flat_text, ih]

variable {piece : Piece α} {pieces : List (Piece α)}

theorem Proper.tail (proper : Proper mark (piece :: pieces)) :
    Proper mark pieces := fun c mem => proper c (mem_cons_of_mem _ mem)

theorem Proper.texts (letters : List α) : Proper mark (letters.map Piece.text) := by
  intro c mem
  obtain ⟨a, _, equal⟩ := mem_map.mp mem
  cases equal

theorem Proper.append {left right : List (Piece α)} (first : Proper mark left)
    (second : Proper mark right) :
    Proper mark (left ++ right) := fun c mem =>
  (mem_append.mp mem).elim (first c) (second c)

theorem Proper.cons (head : Proper mark [piece]) (tail : Proper mark pieces) :
    Proper mark (piece :: pieces) := head.append tail

theorem Proper.head (proper : Proper mark (piece :: pieces)) :
    Proper mark [piece] := fun c mem =>
  proper c (mem_singleton.mp mem ▸ mem_cons_self)

theorem Mistakable.cons {c : α} (found : Mistakable mark c pieces) (piece : Piece α) :
    Mistakable mark c (piece :: pieces) := infix_cons found

end Letters

section Pieces

variable [DecidableEq α] {mark : α}

theorem flat_parse (isCode : α → Bool) (template : List α) :
    flat mark (parse mark isCode template) = template := by
  fun_induction parse mark isCode template with
  | case1 a b rest code ih => rw [flat_code, ih, code.1]
  | case2 a b rest plain ih => rw [flat_text, ih]
  | case3 short _ => exact flat_map_text short

theorem parse_proper {isCode : α → Bool} (notMark : ∀ c, isCode c = true → c ≠ mark)
    (template : List α) : Proper mark (parse mark isCode template) := by
  fun_induction parse mark isCode template with
  | case1 a b rest code ih =>
    refine Proper.cons (fun c mem => ?_) ih
    cases mem_singleton.mp mem
    exact notMark _ code.2
  | case2 a b rest plain ih => exact Proper.cons (Proper.texts [a]) ih
  | case3 short _ => exact Proper.texts short

theorem replaceAll_code (mark c : α) (value text : List α) :
    replaceAll [mark, c] value text = replace mark c value text := by
  fun_induction replace mark c value text with
  | case1 a b rest both ih =>
    obtain ⟨rfl, rfl⟩ := both
    rw [replaceAll, if_pos ⟨cons_ne_nil _ _, prefix_append [a, b] rest⟩]
    exact congrArg (value ++ ·) ih
  | case2 a b rest other ih =>
    have skip : ¬ ([mark, c] ≠ [] ∧ [mark, c] <+: a :: b :: rest) := by
      rw [cons_prefix_cons, cons_prefix_cons]
      rintro ⟨-, rfl, rfl, -⟩
      exact other ⟨rfl, rfl⟩
    rw [replaceAll, if_neg skip, ih]
  | case3 short isShort =>
    match short, isShort with
    | [], _ => rw [replaceAll]
    | [a], _ =>
      have skip : ¬ ([mark, c] ≠ [] ∧ [mark, c] <+: [a]) := fun here => by
        simpa using here.2.length_le
      rw [replaceAll, if_neg skip, replaceAll]
    | a :: b :: rest, isShort => exact (isShort a b rest rfl).elim

variable {c : α}

theorem replace_cons_of_ne {a : α} (value : List α) (rest : List α) (other : a ≠ mark) :
    replace mark c value (a :: rest) = a :: replace mark c value rest := by
  cases rest with
  | nil => simp [replace]
  | cons b rest =>
    rw [replace]
    exact if_neg fun both => other both.1

theorem replace_cons_of_second (value : List α) {rest : List α}
    (second : ∀ b, rest.head? = some b → b ≠ c) (a : α) :
    replace mark c value (a :: rest) = a :: replace mark c value rest := by
  cases rest with
  | nil => simp [replace]
  | cons b rest =>
    rw [replace]
    exact if_neg fun both => second b rfl both.2

/-- `replaceIn` follows `replace`. -/
theorem flat_replaceIn (notMark : c ≠ mark) (value : List α) (pieces : List (Piece α))
    (proper : Proper mark pieces) :
    flat mark (replaceIn mark c value pieces) = replace mark c value (flat mark pieces) := by
  fun_induction replaceIn mark c value pieces with
  | case1 => simp [flat, replace]
  | case2 rest ih =>
    rw [flat_append, flat_map_text, ih proper.tail, flat_code, replace, if_pos ⟨rfl, rfl⟩]
  | case3 d rest other ih =>
    have second : d ≠ mark := proper d mem_cons_self
    rw [flat_code, flat_code, ih proper.tail, replace, if_neg fun both => other both.2,
      replace_cons_of_ne value _ second]
  | case4 a b rest both ih =>
    rw [flat_append, flat_map_text, ih proper.tail.tail, flat_text, flat_text, replace, if_pos both]
  | case5 a b rest other ih =>
    rw [flat_text, ih proper.tail, flat_text, flat_text]
    exact (if_neg other).symm
  | case6 a rest noText ih =>
    rw [flat_text, ih proper.tail, flat_text, replace_cons_of_second value]
    -- what follows is a code, which begins with the mark, or the end
    intro b first
    match rest, noText with
    | [], _ => simp [flat] at first
    | .code d :: rest, _ =>
      rw [flat_code, List.head?_cons] at first
      cases first
      exact fun equal => notMark equal.symm
    | .text d :: rest, noText => exact absurd rfl (noText d rest)

theorem fill_cons (c : α) (value : List α) (piece : Piece α) (pieces : List (Piece α)) :
    fill c value (piece :: pieces)
      = (if piece = .code c then value.map .text else [piece]) ++ fill c value pieces := rfl

theorem fill_text (c : α) (value : List α) (a : α) (pieces : List (Piece α)) :
    fill c value (.text a :: pieces) = .text a :: fill c value pieces := by
  rw [fill_cons, if_neg (by simp), singleton_append]

theorem replaceIn_eq_fill (value : List α) (pieces : List (Piece α))
    (clear : ¬ Mistakable mark c pieces) : replaceIn mark c value pieces = fill c value pieces := by
  fun_induction replaceIn mark c value pieces with
  | case1 => rfl
  | case2 rest ih => rw [fill_cons, if_pos rfl, ih fun found => clear (found.cons _)]
  | case3 d rest other ih =>
    have different : Piece.code d ≠ .code c := fun equal => other (Piece.code.inj equal)
    rw [fill_cons, if_neg different, ih fun found => clear (found.cons _), singleton_append]
  | case4 a b rest both ih =>
    obtain ⟨rfl, rfl⟩ := both
    exact absurd ⟨[], rest, rfl⟩ clear
  | case5 a b rest other ih => rw [fill_text, ih fun found => clear (found.cons _)]
  | case6 a rest noText ih => rw [fill_text, ih fun found => clear (found.cons _)]

theorem proper_replaceIn (c : α) (value : List α) (pieces : List (Piece α))
    (proper : Proper mark pieces) : Proper mark (replaceIn mark c value pieces) := by
  fun_induction replaceIn mark c value pieces with
  | case1 => exact proper
  | case2 rest ih => exact (Proper.texts value).append (ih proper.tail)
  | case3 d rest other ih => exact proper.head.cons (ih proper.tail)
  | case4 a b rest both ih => exact (Proper.texts value).append (ih proper.tail.tail)
  | case5 a b rest other ih => exact proper.head.cons (ih proper.tail)
  | case6 a rest noText ih => exact proper.head.cons (ih proper.tail)

end Pieces

section Tables

variable [DecidableEq α] {mark : α}

theorem flatMap_value_text (table : List (α × List α)) (letters : List α) :
    (letters.map Piece.text).flatMap (Piece.value mark table) = letters := by
  induction letters with
  | nil => rfl
  | cons a rest ih => rw [map_cons, flatMap_cons, ih]; rfl

theorem flat_foldl_fill (table : List (α × List α)) (pieces : List (Piece α)) :
    flat mark (table.foldl (fun pieces entry => fill entry.1 entry.2 pieces) pieces)
      = pieces.flatMap (Piece.value mark table) := by
  induction table generalizing pieces with
  | nil =>
    refine congrArg (fun value => pieces.flatMap value) (funext fun piece => ?_)
    cases piece <;> rfl
  | cons entry table ih =>
    obtain ⟨c, value⟩ := entry
    rw [foldl_cons, ih, fill, flatMap_assoc]
    refine congrArg (fun value => pieces.flatMap value) (funext fun piece => ?_)
    cases piece with
    | text a => simp [Piece.value]
    | code d =>
      by_cases same : d = c
      · subst same
        rw [if_pos rfl, flatMap_value_text]
        simp [Piece.value]
      · have different : Piece.code d ≠ .code c := fun equal => same (Piece.code.inj equal)
        rw [if_neg different, flatMap_singleton]
        simp [Piece.value, List.lookup, beq_false_of_ne same]

theorem substitute_eq (table : List (α × List α)) (template : List α) :
    substitute mark table template
      = (parse mark (fun c => (table.lookup c).isSome) template).flatMap
        (Piece.value mark table) := by
  fun_induction substitute mark table template with
  | case1 a b rest value found ih =>
    obtain ⟨isMark, entry⟩ : a = mark ∧ table.lookup b = some value := by
      split at found
      · exact ⟨‹_›, found⟩
      · cases found
    rw [parse, if_pos ⟨isMark, by simp [entry]⟩, flatMap_cons, ih]
    simp [Piece.value, entry]
  | case2 a b rest missing ih =>
    have plain : ¬ (a = mark ∧ (table.lookup b).isSome = true) := by
      rintro ⟨isMark, found⟩
      rw [if_pos isMark] at missing
      simp [missing] at found
    rw [parse, if_neg plain, flatMap_cons, ih]
    rfl
  | case3 short isShort =>
    match short, isShort with
    | [], _ => rfl
    | [a], _ => rfl
    | a :: b :: rest, isShort => exact (isShort a b rest rfl).elim

variable {table : List (α × List α)}

theorem flat_foldl_replaceIn (notMark : ∀ entry ∈ table, entry.1 ≠ mark) {pieces : List (Piece α)}
    (proper : Proper mark pieces) :
    flat mark (table.foldl (fun pieces entry => replaceIn mark entry.1 entry.2 pieces) pieces)
      = table.foldl (fun text entry => replace mark entry.1 entry.2 text) (flat mark pieces) := by
  induction table generalizing pieces with
  | nil => rfl
  | cons entry table ih =>
    rw [foldl_cons, foldl_cons,
      ih (fun later mem => notMark later (mem_cons_of_mem _ mem))
        (proper_replaceIn entry.1 entry.2 pieces proper),
      flat_replaceIn (notMark entry mem_cons_self) entry.2 pieces proper]

theorem unmistaken_iff (table : List (α × List α)) (pieces : List (Piece α)) :
    Unmistaken mark (replaceIn mark) table pieces ↔ Unmistaken mark fill table pieces := by
  induction table generalizing pieces with
  | nil => exact Iff.rfl
  | cons entry table ih =>
    obtain ⟨c, value⟩ := entry
    refine and_congr_right fun clear => ?_
    rw [replaceIn_eq_fill value pieces clear, ih]

theorem foldl_replaceIn_eq_fill {pieces : List (Piece α)}
    (clear : Unmistaken mark fill table pieces) :
    table.foldl (fun pieces entry => replaceIn mark entry.1 entry.2 pieces) pieces
      = table.foldl (fun pieces entry => fill entry.1 entry.2 pieces) pieces := by
  induction table generalizing pieces with
  | nil => rfl
  | cons entry table ih =>
    rw [foldl_cons, foldl_cons, replaceIn_eq_fill entry.2 pieces clear.1, ih clear.2]

theorem mem_of_lookup {c : α} (found : (table.lookup c).isSome = true) :
    ∃ entry ∈ table, entry.1 = c := by
  obtain ⟨value, entry⟩ := Option.isSome_iff_exists.mp found
  obtain ⟨before, after, rfl, _⟩ := lookup_eq_some_iff.mp entry
  exact ⟨(c, value), by simp, rfl⟩

theorem foldl_replace_eq_substitute (notMark : ∀ entry ∈ table, entry.1 ≠ mark) (template : List α)
    (clear : Unmistaken mark fill table (parse mark (fun c => (table.lookup c).isSome) template)) :
    table.foldl (fun text entry => replace mark entry.1 entry.2 text) template
      = substitute mark table template := by
  have codes : ∀ c, (table.lookup c).isSome = true → c ≠ mark := by
    intro c found
    obtain ⟨entry, mem, rfl⟩ := mem_of_lookup found
    exact notMark entry mem
  rw [substitute_eq, ← flat_foldl_fill, ← foldl_replaceIn_eq_fill clear,
    flat_foldl_replaceIn notMark (parse_proper codes template), flat_parse]

end Tables

end Template
