import Dulge.Wordsplit
import Dulge.Lib.Buffer
import Dulge.Lib.Tokens

/-! What `wordsplit` makes of a text, said without its loops: a text in which every quote is closed
consists of characters, escaped quotes and quoted parts, and white space between them separates
words. The loop that measures a word and the loop that copies it are followed together. -/

namespace Dulge
open Buffer List Option

def Unescaped (quote : UInt8) (text : CStr) : Prop :=
  ∃ before after, text = before ++ quote :: after ∧ before.getLast? ≠ some 92

def dropEscapes (quote : UInt8) : CStr → CStr
  | [] => []
  | c :: rest =>
    if c = 92 ∧ rest.head? = some quote then dropEscapes quote rest else c :: dropEscapes quote rest

inductive WordPart where
  | char (c : UInt8)
  | escape (quote : UInt8)
  | quoted (quote : UInt8) (inner : CStr)

namespace WordPart

def raw : WordPart → CStr
  | char c => [c]
  | escape quote => [92, quote]
  | quoted quote inner => quote :: (inner ++ [quote])

def text : WordPart → CStr
  | char c => [c]
  | escape quote => [quote]
  | quoted quote inner => dropEscapes quote inner

def isBlank : WordPart → Bool
  | char c => isspace c
  | _ => false

/-- The part is one where `rest` stands behind it. -/
def Fits (rest : CStr) : WordPart → Prop
  | char c => isQuote c = false ∧ (c = 92 → rest.head?.any isQuote = false)
  | escape quote => isQuote quote = true
  | quoted quote inner =>
    isQuote quote = true ∧ ¬ Unescaped quote inner ∧ inner.getLast? ≠ some 92

end WordPart

def rawText (parts : List WordPart) : CStr := parts.flatMap WordPart.raw

/-- The parts are the ones of their text where `rest` stands behind it. -/
def PartsOf (rest : CStr) : List WordPart → Prop
  | [] => True
  | part :: parts => part.Fits (rawText parts ++ rest) ∧ PartsOf rest parts

def partWords (parts : List WordPart) : List CStr :=
  ((parts.splitOnP WordPart.isBlank).filter (!·.isEmpty)).map (List.flatMap WordPart.text)

def Unclosed (str : CStr) : Prop :=
  ∃ parts quote tail, str = rawText parts ++ quote :: tail ∧ PartsOf (quote :: tail) parts ∧
    isQuote quote = true ∧ ¬ Unescaped quote tail

/-- The blocks that `wordsplit` allocates for its words, `wordlen + 1` bytes in both branches. -/
def splitBlocks (c : CStr) : Option (List (Block UInt8)) :=
  if c = [] then some []
  else
    match _found : scanWord .plain c with
    | none => none
    | some (wordlen, stop) =>
      let text := c.take (c.length - stop.length)
      let word := if wordlen = text.length then text else copyWord .plain text
      match stop with
      | [] => some [⟨wordlen + 1, word ++ [0]⟩]
      | _ :: rest => (splitBlocks (rest.dropWhile isspace)).map (⟨wordlen + 1, word ++ [0]⟩ :: ·)
termination_by c.length
decreasing_by
  obtain ⟨_, shape⟩ := scanWord_suffix _found
  have shorter := length_dropWhile_le isspace rest
  rw [shape, length_append, length_cons]
  omega

/-! ### Both loops at once -/

def takeWord : WordMode → CStr → Option (CStr × CStr)
  | .plain, [] => some ([], [])
  | _, [] => none
  | mode, c :: rest =>
    if mode = .plain ∧ isspace c then some ([], c :: rest)
    else (takeWord (mode.next c rest).1 rest).map fun found =>
      (if (mode.next c rest).2 then c :: found.1 else found.1, found.2)

variable {mode : WordMode} {c quote : UInt8} {text rest stop copied more inner : CStr}

theorem scanWord_eq (mode : WordMode) (text : CStr) :
    scanWord mode text = (takeWord mode text).map fun found => (found.1.length, found.2) := by
  induction text generalizing mode with
  | nil => cases mode <;> rfl
  | cons c rest ih =>
    rw [scanWord, takeWord]
    split
    · rfl
    · dsimp only
      rw [ih, Option.map_map, Option.map_map]
      congr 1
      funext found
      by_cases kept : (mode.next c rest).2 = true
      · simp only [Function.comp_apply, kept, if_true, length_cons]
      · simp only [Function.comp_apply, if_neg kept]

theorem next_of_plain (ends : (mode.next c rest).1 = .plain) : mode.next c [] = mode.next c rest := by
  cases mode with
  | plain =>
    simp only [WordMode.next] at ends ⊢
    split
    · rfl
    · rename_i other
      rw [if_neg other] at ends
      split at ends
      · cases ends
      · rename_i kept
        rw [if_neg kept]
        exact if_neg (fun both => Bool.false_ne_true both.2)
  | quoted quote =>
    simp only [WordMode.next] at ends ⊢
    split
    · rfl
    · rename_i other
      rw [if_neg other] at ends
      split at ends
      · cases ends
      · cases ends
  | escaped within => cases within <;> rfl

theorem takeWord_copyWord (found : takeWord mode text = some (copied, stop)) :
    ∃ word, text = word ++ stop ∧ copyWord mode word = copied ∧ (word = [] → mode = .plain) := by
  induction text generalizing mode copied with
  | nil =>
    cases mode with
    | plain =>
      cases found
      exact ⟨[], rfl, rfl, fun _ => rfl⟩
    | quoted quote => cases found
    | escaped within => cases found
  | cons c rest ih =>
    rw [takeWord] at found
    split at found
    · rename_i blank
      cases found
      exact ⟨[], rfl, rfl, fun _ => blank.1⟩
    · obtain ⟨⟨more, behind⟩, later, same⟩ := map_eq_some_iff.mp found
      cases same
      obtain ⟨word, rfl, copies, whole⟩ := ih later
      -- the loop that copies looks ahead in the word only
      have ahead : mode.next c word = mode.next c (word ++ behind) := by
        cases word with
        | nil => exact next_of_plain (whole rfl)
        | cons d word => cases mode <;> rfl
      refine ⟨c :: word, rfl, ?_, fun empty => absurd empty (cons_ne_nil c word)⟩
      rw [copyWord]
      dsimp only
      rw [ahead, copies]

theorem copyWord_sublist (mode : WordMode) (word : CStr) : (copyWord mode word).Sublist word := by
  induction word generalizing mode with
  | nil => exact .slnil
  | cons c rest ih =>
    rw [copyWord]
    split
    · exact (ih _).cons_cons c
    · exact (ih _).cons c

theorem wordText_eq (found : takeWord .plain text = some (copied, stop)) :
    (if copied.length = (text.take (text.length - stop.length)).length
      then text.take (text.length - stop.length)
      else copyWord .plain (text.take (text.length - stop.length))) = copied := by
  obtain ⟨word, rfl, copies, -⟩ := takeWord_copyWord found
  have taken : (word ++ stop).take ((word ++ stop).length - stop.length) = word := by
    rw [length_append, Nat.add_sub_cancel, take_left]
  rw [taken, copies]
  split
  · rename_i whole
    have sub : copied.Sublist word := copies ▸ copyWord_sublist .plain word
    exact (sub.eq_of_length whole).symm
  · rfl

theorem splitWords_of_none (found : takeWord .plain text = none) : splitWords text = none := by
  have filled : text ≠ [] := by
    rintro rfl
    cases found
  rw [splitWords, if_neg filled]
  split
  · rfl
  · rename_i other
    rw [scanWord_eq, found] at other
    cases other

theorem splitWords_of_some (filled : text ≠ []) (found : takeWord .plain text = some (copied, stop)) :
    splitWords text = if stop = [] then some [copied]
      else (splitWords (stop.tail.dropWhile isspace)).map (copied :: ·) := by
  rw [splitWords, if_neg filled]
  split
  · rename_i other
    rw [scanWord_eq, found] at other
    cases other
  · rename_i wordlen behind other
    rw [scanWord_eq, found] at other
    cases other
    dsimp only
    rw [wordText_eq found]
    cases stop <;> rfl

/-- Every block has exactly the bytes that are stored to it, and they are its word. -/
theorem splitBlocks_exact (text : CStr) :
    splitWords text = (splitBlocks text).map (List.map fun block => block.stored.dropLast) ∧
      ∀ blocks, splitBlocks text = some blocks →
        ∀ block ∈ blocks, block.stored.length = block.size := by
  induction size : text.length using Nat.strong_induction_on generalizing text with
  | _ n ih =>
    by_cases filled : text = []
    · rw [filled, splitWords, splitBlocks]
      refine ⟨rfl, fun blocks none => ?_⟩
      cases none
      exact fun block mem => absurd mem not_mem_nil
    rw [splitBlocks, if_neg filled]
    split
    · rename_i none
      rw [scanWord_eq, map_eq_none_iff] at none
      exact ⟨splitWords_of_none none, fun blocks made => by cases made⟩
    · rename_i wordlen stop found
      rw [scanWord_eq] at found
      obtain ⟨⟨copied, behind⟩, taken, same⟩ := map_eq_some_iff.mp found
      cases same
      rw [splitWords_of_some filled taken]
      dsimp only
      rw [wordText_eq taken]
      have fits : (copied ++ [0]).length = copied.length + 1 := length_append
      cases behind with
      | nil =>
        refine ⟨by simp, fun blocks made => ?_⟩
        cases made
        exact forall_mem_singleton.mpr fits
      | cons blank rest =>
        have shorter : (rest.dropWhile isspace).length < n := by
          obtain ⟨word, shape, -⟩ := takeWord_copyWord taken
          have short := length_dropWhile_le isspace rest
          rw [← size, shape, length_append, length_cons]
          omega
        obtain ⟨words, later⟩ := ih _ shorter _ rfl
        dsimp only
        refine ⟨?_, fun blocks made => ?_⟩
        · rw [if_neg (cons_ne_nil _ _), tail_cons, words, Option.map_map, Option.map_map]
          congr 1
          funext blocks
          simp
        · obtain ⟨others, rest, rfl⟩ := map_eq_some_iff.mp made
          exact forall_mem_cons.mpr ⟨fits, later others rest⟩

/-! ### Parts -/

theorem isQuote_cases (quote : UInt8) (is : isQuote quote = true) :
    isspace quote = false ∧ quote ≠ 92 := by
  simp only [isQuote, Bool.or_eq_true, decide_eq_true_eq] at is
  rcases is with rfl | rfl
  · decide
  · decide

theorem Unescaped.append (there : Unescaped quote text) (front : CStr)
    (apart : front.getLast? = some 92 → text.head? ≠ some quote) :
    Unescaped quote (front ++ text) := by
  obtain ⟨before, after, rfl, last⟩ := there
  refine ⟨front ++ before, after, (append_assoc ..).symm, ?_⟩
  intro ends
  cases before with
  | nil =>
    rw [append_nil] at ends
    exact apart ends rfl
  | cons d before =>
    rw [List.getLast?_append_of_ne_nil _ (cons_ne_nil d before)] at ends
    exact last ends

/-- Inside of quotes, up to `more`: no quote that ends them is met. -/
theorem takeWord_quoted (is : isQuote quote = true) (more : CStr) (closed : ¬ Unescaped quote inner)
    (last : inner.getLast? = some 92 → more.head? ≠ some quote) :
    takeWord (.quoted quote) (inner ++ more) =
      (takeWord (.quoted quote) more).map fun found =>
        (dropEscapes quote inner ++ found.1, found.2) := by
  induction size : inner.length using Nat.strong_induction_on generalizing inner with
  | _ n ih =>
    match inner with
    | [] => exact map_id'.symm
    | c :: rest =>
      have other : c ≠ quote := by
        rintro rfl
        exact closed ⟨[], rest, rfl, by simp⟩
      by_cases escapes : c = 92 ∧ rest.head? = some quote
      · obtain ⟨rfl, first⟩ := escapes
        obtain ⟨after, rfl⟩ := List.head?_eq_some_iff.mp first
        have plain := (isQuote_cases quote is).2
        have later :=
          @ih after.length (by rw [← size]; simp only [length_cons]; omega) after ?_ ?_ rfl
        · simp only [cons_append, takeWord, WordMode.next, if_neg other, List.head?_cons,
            and_self, if_true, reduceCtorEq, false_and, if_false, Bool.false_eq_true, later,
            Option.map_map, dropEscapes, if_neg (fun both : quote = 92 ∧ _ => plain both.1)]
          rfl
        · intro there
          exact closed (there.append [92, quote] fun same => absurd (Option.some.inj same) plain)
        · intro ends
          apply last
          cases after with
          | nil => cases ends
          | cons d after => rwa [List.getLast?_cons_cons, List.getLast?_cons_cons]
      · have ahead : ¬ (c = 92 ∧ (rest ++ more).head? = some quote) := by
          rintro ⟨rfl, first⟩
          cases rest with
          | nil => exact last rfl first
          | cons d rest => exact escapes ⟨rfl, first⟩
        have later := @ih rest.length (by rw [← size]; exact Nat.lt_succ_self _) rest ?_ ?_ rfl
        · simp only [cons_append, takeWord, WordMode.next, if_neg other, if_neg ahead,
            reduceCtorEq, false_and, if_false, if_true, later, Option.map_map, dropEscapes,
            if_neg escapes]
          rfl
        · intro there
          exact closed (there.append [c] fun same first => escapes ⟨Option.some.inj same, first⟩)
        · intro ends
          apply last
          cases rest with
          | nil => cases ends
          | cons d rest => rwa [List.getLast?_cons_cons]

theorem takeWord_quote (is : isQuote quote = true) (rest : CStr) :
    takeWord .plain (quote :: rest) = takeWord (.quoted quote) rest := by
  rw [takeWord, if_neg (by rw [(isQuote_cases quote is).1]; simp)]
  simp only [WordMode.next, is, if_true, Bool.false_eq_true, if_false]
  exact map_id'

theorem takeWord_part {part : WordPart} (solid : part.isBlank = false) (fits : part.Fits rest) :
    takeWord .plain (part.raw ++ rest) =
      (takeWord .plain rest).map fun found => (part.text ++ found.1, found.2) := by
  cases part with
  | char c =>
    have blank : isspace c = false := solid
    have kept : ¬ (c = 92 ∧ rest.head?.any isQuote = true) := by
      rintro ⟨rfl, ahead⟩
      rw [fits.2 rfl] at ahead
      cases ahead
    simp only [WordPart.raw, singleton_append, takeWord, blank, Bool.false_eq_true, and_false,
      if_false, WordMode.next, fits.1, if_neg kept, if_true, WordPart.text]
  | escape quote =>
    have is : isQuote quote = true := fits
    have backslash : isspace 92 = false ∧ isQuote 92 = false := by decide
    simp only [WordPart.raw, cons_append, nil_append, takeWord, backslash, Bool.false_eq_true,
      and_false, if_false, WordMode.next, List.head?_cons, any_some, is, and_self, if_true,
      reduceCtorEq, false_and, WordPart.text, Option.map_map]
    rfl
  | quoted quote inner =>
    obtain ⟨is, closed, last⟩ := fits
    rw [WordPart.raw, cons_append, append_assoc, takeWord_quote is,
      takeWord_quoted is _ closed fun ends => absurd ends last]
    simp only [singleton_append, takeWord, reduceCtorEq, false_and, if_false, WordMode.next,
      if_true, Bool.false_eq_true, Option.map_map, WordPart.text]
    rfl

theorem rawText_cons (part : WordPart) (parts : List WordPart) :
    rawText (part :: parts) = part.raw ++ rawText parts := flatMap_cons

theorem rawText_append (parts others : List WordPart) :
    rawText (parts ++ others) = rawText parts ++ rawText others := flatMap_append

theorem partsOf_append {parts others : List WordPart} :
    PartsOf more (parts ++ others) ↔ PartsOf (rawText others ++ more) parts ∧
      PartsOf more others := by
  induction parts with
  | nil => exact (and_iff_right trivial).symm
  | cons part parts ih =>
    rw [cons_append, PartsOf, PartsOf, ih, rawText_append, append_assoc, and_assoc]

theorem takeWord_parts {word : List WordPart} (solid : ∀ part ∈ word, part.isBlank = false)
    (fits : PartsOf more word) : takeWord .plain (rawText word ++ more) =
      (takeWord .plain more).map fun found => (word.flatMap WordPart.text ++ found.1, found.2) := by
  induction word with
  | nil => exact map_id'.symm
  | cons part word ih =>
    rw [forall_mem_cons] at solid
    rw [rawText_cons, append_assoc, takeWord_part solid.1 fits.1, ih solid.2 fits.2, Option.map_map]
    simp only [flatMap_cons, append_assoc]
    rfl

theorem raw_solid {part : WordPart} (solid : part.isBlank = false) (fits : part.Fits rest) :
    ∃ first tail, part.raw = first :: tail ∧ isspace first = false := by
  cases part with
  | char c => exact ⟨c, [], rfl, solid⟩
  | escape quote => exact ⟨92, [quote], rfl, by decide⟩
  | quoted quote inner => exact ⟨quote, inner ++ [quote], rfl, (isQuote_cases quote fits.1).1⟩

theorem raw_blank {part : WordPart} (blank : part.isBlank = true) :
    ∃ c, part.raw = [c] ∧ isspace c = true := by
  cases part with
  | char c => exact ⟨c, rfl, blank⟩
  | escape quote => cases blank
  | quoted quote inner => cases blank

theorem rawText_solid {part : WordPart} (parts : List WordPart) (solid : part.isBlank = false)
    (fits : part.Fits rest) (more : CStr) : rawText (part :: parts) ++ more ≠ [] ∧
      (rawText (part :: parts) ++ more).dropWhile isspace = rawText (part :: parts) ++ more := by
  obtain ⟨first, tail, shape, space⟩ := raw_solid solid fits
  rw [rawText_cons, shape]
  exact ⟨cons_ne_nil _ _, dropWhile_cons_of_neg (by simp [space])⟩

theorem splitWords_word {word : List WordPart} (solid : ∀ part ∈ word, part.isBlank = false)
    (fits : PartsOf (c :: rest) word) (filled : rawText word ++ c :: rest ≠ [])
    (space : isspace c = true) : splitWords (rawText word ++ c :: rest) =
      (splitWords (rest.dropWhile isspace)).map (word.flatMap WordPart.text :: ·) := by
  have taken := takeWord_parts solid fits
  have stop : takeWord .plain (c :: rest) = some ([], c :: rest) := by
    rw [takeWord, if_pos ⟨rfl, space⟩]
  rw [stop] at taken
  rw [splitWords_of_some filled taken, if_neg (cons_ne_nil _ _), tail_cons, append_nil]

/-- The words of a text that starts with some parts and goes on with nothing, or with a word that
is not ended. -/
theorem splitWords_parts (parts : List WordPart) (fits : PartsOf more parts)
    (ends : more = [] ∨ more.dropWhile isspace = more ∧ takeWord .plain more = none) :
    splitWords ((rawText parts ++ more).dropWhile isspace) =
      if more = [] then some ((Tokens.all WordPart.isBlank parts).map (List.flatMap WordPart.text))
      else none := by
  have fails (unended : takeWord .plain more = none) : more ≠ [] := by
    rintro rfl
    cases unended
  induction size : parts.length using Nat.strong_induction_on generalizing parts with
  | _ n ih =>
    cases parts with
    | nil =>
      rcases ends with rfl | ⟨stays, unended⟩
      · rw [Tokens.all_nil]
        exact splitWords_eq_nil.mpr rfl
      · rw [if_neg (fails unended)]
        exact (congrArg splitWords stays).trans (splitWords_of_none unended)
    | cons part rest =>
      by_cases blank : part.isBlank = true
      · obtain ⟨c, shape, space⟩ := raw_blank blank
        rw [rawText_cons, shape, Tokens.all_sep blank]
        refine Eq.trans (congrArg splitWords (dropWhile_cons_of_pos space)) ?_
        exact ih rest.length (size ▸ Nat.lt_succ_self _) rest fits.2 rfl
      · have solid := Bool.eq_false_of_not_eq_true blank
        obtain ⟨filled, stays⟩ := rawText_solid rest solid fits.1 more
        rw [stays]
        obtain all | ⟨field, sep, others, rfl, all, isSep⟩ := Tokens.field_cases WordPart.isBlank rest
        · have solids : ∀ x ∈ part :: rest, x.isBlank = false := forall_mem_cons.mpr ⟨solid, all⟩
          have taken := takeWord_parts solids fits
          rcases ends with rfl | ⟨-, unended⟩
          · have token := Tokens.next?_token solids [] (fun x first => by cases first)
            rw [append_nil] at token
            rw [splitWords_of_some filled taken, if_pos rfl, if_pos rfl, Tokens.all_of_next? token,
              tail_nil, Tokens.all_nil, append_nil]
            rfl
          · rw [unended] at taken
            rw [splitWords_of_none taken, if_neg (fails unended)]
        · obtain ⟨c, shape, space⟩ := raw_blank isSep
          have solids : ∀ x ∈ part :: field, x.isBlank = false := forall_mem_cons.mpr ⟨solid, all⟩
          have token :=
            Tokens.next?_token solids (sep :: others) (fun x first => by cases first; exact isSep)
          have words : Tokens.all WordPart.isBlank (part :: (field ++ sep :: others)) =
            (part :: field) :: Tokens.all WordPart.isBlank others := Tokens.all_of_next? token
          have split : rawText (part :: (field ++ sep :: others)) ++ more =
              rawText (part :: field) ++ c :: (rawText others ++ more) := by
            rw [← cons_append, rawText_append, rawText_cons sep, shape, append_assoc]
            rfl
          have pieces : PartsOf more (part :: field ++ sep :: others) := fits
          rw [partsOf_append, rawText_cons sep, shape, append_assoc, singleton_append] at pieces
          have later := ih others.length (by simp only [← size, length_cons, length_append]; omega)
            others pieces.2.2 rfl
          rw [split] at filled ⊢
          rw [splitWords_word solids pieces.1 filled space, later, words]
          split_ifs
          · rfl
          · rfl

/-! ### Every text -/

theorem closing_cases (quote : UInt8) (tail : CStr) (closed : ¬ Unescaped quote inner) :
    (∃ more rest, tail = more ++ quote :: rest ∧ ¬ Unescaped quote (inner ++ more) ∧
      (inner ++ more).getLast? ≠ some 92) ∨ ¬ Unescaped quote (inner ++ tail) := by
  induction tail generalizing inner with
  | nil =>
    right
    rwa [append_nil]
  | cons c tail ih =>
    by_cases here : c = quote ∧ inner.getLast? ≠ some 92
    · left
      refine ⟨[], tail, congrArg (· :: tail) here.1, ?_, ?_⟩
      · rwa [append_nil]
      · rw [append_nil]
        exact here.2
    · have still : ¬ Unescaped quote (inner ++ [c]) := by
        rintro ⟨before, after, shape, last⟩
        obtain rfl | ⟨front, d, rfl⟩ := eq_nil_or_concat' after
        · obtain ⟨rfl, same⟩ := append_inj' shape rfl
          exact here ⟨(List.cons.inj same).1, last⟩
        · refine closed ⟨before, front, ?_, last⟩
          have split : inner ++ [c] = before ++ quote :: front ++ [d] := by
            rw [shape, append_assoc, cons_append]
          exact (append_inj' split rfl).1
      rcases ih still with ⟨more, rest, rfl, kept, last⟩ | kept
      · rw [append_assoc] at kept last
        exact .inl ⟨c :: more, rest, rfl, kept, last⟩
      · rw [append_assoc] at kept
        exact .inr kept

theorem Unclosed.cons {part : WordPart} (unclosed : Unclosed rest) (fits : part.Fits rest) :
    Unclosed (part.raw ++ rest) := by
  obtain ⟨parts, quote, tail, rfl, also, is, none⟩ := unclosed
  refine ⟨part :: parts, quote, tail, ?_, ⟨fits, also⟩, is, none⟩
  rw [rawText_cons, append_assoc]

/-- Every text has its parts, or a quote in it is not closed. -/
theorem parts_or_unclosed (str : CStr) :
    (∃ parts, str = rawText parts ∧ PartsOf [] parts) ∨ Unclosed str := by
  induction size : str.length using Nat.strong_induction_on generalizing str with
  | _ n ih =>
    have cons (part : WordPart) (rest : CStr) (shape : str = part.raw ++ rest) (fits : part.Fits rest)
        (shorter : rest.length < n) :
        (∃ parts, str = rawText parts ∧ PartsOf [] parts) ∨ Unclosed str := by
      rcases ih rest.length shorter rest rfl with ⟨parts, rfl, also⟩ | unclosed
      · refine .inl ⟨part :: parts, shape.trans (rawText_cons part parts).symm, ?_, also⟩
        rwa [append_nil]
      · exact .inr (shape ▸ unclosed.cons fits)
    match str with
    | [] => exact .inl ⟨[], rfl, trivial⟩
    | c :: rest =>
      have shorter : rest.length < n := size ▸ Nat.lt_succ_self _
      by_cases is : isQuote c = true
      · have start : ¬ Unescaped c [] := fun ⟨before, after, shape, _⟩ => by simp at shape
        rcases closing_cases c rest start with ⟨more, behind, rfl, closed, last⟩ | none
        · refine cons (.quoted c more) behind ?_ ⟨is, closed, last⟩ ?_
          · rw [WordPart.raw, cons_append, append_assoc]
            rfl
          · rw [length_append, length_cons] at shorter
            omega
        · exact .inr ⟨[], c, rest, rfl, trivial, is, none⟩
      · have other := Bool.eq_false_of_not_eq_true is
        by_cases escapes : c = 92 ∧ rest.head?.any isQuote = true
        · obtain ⟨rfl, quote⟩ := escapes
          cases rest with
          | nil => cases quote
          | cons quoteByte behind =>
            exact cons (.escape quoteByte) behind rfl quote (Nat.lt_of_succ_lt shorter)
        · refine cons (.char c) rest rfl ⟨other, fun same => ?_⟩ shorter
          exact Bool.eq_false_of_not_eq_true fun ahead => escapes ⟨same, ahead⟩

/-- `wordsplit` fails exactly on a quote that is not closed, splits every other text at its white
space outside of quotes, and stores for each word as many bytes as it has allocated. -/
theorem wordsplit_exact (str : CStr) : (wordsplit (some str) = none ↔ Unclosed str) ∧
      (¬ Unclosed str → ∃ parts, str = rawText parts ∧ PartsOf [] parts) ∧
      (∀ parts, str = rawText parts → PartsOf [] parts →
        wordsplit (some str) = some (partWords parts)) ∧
      wordsplit (some str) = (splitBlocks (str.dropWhile isspace)).map
        (List.map fun block => block.stored.dropLast) ∧
      ∀ blocks, splitBlocks (str.dropWhile isspace) = some blocks →
        ∀ block ∈ blocks, block.stored.length = block.size := by
  have whole (parts : List WordPart) (shape : str = rawText parts) (fits : PartsOf [] parts) :
      wordsplit (some str) = some (partWords parts) := by
    have words := splitWords_parts parts fits (.inl rfl)
    rw [append_nil, if_pos rfl, Tokens.all_eq_splitOnP, ← shape] at words
    exact words
  have fails (unclosed : Unclosed str) : wordsplit (some str) = none := by
    obtain ⟨parts, quote, tail, rfl, fits, is, none⟩ := unclosed
    have stays : (quote :: tail).dropWhile isspace = quote :: tail :=
      dropWhile_cons_of_neg (by rw [(isQuote_cases quote is).1]; decide)
    have unended : takeWord .plain (quote :: tail) = Option.none := by
      have through := takeWord_quoted is [] none (fun _ => by simp)
      rw [append_nil] at through
      rw [takeWord_quote is, through]
      rfl
    exact (splitWords_parts parts fits (.inr ⟨stays, unended⟩)).trans (if_neg (cons_ne_nil _ _))
  obtain ⟨words, sizes⟩ := splitBlocks_exact (str.dropWhile isspace)
  refine ⟨⟨fun none => ?_, fails⟩, fun closed => ?_, whole, words, sizes⟩
  · rcases parts_or_unclosed str with ⟨parts, shape, fits⟩ | unclosed
    · rw [whole parts shape fits] at none
      cases none
    · exact unclosed
  · exact (parts_or_unclosed str).resolve_right closed

end Dulge
