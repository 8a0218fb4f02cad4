import Dulge.LocalDb

/-! `wordsplit` of `util-common.c`: a text is split at white space that is neither quoted nor
escaped. A word is measured first, up to its end, and then copied without its quotes and without
the backslashes that stand in front of a quote. Allocations succeed. -/

namespace Dulge

def isQuote (c : UInt8) : Bool := c = 39 || c = 34

/-- Where in a word one of its loops is: behind a backslash that is skipped the next character is
taken whatever it is. -/
inductive WordMode where
  | plain
  | quoted (quote : UInt8)
  | escaped (within : Option UInt8)
deriving DecidableEq

/-- The character `c` in front of `rest`: how the loop goes on, and whether the character belongs
to the word. Outside of quotes a backslash escapes both quotes, inside of them only the one that
ends them. -/
def WordMode.next (mode : WordMode) (c : UInt8) (rest : CStr) : WordMode × Bool :=
  match mode with
  | .plain =>
    if isQuote c then (.quoted c, false)
    else if c = 92 ∧ rest.head?.any isQuote then (.escaped none, false)
    else (.plain, true)
  | .quoted quote =>
    if c = quote then (.plain, false)
    else if c = 92 ∧ rest.head? = some quote then (.escaped (some quote), false)
    else (.quoted quote, true)
  | .escaped none => (.plain, true)
  | .escaped (some quote) => (.quoted quote, true)

/-- The loop that looks for the end of a word: `wordlen` and the text from `end` on, or nothing if
a quote is not closed. -/
def scanWord : WordMode → CStr → Option (Nat × CStr)
  | .plain, [] => some (0, [])
  | _, [] => none
  | mode, c :: rest =>
    if mode = .plain ∧ isspace c then some (0, c :: rest)
    else
      let step := mode.next c rest
      (scanWord step.1 rest).map fun found => (if step.2 then found.1 + 1 else found.1, found.2)

def copyWord : WordMode → CStr → CStr
  | _, [] => []
  | mode, c :: rest =>
    let step := mode.next c rest
    if step.2 then c :: copyWord step.1 rest else copyWord step.1 rest

theorem scanWord_suffix {mode : WordMode} {text stop : CStr} {wordlen : Nat}
    (found : scanWord mode text = some (wordlen, stop)) : ∃ word, text = word ++ stop := by
  induction text generalizing mode wordlen with
  | nil =>
    cases mode with
    | plain =>
      cases found
      exact ⟨[], rfl⟩
    | quoted quote => cases found
    | escaped within => cases found
  | cons c rest ih =>
    rw [scanWord] at found
    split at found
    · cases found
      exact ⟨[], rfl⟩
    · obtain ⟨⟨more, behind⟩, later, same⟩ := Option.map_eq_some_iff.mp found
      cases same
      obtain ⟨word, shape⟩ := ih later
      exact ⟨c :: word, congrArg (c :: ·) shape⟩

/-- The words from a character on that is not white space. A word without quotes and escapes is
copied as it is. -/
def splitWords (c : CStr) : Option (List CStr) :=
  if c = [] then some []
  else
    match _found : scanWord .plain c with
    | none => none
    | some (wordlen, stop) =>
      let text := c.take (c.length - stop.length)
      let word := if wordlen = text.length then text else copyWord .plain text
      match stop with
      -- `*end == '\0'` leaves the loop
      | [] => some [word]
      | _ :: rest => (splitWords (rest.dropWhile isspace)).map (word :: ·)
termination_by c.length
decreasing_by
  obtain ⟨_, shape⟩ := scanWord_suffix _found
  have shorter := List.length_dropWhile_le isspace rest
  rw [shape, List.length_append, List.length_cons]
  omega

/-- `wordsplit`: nothing with `EINVAL` for a missing text and for a quote that is not closed -/
def wordsplit (str : Option CStr) : Option (List CStr) :=
  str.bind fun str => splitWords (str.dropWhile isspace)

theorem splitWords_eq_nil {c : CStr} : splitWords c = some [] ↔ c = [] := by
  constructor
  · intro empty
    rw [splitWords] at empty
    split at empty
    · assumption
    · split at empty
      · cases empty
      · dsimp only at empty
        split at empty
        · cases empty
        · obtain ⟨_, _, word⟩ := Option.map_eq_some_iff.mp empty
          cases word
  · rintro rfl
    rw [splitWords, if_pos rfl]

end Dulge
