import Dulge.IniFile
import Dulge.Lib.Tokens
import Dulge.LocalDesc

/-! `multiselect_parse`: the answer to a selection prompt. The array is the memory from its first
element on, so that a write outside its bounds would be seen. `int` has 32 bits and `long` 64. -/
namespace Dulge

/-- The messages of `parseindex`. -/
inductive IndexError where
  | notBetween (n least most : Int)
  | notNumber (s : CStr)
  deriving DecidableEq

/-- The conversion from `long` to `int`. -/
def toInt (n : Int) : Int := n.bmod (2 ^ 32)

/-- `parseindex`; `strtol` reads what `strtoll` reads. -/
def parseindex (s : CStr) (least most : Int) : Except IndexError Int :=
  let parsed := strtoll s
  let n := toInt parsed.result
  if parsed.rest = [] then
    if n < least ∨ most < n then .error (.notBetween n least most) else .ok n
  else .error (.notNumber s)

/-- The texts of the numbers of a range, cut at the first hyphen behind the first byte. -/
def cutRange (starts : CStr) : CStr × Option CStr :=
  match starts with
  | [] => (starts, none)
  | c :: rest =>
    if starts.length > 1 then
      match memchr 45 rest with
      | some (before, ends) => (c :: before, some ends)
      | none => (starts, none)
    else (starts, none)

def readRange (count : Int) (starts : CStr) : Except IndexError (Int × Int) :=
  let cut := cutRange starts
  match parseindex cut.1 1 count with
  | .error message => .error message
  | .ok start =>
    match cut.2 with
    | none => .ok (start, start)
    | some ends =>
      match parseindex ends start count with
      | .error message => .error message
      | .ok last => .ok (start, last)

abbrev Selected := Int → UInt8

/-- The `do` loop, which writes `more` elements behind the first. -/
def writeRange (value : UInt8) : Nat → Int → Selected → Selected
  | 0, start, array => Function.update array (start - 1) value
  | more + 1, start, array =>
    writeRange value more (start + 1) (Function.update array (start - 1) value)

/-- `memset(array, 0, count)` -/
def deselect (count : Int) (array : Selected) : Selected :=
  fun i => if 0 ≤ i ∧ i < count then 0 else array i

def caret : UInt8 := 94

def excludes (token : CStr) : Bool := token.head? = some caret

def tokenBody (token : CStr) : CStr := if excludes token then token.tail else token

/-- One turn of the loop: `first` is whether `str` is still set. -/
def multiselectToken (count : Int) (first : Bool) (starts : CStr) (array : Selected) :
    Option IndexError × Selected :=
  let token := strtrim starts
  if token = [] then (none, array)
  else
    let array := if !excludes token && first then deselect count array else array
    match readRange count (tokenBody token) with
    | .error message => (some message, array)
    | .ok (start, last) =>
      (none, writeRange (if excludes token then 0 else 1) (last - start).toNat start array)

/-- What `multiselect_parse` returns, the array it leaves and the message it prints. -/
structure Multiselect where
  ret : Int
  array : Selected
  message : Option IndexError

def multiselectLoop (count : Int) : Bool → List CStr → Selected → Multiselect
  | _, [], array => ⟨0, array, none⟩
  | first, starts :: rest, array =>
    match multiselectToken count first starts array with
    | (none, array) => multiselectLoop count false rest array
    | (some message, array) => ⟨-1, array, some message⟩

def isSelectDelim (c : UInt8) : Bool := c = 32 || c = 44

/-- `multiselect_parse`. What the body writes into a token stays in front of what the next call of
`strtok_r` reads. -/
def multiselectParse (array : Selected) (count : Int) (response : CStr) : Multiselect :=
  multiselectLoop count true (Tokens.all isSelectDelim response) array

section Typed

def selectTokens (response : CStr) : List CStr :=
  ((response.splitOnP isSelectDelim).map strtrim).filter (!·.isEmpty)

/-- The integer that a whole text is, of any size: white space and a sign may stand in front of its
digits, as `strtol` has it. -/
def integerText (s : CStr) : Option Int :=
  match scanNumber s with
  | some (minus, digits, []) =>
    some (if minus then -(digitsValue digits : Int) else digitsValue digits)
  | _ => none

structure Choice where
  includes : Bool
  first : Int
  last : Int
  deriving DecidableEq

def Choice.has (choice : Choice) (n : Int) : Bool := choice.first ≤ n ∧ n ≤ choice.last

def Choice.value (choice : Choice) : UInt8 := if choice.includes then 1 else 0

/-- The forms `n`, `n-m`, `^n` and `^n-m` of a token. -/
inductive OfForm (count : Int) : CStr → Choice → Prop
  | one {s : CStr} {n : Int} (number : integerText s = some n) (least : 1 ≤ n) (most : n ≤ count) :
      OfForm count s ⟨true, n, n⟩
  | range {a b : CStr} {n m : Int} (start : integerText a = some n) (last : integerText b = some m)
      (least : 1 ≤ n) (order : n ≤ m) (most : m ≤ count) : OfForm count (a ++ 45 :: b) ⟨true, n, m⟩
  | excluding {s : CStr} {n m : Int} (form : OfForm count s ⟨true, n, m⟩) :
      OfForm count (caret :: s) ⟨false, n, m⟩

/-- The value of element `i` after the choices: the last one about it decides, and without one the
first of all. -/
def typedValue (choices : List Choice) (i : Int) : UInt8 :=
  match choices.reverse.find? (·.has (i + 1)) with
  | some choice => choice.value
  | none => if choices.head?.all (!·.includes) then 1 else 0

structure ReadAsTyped (array : Selected) (count : Int) (response : CStr) : Prop where
  bounds : ∀ i, i < 0 ∨ count ≤ i → (multiselectParse array count response).array i = array i
  returns : (multiselectParse array count response).ret = 0 ∨
    (multiselectParse array count response).ret = -1
  rejects : (multiselectParse array count response).ret = -1 ↔
    ∃ token ∈ selectTokens response, ∀ choice, ¬ OfForm count token choice
  selects : (multiselectParse array count response).ret = 0 →
    ∃ choices, List.Forall₂ (OfForm count) (selectTokens response) choices ∧
      ∀ i, 0 ≤ i → i < count → (multiselectParse array count response).array i = typedValue choices i

/-- The choice that the code reads, an empty range if it takes none. -/
def choiceOf (count : Int) (token : CStr) : Choice :=
  match readRange count (tokenBody token) with
  | .ok (start, last) => ⟨!excludes token, start, last⟩
  | .error _ => ⟨!excludes token, 1, 0⟩

/-- `parseindex` takes the numbers of the token. -/
def Taken (count : Int) (token : CStr) : Prop :=
  ∃ range, readRange count (tokenBody token) = .ok range

/-- The numbers of the token are numbers of an `int`. -/
def NumbersFit (token : CStr) : Prop :=
  ∀ s ∈ (cutRange (tokenBody token)).1 :: (cutRange (tokenBody token)).2.toList,
    ∀ n, integerText s = some n → -2 ^ 31 ≤ n ∧ n < 2 ^ 31

def BlankFirst (response : CStr) : Prop :=
  ∃ starts, (Tokens.all isSelectDelim response).head? = some starts ∧ strtrim starts = []

/-- Either `parseindex` refuses a token, or all numbers fit into an `int` and the first token is the
first text that `strtok_r` finds, or is one for which that makes no difference. -/
def PlainAnswer (count : Int) (response : CStr) : Prop :=
  (∃ token ∈ selectTokens response, ¬ Taken count token) ∨
    (∀ token ∈ selectTokens response, NumbersFit token) ∧
      (BlankFirst response → (selectTokens response).head?.all excludes = true ∨
        ∀ n, 1 ≤ n → n ≤ count → ∃ token ∈ selectTokens response, (choiceOf count token).has n = true)

end Typed

end Dulge
