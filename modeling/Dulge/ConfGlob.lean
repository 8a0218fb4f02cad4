import Dulge.Depstring
import Dulge.Filelist
import Dulge.Lib.Buffer

/-! `escape_chars` and `globdir` of `conf.c`: the patterns of `Include` lines below another root
directory. `malloc` says which sizes it has memory for. -/

namespace Dulge
open Buffer List

def sizeMax : Nat := 2 ^ 64 - 1

variable (malloc : Nat → Bool)

def strdup (s : CStr) : Option (Block UInt8) :=
  if malloc (s.length + 1) then some ⟨s.length + 1, s ++ [0]⟩ else none

/-- The loop of `escape_chars` that copies: the bytes that are stored from `escaped` on. -/
def escapeLoop (escape : CStr) : CStr → CStr
  | [] => [0]
  | c :: rest =>
    if (memchr c escape).isSome then 92 :: c :: escapeLoop escape rest
    else c :: escapeLoop escape rest

def patternChars (escape pattern : CStr) : Nat := pattern.countP fun c => (memchr c escape).isSome

/-- `escape_chars`: the block that it returns -/
def escapeChars (pattern escape : Option CStr) : Option (Block UInt8) := do
  let pattern ← pattern
  let escape ← escape
  if patternChars escape pattern = 0 then strdup malloc pattern
  else if sizeMax - pattern.length < patternChars escape pattern ∨
      malloc (pattern.length + patternChars escape pattern) = false then none
  else some ⟨pattern.length + patternChars escape pattern, escapeLoop escape pattern⟩

def blockText (block : Block UInt8) : CStr := block.stored.takeWhile (· ≠ 0)

def escapeGlobPattern (pattern : CStr) : Option CStr :=
  (escapeChars malloc (some pattern) (some (cstr "\\*?["))).map blockText

def prependDir (dir : Option CStr) (path : CStr) : Option CStr :=
  match dir with
  | none => (strdup malloc path).map blockText
  | some dir =>
    let sep := if endsInSlash dir then [] else [slash]
    let newpath := dir ++ sep ++ path.dropWhile (· = slash)
    if malloc (newpath.length + 1) then some newpath else none

/-- The flags of `glob` that are in use. -/
structure GlobFlags where
  noescape : Bool
  nocheck : Bool
deriving DecidableEq

/-- What `glob` finds, or the error that it returns. -/
inductive Globbed where
  | nospace | aborted | nomatch
  | found (pathv : List CStr)
deriving DecidableEq

def globdir (glob : CStr → GlobFlags → Globbed) (dir : Option CStr) (pattern : CStr)
    (flags : GlobFlags) : Globbed :=
  match dir with
  | none => glob pattern flags
  | some dir =>
    let fullpattern : Option CStr := do
      let escapedDir ← escapeGlobPattern malloc dir
      -- "disable" backslash escaping by escaping any backslashes
      let pattern ← if flags.noescape
        then (escapeChars malloc (some pattern) (some [92])).map blockText else some pattern
      prependDir malloc (some escapedDir) pattern
    match fullpattern with
    | none => .nospace
    | some fullpattern => glob fullpattern { flags with noescape := false }

/-! ### The block of an escaped pattern -/

def escaped (escape pattern : CStr) : CStr :=
  pattern.flatMap fun c => if c ∈ escape then [92, c] else [c]

def EscapesInside (pattern escape : CStr) : Prop :=
  ∀ block, escapeChars malloc (some pattern) (some escape) = some block →
    block.Inside ∧ block.stored = escaped escape pattern ++ [0]

variable {malloc} {escape pattern : CStr}

theorem patternChars_cons (c : UInt8) : patternChars escape (c :: pattern) =
    patternChars escape pattern + if c ∈ escape then 1 else 0 := by
  simp only [patternChars, countP_cons, memchr_isSome]

theorem escapeLoop_eq (pattern : CStr) :
    escapeLoop escape pattern = escaped escape pattern ++ [0] := by
  induction pattern with
  | nil => rfl
  | cons c rest ih =>
    simp only [escapeLoop, memchr_isSome, escaped, flatMap_cons]
    split
    · exact congrArg (92 :: c :: ·) ih
    · exact congrArg (c :: ·) ih

theorem length_escaped (pattern : CStr) :
    (escaped escape pattern).length = pattern.length + patternChars escape pattern := by
  induction pattern with
  | nil => rfl
  | cons c rest ih =>
    have tail : (escaped escape (c :: rest)).length =
        (if c ∈ escape then [92, c] else [c]).length + (escaped escape rest).length := by
      rw [escaped, flatMap_cons, length_append]
      rfl
    rw [tail, ih, patternChars_cons, length_cons]
    split
    · simp only [length_cons, length_nil]
      omega
    · simp only [length_cons, length_nil]
      omega

theorem patternChars_eq_zero : patternChars escape pattern = 0 ↔ ∀ c ∈ pattern, c ∉ escape := by
  simp [patternChars, memchr_isSome]

theorem escaped_of_none (none : ∀ c ∈ pattern, c ∉ escape) : escaped escape pattern = pattern := by
  rw [escaped, flatMap_congr (g := fun c => [c]) fun c mem => if_neg (none c mem)]
  exact flatMap_singleton' pattern

/-- The terminator has no room in the block: a pattern fits exactly if there is nothing to escape,
or no memory for it. -/
theorem escapeChars_inside_iff (malloc : Nat → Bool) (pattern escape : CStr) :
    EscapesInside malloc pattern escape ↔ (∀ c ∈ pattern, c ∉ escape) ∨
      sizeMax - pattern.length < patternChars escape pattern ∨
      malloc (pattern.length + patternChars escape pattern) = false := by
  unfold EscapesInside
  by_cases none : patternChars escape pattern = 0
  · refine iff_of_true ?_ (.inl (patternChars_eq_zero.mp none))
    intro block made
    simp only [escapeChars, Option.bind_eq_bind, Option.bind_some, if_pos none, strdup] at made
    split at made
    · cases made
      refine ⟨?_, ?_⟩
      · simp [Block.Inside]
      · rw [escaped_of_none (patternChars_eq_zero.mp none)]
    · cases made
  · rw [or_iff_right (mt patternChars_eq_zero.mpr none)]
    simp only [escapeChars, Option.bind_eq_bind, Option.bind_some, if_neg none]
    split
    · rename_i refused
      refine iff_of_true ?_ refused
      intro block made
      cases made
    · rename_i given
      refine iff_of_false ?_ given
      intro fits
      have inside := (fits _ rfl).1
      simp only [Block.Inside, escapeLoop_eq, length_append, length_escaped,
        length_singleton] at inside
      omega

theorem escapeChars_overrun : ¬ EscapesInside (fun _ => true) (cstr "*") (cstr "\\*?[") ∧
    escapeChars (fun _ => true) (some (cstr "*")) (some (cstr "\\*?[")) =
      some ⟨2, [92, 42, 0]⟩ := by
  have made : escapeChars (fun _ => true) (some (cstr "*")) (some (cstr "\\*?[")) =
      some ⟨2, [92, 42, 0]⟩ := by decide +kernel
  refine ⟨?_, made⟩
  intro fits
  have inside := (fits _ made).1
  exact absurd inside (by decide)

end Dulge
