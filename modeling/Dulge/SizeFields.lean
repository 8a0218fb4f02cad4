import Dulge.LocalDesc
import Dulge.SyncDb

/-! Sizes of packages: which texts `_alpm_strtoofft` reads as the numbers that they denote. -/

namespace Dulge
open List

def BareNumber (line : CStr) : Prop := line ≠ [] ∧ ∀ c ∈ line, isdigit c = true

instance (line : CStr) : Decidable (BareNumber line) := inferInstanceAs (Decidable (_ ∧ _))

/-- The number that a text denotes if an `off_t` can hold it, and otherwise -1. -/
def denotedSize (line : CStr) : Int :=
  if BareNumber line ∧ digitsValue line < 2 ^ 63 then digitsValue line else -1

/-- A turn of `parse_descfile`, as far as it sets the size. -/
def parseDescfileSize (line : CStr) (isize : Int) : Int :=
  if line.head? = some 35 then isize
  else
    match memchr 32 line with
    | some (key, 61 :: 32 :: ptr) => if strcmp key (cstr "size") = 0 then strtoofft ptr else isize
    | _ => isize

/-- The text is read as what it denotes, and no size field that it is stored to is below -1. -/
structure ReadAsSize (line : CStr) : Prop where
  parsed : strtoofft line = denotedSize line
  csize : ∀ pkg, -1 ≤ (SyncLine.csize.store line pkg).1.size
  isize : ∀ pkg, -1 ≤ (SyncLine.isize.store line pkg).1.isize
  localSize : ∀ info, -1 ≤ (LineField.size.store line info).1.isize
  package : ∀ isize, -1 ≤ parseDescfileSize (cstr "size = " ++ line) isize

variable {line rest : CStr} {c : UInt8}

theorem scanNumber_of_digit (digit : isdigit c = true) : scanNumber (c :: rest) =
    some (false, (c :: rest).takeWhile isdigit, (c :: rest).dropWhile isdigit) := by
  obtain ⟨space, minus, plus⟩ := digit_not_sign digit
  have kept : (c :: rest).dropWhile isspace = c :: rest :=
    dropWhile_cons_of_neg (by simp [space])
  have filled : (c :: rest).takeWhile isdigit ≠ [] := by
    rw [takeWhile_cons_of_pos digit]
    exact cons_ne_nil _ _
  unfold scanNumber
  rw [kept]
  split
  · rename_i same
    exact absurd (List.cons.inj same).1 minus
  · rename_i same
    exact absurd (List.cons.inj same).1 plus
  · exact if_neg filled

theorem strtoofft_of_not_bare (other : ¬ BareNumber line) : strtoofft line = -1 := by
  cases line with
  | nil => rfl
  | cons c rest =>
    unfold strtoofft
    dsimp only
    by_cases digit : isdigit c = true
    · have junk : (c :: rest).dropWhile isdigit ≠ [] := by
        intro all
        exact other ⟨cons_ne_nil c rest, dropWhile_eq_nil_iff.mp all⟩
      have behind : (strtoull (c :: rest)).rest = (c :: rest).dropWhile isdigit := by
        unfold strtoull
        rw [scanNumber_of_digit digit]
        dsimp only
        split
        · rfl
        · rfl
      rw [if_neg (by rw [digit]; decide), behind]
      rw [if_pos junk, ite_self, ite_self]
    · exact if_pos (Bool.eq_false_of_not_eq_true digit)

theorem strtoofft_of_bare (bare : BareNumber line) : strtoofft line =
    if digitsValue line < 2 ^ 63 then (digitsValue line : Int)
    else if digitsValue line < 2 ^ 64 then digitsValue line - 2 ^ 64 else -1 := by
  obtain ⟨filled, all⟩ := bare
  obtain ⟨c, rest, rfl⟩ := exists_cons_of_ne_nil filled
  have digit := all c mem_cons_self
  obtain ⟨taken, left⟩ := digits_run all
  have parsed : strtoull (c :: rest) = if 2 ^ 64 ≤ digitsValue (c :: rest)
      then ⟨2 ^ 64 - 1, [], true⟩ else ⟨digitsValue (c :: rest), [], false⟩ := by
    unfold strtoull
    rw [scanNumber_of_digit digit, taken, left]
    rfl
  unfold strtoofft
  dsimp only
  rw [if_neg (by rw [digit]; decide), parsed]
  by_cases large : 2 ^ 64 ≤ digitsValue (c :: rest)
  · rw [if_pos large, if_neg (by simp), if_pos ⟨rfl, rfl⟩, if_neg (by omega), if_neg (by omega)]
  · rw [if_neg large, if_neg (by simp), if_neg (by simp), if_neg (by simp), if_pos (not_le.mp large)]

/-- Sizes are read as they are denoted exactly if they are not from 2 ^ 63 up to 2 ^ 64 - 2: these
wrap to numbers below -1. -/
theorem readAsSize_iff (line : CStr) : ReadAsSize line ↔
    ¬ (BareNumber line ∧ 2 ^ 63 ≤ digitsValue line ∧ digitsValue line < 2 ^ 64 - 1) := by
  constructor
  · rintro reads ⟨bare, least, most⟩
    have size := reads.parsed
    rw [strtoofft_of_bare bare, denotedSize, if_neg (by omega), if_pos (by omega),
      if_neg (by omega)] at size
    omega
  · intro fits
    have parsed : strtoofft line = denotedSize line := by
      unfold denotedSize
      by_cases bare : BareNumber line
      · rw [strtoofft_of_bare bare]
        by_cases small : digitsValue line < 2 ^ 63
        · rw [if_pos small, if_pos ⟨bare, small⟩]
        · have refused : ¬ (BareNumber line ∧ digitsValue line < 2 ^ 63) := fun both => small both.2
          rw [if_neg small, if_neg refused]
          split
          · rename_i most
            have last : digitsValue line = 2 ^ 64 - 1 := by
              by_contra other
              exact fits ⟨bare, by omega, by omega⟩
            omega
          · rfl
      · rw [strtoofft_of_not_bare bare, if_neg (fun both => bare both.1)]
    have least : -1 ≤ strtoofft line := by
      rw [parsed, denotedSize]
      split
      · omega
      · exact le_refl _
    exact ⟨parsed, fun _ => least, fun _ => least, fun _ => least, fun _ => least⟩

theorem readAsSize_wraps : ¬ ReadAsSize (cstr "9223372036854775808") ∧
    strtoofft (cstr "9223372036854775808") = -9223372036854775808 := by
  have bare : BareNumber (cstr "9223372036854775808") := by decide +kernel
  have value : digitsValue (cstr "9223372036854775808") = 2 ^ 63 := by decide +kernel
  refine ⟨?_, ?_⟩
  · intro reads
    have size := reads.parsed
    rw [strtoofft_of_bare bare, denotedSize, value] at size
    norm_num at size
  · rw [strtoofft_of_bare bare, value]
    norm_num

end Dulge
