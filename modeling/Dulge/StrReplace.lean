import Dulge.PrintFormat
import Dulge.Lib.Buffer

/-! The block that `strreplace` allocates. Its size is computed in the 64 bits of a `size_t`, where
a replacement that is shorter than the needle gives a difference that wraps. -/

namespace Dulge
open Buffer List

/-- `newsz`, with the number of occurrences -/
def newsz (str needle replace : CStr) (count : Nat) : BitVec 64 :=
  BitVec.ofNat 64 str.length + 1 +
    BitVec.ofNat 64 count * (BitVec.ofNat 64 replace.length - BitVec.ofNat 64 needle.length)

/-- The bytes that the second loop and the `strcpy` behind it store from `newstr` on. A rest that is
empty is not copied, and then no terminator is stored. -/
def storeReplaced (needlesz : Nat) (replace : CStr) : CStr → List CStr → CStr
  | p, [] => if p = [] then [] else p ++ [0]
  | p, behind :: list =>
    p.take (p.length - (behind.length + needlesz)) ++ replace ++
      storeReplaced needlesz replace behind list

/-- The block that `strreplace` returns: a copy of a text without the needle, otherwise what has
been stored to the block of `newsz` bytes, which `calloc` has cleared. -/
def strreplaceBlock (str needle : CStr) (replace : Option CStr) : Block UInt8 :=
  let list := occurrences needle str.length str
  if list = [] then ⟨str.length + 1, str ++ [0]⟩
  else ⟨(newsz str needle (replace.getD []) list.length).toNat,
    storeReplaced needle.length (replace.getD []) str list⟩

def clearedBytes (block : Block UInt8) : CStr :=
  block.stored ++ List.replicate (block.size - block.stored.length) 0

theorem storeReplaced_eq (needlesz : Nat) (replace p : CStr) (list : List CStr) :
    storeReplaced needlesz replace p list = copyReplaced needlesz replace p list ∨
      storeReplaced needlesz replace p list = copyReplaced needlesz replace p list ++ [0] := by
  induction list generalizing p with
  | nil =>
    rw [storeReplaced, copyReplaced]
    split
    · rename_i empty
      exact .inl empty.symm
    · exact .inr rfl
  | cons behind list ih =>
    simp only [storeReplaced, copyReplaced, append_assoc]
    rcases ih behind with same | longer
    · exact .inl (by rw [same])
    · exact .inr (by rw [longer])

theorem length_copyReplaced (needle replace : CStr) (fuel : Nat) (text : CStr) :
    (copyReplaced needle.length replace text (occurrences needle fuel text)).length +
        (occurrences needle fuel text).length * needle.length =
      text.length + (occurrences needle fuel text).length * replace.length := by
  induction fuel generalizing text with
  | zero => simp only [occurrences, copyReplaced, length_nil, Nat.zero_mul]
  | succ fuel ih =>
    rw [occurrences]
    cases found : strstr needle text with
    | none => simp only [copyReplaced, length_nil, Nat.zero_mul]
    | some behind =>
      have fits := strstr_length found
      have rest := ih behind
      simp only [copyReplaced, length_append, length_take, length_cons, Nat.succ_mul]
      omega

theorem newsz_eq {str needle replace text : CStr} {count : Nat}
    (size : text.length + count * needle.length = str.length + count * replace.length)
    (small : text.length < 2 ^ 63) : (newsz str needle replace count).toNat = text.length + 1 := by
  have wrapped := congrArg (BitVec.ofNat 64) size
  simp only [BitVec.ofNat_add, BitVec.ofNat_mul] at wrapped
  have same : newsz str needle replace count = BitVec.ofNat 64 (text.length + 1) := by
    have one : BitVec.ofNat 64 1 = 1 := rfl
    rw [newsz, BitVec.ofNat_add, one]
    linear_combination -wrapped
  rw [same, BitVec.toNat_ofNat]
  exact Nat.mod_eq_of_lt (by omega)

/-- `strreplace` replaces the leftmost occurrences that do not overlap, and its block has exactly
the room for the result. -/
theorem strreplace_exact (str needle : CStr) (replace : Option CStr) (nonempty : needle ≠ [])
    (small : (Template.replaceAll needle (replace.getD []) str).length < 2 ^ 63) :
    strreplace str needle replace = Template.replaceAll needle (replace.getD []) str ∧
      (strreplaceBlock str needle replace).Inside ∧
      clearedBytes (strreplaceBlock str needle replace) = strreplace str needle replace ++ [0] := by
  have text := strreplace_eq nonempty str replace
  rw [← text] at small
  refine ⟨text, ?_⟩
  unfold strreplaceBlock strreplace at *
  dsimp only at *
  generalize found : occurrences needle str.length str = list at *
  by_cases empty : list = []
  · simp only [if_pos empty, Block.Inside, clearedBytes, length_append, length_singleton,
      le_refl, Nat.sub_self, replicate_zero, append_nil, and_self]
  · have size := length_copyReplaced needle (replace.getD []) str.length str
    rw [found] at size
    rw [if_neg empty] at small ⊢
    have room := newsz_eq size small
    simp only [if_neg empty, Block.Inside, clearedBytes, room]
    rcases storeReplaced_eq needle.length (replace.getD []) str list with short | whole
    · rw [short, Nat.add_sub_cancel_left]
      exact ⟨Nat.le_succ _, rfl⟩
    · rw [whole, length_append, length_singleton, Nat.sub_self]
      exact ⟨le_refl _, append_nil _⟩

/-- A replacement that is shorter than the needle, which occurs at the end. -/
theorem strreplace_exact_shorter :
    (strreplaceBlock (cstr "ab--b--") (cstr "--") (some (cstr "."))).Inside ∧
      clearedBytes (strreplaceBlock (cstr "ab--b--") (cstr "--") (some (cstr "."))) =
        strreplace (cstr "ab--b--") (cstr "--") (some (cstr ".")) ++ [0] :=
  (strreplace_exact (cstr "ab--b--") (cstr "--") (some (cstr ".")) (by decide +kernel)
    (by decide +kernel)).2

end Dulge
