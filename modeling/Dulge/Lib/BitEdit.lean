import Mathlib.Data.BitVec

/-! Edits of a word of flags that give some of its bits a value and leave the others alone. The bits
an edit touches can be recorded in a mask, and the edit can be laid over another word later. -/

namespace BitEdit

variable {w : Nat}

/-- The bits of `mask` get the values that `value` has there. -/
structure Edit (w : Nat) where
  value : BitVec w
  mask : BitVec w
  inside : value &&& ~~~mask = 0

namespace Edit

def on (e : Edit w) (word : BitVec w) : BitVec w := (word &&& ~~~e.mask) ||| e.value

def set (bits : BitVec w) : Edit w := ⟨bits, bits, by simp⟩

def unset (bits : BitVec w) : Edit w := ⟨0, bits, by simp⟩

theorem value_bit (e : Edit w) (i : Nat) (hi : i < w) (free : e.mask[i] = false) :
    e.value[i] = false := by
  have none := congrArg (fun word : BitVec w => word[i]) e.inside
  simpa [free] using none

theorem on_bit (e : Edit w) (word : BitVec w) (i : Nat) (hi : i < w) :
    (e.on word)[i] = if e.mask[i] = true then e.value[i] else word[i] := by
  rw [on, BitVec.getElem_or, BitVec.getElem_and, BitVec.getElem_not]
  cases touched : e.mask[i] with
  | true => simp
  | false => simp [e.value_bit i hi touched]

def andThen (e f : Edit w) : Edit w where
  value := f.on e.value
  mask := e.mask ||| f.mask
  inside := by
    ext i hi
    rw [BitVec.getElem_and, BitVec.getElem_not, BitVec.getElem_or, on_bit]
    cases late : f.mask[i] with
    | true => simp
    | false =>
      cases early : e.mask[i] with
      | true => simp
      | false => simp [e.value_bit i hi early]

theorem andThen_on (e f : Edit w) (word : BitVec w) : (e.andThen f).on word = f.on (e.on word) := by
  ext i hi
  simp only [on_bit, andThen, BitVec.getElem_or]
  cases late : f.mask[i] with
  | true => simp
  | false => simp

theorem set_on (bits word : BitVec w) : (set bits).on word = word ||| bits := by
  ext i hi
  rw [on_bit, BitVec.getElem_or, set]
  cases bits[i] <;> simp

theorem unset_on (bits word : BitVec w) : (unset bits).on word = word &&& ~~~bits := by
  simp [unset, on]

theorem overlay_on (e : Edit w) (word base : BitVec w) :
    (e.on word &&& e.mask) ||| (base &&& ~~~e.mask) = e.on base := by
  ext i hi
  simp only [BitVec.getElem_or, BitVec.getElem_and, BitVec.getElem_not, on_bit]
  cases touched : e.mask[i] <;> simp

end Edit

end BitEdit
