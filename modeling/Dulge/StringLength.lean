import Dulge.CString
import Dulge.Lib.Buffer

/-! `string_length` of `util.c`: the columns that a string takes on the terminal, without the colour
sequences in it. -/

namespace Dulge
open Buffer List

def skipColour : CStr → Option CStr
  | 27 :: 91 :: d :: t =>
    if isdigit d then
      match t.dropWhile fun c => isdigit c || c = 59 with
      | 109 :: rest => some rest
      | _ => none
    else none
  | _ => none

def Colour (seq : CStr) : Prop :=
  ∃ d params, seq = 27 :: 91 :: d :: (params ++ [109]) ∧ isdigit d = true ∧
    ∀ c ∈ params, (isdigit c || c = 59) = true

inductive Stripped : CStr → CStr → Prop
  | nil : Stripped [] []
  | colour {seq rest copy : CStr} : Colour seq → Stripped rest copy → Stripped (seq ++ rest) copy
  | keep {c : UInt8} {rest copy : CStr} : (∀ seq, Colour seq → ¬ seq <+: c :: rest) →
      Stripped rest copy → Stripped (c :: rest) (c :: copy)

variable {s seq rest copy behind : CStr}

theorem skipColour_some (found : skipColour s = some behind) :
    ∃ seq, Colour seq ∧ s = seq ++ behind := by
  unfold skipColour at found
  split at found
  · rename_i d t
    split at found
    · rename_i digit
      split at found
      · rename_i rest stop
        cases found
        refine ⟨_, ⟨d, t.takeWhile fun c => isdigit c || c = 59, rfl, digit, ?_⟩, ?_⟩
        · intro c mem
          exact mem_takeWhile_imp (p := fun c => isdigit c || c = 59) mem
        · simp only [cons_append, append_assoc, nil_append, ← stop, takeWhile_append_dropWhile]
      · cases found
    · cases found
  · cases found

theorem Colour.skip (colour : Colour seq) : skipColour (seq ++ rest) = some rest := by
  obtain ⟨d, params, rfl, digit, all⟩ := colour
  have stop : ((params ++ [109]) ++ rest).dropWhile (fun c => isdigit c || c = 59) =
      109 :: rest := by
    rw [append_assoc, dropWhile_append_of_pos all]
    exact dropWhile_cons_of_neg (by decide)
  simp only [cons_append, skipColour, digit, if_true, stop]

/-- The loop of `string_length`: the bytes that are stored in `replaced`. -/
def stripLoop (s : CStr) : CStr :=
  match s with
  | [] => [0]
  | c :: rest =>
    match _found : skipColour (c :: rest) with
    | some behind => stripLoop behind
    | none => c :: stripLoop rest
termination_by s.length
decreasing_by
  · obtain ⟨seq, ⟨d, params, rfl, _⟩, shape⟩ := skipColour_some _found
    have size := congrArg List.length shape
    simp only [length_append, length_cons] at size ⊢
    omega
  · exact Nat.lt_succ_self _

/-- The result of `string_length`, and the block of the stripped copy if there is one. -/
structure Measured where
  len : Nat
  replaced : Option (Block UInt8)

/-- `string_length`, where `columns` stands for `mbstowcs` of so many characters followed by
`wcswidth`. -/
def stringLength (columns : CStr → Nat → Nat) (s : Option CStr) : Measured :=
  match s with
  | none => ⟨0, none⟩
  | some s =>
    if s = [] then ⟨0, none⟩
    else if 27 ∈ s then
      ⟨columns (stripLoop s) ((stripLoop s).length - 1), some ⟨s.length, stripLoop s⟩⟩
    else ⟨columns (s ++ [0]) (s.length + 1), none⟩

theorem stripLoop_stripped (s : CStr) : ∃ copy, stripLoop s = copy ++ [0] ∧ Stripped s copy := by
  induction s using stripLoop.induct with
  | case1 => exact ⟨[], by rw [stripLoop]; rfl, .nil⟩
  | case2 c rest behind found ih =>
    obtain ⟨copy, stored, stripped⟩ := ih
    obtain ⟨seq, colour, shape⟩ := skipColour_some found
    refine ⟨copy, ?_, shape ▸ .colour colour stripped⟩
    rw [stripLoop]
    split
    · rename_i other same
      rw [same] at found
      cases found
      exact stored
    · rename_i none
      rw [none] at found
      cases found
  | case3 c rest none ih =>
    obtain ⟨copy, stored, stripped⟩ := ih
    refine ⟨c :: copy, ?_, .keep ?_ stripped⟩
    · rw [stripLoop]
      split
      · rename_i other same
        rw [same] at none
        cases none
      · rw [stored]
        rfl
    · rintro seq colour ⟨behind, shape⟩
      rw [← shape, colour.skip] at none
      cases none

theorem Stripped.length_le (stripped : Stripped s copy) : copy.length ≤ s.length := by
  induction stripped with
  | nil => exact le_refl _
  | colour _ _ ih =>
    rw [length_append]
    omega
  | keep _ _ ih => exact Nat.succ_le_succ ih

theorem Colour.ne_nil (colour : Colour seq) : seq ≠ [] := by
  obtain ⟨d, params, rfl, _⟩ := colour
  exact cons_ne_nil _ _

theorem Stripped.length_lt_iff (stripped : Stripped s copy) :
    copy.length < s.length ↔ ∃ seq, Colour seq ∧ seq <:+: s := by
  induction stripped with
  | nil =>
    refine iff_of_false (Nat.lt_irrefl _) ?_
    rintro ⟨seq, colour, inside⟩
    exact colour.ne_nil (infix_nil.mp inside)
  | @colour seq rest copy colour stripped ih =>
    refine iff_of_true ?_ ⟨seq, colour, infix_append [] seq rest⟩
    have shorter := stripped.length_le
    have filled := length_pos_iff.mpr colour.ne_nil
    rw [length_append]
    omega
  | @keep c rest copy outside stripped ih =>
    rw [length_cons, length_cons, Nat.add_lt_add_iff_right, ih]
    refine exists_congr fun seq => and_congr_right fun colour => ?_
    rw [infix_cons_iff]
    exact (or_iff_right (outside seq colour)).symm

/-- The copy fits into `strlen(s)` bytes and is the text without its colour sequences. -/
def StripsInside (columns : CStr → Nat → Nat) (s : CStr) : Prop :=
  ∃ block, (stringLength columns (some s)).replaced = some block ∧ block.size = s.length ∧
    block.Inside ∧ ∃ copy, block.stored = copy ++ [0] ∧ Stripped s copy

/-- The block has no byte for the terminator: the copy fits exactly if it leaves something out. -/
theorem stringLength_inside_iff (columns : CStr → Nat → Nat) {s : CStr} (escape : 27 ∈ s) :
    StripsInside columns s ↔ ∃ seq, Colour seq ∧ seq <:+: s := by
  obtain ⟨copy, stored, stripped⟩ := stripLoop_stripped s
  have block : (stringLength columns (some s)).replaced = some ⟨s.length, stripLoop s⟩ := by
    simp only [stringLength, if_neg (ne_nil_of_mem escape), if_pos escape]
  have inside : Block.Inside ⟨s.length, stripLoop s⟩ ↔ copy.length < s.length := by
    rw [Block.Inside, stored, length_append]
    rfl
  rw [← stripped.length_lt_iff, ← inside]
  constructor
  · rintro ⟨other, made, -, fits, -⟩
    rw [block] at made
    cases made
    exact fits
  · intro fits
    exact ⟨_, block, rfl, fits, copy, stored, stripped⟩

/-- The name of a repository in a bold colour. -/
theorem stringLength_inside_bold :
    let s := 27 :: cstr "[1;35m" ++ cstr "core" ++ 27 :: cstr "[0m"
    27 ∈ s ∧ StripsInside (fun _ len => len) s := by
  intro s
  have escape : 27 ∈ s := mem_cons_self
  have colour : Colour (27 :: cstr "[1;35m") :=
    ⟨49, cstr ";35", by decide +kernel, by decide, by decide +kernel⟩
  have first : 27 :: cstr "[1;35m" <:+: s := ⟨[], cstr "core" ++ 27 :: cstr "[0m", rfl⟩
  exact ⟨escape, (stringLength_inside_iff _ escape).mpr ⟨_, colour, first⟩⟩

theorem stringLength_overrun : ¬ StripsInside (fun _ len => len) [27] ∧
    (stringLength (fun _ len => len) (some [27])).replaced = some ⟨1, [27, 0]⟩ := by
  have block : (stringLength (fun _ len => len) (some [27])).replaced = some ⟨1, [27, 0]⟩ := by
    decide +kernel
  refine ⟨?_, block⟩
  rintro ⟨other, made, -, fits, -⟩
  rw [block] at made
  cases made
  exact absurd fits (by decide)

end Dulge
