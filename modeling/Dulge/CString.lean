import Mathlib

/-! C strings as byte lists. A value is the sequence of bytes before the
terminator, so the terminator itself is the end of the list and `*s` tests are
emptiness tests. Nothing here forbids a zero byte inside a list: the text of a
file may have one, and the readers of such texts cut a line there. -/
namespace Dulge

abbrev CStr := List UInt8

instance : LawfulBEq CStr := inferInstance

def cstr (s : String) : CStr := s.toList.map fun c => UInt8.ofNat c.toNat

/-- `ctype` classes of the C locale, on `unsigned char` values. -/
def isdigit (c : UInt8) : Bool := 48 ≤ c && c ≤ 57

def isalpha (c : UInt8) : Bool := (65 ≤ c && c ≤ 90) || (97 ≤ c && c ≤ 122)

def isalnum (c : UInt8) : Bool := isalpha c || isdigit c

theorem isdigit_not_isalpha {c : UInt8} (h : isdigit c = true) : isalpha c = false := by
  simp only [isdigit, isalpha, Bool.and_eq_true, decide_eq_true_eq, UInt8.le_iff_toNat_le,
    UInt8.reduceToNat, Bool.or_eq_false_iff, Bool.and_eq_false_imp, decide_eq_false_iff_not] at h ⊢
  omega

theorem isalnum_not_isdigit {c : UInt8} (h : isalnum c = true) (hd : isdigit c = false) :
    isalpha c = true := by
  simpa [isalnum, hd] using h

theorem byte_trichotomy (a b : UInt8) : a < b ∨ a = b ∨ b < a := by
  rcases Nat.lt_trichotomy a.toNat b.toNat with lt | eq | gt
  · exact .inl (UInt8.lt_iff_toNat_lt.mpr lt)
  · exact .inr (.inl (UInt8.toNat_inj.mp eq))
  · exact .inr (.inr (UInt8.lt_iff_toNat_lt.mpr gt))

/-- `strcmp`, of which only the sign is specified: here it is the sign. -/
def strcmp : CStr → CStr → Int
  | [], [] => 0
  | [], _ :: _ => -1
  | _ :: _, [] => 1
  | a :: as, b :: bs => if a < b then -1 else if b < a then 1 else strcmp as bs

@[simp] theorem strcmp_self (a : CStr) : strcmp a a = 0 := by
  induction a with
  | nil => rfl
  | cons x xs ih => simp [strcmp, ih]

theorem strcmp_swap (a b : CStr) : strcmp b a = -strcmp a b := by
  induction a generalizing b with
  | nil => cases b <;> rfl
  | cons x xs ih =>
    cases b with
    | nil => rfl
    | cons y ys =>
      simp only [strcmp]
      rcases byte_trichotomy x y with lt | rfl | gt
      · simp [lt, UInt8.lt_asymm lt]
      · simp [ih]
      · simp [gt, UInt8.lt_asymm gt]

theorem strcmp_eq_zero {a b : CStr} : strcmp a b = 0 ↔ a = b := by
  constructor
  · intro h
    induction a generalizing b with
    | nil => cases b with
      | nil => rfl
      | cons y ys => simp [strcmp] at h
    | cons x xs ih =>
      cases b with
      | nil => simp [strcmp] at h
      | cons y ys =>
        simp only [strcmp] at h
        rcases byte_trichotomy x y with lt | rfl | gt
        · simp [lt] at h
        · simp only [UInt8.lt_irrefl, if_false] at h
          rw [ih h]
        · simp [gt, UInt8.lt_asymm gt] at h
  · rintro rfl
    exact strcmp_self a

theorem strcmp_trans {a b c : CStr} (hab : strcmp a b ≤ 0) (hbc : strcmp b c ≤ 0) :
    strcmp a c ≤ 0 := by
  induction a generalizing b c with
  | nil => cases c <;> simp [strcmp]
  | cons x xs ih =>
    cases b with
    | nil => simp [strcmp] at hab
    | cons y ys =>
      cases c with
      | nil => simp [strcmp] at hbc
      | cons z zs =>
        simp only [strcmp] at hab hbc ⊢
        rcases byte_trichotomy x y with xy | rfl | yx
        · have xz : x < z := by
            rcases byte_trichotomy y z with yz | rfl | zy
            · exact UInt8.lt_trans xy yz
            · exact xy
            · simp [zy, UInt8.lt_asymm zy] at hbc
          simp [xz]
        · rcases byte_trichotomy x z with xz | rfl | zx
          · simp [xz]
          · simp only [UInt8.lt_irrefl, if_false] at hab hbc ⊢
            exact ih hab hbc
          · simp [zx, UInt8.lt_asymm zx] at hbc
        · simp [yx, UInt8.lt_asymm yx] at hab

/-- A scan for `c` does not stop in a list without it. -/
theorem decide_ne_of_not_mem {α : Type*} [DecidableEq α] {c : α} {list : List α}
    (absent : c ∉ list) : ∀ x ∈ list, decide (x ≠ c) = true := by
  intro x mem
  rw [decide_eq_true_eq]
  exact ne_of_mem_of_not_mem mem absent

/-- `_alpm_hash_sdbm`: a plain `char` is signed here, so a byte from 128 on is
added as its value minus 256, in 64-bit wrapping arithmetic. -/
def hashSdbm (str : CStr) : Nat :=
  str.foldl (fun hash c =>
    ((if c < 128 then c.toNat else 2 ^ 64 + c.toNat - 256) + hash * 65599) % 2 ^ 64) 0

/-- `word & bit` as a condition, for a word of flags. -/
def hasBit (word bit : BitVec 32) : Bool := word &&& bit != 0

def strncmp (s1 s2 : CStr) (n : Nat) : Int := strcmp (s1.take n) (s2.take n)

theorem strncmp_length_eq_zero {dir path : CStr} :
    strncmp dir path dir.length = 0 ↔ dir <+: path := by
  rw [strncmp, strcmp_eq_zero, List.take_length]
  exact List.prefix_iff_eq_take.symm

/-- `strstr`, as the text behind the first match -/
def strstr (needle : CStr) : CStr → Option CStr
  | [] => if needle = [] then some [] else none
  | c :: rest =>
    if needle <+: c :: rest then some ((c :: rest).drop needle.length)
    else strstr needle rest

end Dulge
