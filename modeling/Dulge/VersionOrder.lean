import Dulge.Version
import Dulge.Lib.Comparator
import Dulge.Lib.Lexicographic

/-! What `rpmvercmp` compares. A version is a sequence of segments with an end. For
versions that end in a letter or digit the comparison is the lexicographic one, with
the end ranked among the segments. A version that ends in separators has another kind
of end, which goes round in a circle with some segments: there the comparison is not
transitive. -/
namespace Dulge
open Lexicographic List

/-- A maximal run of letters or of digits with the number of separators before it. -/
structure Segment where
  sep : Nat
  isnum : Bool
  text : CStr
  deriving DecidableEq, Repr

/-- The first segment of a version, of which `c :: t` is left after the separators. -/
def firstSegment (s : CStr) (c : UInt8) (t : CStr) : Segment where
  sep := s.length - (c :: t).length
  isnum := isdigit c
  text := (c :: t).takeWhile (segmentClass (isdigit c))

def restOf (c : UInt8) (t : CStr) : CStr := (c :: t).dropWhile (segmentClass (isdigit c))

variable {s t two one : CStr} {c : UInt8}

theorem restOf_length (h : skipSeparators s = c :: t) : (restOf c t).length < s.length := by
  have own := takeWhile_cons_ne_nil (t := t) (segmentClass_own (skipSeparators_head h))
  have shorter := dropWhile_lt_of_takeWhile own
  have skipped := skipSeparators_length s
  rw [h] at skipped
  exact Nat.lt_of_lt_of_le shorter skipped

def segments (s : CStr) : List Segment :=
  match _h : skipSeparators s with
  | [] => []
  | c :: t => firstSegment s c t :: segments (restOf c t)
termination_by s.length
decreasing_by exact restOf_length _h

def digitsValue : CStr → Nat
  | [] => 0
  | c :: t => (c.toNat - 48) * 10 ^ t.length + digitsValue t

/-- Separators first, then letters before digits, then the letters by `strcmp` or the
digits by their value. -/
def segmentOrder (s t : Segment) : Ordering :=
  (compare s.sep t.sep).then ((compare s.isnum t.isnum).then
    (if s.isnum then compare (digitsValue s.text) (digitsValue t.text)
    else compare (strcmp s.text t.text) 0))

/-- The end of a version against a segment of another one: above letters that follow
without a separator, and below everything else. -/
def stopOrder (s : Segment) : Ordering := if s.sep = 0 ∧ s.isnum = false then .gt else .lt

def segmentsOrder : List Segment → List Segment → Ordering
  | [], [] => .eq
  | [], t :: _ => stopOrder t
  | s :: _, [] => (stopOrder s).swap
  | s :: ss, t :: ts => (segmentOrder s t).then (segmentsOrder ss ts)

def Tidy (s : CStr) : Prop := ∀ c ∈ s.getLast?, isalnum c = true

inductive Piece where
  | segment (s : Segment)
  | stop
  | trailing
  deriving DecidableEq, Repr

/-- Separators at the end of a version are above letters and below digits, however many
separators stand before those. -/
def trailingOrder (s : Segment) : Ordering := if s.isnum then .lt else .gt

def pieceOrder : Piece → Piece → Ordering
  | .segment s, .segment t => segmentOrder s t
  | .segment s, .stop => (stopOrder s).swap
  | .segment s, .trailing => (trailingOrder s).swap
  | .stop, .segment t => stopOrder t
  | .stop, .stop => .eq
  | .stop, .trailing => .lt
  | .trailing, .segment t => trailingOrder t
  | .trailing, .stop => .gt
  | .trailing, .trailing => .eq

instance (s : CStr) : Decidable (Tidy s) := inferInstanceAs (Decidable (∀ c ∈ s.getLast?, _))

def pieces (s : CStr) : List Piece :=
  (segments s).map .segment ++ [if Tidy s then .stop else .trailing]

/-! ### Digits -/

variable {x y z : Piece}

theorem isdigit_iff : isdigit c = true ↔ 48 ≤ c.toNat ∧ c.toNat ≤ 57 := by
  simp only [isdigit, Bool.and_eq_true, decide_eq_true_eq, UInt8.le_iff_toNat_le, UInt8.reduceToNat]

theorem digitsValue_lt (digits : ∀ c ∈ s, isdigit c = true) : digitsValue s < 10 ^ s.length := by
  induction s with
  | nil => simp [digitsValue]
  | cons c t ih =>
    have rest := ih fun d mem => digits d (mem_cons_of_mem c mem)
    have first := isdigit_iff.mp (digits c mem_cons_self)
    rw [digitsValue, length_cons, pow_succ]
    have bound : (c.toNat - 48) * 10 ^ t.length ≤ 9 * 10 ^ t.length :=
      Nat.mul_le_mul_right _ (by omega)
    omega

theorem digitsValue_dropZeros (s : CStr) : digitsValue (s.dropWhile (· = 48)) = digitsValue s := by
  induction s with
  | nil => rfl
  | cons c t ih =>
    by_cases zero : c = 48
    · rw [dropWhile_cons_of_pos (by simpa using zero), ih]
      simp [digitsValue, zero]
    · rw [dropWhile_cons_of_neg (by simpa using zero)]

theorem digitsValue_ge (digits : ∀ c ∈ s, isdigit c = true) {n : Nat}
    (longer : n < (s.dropWhile (· = 48)).length) : 10 ^ n ≤ digitsValue s := by
  rw [← digitsValue_dropZeros]
  cases stripped : s.dropWhile (· = 48) with
  | nil => simp [stripped] at longer
  | cons c t =>
    have stop := List.head?_dropWhile_not (fun c : UInt8 => decide (c = 48)) s
    have mem : c ∈ s := by
      apply (dropWhile_sublist _).subset
      rw [stripped]
      exact mem_cons_self
    rw [stripped] at stop longer
    have nonzero : c.toNat ≠ 48 := by
      intro zero
      have : c = 48 := UInt8.toNat_inj.mp zero
      simp [this] at stop
    have digit := isdigit_iff.mp (digits c mem)
    calc 10 ^ n ≤ 1 * 10 ^ t.length := by
          rw [one_mul]
          exact Nat.pow_le_pow_right (by decide) (Nat.le_of_lt_succ longer)
      _ ≤ (c.toNat - 48) * 10 ^ t.length := Nat.mul_le_mul_right _ (by omega)
      _ ≤ digitsValue (c :: t) := Nat.le_add_right _ _

theorem compare_strcmpRet (s t : CStr) : compare (strcmpRet s t) 0 = compare (strcmp s t) 0 := by
  unfold strcmpRet
  rcases lt_trichotomy (strcmp s t) 0 with low | same | high
  · rw [if_neg low.ne, if_pos (by omega), compare_lt_iff_lt.mpr low]
    rfl
  · rw [if_pos same, same]
  · rw [if_neg high.ne', if_neg (by omega), compare_gt_iff_gt.mpr high]
    rfl

/-- Of two runs of digits of one length, `strcmp` compares the numbers. -/
theorem strcmp_digits (left : ∀ c ∈ s, isdigit c = true) (right : ∀ c ∈ t, isdigit c = true)
    (same : s.length = t.length) :
    compare (strcmp s t) 0 = compare (digitsValue s) (digitsValue t) := by
  induction s generalizing t with
  | nil =>
    cases length_eq_zero_iff.mp same.symm
    rfl
  | cons c s ih =>
    cases t with
    | nil => cases same
    | cons d t =>
      have tails : s.length = t.length := Nat.succ.inj same
      have ihs := ih (fun e mem => left e (mem_cons_of_mem c mem))
        (fun e mem => right e (mem_cons_of_mem d mem)) tails
      have low := digitsValue_lt fun e mem => left e (mem_cons_of_mem c mem)
      have high := digitsValue_lt fun e mem => right e (mem_cons_of_mem d mem)
      have c48 := isdigit_iff.mp (left c mem_cons_self)
      have d48 := isdigit_iff.mp (right d mem_cons_self)
      simp only [strcmp, digitsValue]
      rw [tails] at low ⊢
      rcases byte_trichotomy c d with less | rfl | more
      · have := UInt8.lt_iff_toNat_lt.mp less
        have step : (c.toNat - 48 + 1) * 10 ^ t.length ≤ (d.toNat - 48) * 10 ^ t.length :=
          Nat.mul_le_mul_right _ (by omega)
        rw [if_pos less, compare_lt_iff_lt.mpr (show (-1 : Int) < 0 by decide),
          compare_lt_iff_lt.mpr (by rw [Nat.add_mul, one_mul] at step; omega)]
      · rw [if_neg (UInt8.lt_irrefl c), if_neg (UInt8.lt_irrefl c), ihs]
        rcases lt_trichotomy (digitsValue s) (digitsValue t) with lt | eq | gt
        · rw [compare_lt_iff_lt.mpr lt, compare_lt_iff_lt.mpr (by omega)]
        · rw [eq, compare_eq_iff_eq.mpr rfl, compare_eq_iff_eq.mpr rfl]
        · rw [compare_gt_iff_gt.mpr gt, compare_gt_iff_gt.mpr (by omega)]
      · have := UInt8.lt_iff_toNat_lt.mp more
        have step : (d.toNat - 48 + 1) * 10 ^ t.length ≤ (c.toNat - 48) * 10 ^ t.length :=
          Nat.mul_le_mul_right _ (by omega)
        rw [if_neg (UInt8.lt_asymm more), if_pos more,
          compare_gt_iff_gt.mpr (show (1 : Int) > 0 by decide),
          compare_gt_iff_gt.mpr (by rw [Nat.add_mul, one_mul] at step; omega)]

/-- Runs of digits are compared by their length without leading zeros and then by
`strcmp`, which is the comparison of the numbers. -/
theorem segmentCmp_digits (left : ∀ c ∈ s, isdigit c = true) (right : ∀ c ∈ t, isdigit c = true) :
    compare (segmentCmp true s t) 0 = compare (digitsValue s) (digitsValue t) := by
  have stripped : ∀ {u : CStr}, (∀ c ∈ u, isdigit c = true) →
      ∀ c ∈ u.dropWhile (· = 48), isdigit c = true :=
    fun digits c mem => digits c ((dropWhile_sublist _).subset mem)
  have low := digitsValue_lt (stripped left)
  have high := digitsValue_lt (stripped right)
  rw [digitsValue_dropZeros] at low high
  simp only [segmentCmp, if_true]
  split_ifs with longer shorter
  · have := digitsValue_ge left longer
    rw [compare_gt_iff_gt.mpr (show (1 : Int) > 0 by decide), compare_gt_iff_gt.mpr (by omega)]
  · have := digitsValue_ge right shorter
    rw [compare_lt_iff_lt.mpr (show (-1 : Int) < 0 by decide), compare_lt_iff_lt.mpr (by omega)]
  · rw [compare_strcmpRet, strcmp_digits (stripped left) (stripped right) (by omega),
      digitsValue_dropZeros, digitsValue_dropZeros]

/-! ### The order of segments and pieces -/

def Segment.value (s : Segment) : Nat := if s.isnum then digitsValue s.text else 0

def Segment.word (s : Segment) : CStr := if s.isnum then [] else s.text

theorem segmentOrder_eq : segmentOrder = compareLex (compareOn Segment.sep)
    (compareLex (compareOn Segment.isnum) (compareLex (compareOn Segment.value)
      fun s t => compare (strcmp s.word t.word) 0)) := by
  funext s t
  simp only [segmentOrder, compareLex, compareOn]
  cases left : s.isnum with
  | true => cases right : t.isnum with
    | true => simp [Segment.value, Segment.word, left, right]
    | false => rfl
  | false => cases right : t.isnum with
    | true => rfl
    | false => simp [Segment.value, Segment.word, left, right]

theorem segmentOrder_trans : Std.TransCmp segmentOrder := by
  have words : Comparator.Lawful fun s t : Segment => strcmp s.word t.word := by
    constructor
    · intro s t
      rw [strcmp_swap s.word t.word]
      omega
    · intro s t u
      exact strcmp_trans
  have := words.transCmp
  rw [segmentOrder_eq]
  infer_instance

theorem segmentOrder_swap (s t : Segment) : segmentOrder t s = (segmentOrder s t).swap :=
  segmentOrder_trans.eq_swap

theorem segmentOrder_eq_eq {s t : Segment} (same : segmentOrder s t = .eq) :
    s.sep = t.sep ∧ s.isnum = t.isnum := by
  simp only [segmentOrder, Ordering.then_eq_eq, compare_eq_iff_eq] at same
  exact ⟨same.1, same.2.1⟩

theorem segmentOrder_sep {s t : Segment} (sep : s.sep ≠ t.sep) :
    segmentOrder s t = if s.sep < t.sep then .lt else .gt := by
  unfold segmentOrder
  rcases lt_or_gt_of_ne sep with less | more
  · rw [compare_lt_iff_lt.mpr less, if_pos less, Ordering.lt_then]
  · rw [compare_gt_iff_gt.mpr more, if_neg more.not_gt, Ordering.gt_then]

theorem segmentOrder_kind {s t : Segment} (sep : s.sep = t.sep) (kind : s.isnum ≠ t.isnum) :
    segmentOrder s t = if s.isnum then .gt else .lt := by
  rw [segmentOrder, sep, compare_eq_iff_eq.mpr rfl, Ordering.eq_then]
  cases left : s.isnum with
  | true =>
    rw [left] at kind
    rw [Bool.eq_false_of_not_eq_true kind.symm]
    rfl
  | false =>
    rw [left] at kind
    rw [Bool.eq_true_of_not_eq_false kind.symm]
    rfl

theorem segmentOrder_same {s t : Segment} (sep : s.sep = t.sep) (kind : s.isnum = t.isnum) :
    segmentOrder s t = if s.isnum then compare (digitsValue s.text) (digitsValue t.text)
      else compare (strcmp s.text t.text) 0 := by
  rw [segmentOrder, sep, kind, compare_eq_iff_eq.mpr rfl, compare_eq_iff_eq.mpr rfl,
    Ordering.eq_then, Ordering.eq_then]

theorem stopOrder_ne (s : Segment) : stopOrder s ≠ .eq := by
  unfold stopOrder
  split_ifs <;> simp

theorem trailingOrder_ne (s : Segment) : trailingOrder s ≠ .eq := by
  unfold trailingOrder
  split_ifs <;> simp

theorem pieceOrder_eq_eq (same : pieceOrder x y = .eq) :
    x = y ∨ ∃ s t, x = .segment s ∧ y = .segment t ∧ segmentOrder s t = .eq := by
  cases x with
  | segment s =>
    cases y with
    | segment t => exact .inr ⟨s, t, rfl, rfl, same⟩
    | stop => exact absurd (Ordering.swap_eq_eq.mp same) (stopOrder_ne s)
    | trailing => exact absurd (Ordering.swap_eq_eq.mp same) (trailingOrder_ne s)
  | stop =>
    cases y with
    | segment t => exact absurd same (stopOrder_ne t)
    | stop => exact .inl rfl
    | trailing => cases same
  | trailing =>
    cases y with
    | segment t => exact absurd same (trailingOrder_ne t)
    | stop => cases same
    | trailing => exact .inl rfl

theorem pieceOrder_coherent : Coherent pieceOrder where
  swap := by
    intro x y
    cases x with
    | segment s =>
      cases y with
      | segment t => exact segmentOrder_swap s t
      | stop => exact Ordering.swap_swap.symm
      | trailing => exact Ordering.swap_swap.symm
    | stop => cases y <;> rfl
    | trailing => cases y <;> rfl
  congr := by
    intro x y same z
    rcases pieceOrder_eq_eq same with rfl | ⟨s, t, rfl, rfl, alike⟩
    · rfl
    · obtain ⟨sep, kind⟩ := segmentOrder_eq_eq alike
      cases z with
      | segment u =>
        have := segmentOrder_trans
        show segmentOrder s u = segmentOrder t u
        exact Std.TransCmp.congr_left alike
      | stop => simp [pieceOrder, stopOrder, sep, kind]
      | trailing => simp [pieceOrder, trailingOrder, kind]

/-! ### Cutting a version into pieces -/

theorem segments_of_skip_nil (h : skipSeparators s = []) : segments s = [] := by
  rw [segments]
  split
  · rfl
  · rename_i c t skipped
    rw [h] at skipped
    cases skipped

theorem segments_of_skip_cons (h : skipSeparators s = c :: t) :
    segments s = firstSegment s c t :: segments (restOf c t) := by
  rw [segments]
  split
  · rename_i skipped
    rw [h] at skipped
    cases skipped
  · rename_i d u skipped
    rw [h] at skipped
    cases skipped
    rfl

theorem tidy_of_skip_nil (h : skipSeparators s = []) : Tidy s ↔ s = [] := by
  constructor
  · intro tidy
    by_contra nonempty
    have last := List.getLast?_eq_some_getLast nonempty
    have letter := tidy _ last
    have separator := dropWhile_eq_nil_iff.mp h _ (getLast_mem nonempty)
    simp [letter] at separator
  · rintro rfl c mem
    cases mem

theorem tidy_append (nonempty : t ≠ []) : Tidy (s ++ t) ↔ Tidy t := by
  unfold Tidy
  rw [List.getLast?_append_of_ne_nil _ nonempty]

theorem segmentClass_alnum {isnum : Bool} (h : segmentClass isnum c = true) : isalnum c = true := by
  cases isnum with
  | true => simp [isalnum, show isdigit c = true from h]
  | false => simp [isalnum, show isalpha c = true from h]

theorem tidy_restOf (h : skipSeparators s = c :: t) : Tidy s ↔ Tidy (restOf c t) := by
  have parts : s = s.takeWhile (fun c => !isalnum c) ++ (c :: t) := by
    rw [← h]
    exact (takeWhile_append_dropWhile).symm
  rw [parts, tidy_append (cons_ne_nil c t)]
  have again : c :: t = (c :: t).takeWhile (segmentClass (isdigit c)) ++ restOf c t :=
    (takeWhile_append_dropWhile).symm
  rw [again]
  by_cases empty : restOf c t = []
  · rw [empty, append_nil]
    refine iff_of_true ?_ (fun d mem => nomatch mem)
    intro d mem
    exact segmentClass_alnum (mem_takeWhile_imp (mem_of_getLast? mem))
  · exact tidy_append empty

theorem pieces_of_skip_nil (h : skipSeparators s = []) :
    pieces s = [if s = [] then .stop else .trailing] := by
  simp [pieces, segments_of_skip_nil h, tidy_of_skip_nil h]

theorem pieces_of_skip_cons (h : skipSeparators s = c :: t) :
    pieces s = .segment (firstSegment s c t) :: pieces (restOf c t) := by
  simp [pieces, segments_of_skip_cons h, tidy_restOf h]

/-! ### The loop compares the pieces -/

theorem headIs_of_skip (h : skipSeparators s = c :: t) :
    headIs isalpha s = (s.length - (c :: t).length = 0 && !isdigit c) := by
  have letter := skipSeparators_head h
  cases s with
  | nil => cases h
  | cons d u =>
    by_cases separator : isalnum d = true
    · have same : d :: u = c :: t := by
        rw [← h]
        simp [skipSeparators, separator]
      cases same
      cases digit : isdigit c with
      | true => simp [headIs, isdigit_not_isalpha digit]
      | false => simp [headIs, isalnum_not_isdigit letter digit]
    · have skipped : skipSeparators u = c :: t := by
        rw [← h]
        simp [skipSeparators, separator]
      have shorter := skipSeparators_length u
      rw [skipped] at shorter
      have ahead : (d :: u).length - (c :: t).length ≠ 0 := by
        rw [length_cons (a := d)]
        omega
      simp only [isalnum, Bool.or_eq_true, not_or, Bool.not_eq_true] at separator
      rw [decide_eq_false ahead, Bool.false_and]
      exact separator.1

theorem headIs_of_skip_nil (h : skipSeparators s = []) : headIs isalpha s = false := by
  cases s with
  | nil => rfl
  | cons d u =>
    have separator := dropWhile_eq_nil_iff.mp h d mem_cons_self
    simp only [isalnum, Bool.not_or, Bool.and_eq_true, Bool.not_eq_true'] at separator
    exact separator.1

theorem compare_finalShowdown (nonempty : two ≠ []) :
    compare (finalShowdown [] two) 0 = if headIs isalpha two then .gt else .lt := by
  have atEnd : headIs isalpha [] = false := rfl
  rw [finalShowdown, if_neg (fun both => nonempty both.2)]
  cases letter : headIs isalpha two with
  | true =>
    rw [if_neg (by simp [atEnd])]
    rfl
  | false =>
    rw [if_pos (.inl ⟨rfl, rfl⟩)]
    rfl

theorem rpmvercmpLoop_ends (h1 : skipSeparators one = []) (h2 : skipSeparators two = []) :
    compare (rpmvercmpLoop one two) 0 = (pieces one).compareLex pieceOrder (pieces two) := by
  rw [pieces_of_skip_nil h1, pieces_of_skip_nil h2, rpmvercmpLoop]
  by_cases e1 : one = []
  · rw [if_pos (.inl e1), if_pos e1, e1]
    by_cases e2 : two = []
    · rw [if_pos e2, e2]
      rfl
    · rw [if_neg e2, compare_finalShowdown e2, headIs_of_skip_nil h2]
      rfl
  · rw [if_neg e1]
    by_cases e2 : two = []
    · rw [if_pos (.inr e2), if_pos e2, e2, finalShowdown_swap (.inl rfl), Comparator.compare_neg,
        compare_finalShowdown e1, headIs_of_skip_nil h1]
      rfl
    · simp only [h1, h2, e1, e2, or_self, if_false, if_true]
      rfl

theorem rpmvercmpLoop_left (h1 : skipSeparators one = []) (h2 : skipSeparators two = c :: t) :
    compare (rpmvercmpLoop one two) 0 = (pieces one).compareLex pieceOrder (pieces two) := by
  rw [pieces_of_skip_nil h1, pieces_of_skip_cons h2, rpmvercmpLoop]
  have e2 : two ≠ [] := by
    rintro rfl
    cases h2
  have stop : ∀ s, pieceOrder .stop (.segment s) ≠ .eq := stopOrder_ne
  have trailing : ∀ s, pieceOrder .trailing (.segment s) ≠ .eq := trailingOrder_ne
  by_cases e1 : one = []
  · rw [if_pos (.inl e1), if_pos e1, e1, lex_cons_of_ne (stop _), compare_finalShowdown e2,
      headIs_of_skip h2]
    cases letters : decide (two.length - (c :: t).length = 0) && !isdigit c with
    | true => exact (if_pos (by simpa [firstSegment] using letters)).symm
    | false => exact (if_neg (by simpa [firstSegment] using letters)).symm
  · have digit : headIs isalpha (c :: t) = !isdigit c := by
      cases kind : isdigit c with
      | true => exact isdigit_not_isalpha kind
      | false => exact isalnum_not_isdigit (skipSeparators_head h2) kind
    simp only [h1, h2, e1, e2, or_self, if_false, true_or, if_true]
    rw [lex_cons_of_ne (trailing _), compare_finalShowdown (cons_ne_nil c t), digit]
    cases kind : isdigit c with
    | true => exact (if_pos kind).symm
    | false => exact (if_neg (by simp [firstSegment, kind])).symm

theorem rpmvercmpLoop_segments {t1 t2 : CStr} {c1 c2 : UInt8} {s t : Segment}
    (h1 : skipSeparators one = c1 :: t1) (h2 : skipSeparators two = c2 :: t2)
    (left : s = firstSegment one c1 t1) (right : t = firstSegment two c2 t2) :
    rpmvercmpLoop one two = if s.sep ≠ t.sep then (if s.sep < t.sep then -1 else 1)
      else if s.isnum = t.isnum then
        (if segmentCmp s.isnum s.text t.text ≠ 0 then segmentCmp s.isnum s.text t.text
        else rpmvercmpLoop (restOf c1 t1) (restOf c2 t2)) else if s.isnum then 1 else -1 := by
  subst left right
  rw [rpmvercmpLoop_pass h1 h2]
  unfold firstSegment restOf
  by_cases kind : isdigit c1 = isdigit c2
  · simp only [kind]
  · simp only [kind, if_false]

theorem compare_segmentCmp {s t : Segment} (left : ∀ c ∈ s.text, segmentClass s.isnum c = true)
    (right : ∀ c ∈ t.text, segmentClass t.isnum c = true) (sep : s.sep = t.sep)
    (kind : s.isnum = t.isnum) :
    compare (segmentCmp s.isnum s.text t.text) 0 = segmentOrder s t := by
  rw [segmentOrder_same sep kind]
  rw [← kind] at right
  cases isnum : s.isnum with
  | true =>
    rw [isnum] at left right
    exact segmentCmp_digits left right
  | false => exact compare_strcmpRet _ _

theorem compare_pass {s t : Segment} (left : ∀ c ∈ s.text, segmentClass s.isnum c = true)
    (right : ∀ c ∈ t.text, segmentClass t.isnum c = true) (rest : Int) :
    compare (if s.sep ≠ t.sep then (if s.sep < t.sep then -1 else 1) else if s.isnum = t.isnum then
        (if segmentCmp s.isnum s.text t.text ≠ 0 then segmentCmp s.isnum s.text t.text else rest)
      else if s.isnum then 1 else -1) 0 = (segmentOrder s t).then (compare rest 0) := by
  by_cases sep : s.sep = t.sep
  · rw [if_neg (not_not.mpr sep)]
    by_cases kind : s.isnum = t.isnum
    · rw [if_pos kind, ← compare_segmentCmp left right sep kind]
      rcases lt_trichotomy (segmentCmp s.isnum s.text t.text) 0 with low | zero | high
      · rw [if_pos low.ne, compare_lt_iff_lt.mpr low, Ordering.lt_then]
      · rw [if_neg (not_not.mpr zero), zero, compare_eq_iff_eq.mpr rfl, Ordering.eq_then]
      · rw [if_pos high.ne', compare_gt_iff_gt.mpr high, Ordering.gt_then]
    · rw [if_neg kind, segmentOrder_kind sep kind]
      cases s.isnum with
      | true => rfl
      | false => rfl
  · rw [if_pos sep, segmentOrder_sep sep]
    split_ifs
    · rfl
    · rfl

/-- `rpmvercmp` is the lexicographic comparison of the pieces of the two versions. -/
theorem compare_rpmvercmpLoop (one two : CStr) :
    compare (rpmvercmpLoop one two) 0 = (pieces one).compareLex pieceOrder (pieces two) := by
  induction hn : one.length using Nat.strong_induction_on generalizing one two with
  | _ n ih =>
    cases h1 : skipSeparators one with
    | nil =>
      cases h2 : skipSeparators two with
      | nil => exact rpmvercmpLoop_ends h1 h2
      | cons c t => exact rpmvercmpLoop_left h1 h2
    | cons c1 t1 =>
      cases h2 : skipSeparators two with
      | nil =>
        rw [rpmvercmpLoop_swap two one, Comparator.compare_neg, rpmvercmpLoop_left h2 h1,
          pieceOrder_coherent.lex_swap]
        exact Ordering.swap_swap
      | cons c2 t2 =>
        rw [rpmvercmpLoop_segments h1 h2 rfl rfl,
          compare_pass (fun c => mem_takeWhile_imp) (fun c => mem_takeWhile_imp),
          ih _ (hn ▸ restOf_length h1) _ _ rfl, pieces_of_skip_cons h1,
          pieces_of_skip_cons h2, List.compareLex_cons_cons]
        rfl

/-! ### Where the comparison is an order -/

/-- A digit segment, a letter segment with more separators before it, and a version that
ends in separators, in this order or turned round. -/
def Turning (x y z : Piece) : Prop :=
  ∃ d l : Segment, d.isnum = true ∧ l.isnum = false ∧ d.sep < l.sep ∧
    ((x = .segment d ∧ y = .segment l ∧ z = .trailing) ∨
      (x = .segment l ∧ y = .trailing ∧ z = .segment d) ∨
      (x = .trailing ∧ y = .segment d ∧ z = .segment l))

theorem segmentOrder_lt {s t : Segment} (less : segmentOrder s t = .lt) :
    s.sep < t.sep ∨ s.sep = t.sep ∧ (s.isnum = true → t.isnum = true) := by
  by_cases sep : s.sep = t.sep
  · refine .inr ⟨sep, fun digits => ?_⟩
    by_contra letters
    rw [segmentOrder_kind sep (fun same => letters (same ▸ digits)), if_pos digits] at less
    cases less
  · rw [segmentOrder_sep sep] at less
    split_ifs at less with below
    exact .inl below

theorem not_cyclic_segments (s t u : Segment) :
    ¬ Cyclic pieceOrder (.segment s) (.segment t) (.segment u) := by
  rintro ⟨st, tu, us⟩
  have := segmentOrder_trans
  have su : segmentOrder s u = .lt := Std.TransCmp.lt_trans st tu
  have back : segmentOrder u s = .gt := by
    rw [segmentOrder_swap, su]
    rfl
  cases back.symm.trans us

theorem not_cyclic_stop (s t : Segment) : ¬ Cyclic pieceOrder .stop (.segment s) (.segment t) := by
  rintro ⟨stop, st, back⟩
  have last : t.sep = 0 ∧ t.isnum = false := by
    by_contra other
    have above : stopOrder t = .lt := if_neg other
    simp [pieceOrder, above] at back
  have first : ¬ (s.sep = 0 ∧ s.isnum = false) := by
    intro letters
    have below : stopOrder s = .gt := if_pos letters
    simp [pieceOrder, below] at stop
  rcases segmentOrder_lt st with less | ⟨same, kind⟩
  · omega
  · apply first
    refine ⟨same.trans last.1, Bool.eq_false_of_not_eq_true fun digits => ?_⟩
    rw [kind digits] at last
    cases last.2

theorem not_cyclic_ends (s : Segment) : ¬ Cyclic pieceOrder .stop .trailing (.segment s) := by
  rintro ⟨_, trailing, stop⟩
  cases kind : s.isnum with
  | true => simp [pieceOrder, stopOrder, kind] at stop
  | false => simp [pieceOrder, trailingOrder, kind] at trailing

theorem cyclic_trailing {s t : Segment} : Cyclic pieceOrder .trailing (.segment s) (.segment t) ↔
      s.isnum = true ∧ t.isnum = false ∧ s.sep < t.sep := by
  constructor
  · rintro ⟨first, st, last⟩
    have digits : s.isnum = true := by
      by_contra letters
      simp [pieceOrder, trailingOrder, letters] at first
    have letters : t.isnum = false := by
      by_contra other
      simp [pieceOrder, trailingOrder, other] at last
    refine ⟨digits, letters, ?_⟩
    rcases segmentOrder_lt st with less | ⟨_, kind⟩
    · exact less
    · rw [kind digits] at letters
      cases letters
  · rintro ⟨digits, letters, less⟩
    refine ⟨?_, ?_, ?_⟩
    · simp [pieceOrder, trailingOrder, digits]
    · rw [pieceOrder, segmentOrder_sep less.ne, if_pos less]
    · simp [pieceOrder, trailingOrder, letters]

theorem Turning.rotate (h : Turning x y z) : Turning y z x := by
  obtain ⟨d, l, digits, letters, less, one | two | three⟩ := h
  · exact ⟨d, l, digits, letters, less, .inr (.inl ⟨one.2.1, one.2.2, one.1⟩)⟩
  · exact ⟨d, l, digits, letters, less, .inr (.inr ⟨two.2.1, two.2.2, two.1⟩)⟩
  · exact ⟨d, l, digits, letters, less, .inl ⟨three.2.1, three.2.2, three.1⟩⟩

theorem turning_of_cyclic (h : Cyclic pieceOrder .trailing y z) : Turning .trailing y z := by
  cases y with
  | segment s =>
    cases z with
    | segment t =>
      obtain ⟨digits, letters, less⟩ := cyclic_trailing.mp h
      exact ⟨s, t, digits, letters, less, .inr (.inr ⟨rfl, rfl, rfl⟩)⟩
    | stop => exact absurd h.rotate.rotate (not_cyclic_ends s)
    | trailing => cases h.2.2
  | stop => cases h.1
  | trailing => cases h.1

theorem trailing_mem_of_cyclic (h : Cyclic pieceOrder x y z) : .trailing ∈ [x, y, z] := by
  cases x with
  | trailing => simp
  | stop =>
    cases y with
    | trailing => simp
    | stop => cases h.1
    | segment t =>
      cases z with
      | trailing => simp
      | stop => cases h.2.2
      | segment u => exact absurd h (not_cyclic_stop t u)
  | segment s =>
    cases y with
    | trailing => simp
    | stop =>
      cases z with
      | trailing => simp
      | stop => cases h.2.1
      | segment u => exact absurd h.rotate (not_cyclic_stop u s)
    | segment t =>
      cases z with
      | trailing => simp
      | stop => exact absurd h.rotate.rotate (not_cyclic_stop s t)
      | segment u => exact absurd h (not_cyclic_segments s t u)

theorem cyclic_iff_turning (x y z : Piece) : Cyclic pieceOrder x y z ↔ Turning x y z := by
  constructor
  · intro h
    have ends := trailing_mem_of_cyclic h
    simp only [mem_cons, not_mem_nil, or_false] at ends
    rcases ends with rfl | rfl | rfl
    · exact turning_of_cyclic h
    · exact (turning_of_cyclic h.rotate).rotate.rotate
    · exact (turning_of_cyclic h.rotate.rotate).rotate
  · rintro ⟨d, l, digits, letters, less, ⟨rfl, rfl, rfl⟩ | ⟨rfl, rfl, rfl⟩ | ⟨rfl, rfl, rfl⟩⟩
    · exact (cyclic_trailing.mpr ⟨digits, letters, less⟩).rotate
    · exact (cyclic_trailing.mpr ⟨digits, letters, less⟩).rotate.rotate
    · exact cyclic_trailing.mpr ⟨digits, letters, less⟩

theorem rpmvercmp_le_iff (a b : CStr) :
    rpmvercmp a b ≤ 0 ↔ ((pieces a).compareLex pieceOrder (pieces b)).isLE = true := by
  rw [← compare_rpmvercmpLoop, Comparator.isLE_compare_zero, rpmvercmp_eq_loop]

/-- Three versions keep to transitivity unless they agree up to a place where one goes on
with digits, the next with letters after more separators, and the third has nothing but
separators left. -/
theorem rpmvercmp_trans_iff (a b c : CStr) :
    (rpmvercmp a b ≤ 0 → rpmvercmp b c ≤ 0 → rpmvercmp a c ≤ 0) ↔
      ¬ Meet (fun x y => pieceOrder x y = .eq) Turning (pieces a) (pieces b) (pieces c) := by
  have turns : Cyclic pieceOrder = Turning := by
    funext x y z
    exact propext (cyclic_iff_turning x y z)
  rw [rpmvercmp_le_iff, rpmvercmp_le_iff, rpmvercmp_le_iff, ← turns]
  exact pieceOrder_coherent.lex_trans_iff _ _ _

theorem rpmvercmp_not_trans :
    rpmvercmp (cstr "1.1") (cstr "1..a") ≤ 0 ∧ rpmvercmp (cstr "1..a") (cstr "1.") ≤ 0 ∧
      ¬ rpmvercmp (cstr "1.1") (cstr "1.") ≤ 0 := by
  decide +kernel

theorem trailing_mem_pieces : .trailing ∈ pieces s ↔ ¬ Tidy s := by
  by_cases tidy : Tidy s
  · simp [pieces, tidy]
  · simp [pieces, tidy]

theorem not_meet_of_tidy {a b c : CStr} (tidyA : Tidy a) (tidyB : Tidy b) (tidyC : Tidy c) :
    ¬ Meet (fun x y => pieceOrder x y = .eq) (Cyclic pieceOrder) (pieces a) (pieces b)
      (pieces c) := by
  intro meet
  obtain ⟨x, inA, y, inB, z, inC, turn⟩ := meet.exists_turn
  have ends := trailing_mem_of_cyclic turn
  simp only [mem_cons, not_mem_nil, or_false] at ends
  rcases ends with rfl | rfl | rfl
  · exact trailing_mem_pieces.mp inA tidyA
  · exact trailing_mem_pieces.mp inB tidyB
  · exact trailing_mem_pieces.mp inC tidyC

theorem lex_pieces_eq (ss ts : List Segment) :
    (ss.map Piece.segment ++ [Piece.stop]).compareLex pieceOrder
        (ts.map Piece.segment ++ [Piece.stop]) = segmentsOrder ss ts := by
  induction ss generalizing ts with
  | nil =>
    cases ts with
    | nil => rfl
    | cons t ts => exact lex_cons_of_ne (show pieceOrder .stop (.segment t) ≠ .eq from stopOrder_ne t)
  | cons s ss ih =>
    cases ts with
    | nil =>
      apply lex_cons_of_ne
      exact fun same => stopOrder_ne s (Ordering.swap_eq_eq.mp same)
    | cons t ts =>
      rw [map_cons, map_cons, cons_append, cons_append, List.compareLex_cons_cons, ih]
      rfl

/-- On versions that end in a letter or digit, `rpmvercmp` is the lexicographic order of
the segments, and so a total preorder. -/
theorem rpmvercmp_lexicographic : (∀ a b, Tidy a → Tidy b →
      compare (rpmvercmp a b) 0 = segmentsOrder (segments a) (segments b)) ∧
    (∀ a b, Tidy a → Tidy b → rpmvercmp a b ≤ 0 ∨ rpmvercmp b a ≤ 0) ∧
    ∀ a b c, Tidy a → Tidy b → Tidy c →
      rpmvercmp a b ≤ 0 → rpmvercmp b c ≤ 0 → rpmvercmp a c ≤ 0 := by
  refine ⟨?_, ?_, ?_⟩
  · intro a b tidyA tidyB
    rw [rpmvercmp_eq_loop, compare_rpmvercmpLoop, pieces, pieces, if_pos tidyA, if_pos tidyB,
      lex_pieces_eq]
  · intro a b _ _
    have swap := rpmvercmpLoop_swap a b
    rw [rpmvercmp_eq_loop, rpmvercmp_eq_loop]
    omega
  · intro a b c tidyA tidyB tidyC
    rw [rpmvercmp_le_iff, rpmvercmp_le_iff, rpmvercmp_le_iff]
    exact (pieceOrder_coherent.lex_trans_iff _ _ _).mpr (not_meet_of_tidy tidyA tidyB tidyC)

end Dulge
