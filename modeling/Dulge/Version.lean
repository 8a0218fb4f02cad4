import Dulge.CString

/-! Version comparison of `version.c`. The two cursors of `rpmvercmp` are the
unread suffixes of the two strings; the temporary terminators written at a
segment end are the `takeWhile` parts, and restoring them is continuing with the
`dropWhile` parts. At every loop head `one == ptr1` and `two == ptr2`, so the
separator length is the number of bytes the skip drops. -/
namespace Dulge

def headIs (p : UInt8 → Bool) : CStr → Bool
  | [] => false
  | c :: _ => p c

/-- `while (*one && !isalnum((int)*one)) one++;` -/
def skipSeparators (s : CStr) : CStr := s.dropWhile fun c => !isalnum c

def finalShowdown (one two : CStr) : Int :=
  if one = [] ∧ two = [] then 0
  else if (one = [] ∧ headIs isalpha two = false) ∨ headIs isalpha one = true then -1
  else 1

/-- `ret = rc < 1 ? -1 : 1` for a nonzero `rc`; zero goes on with the loop. -/
def strcmpRet (one two : CStr) : Int :=
  let rc := strcmp one two
  if rc = 0 then 0 else if rc < 1 then -1 else 1

/-- Two nonempty segments of one kind. Zero means that the loop continues. -/
def segmentCmp (isnum : Bool) (one two : CStr) : Int :=
  if isnum then
    let one := one.dropWhile (· = 48)
    let two := two.dropWhile (· = 48)
    if one.length > two.length then 1
    else if two.length > one.length then -1
    else strcmpRet one two
  else strcmpRet one two

/-- The segment class is chosen by the first cursor alone. -/
def segmentClass (isnum : Bool) : UInt8 → Bool := if isnum then isdigit else isalpha

theorem skipSeparators_length (s : CStr) : (skipSeparators s).length ≤ s.length :=
  (List.dropWhile_sublist _).length_le

theorem dropWhile_lt_of_takeWhile {p : UInt8 → Bool} {s : CStr} (h : s.takeWhile p ≠ []) :
    (s.dropWhile p).length < s.length := by
  have parts := congrArg List.length (List.takeWhile_append_dropWhile (p := p) (l := s))
  have pos := List.length_pos_iff.mpr h
  simp only [List.length_append] at parts
  omega

/-- The loop of `rpmvercmp` with what follows it, from a loop head. -/
def rpmvercmpLoop (one two : CStr) : Int :=
  if one = [] ∨ two = [] then finalShowdown one two
  else
    let one' := skipSeparators one
    let two' := skipSeparators two
    if one' = [] ∨ two' = [] then finalShowdown one' two'
    else
      let sep1 := one.length - one'.length
      let sep2 := two.length - two'.length
      if sep1 ≠ sep2 then (if sep1 < sep2 then -1 else 1)
      else
        let isnum := headIs isdigit one'
        let seg1 := one'.takeWhile (segmentClass isnum)
        let seg2 := two'.takeWhile (segmentClass isnum)
        if _h : seg1 = [] then -1
        else if seg2 = [] then (if isnum then 1 else -1)
        else
          let ret := segmentCmp isnum seg1 seg2
          if ret ≠ 0 then ret
          else rpmvercmpLoop (one'.dropWhile (segmentClass isnum))
            (two'.dropWhile (segmentClass isnum))
termination_by one.length
decreasing_by
  exact Nat.lt_of_lt_of_le (dropWhile_lt_of_takeWhile _h) (skipSeparators_length one)

/-- `rpmvercmp`: the loop behind its `strcmp` shortcut. -/
def rpmvercmp (a b : CStr) : Int := if strcmp a b = 0 then 0 else rpmvercmpLoop a b

/-- `strrchr(s, c)`: the bytes before and after the last occurrence. -/
def strrchr (c : UInt8) : CStr → Option (CStr × CStr)
  | [] => none
  | x :: xs =>
    match strrchr c xs with
    | some (before, after) => some (x :: before, after)
    | none => if x = c then some ([], xs) else none

structure EVR where
  epoch : CStr
  version : CStr
  release : Option CStr
  deriving DecidableEq, Repr

/-- `parseEVR`. The search for the last `-` starts at the epoch terminator, and
a missing or empty epoch is `"0"`. -/
def parseEVR (evr : CStr) : EVR :=
  let digits := evr.takeWhile isdigit
  let s := evr.dropWhile isdigit
  let se := strrchr 45 s
  let kept := (se.map Prod.fst).getD s
  let release := se.map Prod.snd
  if s.head? = some 58 then
    { epoch := if digits = [] then cstr "0" else digits, version := kept.tail, release }
  else { epoch := cstr "0", version := digits ++ kept, release }

def evrCompare (cmp : CStr → CStr → Int) (evr1 evr2 : EVR) : Int :=
  let ret := cmp evr1.epoch evr2.epoch
  if ret = 0 then
    let ret := cmp evr1.version evr2.version
    if ret = 0 then
      match evr1.release, evr2.release with
      | some rel1, some rel2 => cmp rel1 rel2
      | _, _ => ret
    else ret
  else ret

/-- `alpm_pkg_vercmp`; `none` is the null pointer. -/
def pkgVercmp : Option CStr → Option CStr → Int
  | none, none => 0
  | none, some _ => -1
  | some _, none => 1
  | some a, some b =>
    if strcmp a b = 0 then 0 else evrCompare rpmvercmp (parseEVR a) (parseEVR b)

/-- The comparison of the parsed components with neither `strcmp` shortcut. -/
def vercmpPlain (a b : CStr) : Int := evrCompare rpmvercmpLoop (parseEVR a) (parseEVR b)

theorem finalShowdown_swap {one two : CStr} (h : one = [] ∨ two = []) :
    finalShowdown two one = -finalShowdown one two := by
  rcases h with rfl | rfl
  · cases two with
    | nil => rfl
    | cons c cs => cases hc : isalpha c <;> simp [finalShowdown, headIs, hc]
  · cases one with
    | nil => rfl
    | cons c cs => cases hc : isalpha c <;> simp [finalShowdown, headIs, hc]

theorem strcmpRet_swap (one two : CStr) : strcmpRet two one = -strcmpRet one two := by
  simp only [strcmpRet, strcmp_swap one two]
  split_ifs <;> omega

theorem segmentCmp_swap (isnum : Bool) (one two : CStr) :
    segmentCmp isnum two one = -segmentCmp isnum one two := by
  cases isnum with
  | false => exact strcmpRet_swap one two
  | true =>
    simp only [segmentCmp, if_true]
    split_ifs with h1 h2 h3
    · omega
    · rfl
    · rfl
    · exact strcmpRet_swap _ _

theorem skipSeparators_head {s t : CStr} {c : UInt8} (h : skipSeparators s = c :: t) :
    isalnum c = true := by
  have stop := List.head?_dropWhile_not (fun c => !isalnum c) s
  rw [show s.dropWhile (fun c => !isalnum c) = c :: t from h] at stop
  simpa using stop

theorem segmentClass_own {c : UInt8} (h : isalnum c = true) :
    segmentClass (isdigit c) c = true := by
  cases hd : isdigit c with
  | true => simpa [segmentClass] using hd
  | false => simpa [segmentClass] using isalnum_not_isdigit h hd

theorem segmentClass_other {c d : UInt8} (h : isdigit c ≠ isdigit d) :
    segmentClass (isdigit c) d = false := by
  cases hc : isdigit c with
  | true =>
    rw [hc] at h
    simpa [segmentClass] using h.symm
  | false =>
    rw [hc] at h
    have hd : isdigit d = true := by simpa using h.symm
    simpa [segmentClass] using isdigit_not_isalpha hd

theorem takeWhile_cons_ne_nil {p : UInt8 → Bool} {c : UInt8} {t : CStr} (h : p c = true) :
    (c :: t).takeWhile p ≠ [] := by
  simp [h]

theorem rpmvercmpLoop_pass {one two t1 t2 : CStr} {c1 c2 : UInt8}
    (h1 : skipSeparators one = c1 :: t1) (h2 : skipSeparators two = c2 :: t2) :
    rpmvercmpLoop one two = if one.length - (c1 :: t1).length ≠ two.length - (c2 :: t2).length then
        (if one.length - (c1 :: t1).length < two.length - (c2 :: t2).length then -1 else 1)
      else if isdigit c1 = isdigit c2 then
        (if segmentCmp (isdigit c1) ((c1 :: t1).takeWhile (segmentClass (isdigit c1)))
            ((c2 :: t2).takeWhile (segmentClass (isdigit c1))) ≠ 0 then
          segmentCmp (isdigit c1) ((c1 :: t1).takeWhile (segmentClass (isdigit c1)))
            ((c2 :: t2).takeWhile (segmentClass (isdigit c1)))
        else rpmvercmpLoop ((c1 :: t1).dropWhile (segmentClass (isdigit c1)))
          ((c2 :: t2).dropWhile (segmentClass (isdigit c1))))
      else if isdigit c1 then 1 else -1 := by
  have ne1 : one ≠ [] := by rintro rfl; simp [skipSeparators] at h1
  have ne2 : two ≠ [] := by rintro rfl; simp [skipSeparators] at h2
  have seg1 : (c1 :: t1).takeWhile (segmentClass (isdigit c1)) ≠ [] :=
    takeWhile_cons_ne_nil (segmentClass_own (skipSeparators_head h1))
  rw [rpmvercmpLoop]
  simp only [ne1, ne2, h1, h2, or_self, if_false, reduceCtorEq, headIs, seg1, dite_false]
  by_cases kind : isdigit c1 = isdigit c2
  · have seg2 : (c2 :: t2).takeWhile (segmentClass (isdigit c1)) ≠ [] :=
      takeWhile_cons_ne_nil (kind ▸ segmentClass_own (skipSeparators_head h2))
    rw [if_pos kind]
    simp only [seg2, if_false]
  · have seg2 : (c2 :: t2).takeWhile (segmentClass (isdigit c1)) = [] := by
      simp [segmentClass_other kind]
    simp only [seg2, kind, if_true, if_false]

theorem rpmvercmpLoop_stop (one two : CStr)
    (h : skipSeparators one = [] ∨ skipSeparators two = []) :
    ∃ one' two', (one' = [] ∨ two' = []) ∧ rpmvercmpLoop one two = finalShowdown one' two' ∧
      rpmvercmpLoop two one = finalShowdown two' one' := by
  by_cases empty : one = [] ∨ two = []
  · refine ⟨one, two, empty, ?_, ?_⟩
    · rw [rpmvercmpLoop, if_pos empty]
    · rw [rpmvercmpLoop, if_pos empty.symm]
  · refine ⟨skipSeparators one, skipSeparators two, h, ?_, ?_⟩
    · rw [rpmvercmpLoop, if_neg empty]
      exact if_pos h
    · rw [rpmvercmpLoop, if_neg (fun e => empty e.symm)]
      exact if_pos h.symm

theorem rpmvercmpLoop_swap (one two : CStr) : rpmvercmpLoop two one = -rpmvercmpLoop one two := by
  induction hn : one.length using Nat.strong_induction_on generalizing one two with
  | _ n ih =>
    cases h1 : skipSeparators one with
    | nil =>
      obtain ⟨one', two', ends, left, right⟩ := rpmvercmpLoop_stop one two (.inl h1)
      rw [left, right, finalShowdown_swap ends]
    | cons c1 t1 =>
      cases h2 : skipSeparators two with
      | nil =>
        obtain ⟨one', two', ends, left, right⟩ := rpmvercmpLoop_stop one two (.inr h2)
        rw [left, right, finalShowdown_swap ends]
      | cons c2 t2 =>
        rw [rpmvercmpLoop_pass h1 h2, rpmvercmpLoop_pass h2 h1]
        by_cases sep : one.length - (c1 :: t1).length = two.length - (c2 :: t2).length
        · rw [if_neg (not_not.mpr sep), if_neg (not_not.mpr sep.symm)]
          by_cases kind : isdigit c1 = isdigit c2
          · rw [if_pos kind, if_pos kind.symm, ← kind,
              segmentCmp_swap (isdigit c1) ((c1 :: t1).takeWhile _)]
            have shorter : ((c1 :: t1).dropWhile (segmentClass (isdigit c1))).length < n := by
              have own := takeWhile_cons_ne_nil (t := t1)
                (segmentClass_own (skipSeparators_head h1))
              have skipped := skipSeparators_length one
              have drop := dropWhile_lt_of_takeWhile own
              rw [h1] at skipped
              omega
            rw [ih _ shorter _ ((c2 :: t2).dropWhile (segmentClass (isdigit c1))) rfl]
            split_ifs <;> omega
          · rw [if_neg kind, if_neg (fun e => kind e.symm)]
            cases d1 : isdigit c1 <;> cases d2 : isdigit c2 <;> simp_all
        · rw [if_pos sep, if_pos (fun e => sep e.symm)]
          split_ifs <;> omega

theorem rpmvercmpLoop_self (a : CStr) : rpmvercmpLoop a a = 0 := by
  have swap := rpmvercmpLoop_swap a a
  omega

theorem rpmvercmp_eq_loop (a b : CStr) : rpmvercmp a b = rpmvercmpLoop a b := by
  unfold rpmvercmp
  split_ifs with same
  · rw [strcmp_eq_zero.mp same, rpmvercmpLoop_self]
  · rfl

theorem evrCompare_swap {cmp : CStr → CStr → Int} (swap : ∀ a b, cmp b a = -cmp a b)
    (x y : EVR) : evrCompare cmp y x = -evrCompare cmp x y := by
  simp only [evrCompare, swap x.epoch y.epoch, swap x.version y.version]
  cases x.release <;> cases y.release <;> simp only [] <;> split_ifs <;>
    first | omega | exact swap _ _

theorem vercmpPlain_swap (a b : CStr) : vercmpPlain b a = -vercmpPlain a b :=
  evrCompare_swap rpmvercmpLoop_swap _ _

theorem vercmpPlain_self (a : CStr) : vercmpPlain a a = 0 := by
  have swap := vercmpPlain_swap a a
  omega

theorem pkgVercmp_eq_plain (a b : CStr) : pkgVercmp (some a) (some b) = vercmpPlain a b := by
  have components : rpmvercmp = rpmvercmpLoop := by
    funext x y
    exact rpmvercmp_eq_loop x y
  simp only [pkgVercmp, components]
  split_ifs with same
  · rw [strcmp_eq_zero.mp same, vercmpPlain_self]
  · rfl

/-- Version comparison is antisymmetric, and its `strcmp` shortcuts are redundant. -/
theorem pkgVercmp_antisymmetric (a b : CStr) :
    Int.sign (pkgVercmp (some a) (some b)) = -Int.sign (pkgVercmp (some b) (some a)) ∧
      vercmpPlain a a = 0 ∧
      pkgVercmp (some a) (some b) = vercmpPlain a b ∧ rpmvercmp a b = rpmvercmpLoop a b := by
  refine ⟨?_, vercmpPlain_self a, pkgVercmp_eq_plain a b, rpmvercmp_eq_loop a b⟩
  rw [pkgVercmp_eq_plain, pkgVercmp_eq_plain, vercmpPlain_swap a b, Int.sign_neg, neg_neg]

end Dulge
