import Dulge.Multiselect

/-! An answer to the selection prompt means what was typed if its numbers fit into an `int` and
its first token is the first text between the delimiters. -/
namespace Dulge
open List

section Numbers

theorem digits_shape {sign minus : Bool} {tail digits rest : CStr}
    (found : (if tail.takeWhile isdigit = [] then none
      else some (sign, tail.takeWhile isdigit, tail.dropWhile isdigit)) =
        some (minus, digits, rest)) :
    sign = minus ∧ tail = digits ++ rest ∧ digits ≠ [] ∧ ∀ c ∈ digits, isdigit c = true := by
  split at found
  · cases found
  · rename_i filled
    cases found
    exact ⟨rfl, takeWhile_append_dropWhile.symm, filled, fun c mem => mem_takeWhile_imp mem⟩

variable {s : CStr} {n : Int}

theorem scanNumber_shape {digits rest : CStr} {minus : Bool}
    (found : scanNumber s = some (minus, digits, rest)) :
    ∃ spaces sign, s = spaces ++ (sign ++ (digits ++ rest)) ∧ (∀ c ∈ spaces, isspace c = true) ∧
      (sign = [] ∨ sign = [43] ∨ sign = [45] ∧ minus = true) ∧ digits ≠ [] ∧
      ∀ c ∈ digits, isdigit c = true := by
  have whole := takeWhile_append_dropWhile (p := isspace) (l := s)
  have spaces : ∀ c ∈ s.takeWhile isspace, isspace c = true := fun c mem => mem_takeWhile_imp mem
  unfold scanNumber at found
  dsimp only at found
  split at found
  · rename_i tail behind
    obtain ⟨rfl, rfl, filled, all⟩ := digits_shape found
    exact ⟨_, [45], (behind ▸ whole).symm, spaces, .inr (.inr ⟨rfl, rfl⟩), filled, all⟩
  · rename_i tail behind
    obtain ⟨_, rfl, filled, all⟩ := digits_shape found
    exact ⟨_, [43], (behind ▸ whole).symm, spaces, .inr (.inl rfl), filled, all⟩
  · obtain ⟨_, shape, filled, all⟩ := digits_shape found
    refine ⟨_, [], ?_, spaces, .inl rfl, filled, all⟩
    rw [nil_append, ← shape, whole]

theorem integerText_eq (number : integerText s = some n) :
    ∃ minus digits, scanNumber s = some (minus, digits, []) ∧
      n = if minus then -(digitsValue digits : Int) else digitsValue digits := by
  unfold integerText at number
  split at number
  · rename_i minus digits scanned
    cases number
    exact ⟨minus, digits, scanned, rfl⟩
  · cases number

theorem hyphen_not_mem_of_integer (number : integerText s = some n) (positive : 1 ≤ n) :
    45 ∉ s := by
  obtain ⟨minus, digits, scanned, value⟩ := integerText_eq number
  obtain ⟨spaces, sign, rfl, allSpaces, signs, _, allDigits⟩ := scanNumber_shape scanned
  intro mem
  simp only [append_nil, mem_append] at mem
  rcases mem with inSpaces | inSign | inDigits
  · exact absurd (allSpaces 45 inSpaces) (by decide)
  · rcases signs with rfl | rfl | ⟨rfl, rfl⟩
    · cases inSign
    · exact absurd inSign (by decide)
    · rw [if_pos rfl] at value
      omega
  · exact absurd (allDigits 45 inDigits) (by decide)

theorem not_excludes_of_integer (number : integerText s = some n) (behind : CStr) :
    excludes (s ++ behind) = false := by
  obtain ⟨minus, digits, scanned, _⟩ := integerText_eq number
  obtain ⟨spaces, sign, rfl, allSpaces, signs, filled, allDigits⟩ := scanNumber_shape scanned
  obtain ⟨d, digits, rfl⟩ := exists_cons_of_ne_nil filled
  have digit : d ≠ caret := fun equal => absurd (allDigits d mem_cons_self) (by rw [equal]; decide)
  unfold excludes
  cases spaces with
  | cons c spaces =>
    have space : c ≠ caret := fun equal => absurd (allSpaces c mem_cons_self) (by rw [equal]; decide)
    simpa using space
  | nil =>
    rcases signs with rfl | rfl | ⟨rfl, _⟩
    · simpa using digit
    · rfl
    · rfl

theorem integerText_ne_nil (number : integerText s = some n) : s ≠ [] := by
  rintro rfl
  cases number

/-- A number of an `int` is read as it is. -/
theorem parseindex_of_fits (number : integerText s = some n) (least : -2 ^ 31 ≤ n)
    (most : n < 2 ^ 31) (lo hi : Int) :
    parseindex s lo hi = if n < lo ∨ hi < n then .error (.notBetween n lo hi) else .ok n := by
  obtain ⟨minus, digits, scanned, value⟩ := integerText_eq number
  have parsed : strtoll s = ⟨n, [], false⟩ := by
    unfold strtoll
    rw [scanned]
    dsimp only
    rw [← value, if_neg (by omega), if_neg (by omega)]
  have same : toInt n = n := Int.bmod_eq_of_le_mul_two (by omega) (by omega)
  unfold parseindex
  rw [parsed]
  dsimp only
  rw [if_pos rfl, same]

theorem parseindex_ok {lo hi : Int} (taken : parseindex s lo hi = .ok n) :
    (lo ≤ n ∧ n ≤ hi) ∧ (1 ≤ lo → ∃ v, integerText s = some v) := by
  unfold parseindex at taken
  dsimp only at taken
  split at taken
  · rename_i ended
    split at taken
    · cases taken
    · rename_i between
      cases taken
      refine ⟨by omega, fun positive => ?_⟩
      unfold strtoll at ended between
      unfold integerText
      cases scanned : scanNumber s with
      | none =>
        rw [scanned] at between
        have zero : toInt 0 = 0 := rfl
        rw [zero] at between
        omega
      | some found =>
        obtain ⟨minus, digits, rest⟩ := found
        rw [scanned] at ended
        have finished : rest = [] := by
          dsimp only at ended
          split_ifs at ended <;> exact ended
        subst finished
        exact ⟨_, rfl⟩
  · cases taken

theorem integerText_of_parseindex {lo hi : Int} (taken : parseindex s lo hi = .ok n)
    (positive : 1 ≤ lo) (fits : ∀ v, integerText s = some v → -2 ^ 31 ≤ v ∧ v < 2 ^ 31) :
    integerText s = some n := by
  obtain ⟨v, number⟩ := (parseindex_ok taken).2 positive
  obtain ⟨least, most⟩ := fits v number
  rw [parseindex_of_fits number least most] at taken
  split at taken
  · cases taken
  · cases taken
    exact number

end Numbers

section Forms

variable {count : Int}

variable {s token : CStr} {choice : Choice}

theorem cutRange_of_not_mem (absent : 45 ∉ s) : cutRange s = (s, none) := by
  cases s with
  | nil => rfl
  | cons c rest =>
    have nothing := memchr_eq_none (fun mem => absent (mem_cons_of_mem c mem))
    simp only [cutRange, nothing, ite_self]

theorem cutRange_append {a : CStr} (absent : 45 ∉ a) (filled : a ≠ []) (b : CStr) :
    cutRange (a ++ 45 :: b) = (a, some b) := by
  obtain ⟨c, rest, rfl⟩ := exists_cons_of_ne_nil filled
  have found := memchr_append (fun mem => absent (mem_cons_of_mem c mem)) b
  have long : (c :: rest ++ 45 :: b).length > 1 := by simp
  rw [cons_append] at long ⊢
  simp only [cutRange, found, if_pos long]

theorem cutRange_some {starts ends : CStr} (cut : cutRange s = (starts, some ends)) :
    s = starts ++ 45 :: ends := by
  unfold cutRange at cut
  split at cut
  · cases cut
  · split at cut
    · split at cut
      · rename_i found
        cases cut
        rw [(memchr_some found).1, cons_append]
      · cases cut
    · cases cut

theorem cutRange_none {starts : CStr} (cut : cutRange s = (starts, none)) : s = starts := by
  unfold cutRange at cut
  split at cut
  · exact congrArg Prod.fst cut
  · split at cut
    · split at cut
      · cases cut
      · exact congrArg Prod.fst cut
    · exact congrArg Prod.fst cut

theorem OfForm.cut (form : OfForm count token choice) : excludes token = !choice.includes ∧
      (cutRange (tokenBody token) = (tokenBody token, none) ∧
          integerText (tokenBody token) = some choice.first ∧ choice.first = choice.last ∨
        ∃ a b, cutRange (tokenBody token) = (a, some b) ∧ integerText a = some choice.first ∧
          integerText b = some choice.last) ∧
      1 ≤ choice.first ∧ choice.first ≤ choice.last ∧ choice.last ≤ count := by
  induction form with
  | @one s n number least most =>
    have plain : excludes s = false := by simpa using not_excludes_of_integer number []
    have body : tokenBody s = s := if_neg (by simp [plain])
    rw [body]
    exact ⟨plain, .inl ⟨cutRange_of_not_mem (hyphen_not_mem_of_integer number least), number, rfl⟩,
      least, le_rfl, most⟩
  | @range a b n m start last least order most =>
    have plain : excludes (a ++ 45 :: b) = false := not_excludes_of_integer start _
    have body : tokenBody (a ++ 45 :: b) = a ++ 45 :: b := if_neg (by simp [plain])
    rw [body]
    exact ⟨plain, .inr ⟨a, b, cutRange_append (hyphen_not_mem_of_integer start least)
      (integerText_ne_nil start) b, start, last⟩, least, order, most⟩
  | @excluding s n m form ih =>
    have caretFirst : excludes (caret :: s) = true := by simp [excludes]
    have body : tokenBody (caret :: s) = s := if_pos caretFirst
    have inner : tokenBody s = s := if_neg (by simp [ih.1])
    rw [body]
    rw [inner] at ih
    exact ⟨caretFirst, ih.2⟩

/-- The bounds of an `int` hold for the numbers of a form. -/
theorem OfForm.numbersFit (form : OfForm count token choice) (int : count < 2 ^ 31) :
    NumbersFit token := by
  obtain ⟨_, cut, least, order, most⟩ := form.cut
  intro s mem n number
  rcases cut with ⟨cut, first, same⟩ | ⟨a, b, cut, first, last⟩
  · rw [cut] at mem
    cases mem_singleton.mp mem
    cases first.symm.trans number
    omega
  · rw [cut] at mem
    simp only [Option.toList_some, mem_cons, not_mem_nil, or_false] at mem
    rcases mem with rfl | rfl
    · cases first.symm.trans number
      omega
    · cases last.symm.trans number
      omega

theorem OfForm.readRange_eq (form : OfForm count token choice) (int : count < 2 ^ 31) :
    readRange count (tokenBody token) = .ok (choice.first, choice.last) := by
  obtain ⟨_, cut, least, order, most⟩ := form.cut
  unfold readRange
  rcases cut with ⟨cut, first, same⟩ | ⟨a, b, cut, first, last⟩
  · have start := parseindex_of_fits first (by omega) (by omega) 1 count
    rw [if_neg (by omega)] at start
    simp only [cut, start, same]
  · have start := parseindex_of_fits first (by omega) (by omega) 1 count
    have stop := parseindex_of_fits last (by omega) (by omega) choice.first count
    rw [if_neg (by omega)] at start stop
    simp only [cut, start, stop]

theorem OfForm.choiceOf_eq (form : OfForm count token choice) (int : count < 2 ^ 31) :
    choiceOf count token = choice := by
  have sign := form.cut.1
  simp [choiceOf, form.readRange_eq int, sign]

theorem readRange_cases {start last : Int} (taken : readRange count s = .ok (start, last)) :
    cutRange s = (s, none) ∧ parseindex s 1 count = .ok start ∧ last = start ∨
      ∃ starts ends, cutRange s = (starts, some ends) ∧ parseindex starts 1 count = .ok start ∧
        parseindex ends start count = .ok last := by
  unfold readRange at taken
  obtain ⟨starts, ends, cut⟩ : ∃ starts ends, cutRange s = (starts, ends) := ⟨_, _, rfl⟩
  rw [cut] at taken ⊢
  dsimp only at taken
  cases first : parseindex starts 1 count with
  | error message =>
    rw [first] at taken
    cases taken
  | ok n =>
    rw [first] at taken
    cases ends with
    | none =>
      cases taken
      obtain rfl := cutRange_none cut
      exact .inl ⟨rfl, first, rfl⟩
    | some ends =>
      cases second : parseindex ends n count with
      | error message =>
        simp only [second] at taken
        cases taken
      | ok m =>
        simp only [second] at taken
        cases taken
        exact .inr ⟨starts, ends, rfl, first, second⟩

theorem readRange_bounds {start last : Int} (taken : readRange count s = .ok (start, last)) :
    1 ≤ start ∧ start ≤ last ∧ last ≤ count := by
  obtain ⟨_, first, rfl⟩ | ⟨starts, ends, _, first, second⟩ := readRange_cases taken
  · have lower := (parseindex_ok first).1
    omega
  · have lower := (parseindex_ok first).1
    have upper := (parseindex_ok second).1
    omega

theorem ofForm_of_taken (taken : Taken count token) (fits : NumbersFit token) :
    OfForm count token (choiceOf count token) := by
  obtain ⟨⟨start, last⟩, read⟩ := taken
  obtain ⟨least, order, most⟩ := readRange_bounds read
  have form : OfForm count (tokenBody token) ⟨true, start, last⟩ := by
    obtain ⟨cut, first, rfl⟩ | ⟨starts, ends, cut, first, second⟩ := readRange_cases read
    · rw [NumbersFit, cut] at fits
      exact .one (integerText_of_parseindex first le_rfl (fits _ mem_cons_self)) least most
    · rw [NumbersFit, cut] at fits
      rw [cutRange_some cut]
      exact .range (integerText_of_parseindex first le_rfl (fits _ mem_cons_self))
        (integerText_of_parseindex second least (fits _ (mem_cons_of_mem _ mem_cons_self)))
        least order most
  simp only [choiceOf, read]
  cases sign : excludes token with
  | false =>
    have body : tokenBody token = token := if_neg (by simp [sign])
    rw [body] at form
    exact form
  | true =>
    have whole : token = caret :: tokenBody token := by
      rw [tokenBody, if_pos sign]
      exact (cons_head?_tail (of_decide_eq_true sign)).symm
    rw [whole]
    exact .excluding form

theorem OfForm.taken (form : OfForm count token choice) (int : count < 2 ^ 31) :
    Taken count token := ⟨_, form.readRange_eq int⟩

end Forms

section Loop

variable {count : Int}

def cleaned (texts : List CStr) : List CStr := (texts.map strtrim).filter (!·.isEmpty)

variable {starts : CStr} {i : Int}

theorem cleaned_blank (blank : strtrim starts = []) (rest : List CStr) :
    cleaned (starts :: rest) = cleaned rest := by
  simp [cleaned, blank]

theorem cleaned_token (token : strtrim starts ≠ []) (rest : List CStr) :
    cleaned (starts :: rest) = strtrim starts :: cleaned rest := by
  simp [cleaned, token]

/-- The empty fields, which `strtok_r` skips, are no tokens either. -/
theorem selectTokens_eq (response : CStr) :
    selectTokens response = cleaned (Tokens.all isSelectDelim response) := by
  rw [Tokens.all_eq_splitOnP, selectTokens]
  generalize response.splitOnP isSelectDelim = fields
  induction fields with
  | nil => rfl
  | cons field fields ih =>
    change cleaned (field :: fields) = _
    change cleaned fields = _ at ih
    cases field with
    | nil => exact (cleaned_blank rfl fields).trans ih
    | cons c rest =>
      rw [filter_cons_of_pos rfl]
      by_cases blank : strtrim (c :: rest) = []
      · rw [cleaned_blank blank, cleaned_blank blank, ih]
      · rw [cleaned_token blank, cleaned_token blank, ih]

def Choice.write (array : Selected) (choice : Choice) : Selected :=
  fun i => if choice.has (i + 1) then choice.value else array i

theorem writeRange_apply (value : UInt8) (more : Nat) (start : Int) (array : Selected) (i : Int) :
    writeRange value more start array i
      = if start ≤ i + 1 ∧ i + 1 ≤ start + more then value else array i := by
  induction more generalizing start array with
  | zero =>
    rw [writeRange, Function.update_apply]
    congr 1
    exact propext ⟨fun here => by omega, fun here => by omega⟩
  | succ more ih =>
    rw [writeRange, ih, Function.update_apply]
    split_ifs with later here whole whole whole <;> first | rfl | omega

theorem multiselectToken_taken (filled : strtrim starts ≠ []) (taken : Taken count (strtrim starts))
    (first : Bool) (array : Selected) : multiselectToken count first starts array
      = (none, Choice.write (if !excludes (strtrim starts) && first then
        deselect count array else array)
          (choiceOf count (strtrim starts))) := by
  obtain ⟨⟨start, last⟩, read⟩ := taken
  obtain ⟨least, order, most⟩ := readRange_bounds read
  simp only [multiselectToken, if_neg filled, read, choiceOf]
  refine congrArg (Prod.mk none) (funext fun i => ?_)
  have stop : start + ((last - start).toNat : Int) = last := by omega
  rw [writeRange_apply, stop]
  cases excludes (strtrim starts) <;> simp [Choice.write, Choice.has, Choice.value]

theorem multiselectToken_blank (blank : strtrim starts = []) (first : Bool) (array : Selected) :
    multiselectToken count first starts array = (none, array) := if_pos blank

theorem multiselectToken_refused (filled : strtrim starts ≠ [])
    (refused : ¬ Taken count (strtrim starts)) (first : Bool) (array : Selected) :
    ∃ message, (multiselectToken count first starts array).1 = some message := by
  simp only [multiselectToken, if_neg filled]
  cases read : readRange count (tokenBody (strtrim starts)) with
  | ok range => exact absurd ⟨range, read⟩ refused
  | error message => exact ⟨message, rfl⟩

theorem deselect_outside (outside : i < 0 ∨ count ≤ i) (array : Selected) :
    deselect count array i = array i := if_neg (by omega)

theorem multiselectToken_bounds (outside : i < 0 ∨ count ≤ i) (first : Bool) (starts : CStr)
    (array : Selected) : (multiselectToken count first starts array).2 i = array i := by
  by_cases blank : strtrim starts = []
  · rw [multiselectToken_blank blank]
  · simp only [multiselectToken, if_neg blank]
    have start : (if !excludes (strtrim starts) && first then deselect count array else array) i =
        array i := by
      split
      · exact deselect_outside outside array
      · rfl
    cases read : readRange count (tokenBody (strtrim starts)) with
    | error message => exact start
    | ok range =>
      obtain ⟨least, order, most⟩ := readRange_bounds read
      dsimp only
      rw [writeRange_apply, if_neg (by omega), start]

theorem multiselectLoop_bounds (outside : i < 0 ∨ count ≤ i) (first : Bool) (texts : List CStr)
    (array : Selected) : (multiselectLoop count first texts array).array i = array i := by
  induction texts generalizing first array with
  | nil => rfl
  | cons starts texts ih =>
    have turn := multiselectToken_bounds outside first starts array
    rw [multiselectLoop]
    split
    · rename_i next shape
      rw [shape] at turn
      exact (ih false next).trans turn
    · rename_i message next shape
      rw [shape] at turn
      exact turn

/-- The array that the other turns begin with: only the first text between delimiters can clear it. -/
def startArray (count : Int) (texts : List CStr) (array : Selected) : Selected :=
  match texts.head? with
  | some starts =>
    if strtrim starts ≠ [] ∧ excludes (strtrim starts) = false then deselect count array else array
  | none => array

theorem multiselectLoop_first (texts : List CStr) (array : Selected) :
    multiselectLoop count true texts array =
      multiselectLoop count false texts (startArray count texts array) := by
  cases texts with
  | nil => rfl
  | cons starts texts =>
    have turn : multiselectToken count true starts array
        = multiselectToken count false starts (startArray count (starts :: texts) array) := by
      by_cases blank : strtrim starts = []
      · simp [multiselectToken, startArray, blank]
      · cases sign : excludes (strtrim starts) <;>
          simp [multiselectToken, startArray, blank, sign]
    rw [multiselectLoop, multiselectLoop, turn]

theorem multiselectLoop_taken {texts : List CStr} (taken : ∀ token ∈ cleaned texts, Taken count token)
    (array : Selected) : multiselectLoop count false texts array
      = ⟨0, ((cleaned texts).map (choiceOf count)).foldl Choice.write array, none⟩ := by
  induction texts generalizing array with
  | nil => rfl
  | cons starts texts ih =>
    by_cases blank : strtrim starts = []
    · rw [cleaned_blank blank] at taken ⊢
      rw [multiselectLoop, multiselectToken_blank blank]
      exact ih taken array
    · rw [cleaned_token blank] at taken ⊢
      rw [multiselectLoop, multiselectToken_taken blank (taken _ mem_cons_self)]
      simp only [Bool.and_false, Bool.false_eq_true, if_false, map_cons, foldl_cons]
      exact ih (fun token mem => taken token (mem_cons_of_mem _ mem)) _

theorem multiselectLoop_refused {texts : List CStr}
    (refused : ∃ token ∈ cleaned texts, ¬ Taken count token) (array : Selected) :
    (multiselectLoop count false texts array).ret = -1 := by
  induction texts generalizing array with
  | nil =>
    obtain ⟨token, mem, _⟩ := refused
    cases mem
  | cons starts texts ih =>
    by_cases blank : strtrim starts = []
    · rw [cleaned_blank blank] at refused
      rw [multiselectLoop, multiselectToken_blank blank]
      exact ih refused array
    · rw [multiselectLoop]
      by_cases taken : Taken count (strtrim starts)
      · rw [multiselectToken_taken blank taken]
        obtain ⟨token, mem, notTaken⟩ := refused
        rw [cleaned_token blank] at mem
        rcases mem_cons.mp mem with rfl | later
        · exact absurd taken notTaken
        · exact ih ⟨token, later, notTaken⟩ _
      · obtain ⟨message, failed⟩ := multiselectToken_refused blank taken false array
        split
        · rename_i shape
          rw [shape] at failed
          cases failed
        · rfl

theorem foldl_write_apply (choices : List Choice) (array : Selected) (i : Int) :
    choices.foldl Choice.write array i = match choices.reverse.find? (·.has (i + 1)) with
        | some choice => choice.value
        | none => array i := by
  induction choices using List.reverseRecOn with
  | nil => rfl
  | append_singleton choices choice ih =>
    rw [foldl_concat, reverse_concat, List.find?_cons, Choice.write, ih]
    cases choice.has (i + 1) <;> rfl

end Loop

section Answer

variable {count : Int} {array : Selected} {response : CStr}

theorem multiselectParse_eq (array : Selected) (count : Int) (response : CStr) :
    multiselectParse array count response
      = multiselectLoop count false (Tokens.all isSelectDelim response)
          (startArray count (Tokens.all isSelectDelim response) array) :=
  multiselectLoop_first _ array

theorem multiselectParse_refused (refused : ∃ token ∈ selectTokens response, ¬ Taken count token) :
    (multiselectParse array count response).ret = -1 := by
  rw [selectTokens_eq] at refused
  rw [multiselectParse_eq]
  exact multiselectLoop_refused refused _

theorem multiselectParse_taken (taken : ∀ token ∈ selectTokens response, Taken count token) :
    multiselectParse array count response
      = ⟨0, ((selectTokens response).map (choiceOf count)).foldl Choice.write
          (startArray count (Tokens.all isSelectDelim response) array), none⟩ := by
  rw [selectTokens_eq] at taken ⊢
  rw [multiselectParse_eq]
  exact multiselectLoop_taken taken _

variable {i : Int} {tokens : List CStr}

theorem startArray_of_token (ones : ∀ i, 0 ≤ i → i < count → array i = 1)
    (first : ¬ BlankFirst response) (least : 0 ≤ i) (most : i < count) :
    startArray count (Tokens.all isSelectDelim response) array i
      = if (selectTokens response).head?.all excludes then 1 else 0 := by
  rw [selectTokens_eq]
  unfold BlankFirst at first
  cases texts : Tokens.all isSelectDelim response with
  | nil => exact ones i least most
  | cons starts rest =>
    rw [texts] at first
    have filled : strtrim starts ≠ [] := fun blank => first ⟨starts, rfl, blank⟩
    rw [cleaned_token filled, List.head?_cons, Option.all_some, startArray, List.head?_cons]
    cases sign : excludes (strtrim starts) with
    | true => simpa [sign] using ones i least most
    | false => simp [sign, filled, deselect, least, most]

theorem startArray_of_blank (blank : BlankFirst response) :
    startArray count (Tokens.all isSelectDelim response) array = array := by
  obtain ⟨starts, first, empty⟩ := blank
  simp [startArray, first, empty]

theorem choiceOf_includes (count : Int) (token : CStr) :
    (choiceOf count token).includes = !excludes token := by
  unfold choiceOf
  split <;> rfl

theorem choices_eq (int : count < 2 ^ 31) {choices : List Choice}
    (forms : List.Forall₂ (OfForm count) tokens choices) :
    choices = tokens.map (choiceOf count) := by
  induction forms with
  | nil => rfl
  | cons form _ ih => rw [map_cons, form.choiceOf_eq int, ← ih]

theorem typedValue_eq (count : Int) (tokens : List CStr) (i : Int) :
    typedValue (tokens.map (choiceOf count)) i
      = match (tokens.map (choiceOf count)).reverse.find? (·.has (i + 1)) with
        | some choice => choice.value
        | none => if tokens.head?.all excludes then 1 else 0 := by
  have first : (tokens.map (choiceOf count)).head?.all (!·.includes) = tokens.head?.all excludes := by
    cases tokens with
    | nil => rfl
    | cons token tokens => simp [choiceOf_includes]
  unfold typedValue
  generalize (tokens.map (choiceOf count)).reverse.find? (·.has (i + 1)) = found
  cases found with
  | some choice => rfl
  | none => exact congrArg (fun all : Bool => if all = true then (1 : UInt8) else 0) first

theorem find_isSome_of_covered
    (covered : ∃ token ∈ tokens, (choiceOf count token).has (i + 1) = true) :
    ((tokens.map (choiceOf count)).reverse.find? (·.has (i + 1))).isSome = true := by
  obtain ⟨token, mem, has⟩ := covered
  rw [List.find?_isSome]
  exact ⟨_, mem_reverse.mpr (mem_map_of_mem mem), has⟩

theorem find_eq_none_of_uncovered
    (uncovered : ¬ ∃ token ∈ tokens, (choiceOf count token).has (i + 1) = true) :
    (tokens.map (choiceOf count)).reverse.find? (·.has (i + 1)) = none := by
  rw [List.find?_eq_none]
  intro choice member has
  obtain ⟨token, mem, rfl⟩ := mem_map.mp (mem_reverse.mp member)
  exact uncovered ⟨token, mem, has⟩

/-- With all tokens taken and their numbers fitting, the elements are as typed exactly if blank text
in front makes no difference. -/
theorem selected_iff (int : count < 2 ^ 31) (ones : ∀ i, 0 ≤ i → i < count → array i = 1)
    (forms : ∀ token ∈ selectTokens response, OfForm count token (choiceOf count token)) :
    (∀ i, 0 ≤ i → i < count → (multiselectParse array count response).array i
        = typedValue ((selectTokens response).map (choiceOf count)) i) ↔
      (BlankFirst response → (selectTokens response).head?.all excludes = true ∨
        ∀ n, 1 ≤ n → n ≤ count →
          ∃ token ∈ selectTokens response, (choiceOf count token).has n = true) := by
  rw [multiselectParse_taken fun token mem => (forms token mem).taken int]
  dsimp only
  constructor
  · intro selected blank
    rw [or_iff_not_imp_left]
    intro including n least most
    by_contra uncovered
    have element : n - 1 + 1 = n := by omega
    rw [← element] at uncovered
    have value := selected (n - 1) (by omega) (by omega)
    rw [typedValue_eq, foldl_write_apply, find_eq_none_of_uncovered uncovered,
      startArray_of_blank blank] at value
    dsimp only at value
    rw [ones _ (by omega) (by omega), if_neg including] at value
    cases value
  · intro harmless i least most
    rw [typedValue_eq, foldl_write_apply]
    by_cases covered : ∃ token ∈ selectTokens response, (choiceOf count token).has (i + 1) = true
    · obtain ⟨choice, found⟩ := Option.isSome_iff_exists.mp (find_isSome_of_covered covered)
      rw [found]
    · rw [find_eq_none_of_uncovered covered]
      by_cases blank : BlankFirst response
      · have excluding :=
          (harmless blank).resolve_right fun all => covered (all (i + 1) (by omega) (by omega))
        rw [startArray_of_blank blank, if_pos excluding]
        exact ones i least most
      · exact startArray_of_token ones blank least most

/-- The answer means what was typed exactly if it is a plain answer. -/
theorem multiselectParse_typed_iff (array : Selected) (count : Int) (response : CStr)
    (int : count < 2 ^ 31) (ones : ∀ i, 0 ≤ i → i < count → array i = 1) :
    ReadAsTyped array count response ↔ PlainAnswer count response := by
  have bounds : ∀ i, i < 0 ∨ count ≤ i → (multiselectParse array count response).array i = array i :=
    fun i outside => multiselectLoop_bounds outside true _ array
  by_cases refused : ∃ token ∈ selectTokens response, ¬ Taken count token
  · refine iff_of_true ?_ (.inl refused)
    have ret : (multiselectParse array count response).ret = -1 := multiselectParse_refused refused
    obtain ⟨token, member, notTaken⟩ := refused
    refine ⟨bounds, .inr ret, ⟨fun _ => ⟨token, member, fun choice form => ?_⟩, fun _ => ret⟩, ?_⟩
    · exact notTaken (form.taken int)
    · rw [ret]
      intro zero
      cases zero
  · have taken : ∀ token ∈ selectTokens response, Taken count token :=
      fun token member => by_contra fun notTaken => refused ⟨token, member, notTaken⟩
    have ret : (multiselectParse array count response).ret = 0 := by rw [multiselectParse_taken taken]
    constructor
    · intro typed
      have forms : ∀ token ∈ selectTokens response, OfForm count token (choiceOf count token) := by
        intro token member
        by_contra other
        have failed := typed.rejects.mpr
          ⟨token, member, fun choice form => other ((form.choiceOf_eq int).symm ▸ form)⟩
        rw [ret] at failed
        cases failed
      refine .inr ⟨fun token member => (forms token member).numbersFit int, ?_⟩
      rw [← selected_iff int ones forms]
      obtain ⟨choices, asTyped, values⟩ := typed.selects ret
      rw [choices_eq int asTyped] at values
      exact values
    · rintro (impossible | ⟨fits, harmless⟩)
      · exact absurd impossible refused
      · have forms : ∀ token ∈ selectTokens response, OfForm count token (choiceOf count token) :=
          fun token member => ofForm_of_taken (taken token member) (fits token member)
        refine ⟨bounds, .inl ret, ?_, fun _ => ⟨_, ?_, (selected_iff int ones forms).mpr harmless⟩⟩
        · rw [ret]
          refine iff_of_false (by decide) ?_
          rintro ⟨token, member, none⟩
          exact none _ (forms token member)
        · rw [List.forall₂_map_right_iff, List.forall₂_same]
          exact forms

/-- Two numbers in an answer about three packages. -/
theorem multiselectParse_typed_two_numbers :
    PlainAnswer 3 (cstr "1 3") ∧ ReadAsTyped (fun _ => 1) 3 (cstr "1 3") := by
  have tokens : selectTokens (cstr "1 3") = [cstr "1", cstr "3"] := by decide +kernel
  have first : OfForm 3 (cstr "1") ⟨true, 1, 1⟩ := .one (by decide +kernel) (by decide) (by decide)
  have second : OfForm 3 (cstr "3") ⟨true, 3, 3⟩ := .one (by decide +kernel) (by decide) (by decide)
  have plain : PlainAnswer 3 (cstr "1 3") := by
    refine .inr ⟨?_, ?_⟩
    · rw [tokens, forall_mem_cons, forall_mem_singleton]
      exact ⟨first.numbersFit (by decide), second.numbersFit (by decide)⟩
    · rintro ⟨starts, head, blank⟩
      have texts : (Tokens.all isSelectDelim (cstr "1 3")).head? =
          some (cstr "1") := by decide +kernel
      rw [texts] at head
      cases head
      exact absurd blank (by decide +kernel)
  exact ⟨plain, (multiselectParse_typed_iff _ 3 _ (by decide) fun _ _ _ => rfl).mpr plain⟩

/-- A number that does not fit into an `int` is taken for its low bits; and behind a tab the first
token does not clear the array. -/
theorem multiselectParse_not_as_typed :
    ((multiselectParse (fun _ => 1) 3 (cstr "4294967297")).ret = 0 ∧
        selectTokens (cstr "4294967297") = [cstr "4294967297"] ∧
        ∀ choice, ¬ OfForm 3 (cstr "4294967297") choice) ∧
      ((multiselectParse (fun _ => 1) 3 (cstr "\t,1")).ret = 0 ∧
        (multiselectParse (fun _ => 1) 3 (cstr "\t,1")).array 2 = 1 ∧
        selectTokens (cstr "\t,1") = [cstr "1"] ∧ OfForm 3 (cstr "1") ⟨true, 1, 1⟩ ∧
        typedValue [⟨true, 1, 1⟩] 2 = 0) := by
  refine ⟨⟨by decide +kernel, by decide +kernel, fun choice form => ?_⟩, by decide +kernel,
    by decide +kernel, by decide +kernel,
      .one (by decide +kernel) (by decide) (by decide), by decide +kernel⟩
  have number : integerText (cstr "4294967297") = some 4294967297 := by decide +kernel
  have cut : (cutRange (tokenBody (cstr "4294967297"))).1 = cstr "4294967297" := by decide +kernel
  have fits := form.numbersFit (by decide) (cstr "4294967297") (cut ▸ mem_cons_self) _ number
  exact absurd fits.2 (by decide)

end Answer

end Dulge
