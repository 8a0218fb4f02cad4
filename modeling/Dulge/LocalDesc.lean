import Dulge.DepstringRoundTrip
import Dulge.LocalDb
import Dulge.SavedPaths

/-! What a desc file says is what was written to it. Each section is read back on its own,
with the rest of the file behind it; a file is then read section by section. -/

namespace Dulge
open List

/-! ### Numbers -/

theorem digitsValue_snoc (s : CStr) (c : UInt8) :
    digitsValue (s ++ [c]) = digitsValue s * 10 + (c.toNat - 48) := by
  induction s with
  | nil => simp [digitsValue]
  | cons d s ih =>
    rw [cons_append, digitsValue, digitsValue, ih, length_append, length_singleton, pow_succ]
    ring

theorem digitsValue_digits {digits : List Nat} (small : ∀ d ∈ digits, d < 10) :
    digitsValue (digits.reverse.map fun digit => UInt8.ofNat (48 + digit))
      = Nat.ofDigits 10 digits := by
  induction digits with
  | nil => rfl
  | cons d digits ih =>
    have digit : d < 10 := small d mem_cons_self
    have value : (UInt8.ofNat (48 + d)).toNat = 48 + d := by
      rw [UInt8.toNat_ofNat']
      omega
    rw [reverse_cons, map_append, map_singleton, digitsValue_snoc, value,
      ih fun e mem => small e (mem_cons_of_mem d mem), Nat.ofDigits_cons]
    omega

theorem digitsValue_decimal (n : Nat) : digitsValue (decimal n) = n := by
  unfold decimal
  split
  · rename_i zero
    rw [zero]
    rfl
  · rw [digitsValue_digits fun d mem => Nat.digits_lt_base (by decide) mem,
      Nat.ofDigits_digits]

theorem decimal_length {n : Nat} (small : n < 10 ^ 20) : (decimal n).length ≤ 20 := by
  unfold decimal
  split
  · decide
  · rw [length_map, length_reverse]
    exact (Nat.digits_length_le_iff (by decide) n).mpr small

theorem decimal_isdigit (n : Nat) : ∀ c ∈ decimal n, isdigit c = true := by
  intro c mem
  have bounds := decimal_digit mem
  simp [isdigit, bounds.1, bounds.2]

theorem digit_not_sign {c : UInt8} (digit : isdigit c = true) :
    isspace c = false ∧ c ≠ 45 ∧ c ≠ 43 := by
  have bounds := isdigit_iff.mp digit
  refine ⟨?_, ?_, ?_⟩
  · simp only [isspace, Bool.or_eq_false_iff, decide_eq_false_iff_not, Bool.and_eq_false_imp,
      decide_eq_true_eq, UInt8.le_iff_toNat_le, ← UInt8.toNat_inj, UInt8.reduceToNat]
    omega
  · rintro rfl
    exact absurd bounds.1 (by decide)
  · rintro rfl
    exact absurd bounds.1 (by decide)

theorem digits_run {digits : CStr} (all : ∀ c ∈ digits, isdigit c = true) :
    digits.takeWhile isdigit = digits ∧ digits.dropWhile isdigit = [] :=
  ⟨takeWhile_eq_self_iff.mpr all, dropWhile_eq_nil_iff.mpr all⟩

theorem scanNumber_signed (minus : Bool) {digits : CStr} (all : ∀ c ∈ digits, isdigit c = true)
    (filled : digits ≠ []) :
    scanNumber ((if minus then [45] else []) ++ digits) = some (minus, digits, []) := by
  obtain ⟨taken, left⟩ := digits_run all
  unfold scanNumber
  cases minus with
  | true =>
    have kept : (45 :: digits).dropWhile isspace = 45 :: digits :=
      dropWhile_cons_of_neg (by decide)
    simp only [if_true, singleton_append, kept, taken, left, if_neg filled]
  | false =>
    obtain ⟨c, rest, rfl⟩ := exists_cons_of_ne_nil filled
    obtain ⟨space, minus, plus⟩ := digit_not_sign (all c mem_cons_self)
    have kept : (c :: rest).dropWhile isspace = c :: rest :=
      dropWhile_cons_of_neg (by simp [space])
    simp only [Bool.false_eq_true, if_false, nil_append, kept]
    split
    · rename_i same
      exact absurd (List.cons.inj same).1 minus
    · rename_i same
      exact absurd (List.cons.inj same).1 plus
    · simp only [taken, left, if_neg filled]

theorem scanNumber_signedDecimal (n : Int) :
    scanNumber (signedDecimal n) = some (decide (n < 0), decimal n.natAbs, []) := by
  have scan := scanNumber_signed (decide (n < 0)) (decimal_isdigit n.natAbs) (decimal_ne_nil _)
  rw [← scan, signedDecimal]
  simp only [decide_eq_true_eq]

theorem signedDecimal_ne_nil (n : Int) : signedDecimal n ≠ [] := by
  unfold signedDecimal
  exact append_ne_nil_of_right_ne_nil _ (decimal_ne_nil _)

theorem parsedate_signedDecimal {n : Int} (least : -2 ^ 63 ≤ n) (most : n < 2 ^ 63) :
    parsedate (signedDecimal n) = n := by
  have value : (if decide (n < 0) = true then -((digitsValue (decimal n.natAbs) : Nat) : Int)
      else digitsValue (decimal n.natAbs)) = n := by
    rw [digitsValue_decimal]
    split
    · rename_i negative
      rw [decide_eq_true_eq] at negative
      omega
    · rename_i positive
      rw [decide_eq_true_eq] at positive
      omega
  have parsed : strtoll (signedDecimal n) = ⟨n, [], false⟩ := by
    unfold strtoll
    rw [scanNumber_signedDecimal]
    dsimp only
    rw [value, if_neg (by omega), if_neg (by omega)]
  unfold parsedate
  rw [parsed]
  simp [(signedDecimal_ne_nil n).symm]

theorem strtoofft_signedDecimal {n : Int} (least : 0 ≤ n) (most : n < 2 ^ 63) :
    strtoofft (signedDecimal n) = n := by
  have positive : decide (n < 0) = false := by simpa using least
  have parsed : strtoull (signedDecimal n) = ⟨n.natAbs, [], false⟩ := by
    unfold strtoull
    rw [scanNumber_signedDecimal, positive]
    dsimp only
    rw [digitsValue_decimal, if_neg (by omega)]
    rfl
  have first : ∀ c ∈ (signedDecimal n).head?, isdigit c = true := by
    intro c mem
    apply decimal_isdigit n.natAbs
    rw [signedDecimal, if_neg (by omega)] at mem
    exact mem_of_mem_head? mem
  unfold strtoofft
  cases shape : signedDecimal n with
  | nil => exact absurd shape (signedDecimal_ne_nil n)
  | cons c rest =>
    rw [shape] at parsed first
    dsimp only
    rw [first c rfl, parsed]
    simp only [Bool.true_eq_false, if_false, ne_eq, not_true_eq_false, Bool.false_eq_true,
      and_false]
    rw [if_neg (by simp), if_pos (by omega)]
    omega

/-! ### Sections -/

structure FitsLine (line : CStr) : Prop where
  whole : newline ∉ line
  terminated : 0 ∉ line
  short : line.length ≤ 1022

instance (line : CStr) : Decidable (FitsLine line) :=
  decidable_of_iff (newline ∉ line ∧ 0 ∉ line ∧ line.length ≤ 1022)
    ⟨fun h => ⟨h.1, h.2.1, h.2.2⟩, fun h => ⟨h.1, h.2, h.3⟩⟩

theorem FitsLine.plain {line : CStr} (fits : FitsLine line) : LineReader.Plain newline 0 line :=
  ⟨fits.whole, fits.terminated⟩

theorem FitsLine.room {line : CStr} (fits : FitsLine line) : line.length < lineRoom :=
  Nat.lt_succ_of_le fits.short

theorem readNext_line {line text old : CStr} {eof : Bool} (fits : FitsLine line) :
    Reader.readNext ⟨line ++ newline :: text, eof, old⟩ = ⟨text, eof, line⟩ := by
  rw [Reader.readNext, LineReader.readNext, LineReader.next?_fits fits.plain fits.room]

theorem putSection_append (header : CStr) (lines : List CStr) (rest : CStr) :
    putSection header lines ++ rest = header ++ newline :: (putLines lines ++ newline :: rest) := by
  simp [putSection, putLines]

structure IsHeader (header : CStr) (found : DescSection) : Prop where
  fits : FitsLine header
  filled : header ≠ []
  leads : sectionOf header = some found

theorem LineField.isHeader (field : LineField) : IsHeader field.header (.line field) := by
  cases field <;> exact ⟨by decide, by decide, by decide⟩

theorem BlockField.isHeader (field : BlockField) : IsHeader field.header (.block field) := by
  cases field <;> exact ⟨by decide, by decide, by decide⟩

theorem readDesc_blank (text old : CStr) (info : LocalPkg) :
    readDesc ⟨newline :: text, false, old⟩ info = readDesc (.fopen text) info := by
  have blank : FitsLine [] := by decide
  have read : Reader.readNext ⟨newline :: text, false, old⟩ = ⟨text, false, []⟩ :=
    readNext_line blank
  rw [readDesc, dif_pos rfl]
  dsimp only
  rw [read, if_pos rfl]
  rfl

theorem readDesc_end (info : LocalPkg) : readDesc (.fopen []) info = ⟨0, info, []⟩ := by
  have ended : Reader.readNext (.fopen []) = ⟨[], true, []⟩ := by decide
  have unread : (Reader.fopen []).eof = false := rfl
  rw [readDesc, dif_pos unread]
  dsimp only
  rw [ended, if_pos rfl, readDesc, dif_neg (by decide)]

theorem readDesc_line (field : LineField) {value : CStr} (fits : FitsLine value) (rest : CStr)
    (info : LocalPkg) : readDesc (.fopen (putSection field.header [value] ++ rest)) info
      = (readDesc (.fopen rest) (field.store value info).1).noting (field.store value info).2 := by
  have header := field.isHeader
  have tail : putLines [value] ++ newline :: rest = value ++ newline :: newline :: rest := by
    simp [putLines]
  rw [putSection_append, tail, readDesc, Reader.fopen, dif_pos rfl]
  dsimp only
  rw [readNext_line header.fits]
  dsimp only
  rw [if_neg header.filled, header.leads]
  dsimp only
  rw [readNext_line fits, readDesc_blank]

theorem readDesc_block (field : BlockField) {lines : List CStr}
    (fits : ∀ line ∈ lines, FitsLine line ∧ line ≠ []) (rest : CStr) (info : LocalPkg)
    (stores : (field.store lines info).2.2 = true) :
    readDesc (.fopen (putSection field.header lines ++ rest)) info
      = (readDesc (.fopen rest) (field.store lines info).1).noting (field.store lines info).2.1 := by
  have header := field.isHeader
  have block : Reader.readBlock ⟨putLines lines ++ newline :: rest, false, field.header⟩
      = (lines, .fopen rest) := by
    apply LineReader.readBlock_fits _ (by decide)
    intro line mem
    obtain ⟨fits, filled⟩ := fits line mem
    exact ⟨fits.plain, fits.room, filled⟩
  rw [putSection_append, readDesc, Reader.fopen, dif_pos rfl]
  dsimp only
  rw [readNext_line header.fits]
  dsimp only
  rw [if_neg header.filled, header.leads]
  dsimp only
  rw [block, if_pos stores]

/-! ### Whole files -/

structure DepLine (dep : Depend) : Prop where
  made : ∃ text, dep = depFromString text
  fits : FitsLine (depComputeString dep)
  filled : depComputeString dep ≠ []

structure Recordable (info : LocalPkg) : Prop where
  name : FitsLine info.name
  version : FitsLine info.version
  strings : ∀ text ∈ [info.base, info.desc, info.url, info.arch, info.packager],
    ∀ line ∈ text, FitsLine line
  builddate : -2 ^ 63 ≤ info.builddate ∧ info.builddate < 2 ^ 63
  installdate : -2 ^ 63 ≤ info.installdate ∧ info.installdate < 2 ^ 63
  isize : 0 ≤ info.isize ∧ info.isize < 2 ^ 63
  reason : info.reason = .explicit ∨ info.reason = .depend
  lists : ∀ line ∈ info.groups ++ info.licenses, FitsLine line ∧ line ≠ []
  validation : info.validation &&&
    ~~~(PkgValidation.none ||| PkgValidation.sha256sum ||| PkgValidation.signature) = 0
  deps : ∀ dep ∈ info.replaces ++ info.depends ++ info.optdepends ++ info.conflicts ++
    info.provides, DepLine dep
  xdata : ∀ pd ∈ info.xdata, FitsLine pd.line ∧ 61 ∉ pd.name

def DescSection.copy (source info : LocalPkg) : DescSection → LocalPkg
  | line .name | line .version | block .makedepends | block .checkdepends => info
  | line .base => { info with base := source.base }
  | line .desc => { info with desc := source.desc }
  | line .url => { info with url := source.url }
  | line .arch => { info with arch := source.arch }
  | line .builddate => { info with builddate := source.builddate }
  | line .installdate => { info with installdate := source.installdate }
  | line .packager => { info with packager := source.packager }
  | line .reason => { info with reason := source.reason }
  | line .size => { info with isize := source.isize }
  | block .groups => { info with groups := source.groups }
  | block .license => { info with licenses := source.licenses }
  | block .validation => { info with validation := source.validation }
  | block .replaces => { info with replaces := source.replaces }
  | block .depends => { info with depends := source.depends }
  | block .optdepends => { info with optdepends := source.optdepends }
  | block .conflicts => { info with conflicts := source.conflicts }
  | block .provides => { info with provides := source.provides }
  | block .xdata => { info with xdata := source.xdata }

def Untouched (found : DescSection) (info : LocalPkg) : Prop :=
  found.copy (.fresh info.name info.version) info = info

section Carry

variable {source info : LocalPkg}

theorem LineField.copy_of_none {field : LineField} (omitted : field.value source = none)
    (untouched : Untouched (.line field) info) :
    DescSection.copy source info (.line field) = info := by
  cases field with
  | name => cases omitted
  | version => cases omitted
  | base | desc | url | arch | packager =>
    simp only [LineField.value] at omitted
    simp only [DescSection.copy, omitted]
    exact untouched
  | builddate | installdate | size =>
    simp only [LineField.value, ite_eq_left_iff, reduceCtorEq, imp_false, not_not] at omitted
    simp only [DescSection.copy, omitted]
    exact untouched
  | reason =>
    have explicit : source.reason = .explicit := by
      revert omitted
      cases shown : source.reason <;> simp [LineField.value, shown, Pkgreason.number]
    simp only [DescSection.copy, explicit]
    exact untouched

theorem not_mem_signedDecimal {c : UInt8} (sign : c ≠ 45) (digit : ¬ 48 ≤ c) (n : Int) :
    c ∉ signedDecimal n := by
  intro mem
  rcases mem_append.mp mem with minus | inside
  · split at minus
    · exact sign (mem_singleton.mp minus)
    · cases minus
  · exact digit (decimal_digit inside).1

theorem signedDecimal_fits {n : Int} (least : -2 ^ 63 ≤ n) (most : n < 2 ^ 63) :
    FitsLine (signedDecimal n) where
  whole := not_mem_signedDecimal (by decide) (by decide) n
  terminated := not_mem_signedDecimal (by decide) (by decide) n
  short := by
    have sign : (if n < 0 then [45] else ([] : CStr)).length ≤ 1 := by
      split <;> simp
    have digits : (decimal n.natAbs).length ≤ 20 := decimal_length (by omega)
    rw [signedDecimal, length_append]
    omega

theorem LineField.store_value (recordable : Recordable source) {field : LineField} {value : CStr}
    (written : field.value source = some value)
    (named : info.name = source.name ∧ info.version = source.version) :
    FitsLine value ∧ field.store value info = (DescSection.copy source info (.line field), []) := by
  cases field with
  | name =>
    cases written
    refine ⟨recordable.name, ?_⟩
    simp [LineField.store, DescSection.copy, named.1]
  | version =>
    cases written
    refine ⟨recordable.version, ?_⟩
    simp [LineField.store, DescSection.copy, named.2]
  | base | desc | url | arch | packager =>
    simp only [LineField.value] at written
    refine ⟨recordable.strings _ (by simp) value written, ?_⟩
    simp only [LineField.store, DescSection.copy, written]
  | builddate =>
    simp only [LineField.value, Option.ite_none_left_eq_some, Option.some.injEq] at written
    obtain ⟨_, rfl⟩ := written
    obtain ⟨least, most⟩ := recordable.builddate
    refine ⟨signedDecimal_fits least most, ?_⟩
    simp only [LineField.store, DescSection.copy, parsedate_signedDecimal least most]
  | installdate =>
    simp only [LineField.value, Option.ite_none_left_eq_some, Option.some.injEq] at written
    obtain ⟨_, rfl⟩ := written
    obtain ⟨least, most⟩ := recordable.installdate
    refine ⟨signedDecimal_fits least most, ?_⟩
    simp only [LineField.store, DescSection.copy, parsedate_signedDecimal least most]
  | size =>
    simp only [LineField.value, Option.ite_none_left_eq_some, Option.some.injEq] at written
    obtain ⟨_, rfl⟩ := written
    obtain ⟨least, most⟩ := recordable.isize
    refine ⟨signedDecimal_fits (by omega) most, ?_⟩
    simp only [LineField.store, DescSection.copy, strtoofft_signedDecimal least most]
  | reason =>
    rcases recordable.reason with explicit | depend
    · simp [LineField.value, explicit, Pkgreason.number] at written
    · have one : value = cstr "1" := by
        simp only [LineField.value, depend, Pkgreason.number] at written
        rw [if_neg (by decide), Option.some.injEq] at written
        rw [← written]
        simp [decimal]
        decide
      subst one
      refine ⟨by decide, ?_⟩
      simp only [LineField.store, DescSection.copy, depend]
      rfl

theorem listLines_some {lines written : List CStr} (some : listLines lines = .some written) :
    written = lines := by
  unfold listLines at some
  split at some
  · cases some
  · exact (Option.some.inj some).symm

theorem listLines_none {lines : List CStr} (none : listLines lines = .none) : lines = [] := by
  unfold listLines at none
  split at none
  · assumption
  · cases none

theorem deps_reread {deps : List Depend} (lines : ∀ dep ∈ deps, DepLine dep) :
    (deps.map depComputeString).map depFromString = deps := by
  rw [map_map]
  conv_rhs => rw [← map_id deps]
  apply map_congr_left
  intro dep mem
  obtain ⟨text, rfl⟩ := (lines dep mem).made
  exact congrArg depFromString (depComputeString_depFromString text)

theorem deps_fit {deps : List Depend} (lines : ∀ dep ∈ deps, DepLine dep) :
    ∀ line ∈ deps.map depComputeString, FitsLine line ∧ line ≠ [] := by
  intro line mem
  obtain ⟨dep, inside, rfl⟩ := mem_map.mp mem
  exact ⟨(lines dep inside).fits, (lines dep inside).filled⟩

theorem validation_lt {validation : BitVec 32} (known : validation &&&
      ~~~(PkgValidation.none ||| PkgValidation.sha256sum ||| PkgValidation.signature) = 0) :
    validation.toNat < 2 ^ 4 := by
  have mask : PkgValidation.none ||| PkgValidation.sha256sum ||| PkgValidation.signature = 13 := by
    decide
  rw [mask] at known
  have inside : validation = validation &&& 13 :=
    calc validation = validation &&& (13 ||| ~~~13) := by rw [BitVec.or_not_self, BitVec.and_allOnes]
      _ = validation &&& 13 := by rw [BitVec.and_or_distrib_left, known]; exact BitVec.or_zero
  rw [inside, BitVec.toNat_and]
  exact Nat.lt_of_le_of_lt Nat.and_le_right (by decide)

theorem validation_reread {validation : BitVec 32} (known : validation &&&
      ~~~(PkgValidation.none ||| PkgValidation.sha256sum ||| PkgValidation.signature) = 0) :
    (validationLines validation).foldl (fun flags line => flags ||| (readValidation line).1) 0
      = validation ∧
    (validationLines validation).flatMap (fun line => (readValidation line).2) = [] := by
  -- no flag above the fourth one is set, so there are few words to look at
  obtain ⟨word, rfl⟩ : ∃ word : Fin (2 ^ 4), validation = BitVec.ofNat 32 word := by
    refine ⟨⟨validation.toNat, validation_lt known⟩, ?_⟩
    simp
  revert known
  revert word
  decide

theorem validationLines_fit (validation : BitVec 32) :
    ∀ line ∈ validationLines validation, FitsLine line ∧ line ≠ [] := by
  intro line mem
  have listed : line ∈ [cstr "none", cstr "sha256", cstr "pgp"] := by
    unfold validationLines at mem
    simp only [mem_append] at mem
    rcases mem with (first | second) | third
    · split at first <;> simp_all
    · split at second <;> simp_all
    · split at third <;> simp_all
  have fit : ∀ line ∈ [cstr "none", cstr "sha256", cstr "pgp"], FitsLine line ∧ line ≠ [] := by
    decide
  exact fit line listed

theorem pkgParseXdata_line {pd : Xdata} (named : 61 ∉ pd.name) :
    pkgParseXdata pd.line = some pd := by
  have line : pd.line = pd.name ++ 61 :: pd.value := by
    rw [Xdata.line, append_assoc]
    rfl
  rw [pkgParseXdata, line, memchr_append named]
  rfl

theorem storeXdata_lines {xdata : List Xdata} (named : ∀ pd ∈ xdata, 61 ∉ pd.name)
    (info : LocalPkg) :
    storeXdata (xdata.map Xdata.line) info = ({ info with xdata := info.xdata ++ xdata }, true) := by
  induction xdata generalizing info with
  | nil => simp [storeXdata]
  | cons pd xdata ih =>
    rw [map_cons, storeXdata, pkgParseXdata_line (named pd mem_cons_self)]
    dsimp only
    rw [ih fun other mem => named other (mem_cons_of_mem pd mem)]
    simp

theorem BlockField.copy_of_none {field : BlockField} (omitted : field.lines source = none)
    (untouched : Untouched (.block field) info) :
    DescSection.copy source info (.block field) = info := by
  cases field with
  | groups | license =>
    simp only [DescSection.copy, listLines_none omitted]
    exact untouched
  | replaces | depends | optdepends | conflicts | provides | xdata =>
    simp only [DescSection.copy, map_eq_nil_iff.mp (listLines_none omitted)]
    exact untouched
  | validation =>
    simp only [BlockField.lines, ite_eq_left_iff, reduceCtorEq, imp_false, not_not] at omitted
    simp only [DescSection.copy, omitted]
    exact untouched
  | makedepends | checkdepends => rfl

theorem BlockField.store_lines (recordable : Recordable source) {field : BlockField}
    {lines : List CStr} (written : field.lines source = some lines)
    (untouched : Untouched (.block field) info) : (∀ line ∈ lines, FitsLine line ∧ line ≠ []) ∧
      field.store lines info = (DescSection.copy source info (.block field), [], true) := by
  unfold Untouched at untouched
  cases field with
  | groups | license =>
    obtain rfl := listLines_some written
    refine ⟨fun line mem => recordable.lists line (by simp [mem]), ?_⟩
    conv_lhs => rw [← untouched]
    simp only [BlockField.store, DescSection.copy, LocalPkg.fresh, nil_append]
  | validation =>
    simp only [BlockField.lines, Option.ite_none_left_eq_some, Option.some.injEq] at written
    obtain ⟨_, rfl⟩ := written
    obtain ⟨flags, silent⟩ := validation_reread recordable.validation
    refine ⟨validationLines_fit source.validation, ?_⟩
    conv_lhs => rw [← untouched]
    simp only [BlockField.store, DescSection.copy, LocalPkg.fresh, flags, silent]
  | replaces | depends | optdepends | conflicts | provides =>
    obtain rfl := listLines_some written
    refine ⟨deps_fit fun dep mem => recordable.deps dep (by simp [mem]), ?_⟩
    conv_lhs => rw [← untouched]
    simp only [BlockField.store, DescSection.copy, LocalPkg.fresh, nil_append]
    rw [deps_reread]
    exact fun dep mem => recordable.deps dep (by simp [mem])
  | xdata =>
    obtain rfl := listLines_some written
    refine ⟨?_, ?_⟩
    · intro line mem
      obtain ⟨pd, inside, rfl⟩ := mem_map.mp mem
      refine ⟨(recordable.xdata pd inside).1, ?_⟩
      simp [Xdata.line, cstr]
    · conv_lhs => rw [← untouched]
      rw [BlockField.store, storeXdata_lines fun pd inside => (recordable.xdata pd inside).2]
      rfl
  | makedepends | checkdepends => cases written

theorem readDesc_write (recordable : Recordable source) {found : DescSection}
    (named : info.name = source.name ∧ info.version = source.version)
    (untouched : Untouched found info) (rest : CStr) :
    readDesc (.fopen (found.write source ++ rest)) info
      = readDesc (.fopen rest) (found.copy source info) := by
  cases found with
  | line field =>
    cases written : field.value source with
    | none =>
      rw [LineField.copy_of_none written untouched]
      simp only [DescSection.write, written, nil_append]
    | some value =>
      obtain ⟨fits, stored⟩ := LineField.store_value recordable written named
      simp only [DescSection.write, written]
      rw [readDesc_line field fits, stored]
      rfl
  | block field =>
    cases written : field.lines source with
    | none =>
      rw [BlockField.copy_of_none written untouched]
      simp only [DescSection.write, written, nil_append]
    | some lines =>
      obtain ⟨fits, stored⟩ := BlockField.store_lines recordable written untouched
      simp only [DescSection.write, written]
      rw [readDesc_block field fits rest info (by rw [stored]), stored]
      rfl

theorem DescSection.copy_named (found : DescSection) (source info : LocalPkg) :
    (found.copy source info).name = info.name ∧
      (found.copy source info).version = info.version := by
  rcases found with field | field <;> cases field <;> exact ⟨rfl, rfl⟩

def Unread (source : LocalPkg) : List DescSection → LocalPkg → Prop
  | [], _ => True
  | found :: later, info => Untouched found info ∧ Unread source later (found.copy source info)

theorem readDesc_sections (recordable : Recordable source) {sections : List DescSection}
    (named : info.name = source.name ∧ info.version = source.version)
    (unread : Unread source sections info) :
    readDesc (.fopen (sections.flatMap (DescSection.write source))) info
      = ⟨0, sections.foldl (DescSection.copy source) info, []⟩ := by
  induction sections generalizing info with
  | nil => exact readDesc_end info
  | cons found later ih =>
    have kept := found.copy_named source info
    rw [flatMap_cons, readDesc_write recordable named unread.1, foldl_cons]
    exact ih ⟨kept.1.trans named.1, kept.2.trans named.2⟩ unread.2

end Carry

def LocalPkg.recorded (info : LocalPkg) : LocalPkg :=
  { info with
    makedepends := []
    checkdepends := []
    files := []
    backup := []
    scriptlet := false
    infolevel := 0 }

theorem writeOrder_unread (info : LocalPkg) :
    Unread info writeOrder (.fresh info.name info.version) := by
  simp only [Unread, Untouched, writeOrder, DescSection.copy, LocalPkg.fresh, and_self]

theorem writeOrder_copies (info : LocalPkg) :
    writeOrder.foldl (DescSection.copy info) (.fresh info.name info.version) = info.recorded := by
  simp only [writeOrder, foldl_cons, foldl_nil, DescSection.copy, LocalPkg.fresh, LocalPkg.recorded]

theorem readDesc_descText {info : LocalPkg} (recordable : Recordable info) :
    readDesc (.fopen (descText info)) (.fresh info.name info.version) = ⟨0, info.recorded, []⟩ := by
  have named : (LocalPkg.fresh info.name info.version).name = info.name ∧
      (LocalPkg.fresh info.name info.version).version = info.version := ⟨rfl, rfl⟩
  rw [descText, readDesc_sections recordable named (writeOrder_unread info), writeOrder_copies]

theorem localDbWrite_desc {db : LocalStore} {info : LocalPkg}
    (written : (localDbWrite db info Infrq.desc).1 = 0) :
    (localDbWrite db info Infrq.desc).2 = { db with
      content := Function.update db.content (localDbPkgpath db info (cstr "desc"))
        (some (descText info)) } := by
  revert written
  unfold localDbWrite
  dsimp only
  rw [writePart_skipped (by decide : hasBit Infrq.desc Infrq.files = false)]
  split
  · intro failed
    cases failed
  · split
    · rename_i failed
      exact fun written => absurd written failed
    · exact fun _ => writePart_written (by decide) (not_not.mp ‹_›)

theorem localDbRead_desc {db : LocalStore} {info : LocalPkg} {text : CStr}
    (fresh : info.infolevel = 0)
    (content : db.content (localDbPkgpath db info (cstr "desc")) = some text)
    (read : (readDesc (.fopen text) info).ret = 0) : localDbRead db info Infrq.desc =
      { readDesc (.fopen text) info with info := { (readDesc (.fopen text) info).info with
          infolevel := (readDesc (.fopen text) info).info.infolevel ||| Infrq.desc } } := by
  have asked : (hasBit Infrq.desc Infrq.desc && !hasBit info.infolevel Infrq.desc) = true := by
    rw [fresh]
    decide
  rw [localDbRead, if_neg (by rw [fresh]; decide), if_neg (by rw [fresh]; decide)]
  dsimp only
  rw [readPart_found asked content read, if_neg (by simpa using read),
    readPart_skipped (by decide : hasBit Infrq.desc Infrq.files = false),
    if_neg (not_not.mpr rfl),
    readScriptlet_skipped (by decide : hasBit Infrq.desc Infrq.scriptlet = false),
    append_nil, read]

/-- The metadata of a package is read back as it was written. -/
theorem localDb_desc_roundtrip (db : LocalStore) (info : LocalPkg) (recordable : Recordable info)
    (written : (localDbWrite db info Infrq.desc).1 = 0) :
    let reading := localDbRead (localDbWrite db info Infrq.desc).2
      (.fresh info.name info.version) Infrq.desc
    reading.ret = 0 ∧ reading.messages = [] ∧
      reading.info = { info.recorded with infolevel := Infrq.desc } := by
  have stored := localDbWrite_desc written
  have content : (localDbWrite db info Infrq.desc).2.content (localDbPkgpath
      (localDbWrite db info Infrq.desc).2 (.fresh info.name info.version) (cstr "desc"))
      = some (descText info) := by
    rw [stored]
    exact Function.update_self _ _ _
  have text := readDesc_descText recordable
  have read := localDbRead_desc rfl content (by rw [text])
  rw [text] at read
  intro reading
  rw [show reading = _ from read]
  refine ⟨rfl, rfl, ?_⟩
  simp only [LocalPkg.recorded]
  rfl

def headerPkg : LocalPkg :=
  { LocalPkg.fresh (cstr "foo") (cstr "1-1") with
    desc := some (cstr "%DEPENDS%")
    url := some []
    builddate := -5
    isize := 4096
    reason := .depend
    groups := [cstr "base"]
    validation := PkgValidation.signature
    depends := [depFromString (cstr "bar>=2: for baz")]
    xdata := [⟨cstr "pkgtype", cstr "a=b"⟩] }

theorem localDb_desc_roundtrip_header :
    let db : LocalStore := ⟨cstr "local", cstr "/db/", true, fun _ => none, fun _ => true⟩
    let reading := localDbRead (localDbWrite db headerPkg Infrq.desc).2
      (.fresh (cstr "foo") (cstr "1-1")) Infrq.desc
    reading.ret = 0 ∧ reading.messages = [] ∧
      reading.info = { headerPkg with infolevel := Infrq.desc } := by
  have recordable : Recordable headerPkg :=
    { name := by decide
      version := by decide
      strings := by decide
      builddate := by decide
      installdate := by decide
      isize := by decide
      reason := by decide
      lists := by decide
      validation := by decide
      deps := by
        intro dep member
        have : dep = depFromString (cstr "bar>=2: for baz") := by
          simpa [headerPkg, LocalPkg.fresh] using member
        subst this
        exact ⟨⟨_, rfl⟩, by decide, by decide⟩
      xdata := by decide }
  intro db
  exact localDb_desc_roundtrip db headerPkg recordable rfl

end Dulge
