import Dulge.LocalDb
import Dulge.Lib.Template

/-! `strreplace` and the printing of packages after `--print-format`. The codes of the format are
replaced one after the other in the string as it has become, so the texts of fields already filled
in are searched for the codes that come later. The libraries under the fields (`strftime` with
`localtime`, `stat`) are functions of the configuration record. -/
namespace Dulge
open List

section Strreplace

/-- The first loop of `strreplace`: an occurrence is kept as the text behind it, `q + needlesz`.
The source does not end on an empty needle; on others `fuel` is the length of the text. -/
def occurrences (needle : CStr) : Nat → CStr → List CStr
  | 0, _ => []
  | fuel + 1, p =>
    match strstr needle p with
    | some behind => behind :: occurrences needle fuel behind
    | none => []

def copyReplaced (needlesz : Nat) (replace : CStr) : CStr → List CStr → CStr
  | p, [] => p
  | p, behind :: list =>
    p.take (p.length - (behind.length + needlesz)) ++ replace ++
      copyReplaced needlesz replace behind list

def strreplace (str needle : CStr) (replace : Option CStr) : CStr :=
  let list := occurrences needle str.length str
  if list = [] then str else copyReplaced needle.length (replace.getD []) str list

example : strreplace (cstr "a%nb%n") (cstr "%n") (some (cstr "%n-")) = cstr "a%n-b%n-" := by
  decide +kernel

theorem strstr_length {needle text behind : CStr} (found : strstr needle text = some behind) :
    behind.length + needle.length ≤ text.length := by
  induction text with
  | nil =>
    rw [strstr] at found
    split at found
    · rename_i empty
      cases found
      simp [empty]
    · cases found
  | cons c rest ih =>
    rw [strstr] at found
    split at found
    · rename_i here
      cases found
      rw [length_drop]
      have := here.length_le
      omega
    · have := ih found
      rw [length_cons]
      omega

theorem occurrences_nil {needle : CStr} (nonempty : needle ≠ []) (fuel : Nat) :
    occurrences needle fuel [] = [] := by
  cases fuel with
  | zero => rfl
  | succ fuel => rw [occurrences, strstr, if_neg nonempty]

theorem copyReplaced_skip {needle : CStr} {c : UInt8} {rest : CStr} (replace : CStr) (fuel : Nat)
    (other : ¬ needle <+: c :: rest) :
    copyReplaced needle.length replace (c :: rest) (occurrences needle fuel (c :: rest))
      = c :: copyReplaced needle.length replace rest (occurrences needle fuel rest) := by
  cases fuel with
  | zero => rfl
  | succ fuel =>
    have next : strstr needle (c :: rest) = strstr needle rest := by rw [strstr, if_neg other]
    rw [occurrences, occurrences, next]
    cases found : strstr needle rest with
    | none => rfl
    | some behind =>
      have fits := strstr_length found
      have count : (c :: rest).length - (behind.length + needle.length)
          = rest.length - (behind.length + needle.length) + 1 := by
        rw [length_cons]
        omega
      simp only [copyReplaced, count, take_succ_cons, cons_append]

theorem copyReplaced_here {needle text : CStr} (nonempty : needle ≠ []) (replace : CStr)
    (fuel : Nat) :
    copyReplaced needle.length replace (needle ++ text)
      (occurrences needle (fuel + 1) (needle ++ text))
      = replace ++ copyReplaced needle.length replace text (occurrences needle fuel text) := by
  have found : strstr needle (needle ++ text) = some text := by
    obtain ⟨c, rest, rfl⟩ := exists_cons_of_ne_nil nonempty
    rw [cons_append, strstr, ← cons_append, if_pos (prefix_append _ _), drop_left]
  have atOnce : (needle ++ text).length - (text.length + needle.length) = 0 := by
    rw [length_append]
    omega
  rw [occurrences, found]
  simp only [copyReplaced, atOnce, take_zero, nil_append]

theorem copyReplaced_occurrences {needle : CStr} (nonempty : needle ≠ []) (replace text : CStr)
    {fuel : Nat} (enough : text.length ≤ fuel) :
    copyReplaced needle.length replace text (occurrences needle fuel text)
      = Template.replaceAll needle replace text := by
  fun_induction Template.replaceAll needle replace text generalizing fuel with
  | case1 => rw [occurrences_nil nonempty, copyReplaced]
  | case2 a rest here ih =>
    obtain ⟨-, behind, shape⟩ := here
    obtain ⟨fuel, rfl⟩ : ∃ less, fuel = less + 1 :=
      Nat.exists_eq_add_one.mpr (Nat.lt_of_lt_of_le (Nat.succ_pos _) enough)
    have filled := length_pos_iff.mpr nonempty
    have shorter := congrArg List.length shape
    rw [length_append] at shorter
    rw [← shape, drop_left] at ih ⊢
    rw [copyReplaced_here nonempty, ih (by omega)]
  | case3 a rest other ih =>
    rw [copyReplaced_skip replace fuel fun here => other ⟨nonempty, here⟩,
      ih (Nat.le_of_succ_le enough)]

theorem strreplace_eq {needle : CStr} (nonempty : needle ≠ []) (str : CStr) (replace : Option CStr) :
    strreplace str needle replace = Template.replaceAll needle (replace.getD []) str := by
  rw [← copyReplaced_occurrences nonempty _ str le_rfl]
  unfold strreplace
  dsimp only
  split
  · rename_i empty
    rw [empty, copyReplaced]
  · rfl

theorem strreplace_code (mark c : UInt8) (str : CStr) (replace : Option CStr) :
    strreplace str [mark, c] replace = Template.replace mark c (replace.getD []) str := by
  rw [strreplace_eq (cons_ne_nil _ _), Template.replaceAll_code]

end Strreplace

section Fields

/-- The operations of which `pkg_get_size` tells apart `PM_OP_SYNC` and `PM_OP_UPGRADE`. -/
inductive PmOp where
  | main | remove | upgrade | query | sync | deptest | database | files
  deriving DecidableEq

/-- What `print_packages` reads from the configuration, its handle and the system. -/
structure PrintConfig where
  printFormat : Option CStr
  op : PmOp
  cachedirs : List CStr
  /-- `stat` succeeds and finds a regular file -/
  isRegular : CStr → Bool
  /-- `strftime` with `%c` on the `localtime` of a date, in 50 bytes -/
  strftime : Int → CStr

/-- What `print_packages` reads from the database of a package. -/
structure PrintDb where
  name : CStr
  servers : List CStr

/-- What `print_packages` reads from a package, and what the getters of the library answer for it.
A package that is not installed has a file name. -/
structure PrintPkg where
  arch : Option CStr
  builddate : Int
  desc : Option CStr
  base : Option CStr
  filename : Option CStr
  base64Sig : Option CStr
  sha256sum : Option CStr
  name : CStr
  packager : Option CStr
  version : CStr
  origin : Pkgfrom
  db : Option PrintDb
  downloadSize : Int
  size : Int
  isize : Int
  url : Option CStr
  checkdepends : List Depend
  depends : List Depend
  groups : List CStr
  conflicts : List Depend
  makedepends : List Depend
  optdepends : List Depend
  provides : List Depend
  replaces : List Depend
  licenses : List CStr
  named : origin ≠ .localdb → filename.isSome = true

def concatList {α : Type} (lst : List α) (fn : α → CStr) : CStr :=
  (lst.foldl (fun tmp i =>
    match tmp with
    | some tmp => some (tmp ++ cstr " " ++ fn i)
    | none => some (fn i)) none).getD []

def pkgGetSize (config : PrintConfig) (pkg : PrintPkg) : Int :=
  match config.op with
  | .sync => pkg.downloadSize
  | .upgrade => pkg.size
  | _ => pkg.isize

/-- The path `snprintf` leaves of a cached file. -/
def cachedPath (pkgfile dir : CStr) : CStr := (dir ++ pkgfile).take (pathMax - 1)

def pkgGetLocation (config : PrintConfig) (pkg : PrintPkg) : CStr :=
  let pkgfile := pkg.filename.getD []
  let servers := (pkg.db.map PrintDb.servers).getD []
  match pkg.origin with
  | .syncdb =>
    let cached :=
      if pkg.downloadSize = 0 then (config.cachedirs.map (cachedPath pkgfile)).find? config.isRegular
      else none
    match cached, servers with
    | some path, _ => cstr "file://" ++ path
    | none, server :: _ => server ++ cstr "/" ++ pkgfile
    -- a repository without servers
    | none, [] => pkgfile
  | .file => pkgfile
  | .localdb => pkg.name ++ cstr "-" ++ pkg.version

/-- A code of the format without its percent sign, and the string given to `strreplace` for it. -/
def printCode (letter : Char) (value : Option CStr) : UInt8 × Option CStr :=
  (UInt8.ofNat letter.toNat, value)

/-- The codes in the order in which they are replaced. A build date of -1 is none, and its code
stays. -/
def printCodes (config : PrintConfig) (pkg : PrintPkg) : List (UInt8 × Option CStr) :=
  [printCode 'a' (some (pkg.arch.getD []))] ++
  (if pkg.builddate ≠ -1 then [printCode 'b' (some (config.strftime pkg.builddate))] else []) ++
  [ printCode 'd' pkg.desc, printCode 'e' pkg.base, printCode 'f' pkg.filename,
    printCode 'g' pkg.base64Sig,
    printCode 'h' pkg.sha256sum,
    printCode 'n' (some pkg.name),
    printCode 'p' pkg.packager,
    printCode 'v' (some pkg.version),
    printCode 'l' (some (pkgGetLocation config pkg)),
    printCode 'r' (some ((pkg.db.map PrintDb.name).getD (cstr "local"))),
    printCode 's' (some (signedDecimal (pkgGetSize config pkg))),
    printCode 'u' pkg.url,
    printCode 'C' (some (concatList pkg.checkdepends depComputeString)),
    printCode 'D' (some (concatList pkg.depends depComputeString)),
    printCode 'G' (some (concatList pkg.groups id)),
    printCode 'H' (some (concatList pkg.conflicts depComputeString)),
    printCode 'M' (some (concatList pkg.makedepends depComputeString)),
    printCode 'O' (some (concatList pkg.optdepends depComputeString)),
    printCode 'P' (some (concatList pkg.provides depComputeString)),
    printCode 'R' (some (concatList pkg.replaces depComputeString)),
    printCode 'L' (some (concatList pkg.licenses id)) ]

end Fields

section Printing

def percent : UInt8 := 37

/-- One use of `PRINT_FORMAT_STRING`, `PRINT_FORMAT_LIST` or of the lines like them. -/
def printField (temp : CStr) (code : UInt8 × Option CStr) : CStr :=
  if (strstr [percent, code.1] temp).isSome then strreplace temp [percent, code.1] code.2 else temp

def printPackage (config : PrintConfig) (format : CStr) (pkg : PrintPkg) : CStr :=
  (printCodes config pkg).foldl printField format ++ [newline]

/-- The format in use: `%l` if none was given. -/
def PrintConfig.format (config : PrintConfig) : CStr := config.printFormat.getD (cstr "%l")

/-- `print_packages`, with what it prints: one line for each package. -/
def printPackages (config : PrintConfig) (packages : List PrintPkg) : PrintConfig × List CStr :=
  let config := { config with printFormat := some config.format }
  (config, packages.map (printPackage config config.format))

/-- The codes that stand for a field of the package, with the text of the field; a field that
is not there is empty. -/
def fieldTexts (config : PrintConfig) (pkg : PrintPkg) : List (UInt8 × CStr) :=
  (printCodes config pkg).map fun code => (code.1, code.2.getD [])

def formatPieces (config : PrintConfig) (pkg : PrintPkg) : List (Template.Piece UInt8) :=
  Template.parse percent (fun c => ((fieldTexts config pkg).lookup c).isSome) config.format

def literalLine (config : PrintConfig) (pkg : PrintPkg) : CStr :=
  Template.substitute percent (fieldTexts config pkg) config.format ++ [newline]

/-- In none of its steps does `print_packages` take text of a field, or bytes of the format that
only the fields brought together, for a code. -/
def OnlyCodesReplaced (config : PrintConfig) (pkg : PrintPkg) : Prop :=
  Template.Unmistaken percent (Template.replaceIn percent) (fieldTexts config pkg)
    (formatPieces config pkg)

/-- Whenever the codes before a code are filled in, no percent sign of plain text or of a field
stands in front of that code's letter. -/
def FieldsApart (config : PrintConfig) (pkg : PrintPkg) : Prop :=
  Template.Unmistaken percent Template.fill (fieldTexts config pkg) (formatPieces config pkg)

theorem strstr_isNone_replace (c : UInt8) (value text : CStr)
    (absent : strstr [percent, c] text = none) : Template.replace percent c value text = text := by
  have same := strreplace_code percent c text (some value)
  rw [Option.getD_some] at same
  rw [← same, strreplace]
  have nothing : occurrences [percent, c] text.length text = [] := by
    cases text with
    | nil => rfl
    | cons a rest => rw [length_cons, occurrences, absent]
  rw [nothing]
  rfl

theorem printField_eq (temp : CStr) (code : UInt8 × Option CStr) :
    printField temp code = Template.replace percent code.1 (code.2.getD []) temp := by
  unfold printField
  split
  · exact strreplace_code percent code.1 temp code.2
  · rename_i absent
    exact (strstr_isNone_replace code.1 _ temp (by simpa using absent)).symm

theorem printPackage_eq (config : PrintConfig) (pkg : PrintPkg) :
    printPackage config config.format pkg
      = (fieldTexts config pkg).foldl
        (fun text entry => Template.replace percent entry.1 entry.2 text)
          config.format ++ [newline] := by
  rw [printPackage, fieldTexts, foldl_map, funext₂ printField_eq]

theorem fieldTexts_ne_percent (config : PrintConfig) (pkg : PrintPkg) :
    ∀ entry ∈ fieldTexts config pkg, entry.1 ≠ percent := by
  have letters : ∀ letter ∈ (fieldTexts config pkg).map Prod.fst, letter ≠ percent := by
    unfold fieldTexts printCodes
    split
    all_goals
      simp only [printCode, cons_append, nil_append, map_cons, map_nil]
      decide +kernel
  intro entry mem
  exact letters entry.1 (mem_map_of_mem mem)

theorem printPackage_of_fieldsApart {config : PrintConfig} {pkg : PrintPkg}
    (apart : FieldsApart config pkg) :
    printPackage config config.format pkg = literalLine config pkg := by
  rw [printPackage_eq, literalLine,
    Template.foldl_replace_eq_substitute (fieldTexts_ne_percent config pkg) config.format apart]

/-- Every line is the format with its codes filled in by one scan, and nothing else was replaced on
the way, exactly if the fields stay apart from the codes. -/
theorem printPackages_literal_iff (config : PrintConfig) (packages : List PrintPkg) :
    ((printPackages config packages).2 = packages.map (literalLine config) ∧
        ∀ pkg ∈ packages, OnlyCodesReplaced config pkg) ↔
      ∀ pkg ∈ packages, FieldsApart config pkg := by
  constructor
  · rintro ⟨_, only⟩ pkg member
    exact (Template.unmistaken_iff _ _).mp (only pkg member)
  · intro apart
    refine ⟨map_congr_left fun pkg member => ?_, fun pkg member => ?_⟩
    · exact printPackage_of_fieldsApart (apart pkg member)
    · exact (Template.unmistaken_iff _ _).mpr (apart pkg member)

def describedPkg (name version desc : CStr) : PrintPkg where
  arch := none
  builddate := 0
  desc := some desc
  base := none
  filename := none
  base64Sig := none
  sha256sum := none
  name := name
  packager := none
  version := version
  origin := .localdb
  db := none
  downloadSize := 0
  size := 0
  isize := 0
  url := none
  checkdepends := []
  depends := []
  groups := []
  conflicts := []
  makedepends := []
  optdepends := []
  provides := []
  replaces := []
  licenses := []
  named := fun other => absurd rfl other

def queryFormat (format : CStr) : PrintConfig where
  printFormat := some format
  op := .query
  cachedirs := []
  isRegular := fun _ => false
  strftime := fun _ => []

/-- The description of a package is read for codes: its percent sign brings in the name. -/
theorem printPackages_description_read :
    (printPackages (queryFormat (cstr "%d"))
      [describedPkg (cstr "foo") (cstr "1-1") (cstr "100%nice")]).2
        = [cstr "100fooice\n"] ∧
      literalLine (queryFormat (cstr "%d")) (describedPkg (cstr "foo") (cstr "1-1") (cstr "100%nice"))
        = cstr "100%nice\n" := by
  decide +kernel

end Printing

end Dulge
