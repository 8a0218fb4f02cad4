import Dulge.PackageValidation
import Dulge.Lib.BitEdit

/-! The signature levels of `conf.c`. A `SigLevel` line sets and unsets bits of a level and records
in a mask which ones; the levels of repositories are laid over the global level when the whole
configuration is read. -/

namespace Dulge
open BitEdit

namespace Siglevel

def database : BitVec 32 := 1 <<< 10
def databaseOptional : BitVec 32 := 1 <<< 11
def databaseMarginalOk : BitVec 32 := 1 <<< 12
def databaseUnknownOk : BitVec 32 := 1 <<< 13
def useDefault : BitVec 32 := 1 <<< 30

end Siglevel

/-- What `conf.c` reports about a line of a configuration file. -/
inductive ConfMessage where
  | unreadable (file : CStr)
  | noSection (file : CStr) (linenum : Nat)
  | maxRecursion (depth : Nat)
  | needsValue (file : CStr) (linenum : Nat) (key : CStr)
  | unrecognized (file : CStr) (linenum : Nat) (key sectionName : CStr)
  | invalidValue (file : CStr) (linenum : Nat) (key value : CStr)
  | notRecognized (file : CStr) (linenum : Nat) (key value : CStr)
  | notPositive (file : CStr) (linenum : Nat) (key value : CStr)
  | tooLarge (file : CStr) (linenum : Nat) (key value : CStr)
  | noSignatureSupport (file : CStr) (linenum : Nat) (key : CStr)
  | unresolved (key path : CStr)
  deriving DecidableEq

structure StoredSiglevel where
  level : BitVec 32
  mask : BitVec 32
  deriving DecidableEq

namespace StoredSiglevel

def slset (sl : BitVec 32) (s : StoredSiglevel) : StoredSiglevel := ⟨s.level ||| sl, s.mask ||| sl⟩

def slunset (sl : BitVec 32) (s : StoredSiglevel) : StoredSiglevel :=
  ⟨s.level &&& ~~~sl, s.mask ||| sl⟩

end StoredSiglevel

def forScope (package database : Bool) (ofPackage ofDatabase : StoredSiglevel → StoredSiglevel)
    (s : StoredSiglevel) : StoredSiglevel :=
  let s := if package then ofPackage s else s
  if database then ofDatabase s else s

open StoredSiglevel in
/-- The flag of a value, for packages and for databases as its front said; `none` if there is no
such flag. -/
def siglevelFlag (value : CStr) (package database : Bool) (s : StoredSiglevel) :
    Option StoredSiglevel :=
  if strcmp value (cstr "Never") = 0 then
    some (forScope package database (slunset Siglevel.package) (slunset Siglevel.database) s)
  else if strcmp value (cstr "Optional") = 0 then
    some (forScope package database (slset (Siglevel.package ||| Siglevel.packageOptional))
      (slset (Siglevel.database ||| Siglevel.databaseOptional)) s)
  else if strcmp value (cstr "Required") = 0 then
    some (forScope package database
      (fun s => slunset Siglevel.packageOptional (slset Siglevel.package s))
      (fun s => slunset Siglevel.databaseOptional (slset Siglevel.database s)) s)
  else if strcmp value (cstr "TrustedOnly") = 0 then
    some (forScope package database
      (slunset (Siglevel.packageMarginalOk ||| Siglevel.packageUnknownOk))
      (slunset (Siglevel.databaseMarginalOk ||| Siglevel.databaseUnknownOk)) s)
  else if strcmp value (cstr "TrustAll") = 0 then
    some (forScope package database
      (slset (Siglevel.packageMarginalOk ||| Siglevel.packageUnknownOk))
      (slset (Siglevel.databaseMarginalOk ||| Siglevel.databaseUnknownOk)) s)
  else none

/-- A value with its front `Package` or `Database`, if it has one. -/
def siglevelValue (original : CStr) (s : StoredSiglevel) : Option StoredSiglevel :=
  if strncmp original (cstr "Package") (cstr "Package").length = 0 then
    siglevelFlag (original.drop (cstr "Package").length) true false s
  else if strncmp original (cstr "Database") (cstr "Database").length = 0 then
    siglevelFlag (original.drop (cstr "Database").length) false true s
  else siglevelFlag original true true s

/-- What the loop of `process_siglevel` carries. -/
structure SiglevelRun where
  stored : StoredSiglevel
  ret : Int
  log : List ConfMessage
  deriving DecidableEq

/-- One turn of the loop. The level stops being the default one even if the value is invalid. -/
def siglevelTurn (file : CStr) (linenum : Nat) (run : SiglevelRun) (original : CStr) : SiglevelRun :=
  let run :=
    match siglevelValue original run.stored with
    | some stored => { run with stored }
    | none => { run with
        ret := 1
        log := run.log ++ [ConfMessage.invalidValue file linenum (cstr "SigLevel") original] }
  { run with stored := ⟨run.stored.level &&& ~~~Siglevel.useDefault, run.stored.mask⟩ }

/-- `process_siglevel`; `signatures` says whether the library can check signatures -/
def processSiglevel (signatures : Bool) (values : List CStr) (storage : StoredSiglevel)
    (file : CStr) (linenum : Nat) : SiglevelRun :=
  let run := values.foldl (siglevelTurn file linenum) ⟨storage, 0, []⟩
  let run :=
    if !signatures && hasBit run.stored.level (Siglevel.package ||| Siglevel.database) then
      { run with
        ret := 1
        log := run.log ++ [ConfMessage.noSignatureSupport file linenum (cstr "SigLevel")] }
    else run
  if run.ret = 0 then run else { run with stored := storage }

def mergeSiglevel (base overriding mask : BitVec 32) : BitVec 32 :=
  if mask ≠ 0 then (overriding &&& mask) ||| (base &&& ~~~mask) else overriding

/-! ### Values as edits -/

def StoredSiglevel.edit (e : Edit 32) (s : StoredSiglevel) : StoredSiglevel :=
  ⟨e.on s.level, s.mask ||| e.mask⟩

theorem StoredSiglevel.edit_edit (e f : Edit 32) (s : StoredSiglevel) :
    (s.edit e).edit f = s.edit (e.andThen f) := by
  simp only [edit, Edit.andThen_on, BitVec.or_assoc]
  rfl

theorem StoredSiglevel.edit_set (sl : BitVec 32) (s : StoredSiglevel) :
    s.slset sl = s.edit (.set sl) := by
  simp only [slset, edit, Edit.set_on]
  rfl

theorem StoredSiglevel.edit_unset (sl : BitVec 32) (s : StoredSiglevel) :
    s.slunset sl = s.edit (.unset sl) := by
  simp only [slunset, edit, Edit.unset_on]
  rfl

structure Deciding (e : Edit 32) : Prop where
  some : e.mask ≠ 0
  spares : e.mask &&& Siglevel.useDefault = 0

theorem Deciding.andThen {e f : Edit 32} (first : Deciding e) (second : Deciding f) :
    Deciding (e.andThen f) where
  some none := first.some (BitVec.or_eq_zero_iff.mp none).1
  spares := by
    have both : (e.andThen f).mask &&& Siglevel.useDefault =
        (e.mask &&& Siglevel.useDefault) ||| (f.mask &&& Siglevel.useDefault) :=
          BitVec.and_or_distrib_right
    rw [both, first.spares, second.spares]
    rfl

def Edits (change : StoredSiglevel → StoredSiglevel) : Prop :=
  ∃ e, Deciding e ∧ ∀ s, change s = s.edit e

theorem edits_slset (sl : BitVec 32) (some : sl ≠ 0) (spares : sl &&& Siglevel.useDefault = 0) :
    Edits (StoredSiglevel.slset sl) := ⟨.set sl, ⟨some, spares⟩, StoredSiglevel.edit_set sl⟩

theorem edits_slunset (sl : BitVec 32) (some : sl ≠ 0) (spares : sl &&& Siglevel.useDefault = 0) :
    Edits (StoredSiglevel.slunset sl) := ⟨.unset sl, ⟨some, spares⟩, StoredSiglevel.edit_unset sl⟩

theorem Edits.andThen {first second : StoredSiglevel → StoredSiglevel} (he : Edits first)
    (hf : Edits second) : Edits fun s => second (first s) := by
  obtain ⟨e, deciding, isEdit⟩ := he
  obtain ⟨f, deciding', isEdit'⟩ := hf
  refine ⟨e.andThen f, deciding.andThen deciding', ?_⟩
  intro s
  show second (first s) = _
  rw [isEdit, isEdit', StoredSiglevel.edit_edit]

theorem Edits.forScope {ofPackage ofDatabase : StoredSiglevel → StoredSiglevel}
    (he : Edits ofPackage) (hf : Edits ofDatabase) {package database : Bool}
    (one : package = true ∨ database = true) :
    Edits (forScope package database ofPackage ofDatabase) := by
  cases package with
  | false =>
    cases database with
    | false => simp at one
    | true => exact hf
  | true =>
    cases database with
    | false => exact he
    | true => exact he.andThen hf

def EditsOrRefuses (step : StoredSiglevel → Option StoredSiglevel) : Prop :=
  (∀ s, step s = none) ∨ ∃ e, Deciding e ∧ ∀ s, step s = some (s.edit e)

theorem Edits.accepted {change : StoredSiglevel → StoredSiglevel} (edits : Edits change) :
    EditsOrRefuses fun s => some (change s) := by
  obtain ⟨e, deciding, isEdit⟩ := edits
  exact .inr ⟨e, deciding, fun s => congrArg some (isEdit s)⟩

theorem siglevelFlag_edits {package database : Bool} (one : package = true ∨ database = true)
    (value : CStr) : EditsOrRefuses (siglevelFlag value package database) := by
  unfold siglevelFlag
  split_ifs with never optional required trustedOnly trustAll
  · exact (Edits.forScope (edits_slunset _ (by decide) (by decide))
      (edits_slunset _ (by decide) (by decide)) one).accepted
  · exact (Edits.forScope (edits_slset _ (by decide) (by decide))
      (edits_slset _ (by decide) (by decide)) one).accepted
  · have package := (edits_slset Siglevel.package (by decide) (by decide)).andThen
      (edits_slunset Siglevel.packageOptional (by decide) (by decide))
    have database := (edits_slset Siglevel.database (by decide) (by decide)).andThen
      (edits_slunset Siglevel.databaseOptional (by decide) (by decide))
    exact (package.forScope database one).accepted
  · exact (Edits.forScope (edits_slunset _ (by decide) (by decide))
      (edits_slunset _ (by decide) (by decide)) one).accepted
  · exact (Edits.forScope (edits_slset _ (by decide) (by decide))
      (edits_slset _ (by decide) (by decide)) one).accepted
  · exact .inl fun _ => rfl

theorem siglevelValue_edits (original : CStr) : EditsOrRefuses (siglevelValue original) := by
  unfold siglevelValue
  split_ifs with package database
  · exact siglevelFlag_edits (.inl rfl) _
  · exact siglevelFlag_edits (.inr rfl) _
  · exact siglevelFlag_edits (.inl rfl) _

def undefault (level : BitVec 32) : BitVec 32 := level &&& ~~~Siglevel.useDefault

theorem undefault_of_spares {level : BitVec 32} (spares : level &&& Siglevel.useDefault = 0) :
    undefault level = level := by
  have whole : level = (level &&& Siglevel.useDefault) ||| (level &&& ~~~Siglevel.useDefault) := by
    rw [← BitVec.and_or_distrib_left, BitVec.or_not_self, BitVec.and_allOnes]
  have none : level &&& Siglevel.useDefault = 0#32 := spares
  rw [none, BitVec.zero_or] at whole
  exact whole.symm

theorem Deciding.undefault_on {e : Edit 32} (deciding : Deciding e) (level : BitVec 32) :
    undefault (e.on level) = e.on (undefault level) := by
  ext i hi
  have bit := congrArg (fun word : BitVec 32 => word[i]) deciding.spares
  simp only [BitVec.getElem_and] at bit
  simp only [undefault, BitVec.getElem_and, BitVec.getElem_not, Edit.on_bit]
  cases touched : e.mask[i] with
  | false => simp
  | true =>
    rw [touched, Bool.true_and] at bit
    simp [bit]

def StoredSiglevel.decided (e : Edit 32) (s : StoredSiglevel) : StoredSiglevel :=
  ⟨e.on (undefault s.level), s.mask ||| e.mask⟩

theorem StoredSiglevel.decided_decided {e f : Edit 32} (deciding : Deciding e) (s : StoredSiglevel) :
    (s.decided e).decided f = s.decided (e.andThen f) := by
  have once : undefault (undefault s.level) = undefault s.level := by
    rw [undefault, undefault, BitVec.and_assoc, BitVec.and_self]
  simp only [decided, deciding.undefault_on, once, Edit.andThen_on, BitVec.or_assoc]
  rfl

theorem siglevelTurn_cases (original : CStr) :
    (∀ file linenum run, (siglevelTurn file linenum run original).ret = 1) ∨
      ∃ e, Deciding e ∧ ∀ file linenum run,
        siglevelTurn file linenum run original = { run with stored := run.stored.decided e } := by
  rcases siglevelValue_edits original with refused | ⟨e, deciding, accepted⟩
  · left
    intro file linenum run
    simp only [siglevelTurn, refused]
  · right
    refine ⟨e, deciding, ?_⟩
    intro file linenum run
    have moved : e.on run.stored.level &&& ~~~Siglevel.useDefault =
        e.on (undefault run.stored.level) :=
      deciding.undefault_on run.stored.level
    simp only [siglevelTurn, accepted, StoredSiglevel.edit, StoredSiglevel.decided, moved]

theorem siglevelTurn_failed (file : CStr) (linenum : Nat) {run : SiglevelRun} (failed : run.ret = 1)
    (values : List CStr) : (values.foldl (siglevelTurn file linenum) run).ret = 1 := by
  induction values generalizing run with
  | nil => exact failed
  | cons original values ih =>
    apply ih
    rcases siglevelTurn_cases original with refused | ⟨e, -, accepted⟩
    · exact refused file linenum run
    · rw [accepted]
      exact failed

theorem foldl_siglevelTurn_cases (values : List CStr) :
    (∀ file linenum run, (values.foldl (siglevelTurn file linenum) run).ret = 1) ∨ values = [] ∨
      ∃ e, Deciding e ∧ ∀ file linenum run,
        values.foldl (siglevelTurn file linenum) run =
          { run with stored := run.stored.decided e } := by
  induction values with
  | nil => exact .inr (.inl rfl)
  | cons original values ih =>
    rcases siglevelTurn_cases original with refused | ⟨e, deciding, accepted⟩
    · left
      intro file linenum run
      exact siglevelTurn_failed file linenum (refused file linenum run) values
    · rcases ih with refused | rfl | ⟨f, deciding', accepted'⟩
      · exact .inl fun file linenum run => refused file linenum _
      · exact .inr (.inr ⟨e, deciding, accepted⟩)
      · refine .inr (.inr ⟨e.andThen f, deciding.andThen deciding', ?_⟩)
        intro file linenum run
        rw [List.foldl_cons, accepted, accepted', StoredSiglevel.decided_decided deciding]

theorem processSiglevel_cases (values : List CStr) :
    (∀ s file linenum, (processSiglevel true values s file linenum).ret ≠ 0) ∨
      (values = [] ∧ ∀ s file linenum, processSiglevel true values s file linenum = ⟨s, 0, []⟩) ∨
      ∃ e, Deciding e ∧ ∀ s file linenum,
        processSiglevel true values s file linenum = ⟨s.decided e, 0, []⟩ := by
  rcases foldl_siglevelTurn_cases values with refused | rfl | ⟨e, deciding, accepted⟩
  · left
    intro s file linenum
    simp [processSiglevel, refused]
  · exact .inr (.inl ⟨rfl, fun _ _ _ => rfl⟩)
  · refine .inr (.inr ⟨e, deciding, ?_⟩)
    intro s file linenum
    simp [processSiglevel, accepted]

/-! ### Sequences of lines -/

/-- A `SigLevel` line with the values it has. -/
structure SiglevelLine where
  file : CStr
  linenum : Nat
  values : List CStr

/-- Lines one after the other; `none` if one of them is refused. -/
def processLines (signatures : Bool) : List SiglevelLine → StoredSiglevel → Option StoredSiglevel
  | [], s => some s
  | line :: lines, s =>
    let run := processSiglevel signatures line.values s line.file line.linenum
    if run.ret = 0 then processLines signatures lines run.stored else none

theorem processLines_cases (lines : List SiglevelLine) : (∀ s, processLines true lines s = none) ∨
      (lines.flatMap SiglevelLine.values = [] ∧ ∀ s, processLines true lines s = some s) ∨
      ∃ e, Deciding e ∧ ∀ s, processLines true lines s = some (s.decided e) := by
  induction lines with
  | nil => exact .inr (.inl ⟨rfl, fun _ => rfl⟩)
  | cons line lines ih =>
    rcases processSiglevel_cases line.values with refused | ⟨empty, kept⟩ | ⟨e, deciding, accepted⟩
    · exact .inl fun s => if_neg (refused s line.file line.linenum)
    · have same : ∀ s, processLines true (line :: lines) s = processLines true lines s := by
        intro s
        simp only [processLines, kept, if_true]
      rw [List.flatMap_cons, empty, List.nil_append]
      simpa only [same] using ih
    · have step : ∀ s, processLines true (line :: lines) s =
          processLines true lines (s.decided e) := by
        intro s
        simp only [processLines, accepted, if_true]
      rcases ih with refused | ⟨-, kept⟩ | ⟨f, deciding', accepted'⟩
      · exact .inl fun s => (step s).trans (refused _)
      · exact .inr (.inr ⟨e, deciding, fun s => (step s).trans (kept _)⟩)
      · refine .inr (.inr ⟨e.andThen f, deciding.andThen deciding', ?_⟩)
        intro s
        rw [step, accepted', StoredSiglevel.decided_decided deciding]

theorem mergeSiglevel_decided {e : Edit 32} (deciding : Deciding e) (base : BitVec 32)
    (s : StoredSiglevel) : mergeSiglevel base (s.decided e).level e.mask = e.on base := by
  rw [mergeSiglevel, if_pos deciding.some]
  exact e.overlay_on _ base

inductive SiglevelSection where
  | options | repo
  deriving DecidableEq

structure SiglevelConf where
  options : StoredSiglevel
  repo : StoredSiglevel

def readLines (signatures : Bool) :
    List (SiglevelSection × SiglevelLine) → SiglevelConf → Option SiglevelConf
  | [], c => some c
  | (.options, line) :: lines, c =>
    let run := processSiglevel signatures line.values c.options line.file line.linenum
    if run.ret = 0 then readLines signatures lines { c with options := run.stored } else none
  | (.repo, line) :: lines, c =>
    let run := processSiglevel signatures line.values c.repo line.file line.linenum
    if run.ret = 0 then readLines signatures lines { c with repo := run.stored } else none

/-- The level of the repository after `setdefaults`. -/
def SiglevelConf.effective (c : SiglevelConf) : BitVec 32 :=
  mergeSiglevel c.options.level c.repo.level c.repo.mask

def linesOf (which : SiglevelSection) (lines : List (SiglevelSection × SiglevelLine)) :
    List SiglevelLine := (lines.filter (·.1 = which)).map Prod.snd

theorem linesOf_cons (which : SiglevelSection) (line : SiglevelSection × SiglevelLine)
    (lines : List (SiglevelSection × SiglevelLine)) : linesOf which (line :: lines) =
      if line.1 = which then line.2 :: linesOf which lines else linesOf which lines := by
  rw [linesOf, List.filter_cons]
  split_ifs with same same'
  · rfl
  · simp [same'] at same
  · simp_all
  · rfl

theorem readLines_eq (signatures : Bool) (lines : List (SiglevelSection × SiglevelLine))
    (c : SiglevelConf) : readLines signatures lines c =
      (processLines signatures (linesOf .options lines) c.options).bind fun options =>
        (processLines signatures (linesOf .repo lines) c.repo).map fun repo => ⟨options, repo⟩ := by
  induction lines generalizing c with
  | nil => rfl
  | cons line lines ih =>
    obtain ⟨which, line⟩ := line
    cases which with
    | options =>
      simp only [readLines, linesOf_cons, if_true, reduceCtorEq, if_false, processLines]
      split_ifs with accepted
      · exact ih _
      · rfl
    | repo =>
      simp only [readLines, linesOf_cons, if_true, reduceCtorEq, if_false, processLines]
      split_ifs with accepted
      · exact ih _
      · cases processLines signatures (linesOf .options lines) c.options <;> rfl

/-- Deferred levels mean what they would mean directly, in whatever order the sections come. -/
theorem siglevel_deferred {base : BitVec 32} (spares : base &&& Siglevel.useDefault = 0)
    {lines : List SiglevelLine} (valued : lines.flatMap SiglevelLine.values ≠ [])
    {deferred : StoredSiglevel}
    (accepted : processLines true lines ⟨Siglevel.useDefault, 0⟩ = some deferred) :
    (∀ mask, ∃ direct, processLines true lines ⟨base, mask⟩ = some direct ∧
      mergeSiglevel base deferred.level deferred.mask = direct.level) ∧
    ∀ first second c, linesOf .options first = linesOf .options second →
      linesOf .repo first = linesOf .repo second →
      (readLines true first c).map SiglevelConf.effective =
        (readLines true second c).map SiglevelConf.effective := by
  constructor
  · intro mask
    rcases processLines_cases lines with refused | ⟨empty, -⟩ | ⟨e, deciding, decides⟩
    · rw [refused] at accepted
      cases accepted
    · exact absurd empty valued
    · rw [decides] at accepted
      cases accepted
      refine ⟨_, decides _, ?_⟩
      have decided : (0#32 ||| e.mask) = e.mask := BitVec.zero_or
      calc mergeSiglevel base (StoredSiglevel.decided e ⟨Siglevel.useDefault, 0⟩).level
            (0#32 ||| e.mask)
          = e.on base := by rw [decided, mergeSiglevel_decided deciding]
        _ = e.on (undefault base) := by rw [undefault_of_spares spares]
  · intro first second c options repo
    rw [readLines_eq, readLines_eq, options, repo]

def trustingLine : SiglevelLine :=
  ⟨cstr "dulge.conf", 7, [cstr "PackageRequired", cstr "DatabaseNever"]⟩

theorem siglevel_deferred_trusting : processLines true [trustingLine] ⟨Siglevel.useDefault, 0⟩ =
      some ⟨Siglevel.package, Siglevel.package ||| Siglevel.packageOptional ||| Siglevel.database⟩ ∧
    ∃ direct, processLines true [trustingLine] ⟨Siglevel.packageOptional ||| Siglevel.database, 0⟩ =
        some direct ∧
      mergeSiglevel (Siglevel.packageOptional ||| Siglevel.database) Siglevel.package
        (Siglevel.package ||| Siglevel.packageOptional ||| Siglevel.database) = direct.level := by
  have accepted : processLines true [trustingLine] ⟨Siglevel.useDefault, 0⟩ =
      some ⟨Siglevel.package,
        Siglevel.package ||| Siglevel.packageOptional ||| Siglevel.database⟩ := by
    decide
  exact ⟨accepted, (siglevel_deferred (by decide) (by decide) accepted).1 0⟩

end Dulge
