import Dulge.CString
import Mathlib.Tactic.ByContra

/-! `_alpm_pkg_validate_internal` of `be_package.c` with the signature helper of
`signing.c`. The file system, the checksum of a file and the signature check by gpgme are
parameters, and the log of a call says which checksum was compared and what the signature
check answered. -/

namespace Dulge
open List

/-- The values of `pm_errno` that validation sets or looks at; `other` stands for the
remaining errors of a signature check. -/
inductive ValidateErrno
  | ok | memory | wrongArgs | pkgNotFound | badperms | pkgOpen | pkgInvalidChecksum
  | pkgMissingSig | pkgInvalidSig | sigMissing
  | other (code : Nat)
deriving DecidableEq

inductive Sigstatus
  | valid | keyExpired | sigExpired | keyUnknown | keyDisabled | invalid
deriving DecidableEq

inductive Sigvalidity
  | full | marginal | never | unknown
deriving DecidableEq

structure Sigresult where
  status : Sigstatus
  validity : Sigvalidity
deriving DecidableEq

abbrev Siglist := {results : List Sigresult // results ≠ []}

/-- `errno` after a failed `faccessat` -/
inductive AccessError
  | enoent | eacces | other
deriving DecidableEq

/-- What validation finds outside the library. `access` is `_alpm_access` for reading,
`sha256` is `alpm_compute_sha256sum` and `checksig` is `_alpm_gpgme_checksig`. -/
structure Outside where
  access : CStr → Option AccessError
  sha256 : CStr → Option CStr
  checksig : CStr → Option CStr → Except ValidateErrno Siglist
  sigpathAllocated : Bool
  siglistAllocated : Bool

structure Syncpkg where
  sha256sum : Option CStr
  base64Sig : Option CStr

namespace Siglevel

def package : BitVec 32 := 1 <<< 0
def packageOptional : BitVec 32 := 1 <<< 1
def packageMarginalOk : BitVec 32 := 1 <<< 2
def packageUnknownOk : BitVec 32 := 1 <<< 3

end Siglevel

namespace PkgValidation

def none : BitVec 32 := 1 <<< 0
def sha256sum : BitVec 32 := 1 <<< 2
def signature : BitVec 32 := 1 <<< 3

end PkgValidation

inductive ValidationEvent
  | compared (pkgfile expected : CStr) (computed : Option CStr)
  | checked (pkgfile : CStr) (base64Sig : Option CStr) (answer : Except ValidateErrno Siglist)

/-! ### The signature helper -/

/-- One turn of the loop over the results leaves `ret` at 0. -/
def acceptsResult (marginal unknown : Bool) (result : Sigresult) : Bool :=
  match result.status with
  | .valid | .keyExpired =>
    match result.validity with
    | .full => true
    | .marginal => marginal
    | .unknown => unknown
    | .never => false
  | .sigExpired | .keyUnknown | .keyDisabled | .invalid => false

def checkResults (marginal unknown : Bool) : List Sigresult → Int
  | [] => 0
  | result :: rest =>
    if acceptsResult marginal unknown result then checkResults marginal unknown rest else -1

structure HelperResult where
  ret : Int
  pmErrno : ValidateErrno
  /-- `*sigdata`, when it is written -/
  sigdata : Option (List Sigresult)
  log : List ValidationEvent

def checkPgpHelper (outside : Outside) (path : CStr) (base64Sig : Option CStr)
    (optional marginal unknown : Bool) (pmErrno : ValidateErrno) : HelperResult :=
  if outside.siglistAllocated then
    let answer := outside.checksig path base64Sig
    let log := [.checked path base64Sig answer]
    match answer with
    | .error .sigMissing =>
      if optional then ⟨0, .ok, some [], log⟩ else ⟨-1, .sigMissing, some [], log⟩
    | .error error => ⟨-1, error, some [], log⟩
    | .ok siglist => ⟨checkResults marginal unknown siglist.1, pmErrno, some siglist.1, log⟩
  else ⟨-1, .memory, none, []⟩

/-! ### The validation of a package file -/

structure Validated where
  ret : Int
  pmErrno : ValidateErrno
  sigdata : Option (List Sigresult)
  /-- `*validation`, if the caller wants it -/
  validation : Option (BitVec 32)
  log : List ValidationEvent

def accessErrno : AccessError → ValidateErrno
  | .enoent => .pkgNotFound
  | .eacces => .badperms
  | .other => .pkgOpen

def sigpath (outside : Outside) (path : CStr) : Option CStr :=
  if outside.sigpathAllocated then some (path ++ cstr ".sig") else none

def sigpathReadable (outside : Outside) (path : CStr) : Bool :=
  match sigpath outside path with
  | some file => outside.access file = none
  | none => false

/-- `has_sig`, and `pm_errno` after it is decided. -/
def hasSig (outside : Outside) (pkgfile : CStr) (syncpkg : Option Syncpkg) (level : BitVec 32) :
    Bool × ValidateErrno :=
  if hasBit level Siglevel.package then
    if (syncpkg.bind Syncpkg.base64Sig).isSome then (true, .ok)
    else (sigpathReadable outside pkgfile, if outside.sigpathAllocated then .ok else .memory)
  else (false, .ok)

def checksumWanted (syncpkg : Option Syncpkg) (signed : Bool) : Option CStr :=
  match syncpkg with
  | some syncpkg => if !signed || syncpkg.base64Sig.isNone then syncpkg.sha256sum else none
  | none => none

/-- `_alpm_test_checksum` with `ALPM_PKG_VALIDATION_SHA256SUM` -/
def testChecksum (outside : Outside) (filepath expected : CStr) : Int :=
  match outside.sha256 filepath with
  | none => -1
  | some computed => if strcmp expected computed ≠ 0 then 1 else 0

/-- `*validation` at the end of a successful call -/
def settled (validation : BitVec 32) : BitVec 32 :=
  if validation = 0 then PkgValidation.none else validation

/-- `*validation` after the helper has returned 0. -/
def markSigned (signed : Bool) (validation : Option (BitVec 32)) : Option (BitVec 32) :=
  if signed then validation.map (· ||| PkgValidation.signature) else validation

def validateSignature (outside : Outside) (pkgfile : CStr) (syncpkg : Option Syncpkg)
    (level : BitVec 32) (signed : Bool) (pmErrno : ValidateErrno)
    (validation : Option (BitVec 32)) (log : List ValidationEvent) : Validated :=
  if hasBit level Siglevel.package then
    if !signed && !hasBit level Siglevel.packageOptional then
      ⟨-1, .pkgMissingSig, none, validation, log⟩
    else
      let helper := checkPgpHelper outside pkgfile (syncpkg.bind Syncpkg.base64Sig)
        (hasBit level Siglevel.packageOptional) (hasBit level Siglevel.packageMarginalOk)
        (hasBit level Siglevel.packageUnknownOk) pmErrno
      if helper.ret ≠ 0 then
        ⟨-1, .pkgInvalidSig, helper.sigdata, validation, log ++ helper.log⟩
      else
        ⟨0, helper.pmErrno, helper.sigdata, (markSigned signed validation).map settled,
          log ++ helper.log⟩
  else ⟨0, pmErrno, none, validation.map settled, log⟩

def pkgValidateInternal (outside : Outside) (pkgfile : Option CStr) (syncpkg : Option Syncpkg)
    (level : BitVec 32) (validation : Option (BitVec 32)) : Validated :=
  match pkgfile with
  | none => ⟨-1, .wrongArgs, none, validation, []⟩
  | some path =>
    if path.length = 0 then ⟨-1, .wrongArgs, none, validation, []⟩
    else
      match outside.access path with
      | some error => ⟨-1, accessErrno error, none, validation, []⟩
      | none =>
        let (signed, pmErrno) := hasSig outside path syncpkg level
        match checksumWanted syncpkg signed with
        | none =>
          validateSignature outside path syncpkg level signed pmErrno validation []
        | some expected =>
          let log := [.compared path expected (outside.sha256 path)]
          if testChecksum outside path expected ≠ 0 then
            ⟨-1, .pkgInvalidChecksum, none, validation, log⟩
          else
            validateSignature outside path syncpkg level signed pmErrno
              (validation.map (· ||| PkgValidation.sha256sum)) log

/-! ### What a successful validation has seen -/

def TrustAccepted (level : BitVec 32) : Sigvalidity → Prop
  | .full => True
  | .marginal => hasBit level Siglevel.packageMarginalOk = true
  | .unknown => hasBit level Siglevel.packageUnknownOk = true
  | .never => False

def AcceptedBy (level : BitVec 32) (results : List Sigresult) : Prop :=
  results ≠ [] ∧ ∀ result ∈ results,
    (result.status = .valid ∨ result.status = .keyExpired) ∧ TrustAccepted level result.validity

theorem acceptsResult_iff (level : BitVec 32) (result : Sigresult) :
    acceptsResult (hasBit level Siglevel.packageMarginalOk)
      (hasBit level Siglevel.packageUnknownOk) result = true ↔
      (result.status = .valid ∨ result.status = .keyExpired) ∧
        TrustAccepted level result.validity := by
  obtain ⟨status, validity⟩ := result
  cases status <;> cases validity <;> simp [acceptsResult, TrustAccepted]

theorem checkResults_eq_zero {marginal unknown : Bool} {results : List Sigresult} :
    checkResults marginal unknown results = 0 ↔
      ∀ result ∈ results, acceptsResult marginal unknown result = true := by
  induction results with
  | nil => simp [checkResults]
  | cons result rest ih =>
    by_cases accepted : acceptsResult marginal unknown result = true
    · simp [checkResults, accepted, ih]
    · simp [checkResults, accepted]

theorem checkResults_accepted {level : BitVec 32} (siglist : Siglist) :
    checkResults (hasBit level Siglevel.packageMarginalOk)
      (hasBit level Siglevel.packageUnknownOk) siglist.1 = 0 ↔ AcceptedBy level siglist.1 := by
  rw [checkResults_eq_zero]
  constructor
  · intro all
    exact ⟨siglist.2, fun result mem => (acceptsResult_iff level result).mp (all result mem)⟩
  · intro accepted result mem
    exact (acceptsResult_iff level result).mpr (accepted.2 result mem)

theorem hasBit_signature (word : BitVec 32) :
    hasBit word PkgValidation.signature = word.getLsbD 3 := by
  have bit : PkgValidation.signature = BitVec.twoPow 32 3 := by decide
  rw [hasBit, bit, BitVec.and_twoPow]
  cases word.getLsbD 3 <;> decide

theorem hasBit_settled (word : BitVec 32) :
    hasBit (settled word) PkgValidation.signature = hasBit word PkgValidation.signature := by
  unfold settled
  split
  · subst word
    decide
  · rfl

theorem hasBit_mark_signature (word : BitVec 32) :
    hasBit (word ||| PkgValidation.signature) PkgValidation.signature = true := by
  rw [hasBit_signature, BitVec.getLsbD_or]
  exact Bool.or_true _

theorem hasBit_mark_sha256sum (word : BitVec 32) :
    hasBit (word ||| PkgValidation.sha256sum) PkgValidation.signature =
      hasBit word PkgValidation.signature := by
  rw [hasBit_signature, hasBit_signature, BitVec.getLsbD_or]
  exact Bool.or_false _

section

variable {outside : Outside} {path : CStr} {syncpkg : Option Syncpkg} {level : BitVec 32}

def Verified (level : BitVec 32) (log : List ValidationEvent) : Prop :=
  ∃ path base64Sig siglist,
    .checked path base64Sig (.ok siglist) ∈ log ∧ AcceptedBy level siglist.1

/-- gpgme finds no signature in the data that is there, which an optional signature allows. -/
def SilentlyMissing (outside : Outside) (path : CStr) (syncpkg : Option Syncpkg)
    (level : BitVec 32) : Prop :=
  hasBit level Siglevel.packageOptional = true ∧ outside.siglistAllocated = true ∧
    outside.checksig path (syncpkg.bind Syncpkg.base64Sig) = .error .sigMissing

theorem checkPgpHelper_ok {base64Sig : Option CStr} {optional marginal unknown : Bool}
    {pmErrno : ValidateErrno}
    (ok : (checkPgpHelper outside path base64Sig optional marginal unknown pmErrno).ret = 0) :
    outside.siglistAllocated = true ∧
      (checkPgpHelper outside path base64Sig optional marginal unknown pmErrno).log =
        [.checked path base64Sig (outside.checksig path base64Sig)] ∧
      (outside.checksig path base64Sig = .error .sigMissing ∧ optional = true ∨
        ∃ siglist, outside.checksig path base64Sig = .ok siglist ∧
          checkResults marginal unknown siglist.1 = 0) := by
  unfold checkPgpHelper at ok ⊢
  by_cases allocated : outside.siglistAllocated = true
  · simp only [allocated, if_true] at ok ⊢
    refine ⟨trivial, ?_⟩
    cases answer : outside.checksig path base64Sig with
    | ok siglist =>
      simp only [answer] at ok ⊢
      exact ⟨trivial, .inr ⟨siglist, rfl, ok⟩⟩
    | error error =>
      by_cases missing : error = .sigMissing
      · subst missing
        cases optional with
        | true => exact ⟨rfl, .inl ⟨rfl, rfl⟩⟩
        | false => simp [answer] at ok
      · simp [answer] at ok
  · simp [allocated] at ok

variable {signed : Bool} {pmErrno : ValidateErrno} {validation : Option (BitVec 32)}
  {log : List ValidationEvent}

theorem validateSignature_missing (wanted : hasBit level Siglevel.package = true)
    (missing : SilentlyMissing outside path syncpkg level) :
    validateSignature outside path syncpkg level signed pmErrno validation log =
      ⟨0, .ok, some [], (markSigned signed validation).map settled,
        log ++ [.checked path (syncpkg.bind Syncpkg.base64Sig) (.error .sigMissing)]⟩ := by
  obtain ⟨optional, allocated, answer⟩ := missing
  simp [validateSignature, checkPgpHelper, wanted, optional, allocated, answer]

theorem validateSignature_ok
    (ok : (validateSignature outside path syncpkg level signed pmErrno validation log).ret = 0) :
    (hasBit level Siglevel.package = false ∧
      validateSignature outside path syncpkg level signed pmErrno validation log =
        ⟨0, pmErrno, none, validation.map settled, log⟩) ∨ hasBit level Siglevel.package = true ∧
      (Verified level
          (validateSignature outside path syncpkg level signed pmErrno validation log).log ∨
        SilentlyMissing outside path syncpkg level) := by
  cases wanted : hasBit level Siglevel.package with
  | false => exact .inl ⟨rfl, by simp [validateSignature, wanted]⟩
  | true =>
    refine .inr ⟨rfl, ?_⟩
    simp only [validateSignature, wanted, if_true] at ok ⊢
    split at ok
    · cases ok
    · rename_i present
      split at ok
      · cases ok
      · rename_i passed
        obtain ⟨allocated, logged, ⟨missing, optional⟩ | ⟨siglist, answer, results⟩⟩ :=
          checkPgpHelper_ok (not_not.mp passed)
        · exact .inr ⟨optional, allocated, missing⟩
        · refine .inl ⟨path, syncpkg.bind Syncpkg.base64Sig, siglist, ?_,
            (checkResults_accepted siglist).mp results⟩
          rw [if_neg present, if_neg passed, logged, answer]
          exact mem_append_right _ mem_cons_self

theorem mem_validateSignature_log {event : ValidationEvent} (mem : event ∈ log) :
    event ∈ (validateSignature outside path syncpkg level signed pmErrno validation log).log := by
  unfold validateSignature
  split
  · split
    · exact mem
    · dsimp only
      split
      · exact mem_append_left _ mem
      · exact mem_append_left _ mem
  · exact mem

end

/-! ### Unverified packages -/

section

variable (outside : Outside) (pkgfile : Option CStr) (syncpkg : Option Syncpkg)
  (level : BitVec 32) (validation : Option (BitVec 32))

def HasSignatureBit (validation : Option (BitVec 32)) : Prop :=
  ∃ word, validation = some word ∧ hasBit word PkgValidation.signature = true

/-- A successful validation that sets the signature bit has seen an accepted signature, and
one of a package with a checksum has seen that or an equal checksum. -/
def NeverUnverified : Prop :=
  let result := pkgValidateInternal outside pkgfile syncpkg level validation
  result.ret = 0 →
    (¬ HasSignatureBit validation → HasSignatureBit result.validation → Verified level result.log) ∧
    ∀ sum, syncpkg.bind Syncpkg.sha256sum = some sum →
      (∃ path, pkgfile = some path ∧ .compared path sum (some sum) ∈ result.log) ∨
        Verified level result.log

/-- There is signature data, gpgme finds no signature in it and the signature is optional;
and nothing else is seen of the package, or the caller is told that it is signed. -/
def TakenAsSigned : Prop :=
  ∃ path, pkgfile = some path ∧ path ≠ [] ∧ outside.access path = none ∧
    hasBit level Siglevel.package = true ∧
    ((syncpkg.bind Syncpkg.base64Sig).isSome = true ∨ sigpathReadable outside path = true) ∧
    SilentlyMissing outside path syncpkg level ∧
    ((syncpkg.bind Syncpkg.base64Sig).isSome = true ∧
        (syncpkg.bind Syncpkg.sha256sum).isSome = true ∨
      validation.isSome = true ∧ ¬ HasSignatureBit validation ∧
        ∀ expected, checksumWanted syncpkg true = some expected →
          outside.sha256 path = some expected)

variable {outside pkgfile syncpkg level validation}

variable {path : CStr}

theorem hasSig_iff :
    (hasSig outside path syncpkg level).1 = true ↔ hasBit level Siglevel.package = true ∧
      ((syncpkg.bind Syncpkg.base64Sig).isSome = true ∨ sigpathReadable outside path = true) := by
  unfold hasSig
  split
  · split <;> simp [*]
  · simp [*]

theorem HasSignatureBit.settled_iff :
    HasSignatureBit (validation.map settled) ↔ HasSignatureBit validation := by
  cases validation with
  | none => simp [HasSignatureBit]
  | some word => simp [HasSignatureBit, hasBit_settled]

theorem HasSignatureBit.sha256sum_iff :
    HasSignatureBit (validation.map (· ||| PkgValidation.sha256sum)) ↔
      HasSignatureBit validation := by
  cases validation with
  | none => simp [HasSignatureBit]
  | some word => simp [HasSignatureBit, hasBit_mark_sha256sum]

theorem HasSignatureBit.markSigned_iff {signed : Bool} :
    HasSignatureBit (markSigned signed validation) ↔
      HasSignatureBit validation ∨ signed = true ∧ validation.isSome = true := by
  cases signed with
  | false => simp [markSigned]
  | true =>
    cases validation with
    | none => simp [markSigned, HasSignatureBit]
    | some word => simp [markSigned, HasSignatureBit, hasBit_mark_signature]

def ChecksumPasses (outside : Outside) (path : CStr) (syncpkg : Option Syncpkg) (signed : Bool) :
    Prop :=
  ∀ expected, checksumWanted syncpkg signed = some expected → outside.sha256 path = some expected

theorem testChecksum_eq_zero {expected : CStr} :
    testChecksum outside path expected = 0 ↔ outside.sha256 path = some expected := by
  unfold testChecksum
  cases outside.sha256 path with
  | none => simp
  | some computed =>
    by_cases same : expected = computed
    · simp [same]
    · simp [strcmp_eq_zero, same, Ne.symm same]

theorem pkgValidateInternal_passed (validation : Option (BitVec 32)) (nonempty : path ≠ [])
    (readable : outside.access path = none)
    (passes : ChecksumPasses outside path syncpkg (hasSig outside path syncpkg level).1) :
    ∃ validation' log, pkgValidateInternal outside (some path) syncpkg level validation =
        validateSignature outside path syncpkg level (hasSig outside path syncpkg level).1
          (hasSig outside path syncpkg level).2 validation' log ∧
      (HasSignatureBit validation' ↔ HasSignatureBit validation) ∧
      validation'.isSome = validation.isSome ∧
      log = (checksumWanted syncpkg (hasSig outside path syncpkg level).1).toList.map fun expected =>
        .compared path expected (some expected) := by
  simp only [pkgValidateInternal, length_eq_zero_iff, nonempty, if_false, readable]
  cases wanted : checksumWanted syncpkg (hasSig outside path syncpkg level).1 with
  | none => exact ⟨validation, [], rfl, Iff.rfl, rfl, rfl⟩
  | some expected =>
    have equal := passes expected wanted
    refine ⟨validation.map (· ||| PkgValidation.sha256sum), _, ?_,
      HasSignatureBit.sha256sum_iff, Option.isSome_map, rfl⟩
    simp [testChecksum_eq_zero.mpr equal, equal]

theorem pkgValidateInternal_ok
    (ok : (pkgValidateInternal outside pkgfile syncpkg level validation).ret = 0) :
    ∃ path, pkgfile = some path ∧ path ≠ [] ∧ outside.access path = none ∧
      ChecksumPasses outside path syncpkg (hasSig outside path syncpkg level).1 := by
  unfold pkgValidateInternal at ok
  cases pkgfile with
  | none => cases ok
  | some path =>
    refine ⟨path, rfl, ?_⟩
    simp only [length_eq_zero_iff] at ok
    split at ok
    · cases ok
    · rename_i nonempty
      split at ok
      · cases ok
      · rename_i readable
        refine ⟨nonempty, readable, ?_⟩
        intro expected wanted
        rw [wanted] at ok
        by_contra unequal
        simp only [ne_eq, testChecksum_eq_zero, unequal, not_false_eq_true, if_true] at ok
        cases ok

theorem not_verified_of_missing {wanted : Option CStr} {base64Sig : Option CStr} :
    ¬ Verified level ((wanted.toList.map fun expected =>
      ValidationEvent.compared path expected (some expected)) ++
        [.checked path base64Sig (.error .sigMissing)]) := by
  intro ⟨_, _, siglist, mem, _⟩
  simp at mem

theorem checksumWanted_cases {signed : Bool} {sum : CStr}
    (known : syncpkg.bind Syncpkg.sha256sum = some sum) : checksumWanted syncpkg signed = some sum ∨
      signed = true ∧ (syncpkg.bind Syncpkg.base64Sig).isSome = true := by
  cases syncpkg with
  | none => cases known
  | some syncpkg =>
    rw [Option.bind_some] at known ⊢
    cases data : syncpkg.base64Sig with
    | none => exact .inl (by simp [checksumWanted, data, known])
    | some base64Sig =>
      cases signed with
      | true => exact .inr ⟨rfl, rfl⟩
      | false => exact .inl (by simp [checksumWanted, known])

theorem checksumWanted_of_base64Sig (data : (syncpkg.bind Syncpkg.base64Sig).isSome = true) :
    checksumWanted syncpkg true = none := by
  cases syncpkg with
  | none => rfl
  | some syncpkg =>
    have present : syncpkg.base64Sig.isNone = false := by
      simpa [← Option.not_isSome] using data
    simp [checksumWanted, present]

theorem TakenAsSigned.passes
    (harm : (syncpkg.bind Syncpkg.base64Sig).isSome = true ∧
      (syncpkg.bind Syncpkg.sha256sum).isSome = true ∨ validation.isSome = true ∧
      ¬ HasSignatureBit validation ∧ ∀ expected, checksumWanted syncpkg true = some expected →
      outside.sha256 path = some expected) : ChecksumPasses outside path syncpkg true := by
  rcases harm with ⟨data, _⟩ | ⟨_, _, passes⟩
  · intro expected wanted
    rw [checksumWanted_of_base64Sig data] at wanted
    cases wanted
  · exact passes

theorem TakenAsSigned.unverified (taken : TakenAsSigned outside pkgfile syncpkg level validation) :
    ¬ NeverUnverified outside pkgfile syncpkg level validation := by
  intro verified
  obtain ⟨path, rfl, nonempty, readable, package, data, missing, harm⟩ := taken
  have signed : (hasSig outside path syncpkg level).1 = true := hasSig_iff.mpr ⟨package, data⟩
  have passes := TakenAsSigned.passes harm
  rw [← signed] at passes
  obtain ⟨validation', log, same, bit, given, rfl⟩ :=
    pkgValidateInternal_passed validation nonempty readable passes
  rw [validateSignature_missing package missing] at same
  obtain ⟨marks, sums⟩ := verified (by rw [same])
  rw [same] at marks sums
  rcases harm with ⟨fromDb, known⟩ | ⟨wanted, unmarked, _⟩
  · obtain ⟨sum, known⟩ := Option.isSome_iff_exists.mp known
    rcases sums sum known with ⟨_, _, compared⟩ | seen
    · rw [signed, checksumWanted_of_base64Sig fromDb] at compared
      simp at compared
    · exact not_verified_of_missing seen
  · have marked : HasSignatureBit
        ((markSigned (hasSig outside path syncpkg level).1 validation').map settled) := by
      rw [HasSignatureBit.settled_iff, HasSignatureBit.markSigned_iff]
      exact .inr ⟨signed, given.trans wanted⟩
    exact not_verified_of_missing (marks unmarked marked)

theorem neverUnverified_of_not_taken
    (notTaken : ¬ TakenAsSigned outside pkgfile syncpkg level validation) :
    NeverUnverified outside pkgfile syncpkg level validation := by
  intro ok
  obtain ⟨path, rfl, nonempty, readable, passes⟩ := pkgValidateInternal_ok ok
  obtain ⟨validation', log, same, bit, given, logged⟩ :=
    pkgValidateInternal_passed validation nonempty readable passes
  have compared : ∀ sum, checksumWanted syncpkg (hasSig outside path syncpkg level).1 = some sum →
      .compared path sum (some sum) ∈
        (pkgValidateInternal outside (some path) syncpkg level validation).log := by
    intro sum wanted
    rw [same]
    apply mem_validateSignature_log
    rw [logged, wanted]
    exact mem_cons_self
  rw [same] at ok
  rcases validateSignature_ok ok with ⟨unwanted, plain⟩ | ⟨package, verified | missing⟩
  · have unsigned : (hasSig outside path syncpkg level).1 = false := by
      rw [← Bool.not_eq_true, hasSig_iff, unwanted]
      simp
    constructor
    · intro unmarked marked
      rw [same, plain, HasSignatureBit.settled_iff, bit] at marked
      exact absurd marked unmarked
    · intro sum known
      rcases checksumWanted_cases known with wanted | ⟨signed, _⟩
      · exact .inl ⟨path, rfl, compared sum wanted⟩
      · rw [unsigned] at signed
        cases signed
  · rw [← same] at verified
    exact ⟨fun _ _ => verified, fun _ _ => .inr verified⟩
  · constructor
    · intro unmarked marked
      rw [same, validateSignature_missing package missing, HasSignatureBit.settled_iff,
        HasSignatureBit.markSigned_iff, bit, given] at marked
      rcases marked with before | ⟨signed, wanted⟩
      · exact absurd before unmarked
      · rw [signed] at passes
        exact absurd ⟨path, rfl, nonempty, readable, package, (hasSig_iff.mp signed).2, missing,
          .inr ⟨wanted, unmarked, passes⟩⟩ notTaken
    · intro sum known
      rcases checksumWanted_cases known with wanted | ⟨signed, fromDb⟩
      · exact .inl ⟨path, rfl, compared sum wanted⟩
      · exact absurd ⟨path, rfl, nonempty, readable, package, (hasSig_iff.mp signed).2, missing,
          .inl ⟨fromDb, Option.isSome_of_eq_some known⟩⟩ notTaken

theorem pkgValidateInternal_verified_iff (outside : Outside) (pkgfile : Option CStr)
    (syncpkg : Option Syncpkg) (level : BitVec 32) (validation : Option (BitVec 32)) :
    NeverUnverified outside pkgfile syncpkg level validation ↔
      ¬ TakenAsSigned outside pkgfile syncpkg level validation :=
  ⟨fun verified taken => taken.unverified verified, neverUnverified_of_not_taken⟩

def Outside.unsigned : Outside where
  access _ := none
  sha256 _ := some (cstr "other")
  checksig _ _ := .error .sigMissing
  sigpathAllocated := true
  siglistAllocated := true

/-- Neither half holds: the signature bit is set, and no checksum was compared. -/
theorem pkgValidateInternal_unverified :
    let result := pkgValidateInternal .unsigned (some (cstr "pkg"))
      (some ⟨some (cstr "sum"), some (cstr "c2ln")⟩)
      (Siglevel.package ||| Siglevel.packageOptional) (some 0)
    result.ret = 0 ∧ HasSignatureBit result.validation ∧
      ¬ NeverUnverified .unsigned (some (cstr "pkg"))
        (some ⟨some (cstr "sum"), some (cstr "c2ln")⟩)
        (Siglevel.package ||| Siglevel.packageOptional) (some 0) := by
  refine ⟨by decide +kernel, ⟨PkgValidation.signature, by decide +kernel, by decide⟩, ?_⟩
  apply TakenAsSigned.unverified
  refine ⟨_, rfl, by decide, rfl, by decide, .inl rfl, ⟨by decide, rfl, rfl⟩, .inl ⟨rfl, rfl⟩⟩

end

end Dulge
