import Dulge.CString
import Dulge.Lib.Logged
import Dulge.Lib.Orbit

/-! The OpenPGP packet parser of `signing.c`, which extracts the issuer key ids of a
detached signature. Positions are `size_t` values: a sum that the check before it keeps
below the length of the signature is written as it is, every other one with `toSize`.
The log says at which index the signature is read and which key is added to the list. -/

namespace Dulge
open List

/-- Wrapping into a 64-bit `size_t`. -/
def toSize (n : Nat) : Nat := n % 2 ^ 64

structure Signature where
  bytes : List UInt8
  behind : Nat → UInt8
  fits : bytes.length < 2 ^ 64

inductive FormatError
  | signatureFormat
  | unsupportedFormat
deriving DecidableEq

inductive ParserEvent
  | read (index : Nat)
  | key (keyid : CStr)
deriving DecidableEq

abbrev Parser := Logged ParserEvent FormatError

namespace Signature

variable (sig : Signature)

def len : Nat := sig.bytes.length

/-- `sig[pos]`, which nothing stops from reading behind the end. -/
def octet (pos : Nat) : Parser UInt8 := do
  Logged.note (.read pos)
  return sig.bytes.getD pos (sig.behind pos)

/-- `(sig[pos] << 8) | sig[pos + 1]` -/
def be16 (pos : Nat) : Parser Nat := do
  let high ← sig.octet pos
  let low ← sig.octet (pos + 1)
  return high.toNat <<< 8 ||| low.toNat

/-- `((sig[pos] - 192) << 8) + sig[pos + 1] + 192` -/
def twoOctets (pos : Nat) : Parser Nat := do
  let high ← sig.octet pos
  let low ← sig.octet (pos + 1)
  return (high.toNat - 192) <<< 8 + low.toNat + 192

/-- Four bytes put together as an `int`, the first one shifted into the sign bit, and the
`int` assigned to a `size_t`. -/
def be32Value (a b c d : UInt8) : Nat :=
  let wide (byte : UInt8) : BitVec 32 := byte.toBitVec.setWidth 32
  ((wide a <<< 24 ||| wide b <<< 16 ||| wide c <<< 8 ||| wide d).signExtend 64).toNat

def be32 (pos : Nat) : Parser Nat := do
  let a ← sig.octet pos
  let b ← sig.octet (pos + 1)
  let c ← sig.octet (pos + 2)
  let d ← sig.octet (pos + 3)
  return be32Value a b c d

/-- `length_check` returns 0. -/
def lengthFits (position a : Nat) : Prop :=
  ¬ (a = 0 ∨ position > sig.len ∨ sig.len - position ≤ a)

instance (position a : Nat) : Decidable (sig.lengthFits position a) :=
  inferInstanceAs (Decidable (¬ _))

def lengthCheck (position a : Nat) : Parser Unit :=
  Logged.demand (sig.lengthFits position a) .signatureFormat

/-! ### Subpackets -/

def subpacketLength (spos : Nat) : Parser (Nat × Nat) := do
  if (← sig.octet spos) < 192 then
    let slen ← sig.octet spos
    return (slen.toNat, spos + 1)
  else if (← sig.octet spos) < 255 then
    sig.lengthCheck spos 2
    let slen ← sig.twoOctets spos
    return (slen, spos + 2)
  else
    sig.lengthCheck spos 5
    let slen ← sig.be32 (spos + 1)
    return (slen, spos + 5)

def hexDigit (n : Nat) : UInt8 := UInt8.ofNat (if n < 10 then 48 + n else 55 + n)

/-- The eight bytes of an issuer key id, each printed with `%02X`. -/
def keyid (spos : Nat) : List Nat → Parser CStr
  | [] => return []
  | i :: rest => do
      let byte ← sig.octet (spos + i + 1)
      let text ← keyid spos rest
      return hexDigit (byte.toNat / 16) :: hexDigit (byte.toNat % 16) :: text

variable {spos next pos : Nat}

theorem subpacketLength_grows {slen : Nat}
    (returned : (sig.subpacketLength spos).value = .ok (slen, next)) : spos < next := by
  obtain ⟨first, _, returned⟩ := Logged.bind_value_ok_iff.mp returned
  split at returned
  · obtain ⟨_, _, returned⟩ := Logged.bind_value_ok_iff.mp returned
    cases returned
    omega
  · obtain ⟨second, _, returned⟩ := Logged.bind_value_ok_iff.mp returned
    split at returned
    all_goals
      obtain ⟨_, _, returned⟩ := Logged.bind_value_ok_iff.mp returned
      obtain ⟨_, _, returned⟩ := Logged.bind_value_ok_iff.mp returned
      cases returned
      omega

/-- The loop of `parse_subpacket` at `spos`, where `stop` is its `pos + plen`. -/
def parseSubpacket (stop spos : Nat) : Parser Unit :=
  if spos < stop then do
    let ⟨(slen, next), _returned⟩ ← (sig.subpacketLength spos).attach
    if (← sig.octet next) = 16 then
      sig.lengthCheck next 8
      let key ← sig.keyid next (List.range 8)
      Logged.note (.key key)
    else if _fits : sig.lengthFits next slen then
      parseSubpacket stop (next + slen)
    else
      Logged.fail .signatureFormat
  else pure ()
termination_by sig.len - spos
decreasing_by
  have grows := sig.subpacketLength_grows _returned
  unfold lengthFits at _fits
  omega

/-! ### Packets -/

def newFormat (pos : Nat) : Parser (Nat × Nat) := do
  sig.lengthCheck pos 1
  let pos := pos + 1
  if (← sig.octet pos) < 192 then
    sig.lengthCheck pos 1
    let blen ← sig.octet pos
    return (blen.toNat, pos + 1)
  else if (← sig.octet pos) < 224 then
    sig.lengthCheck pos 2
    let blen ← sig.twoOctets pos
    return (blen, pos + 2)
  else if (← sig.octet pos) = 255 then
    sig.lengthCheck pos 5
    let blen ← sig.be32 (pos + 1)
    return (blen, pos + 5)
  else
    Logged.fail .unsupportedFormat

def oldFormat (pos : Nat) : Parser (Nat × Nat) := do
  let kind := (← sig.octet pos) &&& 0x03
  if kind = 0 then
    sig.lengthCheck pos 2
    let blen ← sig.octet (pos + 1)
    return (blen.toNat, pos + 2)
  else if kind = 1 then
    sig.lengthCheck pos 3
    let blen ← sig.be16 (pos + 1)
    return (blen, pos + 3)
  else if kind = 2 then
    sig.lengthCheck pos 5
    let blen ← sig.be32 (pos + 1)
    return (blen, pos + 5)
  else
    Logged.fail .unsupportedFormat

def packetHeader (pos : Nat) : Parser (Nat × Nat) := do
  Logged.demand ((← sig.octet pos) &&& 0x80 ≠ 0) .signatureFormat
  if (← sig.octet pos) &&& 0x40 ≠ 0 then
    sig.newFormat pos
  else
    sig.oldFormat pos

/-- The fixed fields of a body up to the length of the hashed subpackets, and that length
with the position behind it. -/
def hashedLength (pos : Nat) : Parser (Nat × Nat) := do
  sig.lengthCheck pos 2
  Logged.demand ((← sig.octet pos) = 4) .unsupportedFormat
  Logged.demand ((← sig.octet (pos + 1)) = 0) .signatureFormat
  let pos := toSize (pos + 4)
  sig.lengthCheck pos 2
  let hlen ← sig.be16 pos
  sig.lengthCheck pos (hlen + 2)
  return (hlen, pos + 2)

/-- The loop body up to the end of the hashed subpackets: the body length of the packet,
the length of the hashed area and the position behind it. -/
def hashedPart (pos : Nat) : Parser (Nat × Nat × Nat) := do
  let (blen, pos) ← sig.packetHeader pos
  let (hlen, pos) ← sig.hashedLength pos
  sig.parseSubpacket (pos + hlen) pos
  return (blen, hlen, pos + hlen)

def unhashedPart (pos : Nat) : Parser Nat := do
  let ulen ← sig.be16 pos
  sig.lengthCheck pos (ulen + 2)
  let pos := pos + 2
  sig.parseSubpacket (pos + ulen) pos
  return pos

/-- One turn of the loop of `alpm_extract_keyid` and the position it ends at. -/
def packet (pos : Nat) : Parser Nat := do
  let (blen, hlen, pos) ← sig.hashedPart pos
  let pos ← sig.unhashedPart pos
  return toSize (pos + toSize (blen + 2 ^ 64 - hlen - 8))

/-- What a number of turns of the loop of `alpm_extract_keyid` have done, and the value it
returns if it has returned by then. -/
structure Extraction where
  log : List ParserEvent
  error : Option FormatError
  ret : Option Int

def extractLoop : Nat → Nat → Extraction
  | 0, _ => ⟨[], none, none⟩
  | turns + 1, pos =>
    if pos < sig.len then
      match sig.packet pos with
      | ⟨log, .error error⟩ => ⟨log, some error, some (-1)⟩
      | ⟨log, .ok next⟩ =>
        let rest := extractLoop turns next
        ⟨log ++ rest.log, rest.error, rest.ret⟩
    else ⟨[], none, some 0⟩

def extractKeyid (turns : Nat) : Extraction := sig.extractLoop turns 0

/-! ### Reads in bounds -/

variable {sig}

def InBounds (sig : Signature) : ParserEvent → Prop
  | .read index => index < sig.len
  | .key _ => True

open Logged

theorem lengthFits_iff {position a : Nat} :
    sig.lengthFits position a ↔ 0 < a ∧ position + a < sig.len := by
  unfold lengthFits
  omega

theorem lengthCheck_keeps (position a : Nat) :
    Keeps sig.InBounds (sig.lengthCheck position a) fun _ => position + a < sig.len :=
  (Keeps.demand _ _).mono fun _ fits => (lengthFits_iff.mp fits).2

theorem octet_keeps (inside : pos < sig.len) :
    Keeps sig.InBounds (sig.octet pos) fun _ => True := by
  have read : Keeps sig.InBounds (note (.read pos) : Parser Unit) fun _ => True :=
    Keeps.note inside
  apply read.bind
  intro _ _
  exact Keeps.pure trivial

theorem be16_keeps (inside : pos + 1 < sig.len) :
    Keeps sig.InBounds (sig.be16 pos) fun n => n < 2 ^ 16 := by
  apply (octet_keeps (by omega)).bind
  intro high _
  apply (octet_keeps inside).bind
  intro low _
  apply Keeps.pure
  have := high.toNat_lt
  have := low.toNat_lt
  apply Nat.or_lt_two_pow
  · rw [Nat.shiftLeft_eq]
    omega
  · omega

theorem twoOctets_keeps (inside : pos + 1 < sig.len) :
    Keeps sig.InBounds (sig.twoOctets pos) fun n => n < 2 ^ 16 := by
  apply (octet_keeps (by omega)).bind
  intro high _
  apply (octet_keeps inside).bind
  intro low _
  apply Keeps.pure
  have := high.toNat_lt
  have := low.toNat_lt
  rw [Nat.shiftLeft_eq]
  omega

/-- The values an `int` can have when it is assigned to a `size_t`. -/
def IntValue (n : Nat) : Prop := n < 2 ^ 31 ∨ 2 ^ 64 - 2 ^ 31 ≤ n ∧ n < 2 ^ 64

theorem signExtend_int (word : BitVec 32) : IntValue (word.signExtend 64).toNat := by
  have small := word.isLt
  rw [BitVec.toNat_signExtend, BitVec.toNat_setWidth, IntValue]
  cases sign : word.msb with
  | false =>
    have := BitVec.msb_eq_false_iff_two_mul_lt.mp sign
    simp only [Bool.false_eq_true, if_false]
    omega
  | true =>
    have := BitVec.msb_eq_true_iff_two_mul_ge.mp sign
    simp only [if_true]
    omega

theorem be32_keeps (inside : pos + 3 < sig.len) : Keeps sig.InBounds (sig.be32 pos) IntValue := by
  apply (octet_keeps (by omega)).bind
  intro a _
  apply (octet_keeps (by omega)).bind
  intro b _
  apply (octet_keeps (by omega)).bind
  intro c _
  apply (octet_keeps inside).bind
  intro d _
  exact Keeps.pure (signExtend_int _)

theorem subpacketLength_keeps (inside : spos + 1 < sig.len) :
    Keeps sig.InBounds (sig.subpacketLength spos) fun r => r.2 < sig.len := by
  apply (octet_keeps (by omega)).bind
  intro first _
  apply Keeps.ite
  · apply (octet_keeps (by omega)).bind
    intro _ _
    exact Keeps.pure inside
  · apply (octet_keeps (by omega)).bind
    intro second _
    apply Keeps.ite
    · apply (lengthCheck_keeps spos 2).bind
      intro _ fits
      apply (twoOctets_keeps (by omega)).bind
      intro _ _
      exact Keeps.pure fits
    · apply (lengthCheck_keeps spos 5).bind
      intro _ fits
      apply (be32_keeps (by omega)).bind
      intro _ _
      exact Keeps.pure fits

theorem keyid_keeps {places : List Nat} (inside : ∀ i ∈ places, spos + i + 1 < sig.len) :
    Keeps sig.InBounds (sig.keyid spos places) fun _ => True := by
  induction places with
  | nil => exact Keeps.pure trivial
  | cons i rest ih =>
    apply (octet_keeps (inside i mem_cons_self)).bind
    intro _ _
    apply (ih fun j mem => inside j (mem_cons_of_mem i mem)).bind
    intro _ _
    exact Keeps.pure trivial

theorem parseSubpacket_keeps {stop : Nat} (inside : stop < sig.len) (spos : Nat) :
    Keeps sig.InBounds (sig.parseSubpacket stop spos) fun _ => True := by
  induction spos using parseSubpacket.induct sig stop with
  | case1 spos before ih =>
    rw [parseSubpacket, if_pos before]
    apply (subpacketLength_keeps (by omega)).attach.bind
    intro ⟨(slen, next), returned⟩ nextInside
    apply (octet_keeps nextInside).bind
    intro kind _
    apply Keeps.ite
    · apply (lengthCheck_keeps next 8).bind
      intro _ fits
      apply (keyid_keeps fun i mem => by have := mem_range.mp mem; omega).bind
      intro key _
      exact Keeps.note trivial
    · split
      · exact ih _ _ returned ‹_›
      · exact Keeps.fail _
  | case2 spos past =>
    rw [parseSubpacket, if_neg past]
    exact Keeps.pure trivial

theorem IntValue.of_lt {n : Nat} (small : n < 2 ^ 16) : IntValue n := by
  unfold IntValue
  omega

def HeaderAt (sig : Signature) (pos : Nat) (header : Nat × Nat) : Prop :=
  pos < header.2 ∧ header.2 < sig.len ∧ IntValue header.1

theorem sized_keeps {β : Type} {read : Parser β} {value : β → Nat} {start a : Nat}
    (ahead : pos < start + a)
    (reads : start + a < sig.len → Keeps sig.InBounds read fun b => IntValue (value b)) :
    Keeps sig.InBounds (do sig.lengthCheck start a; let b ← read; return (value b, start + a))
      (sig.HeaderAt pos) := by
  apply (lengthCheck_keeps start a).bind
  intro _ fits
  apply (reads fits).bind
  intro b small
  exact Keeps.pure ⟨ahead, fits, small⟩

theorem octet_int (inside : pos < sig.len) :
    Keeps sig.InBounds (sig.octet pos) fun c => IntValue c.toNat :=
  (octet_keeps inside).mono fun c _ => .of_lt (by have := c.toNat_lt; omega)

theorem newFormat_keeps (pos : Nat) :
    Keeps sig.InBounds (sig.newFormat pos) (sig.HeaderAt pos) := by
  apply (lengthCheck_keeps pos 1).bind
  intro _ inside
  apply (octet_keeps inside).bind
  intro first _
  apply Keeps.ite
  · exact sized_keeps (by omega) fun _ => octet_int inside
  · apply (octet_keeps inside).bind
    intro second _
    apply Keeps.ite
    · exact sized_keeps (by omega) fun _ => (twoOctets_keeps (by omega)).mono fun _ => .of_lt
    · apply (octet_keeps inside).bind
      intro third _
      apply Keeps.ite
      · exact sized_keeps (by omega) fun _ => be32_keeps (by omega)
      · exact Keeps.fail _

theorem oldFormat_keeps (inside : pos < sig.len) :
    Keeps sig.InBounds (sig.oldFormat pos) (sig.HeaderAt pos) := by
  apply (octet_keeps inside).bind
  intro tag _
  apply Keeps.ite
  · exact sized_keeps (by omega) fun _ => octet_int (by omega)
  · apply Keeps.ite
    · exact sized_keeps (by omega) fun _ => (be16_keeps (by omega)).mono fun _ => .of_lt
    · apply Keeps.ite
      · exact sized_keeps (by omega) fun _ => be32_keeps (by omega)
      · exact Keeps.fail _

theorem packetHeader_keeps (inside : pos < sig.len) :
    Keeps sig.InBounds (sig.packetHeader pos) (sig.HeaderAt pos) := by
  apply (octet_keeps inside).bind
  intro first _
  apply (Keeps.demand _ _).bind
  intro _ _
  apply (octet_keeps inside).bind
  intro second _
  apply Keeps.ite
  · exact newFormat_keeps pos
  · exact oldFormat_keeps inside

theorem hashedLength_keeps : Keeps sig.InBounds (sig.hashedLength pos) fun r =>
      r.1 < 2 ^ 16 ∧ r.2 = toSize (pos + 4) + 2 ∧ r.2 + r.1 < sig.len := by
  apply (lengthCheck_keeps pos 2).bind
  intro _ fits
  apply (octet_keeps (by omega)).bind
  intro version _
  apply (Keeps.demand _ _).bind
  intro _ _
  apply (octet_keeps (by omega)).bind
  intro type _
  apply (Keeps.demand _ _).bind
  intro _ _
  apply (lengthCheck_keeps _ 2).bind
  intro _ fits
  apply (be16_keeps (by omega)).bind
  intro hlen small
  apply (lengthCheck_keeps _ (hlen + 2)).bind
  intro _ fits
  exact Keeps.pure ⟨small, rfl, by omega⟩

theorem hashedPart_keeps (inside : pos < sig.len) :
    Keeps sig.InBounds (sig.hashedPart pos) fun r => r.2.2 < sig.len := by
  apply (packetHeader_keeps inside).bind
  intro (blen, body) _
  apply hashedLength_keeps.bind
  intro (hlen, start) ⟨_, _, fits⟩
  apply (parseSubpacket_keeps fits start).bind
  intro _ _
  exact Keeps.pure fits

theorem unhashedPart_keeps (inside : pos + 1 < sig.len) :
    Keeps sig.InBounds (sig.unhashedPart pos) fun _ => True := by
  apply (be16_keeps inside).bind
  intro ulen _
  apply (lengthCheck_keeps pos (ulen + 2)).bind
  intro _ fits
  apply (parseSubpacket_keeps (by omega) (pos + 2)).bind
  intro _ _
  exact Keeps.pure trivial

/-- The hashed area of the packet ends one byte before the end of the signature. -/
def EndsShort (sig : Signature) (pos : Nat) : Prop :=
  ∃ blen hlen stop, (sig.hashedPart pos).value = .ok (blen, hlen, stop) ∧ stop + 1 = sig.len

theorem mem_unhashedPart_log (pos : Nat) : .read (pos + 1) ∈ (sig.unhashedPart pos).log := by
  refine mem_bind_log.mpr (.inl ?_)
  exact mem_bind_log.mpr (.inr ⟨_, rfl, mem_cons_self⟩)

theorem packet_in_bounds_iff (inside : pos < sig.len) :
    (∀ event ∈ (sig.packet pos).log, sig.InBounds event) ↔ ¬ sig.EndsShort pos := by
  constructor
  · intro bounded ⟨blen, hlen, stop, hashed, short⟩
    have read : .read (stop + 1) ∈ (sig.packet pos).log := by
      refine mem_bind_log.mpr (.inr ⟨_, hashed, ?_⟩)
      exact mem_bind_log.mpr (.inl (mem_unhashedPart_log stop))
    have : stop + 1 < sig.len := bounded _ read
    omega
  · intro notShort event mem
    rcases mem_bind_log.mp mem with hashed | ⟨⟨blen, hlen, stop⟩, hashed, mem⟩
    · exact (hashedPart_keeps inside).events event hashed
    · have stopInside := (hashedPart_keeps inside).returned _ hashed
      have further : stop + 1 < sig.len := by
        have : stop + 1 ≠ sig.len := fun short => notShort ⟨blen, hlen, stop, hashed, short⟩
        dsimp only at stopInside
        omega
      rcases mem_bind_log.mp mem with unhashed | ⟨_, _, mem⟩
      · exact (unhashedPart_keeps further).events event unhashed
      · cases mem

/-! ### Whole runs -/

def turn (sig : Signature) (pos : Nat) : Option Nat :=
  if pos < sig.len then (sig.packet pos).value.toOption else none

theorem turn_eq_some :
    sig.turn pos = some next ↔ pos < sig.len ∧ (sig.packet pos).value = .ok next := by
  unfold turn
  split
  · cases (sig.packet pos).value with
    | ok a => simp [Except.toOption, *]
    | error e => simp [Except.toOption]
  · simp [*]

theorem extractLoop_past (past : ¬ pos < sig.len) (turns : Nat) :
    sig.extractLoop (turns + 1) pos = ⟨[], none, some 0⟩ := if_neg past

theorem extractLoop_error (inside : pos < sig.len) {error : FormatError}
    (failed : (sig.packet pos).value = .error error) (turns : Nat) :
    sig.extractLoop (turns + 1) pos = ⟨(sig.packet pos).log, some error, some (-1)⟩ := by
  rw [extractLoop, if_pos inside]
  split
  · rename_i log error' packet
    rw [packet] at failed ⊢
    cases failed
    rfl
  · rename_i packet
    rw [packet] at failed
    cases failed

theorem extractLoop_ok (inside : pos < sig.len) (passed : (sig.packet pos).value = .ok next)
    (turns : Nat) : sig.extractLoop (turns + 1) pos =
      ⟨(sig.packet pos).log ++ (sig.extractLoop turns next).log,
        (sig.extractLoop turns next).error, (sig.extractLoop turns next).ret⟩ := by
  rw [extractLoop, if_pos inside]
  split
  · rename_i packet
    rw [packet] at passed
    cases passed
  · rename_i packet
    rw [packet] at passed ⊢
    cases passed
    rfl

open Orbit

theorem mem_extractLoop_log {event : ParserEvent} {turns : Nat}
    (mem : event ∈ (sig.extractLoop turns pos).log) :
    ∃ q, Reaches sig.turn pos q ∧ q < sig.len ∧ event ∈ (sig.packet q).log := by
  induction turns generalizing pos with
  | zero => cases mem
  | succ turns ih =>
    by_cases inside : pos < sig.len
    · cases value : (sig.packet pos).value with
      | error error =>
        rw [extractLoop_error inside value] at mem
        exact ⟨pos, .refl, inside, mem⟩
      | ok next =>
        rw [extractLoop_ok inside value] at mem
        rcases mem_append.mp mem with here | later
        · exact ⟨pos, .refl, inside, here⟩
        · obtain ⟨q, reaches, found⟩ := ih later
          exact ⟨q, .head (turn_eq_some.mpr ⟨inside, value⟩) reaches, found⟩
    · rw [extractLoop_past inside] at mem
      cases mem

theorem extractLoop_log_of_reaches {event : ParserEvent} {q : Nat}
    (reaches : Reaches sig.turn pos q) (inside : q < sig.len) (mem : event ∈ (sig.packet q).log) :
    ∃ turns, event ∈ (sig.extractLoop turns pos).log := by
  induction reaches using Relation.ReflTransGen.head_induction_on with
  | refl =>
    refine ⟨1, ?_⟩
    cases value : (sig.packet q).value with
    | error error =>
      rw [extractLoop_error inside value]
      exact mem
    | ok next =>
      rw [extractLoop_ok inside value]
      exact mem_append_left _ mem
  | head first _ ih =>
    obtain ⟨turns, later⟩ := ih
    obtain ⟨before, value⟩ := turn_eq_some.mp first
    refine ⟨turns + 1, ?_⟩
    rw [extractLoop_ok before value]
    exact mem_append_right _ later

theorem extractKeyid_in_bounds_iff (sig : Signature) :
    (∀ turns index, .read index ∈ (sig.extractKeyid turns).log → index < sig.len) ↔
      ∀ pos, Reaches sig.turn 0 pos → pos < sig.len → ¬ sig.EndsShort pos := by
  constructor
  · intro bounded pos reaches inside
    apply (packet_in_bounds_iff inside).mp
    intro event mem
    obtain ⟨turns, logged⟩ := extractLoop_log_of_reaches reaches inside mem
    cases event with
    | read index => exact bounded turns index logged
    | key keyid => trivial
  · intro notShort turns index mem
    obtain ⟨q, reaches, inside, found⟩ := mem_extractLoop_log mem
    exact (packet_in_bounds_iff inside).mpr (notShort q reaches inside) _ found

/-- Nine bytes: a packet of version 4 whose hashed area is empty and ends at index 8. -/
theorem extractKeyid_reads_behind :
    .read 9 ∈ (extractKeyid ⟨[0x88, 7, 4, 0, 1, 8, 0, 0, 0], fun _ => 0, by decide⟩ 1).log := by
  decide +kernel

/-! ### Termination -/

theorem extractLoop_running_iff {turns : Nat} :
    (sig.extractLoop turns pos).ret = none ↔ walk sig.turn turns pos ≠ none := by
  induction turns generalizing pos with
  | zero => simp [extractLoop, walk]
  | succ turns ih =>
    by_cases inside : pos < sig.len
    · cases value : (sig.packet pos).value with
      | error error =>
        simp [extractLoop_error inside value, walk, turn, inside, value, Except.toOption]
      | ok next =>
        rw [extractLoop_ok inside value, walk, turn_eq_some.mpr ⟨inside, value⟩]
        exact ih
    · simp [extractLoop_past inside, walk, turn, inside]

theorem packet_value (passed : (sig.packet pos).value = .ok next) :
    ∃ blen body, (sig.packetHeader pos).value = .ok (blen, body) ∧ next = toSize (body + blen) := by
  obtain ⟨⟨blen, hlen, stop⟩, hashed, passed⟩ := bind_value_ok_iff.mp passed
  obtain ⟨⟨blen', body⟩, header, hashed⟩ := bind_value_ok_iff.mp hashed
  obtain ⟨⟨hlen', start⟩, length, hashed⟩ := bind_value_ok_iff.mp hashed
  obtain ⟨_, _, hashed⟩ := bind_value_ok_iff.mp hashed
  cases hashed
  obtain ⟨behind, unhashed, passed⟩ := bind_value_ok_iff.mp passed
  obtain ⟨ulen, _, unhashed⟩ := bind_value_ok_iff.mp unhashed
  obtain ⟨_, _, unhashed⟩ := bind_value_ok_iff.mp unhashed
  obtain ⟨_, _, unhashed⟩ := bind_value_ok_iff.mp unhashed
  cases unhashed
  cases passed
  refine ⟨blen, body, header, ?_⟩
  obtain ⟨small, rfl, _⟩ := hashedLength_keeps.returned _ length
  dsimp only at small
  unfold toSize
  omega

/-- The packet has a four-byte length whose top bit is set, so that it is negative as an `int`, and
its end, counted back from the start of the body, is not behind the start of the packet. -/
def StepsBack (sig : Signature) (pos : Nat) : Prop :=
  ∃ blen body, (sig.packetHeader pos).value = .ok (blen, body) ∧ 2 ^ 64 - 2 ^ 31 ≤ blen ∧
    2 ^ 64 ≤ body + blen ∧ body + blen ≤ 2 ^ 64 + pos

theorem turn_back_iff (room : sig.len ≤ 2 ^ 64 - 2 ^ 31) (step : sig.turn pos = some next) :
    next ≤ pos ↔ sig.StepsBack pos := by
  obtain ⟨inside, value⟩ := turn_eq_some.mp step
  obtain ⟨blen, body, header, rfl⟩ := packet_value value
  obtain ⟨behind, bodyInside, int⟩ := (packetHeader_keeps inside).returned _ header
  have unique : sig.StepsBack pos ↔ 2 ^ 64 - 2 ^ 31 ≤ blen ∧ 2 ^ 64 ≤ body + blen ∧
      body + blen ≤ 2 ^ 64 + pos := by
    simp [StepsBack, header]
  rw [unique]
  dsimp only at behind bodyInside int
  unfold toSize
  rcases int with small | negative
  · omega
  · omega

/-- The parser returns unless it comes to a packet with a negative length that leads back. -/
theorem extractKeyid_returns (sig : Signature) (room : sig.len ≤ 2 ^ 64 - 2 ^ 31) :
    (∀ pos next, sig.turn pos = some next → (next ≤ pos ↔ sig.StepsBack pos)) ∧
      ((∀ pos, Reaches sig.turn 0 pos → ¬ sig.StepsBack pos) →
        ∃ turns, (sig.extractKeyid turns).ret ≠ none) := by
  refine ⟨fun pos next => turn_back_iff room, ?_⟩
  intro forward
  have stops : ∃ turns, walk sig.turn turns 0 = none := by
    refine stops_of_measure (fun pos => sig.len - pos) ?_
    intro pos reaches next step
    have inside := (turn_eq_some.mp step).1
    have ahead := (turn_back_iff room step).not.mpr (forward pos reaches)
    omega
  obtain ⟨turns, stopped⟩ := stops
  refine ⟨turns, ?_⟩
  rw [Ne, extractKeyid, extractLoop_running_iff]
  exact not_not.mpr stopped

/-- Two packets in the old format, with lengths of one byte and of four, and one in the new format. -/
def threePackets : Signature where
  bytes := [0x88, 9, 4, 0, 1, 8, 0, 0, 0, 0, 0xAA,
    0x8A, 0, 0, 0, 9, 4, 0, 1, 8, 0, 0, 0, 0, 0xAB,
    0xC2, 0xFF, 0, 0, 0, 9, 4, 0, 1, 8, 0, 0, 0, 0, 0xAC]
  behind _ := 0
  fits := by decide

theorem extractKeyid_returns_threePackets :
    ∃ turns, (threePackets.extractKeyid turns).ret ≠ none := by
  refine (extractKeyid_returns threePackets (by decide)).2 ?_
  intro pos reaches
  have starts : pos ∈ {pos | pos ∈ [0, 11, 25, 40]} := by
    refine mem_of_reaches ?_ (by simp) reaches
    have closed : ∀ pos ∈ [0, 11, 25, 40], ∀ next ∈ threePackets.turn pos,
        next ∈ [0, 11, 25, 40] := by
      decide +kernel
    exact closed
  have small : ∀ pos ∈ [0, 11, 25, 40], ∀ header ∈ (threePackets.packetHeader pos).value.toOption,
      header.1 < 2 ^ 31 := by
    decide +kernel
  rintro ⟨blen, body, header, negative, _⟩
  have := small pos starts (blen, body) (by rw [header]; rfl)
  omega

/-- A packet in the old format whose four-byte length is -5 as an `int`, so that the parser
comes back to the first byte. -/
theorem extractKeyid_runs_forever :
    ¬ ∃ turns, (extractKeyid ⟨[0x8A, 0xFF, 0xFF, 0xFF, 0xFB, 4, 0, 1, 8, 0, 0, 0, 0, 0],
      fun _ => 0, by decide⟩ turns).ret ≠ none := by
  intro ⟨turns, returned⟩
  apply returned
  apply extractLoop_running_iff.mpr
  apply walk_ne_none_of_return
  apply Relation.TransGen.single
  show turn _ 0 = some 0
  decide +kernel

end Signature

end Dulge
