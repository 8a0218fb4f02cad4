import Dulge.SignaturePacket

/-! What the packet parser of `signing.c` makes of well-formed signatures. Version 4
signature packets are described as they are put together, with every way to write a length
that the parser knows, and the parser is then followed over their bytes. -/

namespace Dulge
open List

/-! ### Well-formed packets -/

namespace OpenPgp

def byte (n : Nat) : UInt8 := UInt8.ofNat n

def be16Octets (n : Nat) : List UInt8 := [byte (n / 2 ^ 8), byte n]

def be32Octets (n : Nat) : List UInt8 :=
  [byte (n / 2 ^ 24), byte (n / 2 ^ 16), byte (n / 2 ^ 8), byte n]

/-- The two octets of a length from 192 on, the first of them counting from 192 as well. -/
def splitOctets (n : Nat) : List UInt8 := [byte ((n - 192) / 2 ^ 8 + 192), byte (n - 192)]

inductive LengthForm
  | oneOctet
  | twoOctets
  | fiveOctets
deriving DecidableEq

namespace LengthForm

/-- The form can say the length `n`, where `limit` ends the lengths of two octets. -/
def Fits (limit : Nat) : LengthForm → Nat → Prop
  | oneOctet, n => n < 192
  | twoOctets, n => 192 ≤ n ∧ n < limit
  | fiveOctets, n => n < 2 ^ 31

instance (limit : Nat) (form : LengthForm) (n : Nat) : Decidable (form.Fits limit n) :=
  match form with
  | oneOctet => inferInstanceAs (Decidable (_ < _))
  | twoOctets => inferInstanceAs (Decidable (_ ∧ _))
  | fiveOctets => inferInstanceAs (Decidable (_ < _))

def encode : LengthForm → Nat → List UInt8
  | oneOctet, n => [byte n]
  | twoOctets, n => splitOctets n
  | fiveOctets, n => 255 :: be32Octets n

end LengthForm

/-- The first octet of a two-octet length goes up to 254 in a subpacket. -/
def subpacketLimit : Nat := 16320

def packetLimit : Nat := 8384

/-- A signature subpacket. Its length counts the type octet and the data, and an issuer
subpacket has a key id for its data. -/
structure Subpacket where
  form : LengthForm
  type : UInt8
  data : List UInt8
  fits : form.Fits subpacketLimit (data.length + 1)
  issuer : type = 16 → data.length = 8

def Subpacket.encode (sub : Subpacket) : List UInt8 :=
  sub.form.encode (sub.data.length + 1) ++ sub.type :: sub.data

structure Area where
  subpackets : List Subpacket
  fits : (subpackets.flatMap Subpacket.encode).length < 2 ^ 16

namespace Area

def octets (area : Area) : List UInt8 := area.subpackets.flatMap Subpacket.encode

def encode (area : Area) : List UInt8 := be16Octets area.octets.length ++ area.octets

end Area

inductive OldForm
  | oneOctet
  | twoOctets
  | fourOctets
deriving DecidableEq

namespace OldForm

def Fits : OldForm → Nat → Prop
  | oneOctet, n => n < 2 ^ 8
  | twoOctets, n => n < 2 ^ 16
  | fourOctets, n => n < 2 ^ 31

instance (form : OldForm) (n : Nat) : Decidable (form.Fits n) :=
  match form with
  | oneOctet => inferInstanceAs (Decidable (_ < _))
  | twoOctets => inferInstanceAs (Decidable (_ < _))
  | fourOctets => inferInstanceAs (Decidable (_ < _))

def encode : OldForm → Nat → List UInt8
  | oneOctet, n => [0x88, byte n]
  | twoOctets, n => 0x89 :: be16Octets n
  | fourOctets, n => 0x8A :: be32Octets n

end OldForm

inductive HeaderForm
  | new (form : LengthForm)
  | old (form : OldForm)
deriving DecidableEq

namespace HeaderForm

def Fits : HeaderForm → Nat → Prop
  | new form, n => form.Fits packetLimit n
  | old form, n => form.Fits n

instance (form : HeaderForm) (n : Nat) : Decidable (form.Fits n) :=
  match form with
  | new form => inferInstanceAs (Decidable (form.Fits packetLimit n))
  | old form => inferInstanceAs (Decidable (form.Fits n))

def encode : HeaderForm → Nat → List UInt8
  | new form, n => 0xC2 :: form.encode n
  | old form, n => form.encode n

end HeaderForm

/-- The body of a version 4 signature of a binary document. Behind the subpackets come the
left two octets of the hash and the numbers of the signature. -/
structure Body where
  publicKeyAlgorithm : UInt8
  hashAlgorithm : UInt8
  hashed : Area
  unhashed : Area
  rest : List UInt8
  two_le_rest : 2 ≤ rest.length

def Body.encode (body : Body) : List UInt8 :=
  [4, 0, body.publicKeyAlgorithm, body.hashAlgorithm] ++ body.hashed.encode ++
    body.unhashed.encode ++ body.rest

structure Packet extends Body where
  form : HeaderForm
  fits : form.Fits toBody.encode.length

def Packet.header (packet : Packet) : List UInt8 := packet.form.encode packet.toBody.encode.length

def Packet.encode (packet : Packet) : List UInt8 := packet.header ++ packet.toBody.encode

/-! The keys that a reader of such packets wants to see. -/

def hexOctet (octet : UInt8) : CStr :=
  [Signature.hexDigit (octet.toNat / 16), Signature.hexDigit (octet.toNat % 16)]

def firstIssuer (subpackets : List Subpacket) : Option CStr :=
  (subpackets.find? fun sub => sub.type = 16).map fun sub => sub.data.flatMap hexOctet

def Packet.issuers (packet : Packet) : List CStr :=
  (firstIssuer packet.hashed.subpackets).toList ++
    (firstIssuer packet.unhashed.subpackets).toList

/-! ### Sizes and the numbers that octets stand for -/

@[simp] theorem be16Octets_length (n : Nat) : (be16Octets n).length = 2 := rfl

theorem Body.encode_length (body : Body) : body.encode.length =
    8 + body.hashed.octets.length + body.unhashed.octets.length + body.rest.length := by
  simp only [Body.encode, Area.encode, length_append, length_cons, length_nil, be16Octets_length]
  omega

theorem Packet.encode_length (packet : Packet) :
    packet.encode.length = packet.header.length + packet.toBody.encode.length :=
  length_append

theorem Packet.encode_append (packet : Packet) (rest : List UInt8) : packet.encode ++ rest =
    packet.header ++ ([4, 0, packet.publicKeyAlgorithm, packet.hashAlgorithm] ++
      (be16Octets packet.hashed.octets.length ++ (packet.hashed.octets ++
        (be16Octets packet.unhashed.octets.length ++ (packet.unhashed.octets ++
          (packet.rest ++ rest)))))) := by
  simp [Packet.encode, Body.encode, Area.encode]

theorem byte_toNat (n : Nat) : (byte n).toNat = n % 2 ^ 8 := rfl

theorem byte_of_lt {n : Nat} (small : n < 2 ^ 8) : (byte n).toNat = n := by
  rw [byte_toNat]
  exact Nat.mod_eq_of_lt small

theorem byte_lt_iff {n : Nat} (small : n < 2 ^ 8) (bound : UInt8) :
    byte n < bound ↔ n < bound.toNat := by
  rw [UInt8.lt_iff_toNat_lt, byte_of_lt small]

theorem shift_or (n i : Nat) : (n / 2 ^ i % 2 ^ 8) <<< i ||| n % 2 ^ i = n % 2 ^ (i + 8) := by
  rw [← Nat.shiftLeft_add_eq_or_of_lt (Nat.mod_lt n (Nat.two_pow_pos i)), Nat.shiftLeft_eq,
    Nat.pow_add, Nat.mod_mul, Nat.mul_comm, Nat.add_comm]

theorem wide_shift (m : Nat) {i : Nat} (room : i + 8 ≤ 32) :
    ((byte m).toBitVec.setWidth 32 <<< i).toNat = (m % 2 ^ 8) <<< i := by
  have small : m % 2 ^ 8 < 2 ^ 32 := by omega
  rw [BitVec.toNat_shiftLeft, BitVec.toNat_setWidth, UInt8.toNat_toBitVec, byte_toNat,
    Nat.mod_eq_of_lt small]
  apply Nat.mod_eq_of_lt
  calc (m % 2 ^ 8) <<< i = m % 2 ^ 8 * 2 ^ i := Nat.shiftLeft_eq _ _
    _ < 2 ^ 8 * 2 ^ i :=
        Nat.mul_lt_mul_of_pos_right (Nat.mod_lt _ (by decide)) (Nat.two_pow_pos i)
    _ = 2 ^ (i + 8) := by rw [Nat.pow_add, Nat.mul_comm]
    _ ≤ 2 ^ 32 := Nat.pow_le_pow_right (by decide) room

theorem wide_word (n : Nat) : (byte (n / 2 ^ 24)).toBitVec.setWidth 32 <<< 24 |||
      (byte (n / 2 ^ 16)).toBitVec.setWidth 32 <<< 16 |||
      (byte (n / 2 ^ 8)).toBitVec.setWidth 32 <<< 8 ||| (byte n).toBitVec.setWidth 32
    = BitVec.ofNat 32 n := by
  apply BitVec.eq_of_toNat_eq
  have last := wide_shift n (i := 0) (by decide)
  rw [BitVec.shiftLeft_zero, Nat.shiftLeft_zero] at last
  rw [BitVec.toNat_or, BitVec.toNat_or, BitVec.toNat_or, wide_shift _ (by decide),
    wide_shift _ (by decide), wide_shift _ (by decide), last, Nat.lor_assoc, Nat.lor_assoc,
    shift_or n 8, shift_or n 16, shift_or n 24, BitVec.toNat_ofNat]

/-- Below 2^31 the sign bit of the `int` stays clear. -/
theorem be32Value_octets {n : Nat} (small : n < 2 ^ 31) :
    Signature.be32Value (byte (n / 2 ^ 24)) (byte (n / 2 ^ 16)) (byte (n / 2 ^ 8)) (byte n) = n := by
  have clear : (BitVec.ofNat 32 n).msb = false := by
    rw [BitVec.msb_eq_false_iff_two_mul_lt, BitVec.toNat_ofNat]
    omega
  have value : (BitVec.ofNat 32 n).toNat = n := by
    rw [BitVec.toNat_ofNat]
    omega
  rw [Signature.be32Value]
  dsimp only
  rw [wide_word, BitVec.signExtend_eq_setWidth_of_msb_false clear, BitVec.toNat_setWidth, value]
  omega

end OpenPgp

/-! ### Reading what lies ahead -/

def ParserEvent.key? : ParserEvent → Option CStr
  | .read _ => none
  | .key keyid => some keyid

namespace Signature

open OpenPgp

/-- From `pos` on the signature consists of `rest`. -/
structure Ahead (sig : Signature) (pos : Nat) (rest : List UInt8) : Prop where
  drop : sig.bytes.drop pos = rest
  length : pos + rest.length = sig.len

/-- The computation adds the given keys to the list and returns `a`. -/
abbrev Adds {α : Type} (m : Parser α) (a : α) (keys : List CStr) : Prop :=
  Logged.Yields ParserEvent.key? m a keys

abbrev Reads {α : Type} (m : Parser α) (a : α) : Prop := Adds m a []

variable {sig : Signature} {pos : Nat} {rest : List UInt8}

namespace Ahead

theorem append {front : List UInt8} (ahead : sig.Ahead pos (front ++ rest)) :
    sig.Ahead (pos + front.length) rest where
  drop := by rw [← drop_drop, ahead.drop, drop_left]
  length := by
    have := ahead.length
    rw [length_append] at this
    omega

theorem tail {octet : UInt8} (ahead : sig.Ahead pos (octet :: rest)) :
    sig.Ahead (pos + 1) rest := by
  have split : sig.Ahead pos ([octet] ++ rest) := ahead
  exact split.append

theorem octet {octet : UInt8} (ahead : sig.Ahead pos (octet :: rest)) :
    Reads (sig.octet pos) octet := by
  have found : sig.bytes[pos]? = some octet := by
    have := congrArg List.head? ahead.drop
    rwa [List.head?_drop] at this
  refine (Logged.Yields.note rfl).andThen ?_
  rw [getD_eq_getElem?_getD, found]
  exact Logged.Yields.pure octet

theorem lengthCheck {a : Nat} (ahead : sig.Ahead pos rest) (positive : 0 < a)
    (room : a < rest.length) : Reads (sig.lengthCheck pos a) () := by
  apply Logged.Yields.demand
  rw [lengthFits_iff, ← ahead.length]
  omega

theorem be16 {n : Nat} (ahead : sig.Ahead pos (be16Octets n ++ rest)) (small : n < 2 ^ 16) :
    Reads (sig.be16 pos) n := by
  refine ahead.octet.andThen ?_
  refine ahead.tail.octet.andThen ?_
  have value : (byte (n / 2 ^ 8)).toNat <<< 8 ||| (byte n).toNat = n := by
    rw [byte_toNat, byte_toNat, shift_or n 8]
    exact Nat.mod_eq_of_lt small
  rw [value]
  exact Logged.Yields.pure n

theorem twoOctets {n : Nat} (ahead : sig.Ahead pos (splitOctets n ++ rest)) (least : 192 ≤ n)
    (small : n < 16320) : Reads (sig.twoOctets pos) n := by
  refine ahead.octet.andThen ?_
  refine ahead.tail.octet.andThen ?_
  have value : ((byte ((n - 192) / 2 ^ 8 + 192)).toNat - 192) <<< 8 + (byte (n - 192)).toNat + 192
      = n := by
    rw [Nat.shiftLeft_eq, byte_of_lt (by omega), byte_toNat]
    omega
  rw [value]
  exact Logged.Yields.pure n

theorem be32 {n : Nat} (ahead : sig.Ahead pos (be32Octets n ++ rest)) (small : n < 2 ^ 31) :
    Reads (sig.be32 pos) n := by
  refine ahead.octet.andThen ?_
  refine ahead.tail.octet.andThen ?_
  refine ahead.tail.tail.octet.andThen ?_
  refine ahead.tail.tail.tail.octet.andThen ?_
  rw [be32Value_octets small]
  exact Logged.Yields.pure n

theorem subpacketLength {form : LengthForm} {n : Nat}
    (ahead : sig.Ahead pos (form.encode n ++ rest)) (fits : form.Fits subpacketLimit n)
    (more : rest ≠ []) : Reads (sig.subpacketLength pos) (n, pos + (form.encode n).length) := by
  have room : 0 < rest.length := length_pos_iff.mpr more
  cases form with
  | oneOctet =>
    have small : n < 192 := fits
    have value : (byte n).toNat = n := byte_of_lt (by omega)
    refine ahead.octet.andThen ?_
    rw [if_pos ((byte_lt_iff (by omega) 192).mpr small)]
    refine ahead.octet.andThen ?_
    rw [value]
    exact Logged.Yields.pure _
  | twoOctets =>
    obtain ⟨least, small⟩ : 192 ≤ n ∧ n < 16320 := fits
    refine ahead.octet.andThen ?_
    rw [if_neg (by rw [byte_lt_iff (by omega)]; exact Nat.not_lt.mpr (Nat.le_add_left _ _))]
    refine ahead.octet.andThen ?_
    rw [if_pos ((byte_lt_iff (by omega) 255).mpr (show _ < 255 by omega))]
    refine (ahead.lengthCheck (by decide) ?_).andThen ?_
    · simpa [LengthForm.encode, splitOctets] using room
    refine (ahead.twoOctets least small).andThen ?_
    exact Logged.Yields.pure _
  | fiveOctets =>
    refine ahead.octet.andThen ?_
    rw [if_neg (by decide)]
    refine ahead.octet.andThen ?_
    rw [if_neg (by decide)]
    refine (ahead.lengthCheck (by decide) ?_).andThen ?_
    · simpa [LengthForm.encode, be32Octets] using room
    refine (ahead.tail.be32 fits).andThen ?_
    exact Logged.Yields.pure _

theorem keyid {data : List UInt8} {start : Nat}
    (ahead : sig.Ahead (pos + start + 1) (data ++ rest)) :
    Reads (sig.keyid pos (List.range' start data.length)) (data.flatMap hexOctet) := by
  induction data generalizing start with
  | nil => exact Logged.Yields.pure []
  | cons octet data ih =>
    refine ahead.octet.andThen ?_
    have next : sig.Ahead (pos + (start + 1) + 1) (data ++ rest) := by
      have := ahead.tail
      rwa [show pos + start + 1 + 1 = pos + (start + 1) + 1 by omega] at this
    refine (ih next).andThen ?_
    exact Logged.Yields.pure _

theorem issuerKeyid {data : List UInt8} (ahead : sig.Ahead (pos + 1) (data ++ rest))
    (eight : data.length = 8) : Reads (sig.keyid pos (List.range 8)) (data.flatMap hexOctet) := by
  rw [range_eq_range', ← eight]
  exact keyid ahead

/-- The loop stops at the first issuer and passes over every other subpacket, whose length
leads it to the next one. -/
theorem parseSubpacket {subpackets : List Subpacket} {stop : Nat}
    (ahead : sig.Ahead pos (subpackets.flatMap Subpacket.encode ++ rest))
    (ends : pos + (subpackets.flatMap Subpacket.encode).length = stop) (more : rest ≠ []) :
    Adds (sig.parseSubpacket stop pos) () (firstIssuer subpackets).toList := by
  induction subpackets generalizing pos with
  | nil =>
    have past : ¬ pos < stop := Nat.not_lt.mpr (Nat.le_of_eq ends.symm)
    rw [Signature.parseSubpacket, if_neg past]
    exact Logged.Yields.pure ()
  | cons sub subpackets ih =>
    have length : sub.encode.length
        = (sub.form.encode (sub.data.length + 1)).length + (sub.data.length + 1) := by
      rw [Subpacket.encode, length_append, length_cons]
    rw [flatMap_cons, length_append] at ends
    rw [flatMap_cons, append_assoc, Subpacket.encode, append_assoc] at ahead
    rw [Signature.parseSubpacket, if_pos (by omega)]
    refine (ahead.subpacketLength sub.fits (by simp)).attach.andThen ?_
    have body := ahead.append
    have rest_pos := length_pos_iff.mpr more
    dsimp only
    refine body.octet.andThen ?_
    by_cases issuer : sub.type = 16
    · rw [if_pos issuer]
      have eight := sub.issuer issuer
      refine (body.lengthCheck (by decide) ?_).andThen ?_
      · simp only [cons_append, length_cons, length_append]
        omega
      refine (body.tail.issuerKeyid eight).andThen ?_
      apply Logged.Yields.note
      rw [firstIssuer, List.find?_cons_of_pos (by simpa using issuer)]
      rfl
    · have fits : sig.lengthFits (pos + (sub.form.encode (sub.data.length + 1)).length)
          (sub.data.length + 1) := by
        rw [lengthFits_iff, ← body.length]
        simp only [cons_append, length_cons, length_append]
        omega
      rw [if_neg issuer, dif_pos fits, firstIssuer, List.find?_cons_of_neg (by simpa using issuer)]
      exact ih body.append (by omega)

theorem newFormat {form : LengthForm} {n : Nat}
    (ahead : sig.Ahead pos (0xC2 :: form.encode n ++ rest)) (fits : form.Fits packetLimit n)
    (more : rest ≠ []) : Reads (sig.newFormat pos) (n, pos + (0xC2 :: form.encode n).length) := by
  have room : 0 < rest.length := length_pos_iff.mpr more
  have body := ahead.tail
  refine (ahead.lengthCheck (by decide) ?_).andThen ?_
  · simp only [cons_append, length_cons, length_append]
    omega
  cases form with
  | oneOctet =>
    have small : n < 192 := fits
    have value : (byte n).toNat = n := byte_of_lt (by omega)
    refine body.octet.andThen ?_
    rw [if_pos ((byte_lt_iff (by omega) 192).mpr small)]
    refine (body.lengthCheck (by decide) ?_).andThen ?_
    · simpa [LengthForm.encode] using room
    refine body.octet.andThen ?_
    rw [value]
    exact Logged.Yields.pure _
  | twoOctets =>
    obtain ⟨least, small⟩ : 192 ≤ n ∧ n < 8384 := fits
    refine body.octet.andThen ?_
    rw [if_neg (by rw [byte_lt_iff (by omega)]; exact Nat.not_lt.mpr (Nat.le_add_left _ _))]
    refine body.octet.andThen ?_
    rw [if_pos ((byte_lt_iff (by omega) 224).mpr (show _ < 224 by omega))]
    refine (body.lengthCheck (by decide) ?_).andThen ?_
    · simpa [LengthForm.encode, splitOctets] using room
    refine (body.twoOctets least (by omega)).andThen ?_
    exact Logged.Yields.pure _
  | fiveOctets =>
    refine body.octet.andThen ?_
    rw [if_neg (by decide)]
    refine body.octet.andThen ?_
    rw [if_neg (by decide)]
    refine body.octet.andThen ?_
    rw [if_pos rfl]
    refine (body.lengthCheck (by decide) ?_).andThen ?_
    · simpa [LengthForm.encode, be32Octets] using room
    refine (body.tail.be32 fits).andThen ?_
    exact Logged.Yields.pure _

theorem oldFormat {form : OldForm} {n : Nat}
    (ahead : sig.Ahead pos (form.encode n ++ rest)) (fits : form.Fits n) (more : rest ≠ []) :
    Reads (sig.oldFormat pos) (n, pos + (form.encode n).length) := by
  have room : 0 < rest.length := length_pos_iff.mpr more
  cases form with
  | oneOctet =>
    refine ahead.octet.andThen ?_
    rw [if_pos (by decide)]
    refine (ahead.lengthCheck (by decide) ?_).andThen ?_
    · simpa [OldForm.encode] using room
    refine ahead.tail.octet.andThen ?_
    rw [byte_of_lt fits]
    exact Logged.Yields.pure _
  | twoOctets =>
    refine ahead.octet.andThen ?_
    rw [if_neg (by decide), if_pos (by decide)]
    refine (ahead.lengthCheck (by decide) ?_).andThen ?_
    · simpa [OldForm.encode, be16Octets] using room
    refine (ahead.tail.be16 fits).andThen ?_
    exact Logged.Yields.pure _
  | fourOctets =>
    refine ahead.octet.andThen ?_
    rw [if_neg (by decide), if_neg (by decide), if_pos (by decide)]
    refine (ahead.lengthCheck (by decide) ?_).andThen ?_
    · simpa [OldForm.encode, be32Octets] using room
    refine (ahead.tail.be32 fits).andThen ?_
    exact Logged.Yields.pure _

theorem packetHeader {form : HeaderForm} {n : Nat}
    (ahead : sig.Ahead pos (form.encode n ++ rest)) (fits : form.Fits n) (more : rest ≠ []) :
    Reads (sig.packetHeader pos) (n, pos + (form.encode n).length) := by
  cases form with
  | new form =>
    refine ahead.octet.andThen ?_
    refine (Logged.Yields.demand (by decide)).andThen ?_
    refine ahead.octet.andThen ?_
    rw [if_pos (by decide)]
    exact ahead.newFormat fits more
  | old form =>
    -- the three first octets of the old format have bit 7 set and bit 6 clear
    obtain ⟨first, tail, shown, tagged, old⟩ : ∃ first tail, form.encode n = first :: tail ∧
        first &&& 0x80 ≠ 0 ∧ ¬ first &&& 0x40 ≠ 0 := by
      cases form <;> exact ⟨_, _, rfl, by decide, by decide⟩
    have started : sig.Ahead pos (first :: (tail ++ rest)) := by
      have := ahead
      rwa [HeaderForm.encode, shown] at this
    refine started.octet.andThen ?_
    refine (Logged.Yields.demand tagged).andThen ?_
    refine started.octet.andThen ?_
    rw [if_neg old]
    exact ahead.oldFormat fits more

theorem hashedLength {a b : UInt8} {n : Nat}
    (ahead : sig.Ahead pos ([4, 0, a, b] ++ (be16Octets n ++ rest))) (small : n < 2 ^ 16)
    (room : n < rest.length) : Reads (sig.hashedLength pos) (n, pos + 6) := by
  have inside : toSize (pos + 4) = pos + 4 := by
    have length := ahead.length
    have fits : sig.len < 2 ^ 64 := sig.fits
    simp only [length_append, length_cons] at length
    exact Nat.mod_eq_of_lt (by omega)
  have count : sig.Ahead (pos + 4) (be16Octets n ++ rest) := ahead.append
  have size : (be16Octets n ++ rest).length = rest.length + 2 := by
    rw [length_append, Nat.add_comm]
    rfl
  refine (ahead.lengthCheck (by decide) ?_).andThen ?_
  · rw [length_append, size]
    exact Nat.lt_add_right _ (by decide : 2 < 4)
  refine ahead.octet.andThen ?_
  refine (Logged.Yields.demand rfl).andThen ?_
  refine ahead.tail.octet.andThen ?_
  refine (Logged.Yields.demand rfl).andThen ?_
  dsimp only
  rw [inside]
  refine (count.lengthCheck (by decide) (by omega)).andThen ?_
  refine (count.be16 small).andThen ?_
  refine (count.lengthCheck (by omega) (by omega)).andThen ?_
  exact Logged.Yields.pure _

theorem hashedPart {packet : Packet} (ahead : sig.Ahead pos (packet.encode ++ rest)) :
    Adds (sig.hashedPart pos) (packet.toBody.encode.length, packet.hashed.octets.length,
        pos + packet.header.length + 6 + packet.hashed.octets.length)
      (firstIssuer packet.hashed.subpackets).toList := by
  rw [Packet.encode_append] at ahead
  have body := ahead.append
  have count := body.append
  have hashed := count.append
  refine (ahead.packetHeader packet.fits (by simp)).andThen ?_
  refine (body.hashedLength packet.hashed.fits ?_).andThen ?_
  · rw [length_append, length_append]
    exact Nat.lt_add_of_pos_right (Nat.lt_add_right _ Nat.zero_lt_two)
  exact (hashed.parseSubpacket rfl (by simp [be16Octets])).thenPure _

theorem unhashedPart {packet : Packet}
    (ahead : sig.Ahead pos (be16Octets packet.unhashed.octets.length ++
      (packet.unhashed.octets ++ (packet.rest ++ rest)))) :
    Adds (sig.unhashedPart pos) (pos + 2) (firstIssuer packet.unhashed.subpackets).toList := by
  have more := packet.two_le_rest
  have unhashed := ahead.append
  refine (ahead.be16 packet.unhashed.fits).andThen ?_
  refine (ahead.lengthCheck (by omega) ?_).andThen ?_
  · simp only [length_append, be16Octets_length]
    omega
  have behind : packet.rest ++ rest ≠ [] := by
    apply append_ne_nil_of_left_ne_nil
    exact ne_nil_of_length_pos (by omega)
  exact (unhashed.parseSubpacket rfl behind).thenPure _

theorem packet {packet : Packet} (ahead : sig.Ahead pos (packet.encode ++ rest)) :
    Adds (sig.packet pos) (pos + packet.encode.length) packet.issuers := by
  have sizes := packet.encode_length
  have bodySizes := packet.toBody.encode_length
  have fits : sig.len < 2 ^ 64 := sig.fits
  have inside := ahead.length
  rw [length_append] at inside
  refine ahead.hashedPart.bind ?_
  rw [Packet.encode_append] at ahead
  have unhashed := ahead.append.append.append.append.unhashedPart
  have left : toSize (packet.toBody.encode.length + 2 ^ 64 - packet.hashed.octets.length - 8)
      = packet.unhashed.octets.length + packet.rest.length := by
    unfold toSize
    omega
  have landing : toSize (pos + packet.header.length + 6 + packet.hashed.octets.length + 2 +
      (packet.unhashed.octets.length + packet.rest.length)) = pos + packet.encode.length := by
    unfold toSize
    omega
  rw [← landing, ← left]
  exact unhashed.thenPure _

theorem extractLoop {packets : List Packet} {turns : Nat}
    (ahead : sig.Ahead pos (packets.flatMap Packet.encode)) (enough : packets.length < turns) :
    (sig.extractLoop turns pos).ret = some 0 ∧ (sig.extractLoop turns pos).error = none ∧
      (sig.extractLoop turns pos).log.filterMap ParserEvent.key?
        = packets.flatMap Packet.issuers := by
  obtain ⟨turns, rfl⟩ : ∃ left, turns = left + 1 := ⟨turns - 1, by omega⟩
  induction packets generalizing pos turns with
  | nil =>
    have past : ¬ pos < sig.len := Nat.not_lt.mpr (Nat.le_of_eq ahead.length.symm)
    rw [extractLoop_past past]
    exact ⟨rfl, rfl, rfl⟩
  | cons packet packets ih =>
    rw [flatMap_cons] at ahead
    rw [length_cons] at enough
    have inside : pos < sig.len := by
      have := ahead.length
      rw [length_append, packet.encode_length, packet.toBody.encode_length] at this
      omega
    obtain ⟨turns, rfl⟩ : ∃ left, turns = left + 1 := ⟨turns - 1, by omega⟩
    obtain ⟨ret, error, keys⟩ := ih ahead.append turns (by omega)
    rw [extractLoop_ok inside ahead.packet.value]
    refine ⟨ret, error, ?_⟩
    rw [filterMap_append, ahead.packet.picked, keys, flatMap_cons]

end Ahead

/-- On a concatenation of well-formed packets `alpm_extract_keyid` returns 0 and adds the
issuers of the packets, in their order and nothing else. -/
theorem extractKeyid_issuers (sig : Signature) (packets : List Packet)
    (whole : sig.bytes = packets.flatMap Packet.encode) (turns : Nat)
    (enough : packets.length < turns) :
    (sig.extractKeyid turns).ret = some 0 ∧ (sig.extractKeyid turns).error = none ∧
      (sig.extractKeyid turns).log.filterMap ParserEvent.key? = packets.flatMap Packet.issuers := by
  have ahead : sig.Ahead 0 (packets.flatMap Packet.encode) :=
    ⟨whole, by rw [Nat.zero_add, ← whole]; rfl⟩
  exact ahead.extractLoop enough

def hashedIssuer : Packet where
  publicKeyAlgorithm := 1
  hashAlgorithm := 8
  hashed :=
    { subpackets :=
        [⟨.oneOctet, 2, [0, 0, 0, 0], by decide, by decide⟩,
          ⟨.oneOctet, 16, [1, 2, 3, 4, 5, 6, 7, 0xAB], by decide, by decide⟩]
      fits := by decide }
  unhashed := ⟨[], by decide⟩
  rest := [0, 0]
  two_le_rest := by decide
  form := .new .oneOctet
  fits := by decide

def unhashedIssuer : Packet where
  publicKeyAlgorithm := 1
  hashAlgorithm := 8
  hashed := ⟨[], by decide⟩
  unhashed := ⟨[⟨.fiveOctets, 16, [0, 0, 0, 0, 0, 0, 0, 0xFF], by decide, by decide⟩], by decide⟩
  rest := [0, 0]
  two_le_rest := by decide
  form := .old .twoOctets
  fits := by decide

theorem extractKeyid_issuers_both : let sig : Signature :=
      ⟨[hashedIssuer, unhashedIssuer].flatMap Packet.encode, fun _ => 0, by decide⟩
    (sig.extractKeyid 3).ret = some 0 ∧
      (sig.extractKeyid 3).log.filterMap ParserEvent.key?
        = [cstr "01020304050607AB", cstr "00000000000000FF"] := by
  intro sig
  obtain ⟨ret, _, keys⟩ :=
    extractKeyid_issuers sig [hashedIssuer, unhashedIssuer] rfl 3 (by decide)
  exact ⟨ret, keys.trans (by decide +kernel)⟩

end Signature

end Dulge
