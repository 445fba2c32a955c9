-- What the checksum of a packet is worth: the table does what the register of a CRC
-- does bit by bit, and an error of at most eight consecutive bits in the data or in its
-- checksum is noticed by the read handler.
import Huasi.Crc
import Huasi.EnOceanSteps

open huasi.crc huasi.runs
open Polynomial

namespace huasi.enocean

variable {σ : Type}

/-! ## The table -/

/-- The generator without its highest power. -/
def polynomial : BitVec 8 := 0x07

theorem generator_polynomial : generator polynomial = X ^ 8 + X ^ 2 + X + 1 := by
  have hbits : bits polynomial = [false, false, false, false, false, true, true, true] := by
    decide
  rw [generator, hbits]
  simp [ofBits, coefficient]
  ring

/-- The bits of a message, the most significant bit of each byte first. -/
def messageBits (data : List UInt8) : List Bool := data.flatMap fun b => bits b.toBitVec

theorem messageBits_cons (b : UInt8) (data : List UInt8) :
    messageBits (b :: data) = bits b.toBitVec ++ messageBits data := List.flatMap_cons

/-- The check of a message, bit by bit from 0 on. -/
def bitwiseChecksum (data : List UInt8) : UInt8 :=
  .ofBitVec (check polynomial (messageBits data))

/-- An entry of the table is the check of its index. -/
theorem crc8Table_get (i : UInt8) :
    crc8Table.get ⟨i.toNat, lt_crc8Table_length i⟩ =
      .ofBitVec (check polynomial (bits i.toBitVec)) := by
  have hall : ∀ n : Fin 256, crc8Table.getD n 0 =
      .ofBitVec (check polynomial (bits (UInt8.ofFin n).toBitVec)) := by
    decide +kernel
  rw [List.get_eq_getElem, List.getElem_eq_getD 0]
  exact hall i.toFin

/-- A turn of `calcChecksum` feeds the bits of a byte. -/
theorem crc8_eq (crc b : UInt8) :
    crc8 crc b = .ofBitVec ((bits b.toBitVec).foldl (feed polynomial) crc.toBitVec) := by
  rw [foldl_bits, crc8, crc8Table_get]
  rfl

theorem foldl_crc8 (data : List UInt8) (crc : UInt8) :
    data.foldl crc8 crc = .ofBitVec ((messageBits data).foldl (feed polynomial) crc.toBitVec) := by
  induction data generalizing crc with
  | nil => rfl
  | cons b data ih =>
    rw [List.foldl_cons, ih, crc8_eq, messageBits_cons, List.foldl_append]

theorem calcChecksum_eq (data : List UInt8) (length : Nat) :
    calcChecksum data length = bitwiseChecksum (data.take length) := foldl_crc8 _ 0

/-! ## Errors -/

theorem messageBits_append (l m : List UInt8) :
    messageBits (l ++ m) = messageBits l ++ messageBits m := List.flatMap_append

theorem messageBits_length (data : List UInt8) : (messageBits data).length = 8 * data.length := by
  induction data with
  | nil => rfl
  | cons b data ih =>
    rw [messageBits_cons, List.length_append, bits_length, ih, List.length_cons]
    omega

theorem messageBits_xor {l m : List UInt8} (h : l.length = m.length) :
    messageBits (List.zipWith (· ^^^ ·) l m) =
      List.zipWith xor (messageBits l) (messageBits m) := by
  induction l generalizing m with
  | nil => rfl
  | cons a l ih =>
    cases m with
    | nil => cases h
    | cons b m =>
      have hbits : bits (a ^^^ b).toBitVec =
          List.zipWith xor (bits a.toBitVec) (bits b.toBitVec) := bits_xor _ _
      have hlen : (bits a.toBitVec).length = (bits b.toBitVec).length := by
        rw [bits_length, bits_length]
      rw [List.zipWith_cons_cons, messageBits_cons, messageBits_cons, messageBits_cons, hbits,
        ih (Nat.succ.inj h), List.zipWith_append hlen]

/-- What arrives of data and its checksum when the bits of `error` are wrong. -/
def damaged (data error : List UInt8) : List UInt8 :=
  List.zipWith (· ^^^ ·) (data ++ [calcChecksum data data.length]) error

/-- At least one bit is wrong, and all that are wrong are among eight consecutive ones. -/
def Burst (error : List UInt8) : Prop :=
  true ∈ messageBits error ∧ Confined 8 (messageBits error)

theorem calcChecksum_ne {data error received : List UInt8} {checksum : UInt8}
    (hlen : error.length = data.length + 1) (hburst : Burst error)
    (hreceived : damaged data error = received ++ [checksum]) :
    calcChecksum received received.length ≠ checksum := by
  obtain ⟨hmem, hconfined⟩ := hburst
  have hcheck : ∀ l : List UInt8, (calcChecksum l l.length).toBitVec =
      check polynomial (messageBits l) := by
    intro l
    rw [calcChecksum_eq, List.take_length]
    rfl
  have hone : ∀ b : UInt8, messageBits [b] = bits b.toBitVec := fun b => List.append_nil _
  have hgenerator : (generator polynomial).coeff 0 ≠ 0 := by
    rw [generator_polynomial]
    simp
  have hbits := congrArg messageBits hreceived
  rw [damaged, messageBits_xor (by rw [List.length_append, hlen, List.length_singleton]),
    messageBits_append, messageBits_append, hone, hone, hcheck] at hbits
  have hne := check_ne_of_confined hgenerator (by
    rw [messageBits_length, messageBits_length, hlen, Nat.mul_succ]) hconfined hmem hbits.symm
  rw [← hcheck] at hne
  exact fun heq => hne (congrArg UInt8.toBitVec heq)

theorem damaged_length {data error : List UInt8} (hlen : error.length = data.length + 1) :
    (damaged data error).length = data.length + 1 := by
  rw [damaged, List.length_zipWith, List.length_append, List.length_singleton, hlen, Nat.min_self]

/-- The comparison in `receive` fails, wherever the data is in the buffer. -/
theorem comparison_fails {data error : List UInt8} (front rest : List UInt8)
    (hlen : error.length = data.length + 1) (hburst : Burst error) :
    (front ++ damaged data error ++ rest)[front.length + data.length]? ≠
      some (calcChecksum ((front ++ damaged data error ++ rest).drop front.length)
        data.length) := by
  have hlength := damaged_length hlen
  obtain hnil | ⟨received, checksum, hreceived⟩ := List.eq_nil_or_concat' (damaged data error)
  · rw [hnil] at hlength
    cases hlength
  · have hsize : data.length = received.length := by
      rw [hreceived, List.length_append] at hlength
      exact (Nat.succ.inj hlength).symm
    have hne := calcChecksum_ne hlen hburst hreceived
    have hget : (front ++ damaged data error ++ rest)[front.length + data.length]? =
        some checksum := by
      rw [hreceived, hsize, List.append_assoc, List.append_assoc,
        List.getElem?_append_right (Nat.le_add_right _ _), Nat.add_sub_cancel_left,
        List.getElem?_append_right (Nat.le_refl _), Nat.sub_self]
      rfl
    have hdata : calcChecksum ((front ++ damaged data error ++ rest).drop front.length)
        data.length = calcChecksum received received.length := by
      rw [hreceived, hsize, List.append_assoc, List.drop_left, List.append_assoc,
        ← calcChecksum_take, List.take_left]
    rw [hget, hdata]
    exact fun heq => hne (Option.some.inj heq).symm

/-! ## The read handler -/

/-- A turn that finds a short error behind the first byte of a header, or behind the header, drops
what is in the buffer and does nothing else. -/
theorem turn_drops (env : Env σ) {s : EnOceanProtocol σ} (hs : unfinished s = true)
    {front data error rest : List UInt8} (hlen : error.length = data.length + 1)
    (hburst : Burst error) (hunread : s.rx.unread = front ++ damaged data error ++ rest)
    (hplace : front.length = 1 ∧ data.length = 4 ∨
      front.length = 6 ∧ data.length = contentLength s.rx.unread) :
    turn env s = some (.again { s with rx := s.rx.clear }) := by
  have hfails := comparison_fails front rest hlen hburst
  rw [← hunread] at hfails
  obtain ⟨r, hr, hcase⟩ := turn_cases env s hs
  rw [hr]
  rcases hplace with ⟨hfront, hdata⟩ | ⟨hfront, hdata⟩
  · rw [hfront, hdata] at hfails
    have hheader : ¬ HeaderOk s.rx.unread := fun hok => hfails hok.2
    cases hcase with
    | packet hok => exact absurd hok hheader
    | corrupt hok => exact absurd hok hheader
    | incomplete hok => exact absurd hok hheader
    | noise => rfl
  · rw [hfront, hdata] at hfails
    cases hcase with
    | packet _ _ hok => exact absurd hok hfails
    | corrupt => rfl
    | incomplete _ hsize =>
      have hlength := congrArg List.length hunread
      rw [List.length_append, List.length_append, damaged_length hlen, s.rx.unread_length]
        at hlength
      unfold packetSize at hsize
      omega
    | noise => rfl

/-- `calcChecksum` is the CRC with the generator x^8 + x^2 + x + 1, from 0 on and with the most
significant bit first. An error of at most eight consecutive bits in data and checksum makes the
comparison fail, wherever it is in the buffer, and the read handler drops such a header and such a
packet. -/
theorem checksum_detects_bursts (env : Env σ) :
    generator polynomial = X ^ 8 + X ^ 2 + X + 1 ∧
    (∀ data length, calcChecksum data length = bitwiseChecksum (data.take length)) ∧
    ∀ data error, error.length = data.length + 1 → Burst error → ∀ front rest,
      (front ++ damaged data error ++ rest)[front.length + data.length]? ≠
        some (calcChecksum ((front ++ damaged data error ++ rest).drop front.length)
          data.length) ∧
      ∀ s : EnOceanProtocol σ, unfinished s = true →
        s.rx.unread = front ++ damaged data error ++ rest →
        (front.length = 1 ∧ data.length = 4 ∨
          front.length = 6 ∧ data.length = contentLength s.rx.unread) →
        turn env s = some (.again { s with rx := s.rx.clear }) := by
  refine ⟨generator_polynomial, calcChecksum_eq, ?_⟩
  intro data error hlen hburst front rest
  refine ⟨comparison_fails front rest hlen hburst, ?_⟩
  intro s hs hunread hplace
  exact turn_drops env hs hlen hburst hunread hplace

/-- The last bit of the data and the first one of its checksum are wrong. -/
theorem checksum_detects_bursts_across :
    let s : EnOceanProtocol Unit := (init () (.filled 0) (.filled 0)).received
      [0x55, 0x00, 0x01, 0x00, 0x05, 0x70, 0x02, 0x89] (Nat.le_of_ble_eq_true rfl)
    turn ⟨quietApp, true⟩ s = some (.again { s with rx := s.rx.clear }) := by
  intro s
  have hconfined : Confined 8 (messageBits [0x01, 0x80]) := by
    refine ⟨7, ?_⟩
    intro k hk
    have hbits : ∀ k < 16, (messageBits [0x01, 0x80])[k]? = some true → 7 ≤ k ∧ k < 7 + 8 := by
      decide
    obtain ⟨hlt, -⟩ := List.getElem?_eq_some_iff.mp hk
    exact hbits k hlt hk
  have hburst : Burst [0x01, 0x80] := ⟨by decide, hconfined⟩
  have hall := (checksum_detects_bursts ⟨quietApp, true⟩).2.2 [0x03] [0x01, 0x80] rfl hburst
    [0x55, 0x00, 0x01, 0x00, 0x05, 0x70] []
  exact hall.2 s (by decide) (by decide) (by decide)

end huasi.enocean
