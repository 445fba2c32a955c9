-- The values of the configuration registers on the wire: what `sendByte`, `sendWord` and
-- `sendLong` write is what `onCommand` reads in a REPORT, and a command that ends too
-- early reports nothing.
import Huasi.ZWaveNetwork

namespace huasi.network

/-! ## The bytes of a word -/

theorem word_bytes (v : UInt16) : word (v >>> 8).toUInt8 v.toUInt8 = v := by
  apply UInt16.toBitVec_inj.mp
  apply BitVec.eq_of_getLsbD_eq
  intro i hi
  simp only [word, UInt16.toBitVec_or, UInt16.toBitVec_shiftLeft, UInt8.toBitVec_toUInt16,
    UInt16.toBitVec_toUInt8, UInt16.toBitVec_shiftRight, BitVec.getLsbD_or,
    BitVec.shiftLeft_eq', BitVec.getLsbD_shiftLeft, BitVec.getLsbD_setWidth,
    BitVec.ushiftRight_eq', BitVec.getLsbD_ushiftRight, UInt16.toBitVec_ofNat]
  grind

theorem long_bytes (v : UInt32) :
    long (v >>> 24).toUInt8 (v >>> 16).toUInt8 (v >>> 8).toUInt8 v.toUInt8 = v := by
  apply UInt32.toBitVec_inj.mp
  apply BitVec.eq_of_getLsbD_eq
  intro i hi
  simp only [long, UInt32.toBitVec_or, UInt32.toBitVec_shiftLeft, UInt8.toBitVec_toUInt32,
    UInt32.toBitVec_toUInt8, UInt32.toBitVec_shiftRight, BitVec.getLsbD_or,
    BitVec.shiftLeft_eq', BitVec.getLsbD_shiftLeft, BitVec.getLsbD_setWidth,
    BitVec.ushiftRight_eq', BitVec.getLsbD_ushiftRight, UInt32.toBitVec_ofNat]
  grind

/-! ## The registers -/

/-- The command that sets the register to what the call has. -/
def ConfigReport.send : ConfigReport → List UInt8
  | .onByte index value => sendByte index value
  | .onWord index value => sendWord index value
  | .onLong index value => sendLong index value

/-- The number of bytes of the value. -/
def ConfigReport.size : ConfigReport → Nat
  | .onByte _ _ => 1
  | .onWord _ _ => 2
  | .onLong _ _ => 4

/-- A command with REPORT in the place of its command id. -/
def asReport (command : List UInt8) : List UInt8 := command.set 1 0x06

theorem length_asReport_send (r : ConfigReport) : (asReport r.send).length = 4 + r.size := by
  cases r with
  | onByte index value => rfl
  | onWord index value => rfl
  | onLong index value => rfl

theorem configReport_send (r : ConfigReport) (rest : List UInt8) :
    configReport (asReport r.send ++ rest) = some (some r) := by
  cases r with
  | onByte index value => simp [configReport, asReport, ConfigReport.send, sendByte]
  | onWord index value => simp [configReport, asReport, ConfigReport.send, sendWord, word_bytes]
  | onLong index value => simp [configReport, asReport, ConfigReport.send, sendLong, long_bytes]

/-- A command that is too short for a value, or for the size that it declares. -/
theorem configReport_short {data : List UInt8}
    (h : data.length < 5 ∨ ∃ size, data[3]? = some size ∧ data.length < 4 + size.toNat) :
    configReport data = some none := by
  unfold configReport
  split
  · rename_i hlength
    obtain hshort | ⟨size, hsize, hshort⟩ := h
    · exact absurd hlength (Nat.not_le.mpr hshort)
    · have h1 : data[1]? = some data[1] := List.getElem?_eq_getElem (by omega)
      have h2 : data[2]? = some data[2] := List.getElem?_eq_getElem (by omega)
      simp only [h1, h2, hsize, Option.bind_eq_bind, Option.bind_some,
        if_neg (Nat.not_le.mpr hshort)]
      split <;> rfl
  · rfl

/-- The size that a command declares is the one of its value. -/
theorem asReport_send_size (r : ConfigReport) :
    ∃ size : UInt8, (asReport r.send)[3]? = some size ∧ size.toNat = r.size := by
  cases r with
  | onByte index value => exact ⟨1, rfl, rfl⟩
  | onWord index value => exact ⟨2, rfl, rfl⟩
  | onLong index value => exact ⟨4, rfl, rfl⟩

theorem configReport_send_take (r : ConfigReport) (rest : List UInt8) {k : Nat}
    (hk : k < 4 + r.size) : configReport ((asReport r.send ++ rest).take k) = some none := by
  have hlength := length_asReport_send r
  rw [List.take_append_of_le_length (by omega)]
  apply configReport_short
  rw [List.length_take, hlength, Nat.min_eq_left (by omega)]
  by_cases h5 : k < 5
  · exact Or.inl h5
  · obtain ⟨size, hsize, hvalue⟩ := asReport_send_size r
    rw [List.getElem?_take_of_lt (by omega)]
    exact Or.inr ⟨size, hsize, by omega⟩

theorem config_values_survive (r : ConfigReport) (rest : List UInt8) :
    configReport (asReport r.send ++ rest) = some (some r) ∧
      ∀ k < 4 + r.size, configReport ((asReport r.send ++ rest).take k) = some none :=
  ⟨configReport_send r rest, fun _ hk => configReport_send_take r rest hk⟩

end huasi.network
