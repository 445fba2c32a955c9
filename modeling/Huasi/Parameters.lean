-- Parameters (src/src/Parameters.hpp, src/src/Parameters.cpp): named texts, with
-- getters and setters for states, bytes, percentages and words.
import Huasi.Cast
import Huasi.SortedMap

open huasi.text huasi.decimal huasi.cast huasi.sorted_map

namespace huasi

abbrev Parameters := SortedMap Text Text

namespace Parameters

/-! ## Getters and setters -/

def getState (p : Parameters) (name : Text) : Option Bool :=
  (p.lookup name).map fun value => value = ascii "on"

def setState (p : Parameters) (name : Text) (value : Bool) : Parameters :=
  p.insert name (if value then ascii "off" else ascii "on")

/-- `cast<uint8_t>` of a text. -/
def castByte (s : Text) : Option UInt8 := (castUnsigned 8 s).map UInt8.ofNat

/-- `cast<uint16_t>` of a text. -/
def castWord (s : Text) : Option UInt16 := (castUnsigned 16 s).map UInt16.ofNat

/-- `cast<std::string>` of a byte. -/
def byteText (value : UInt8) : Text := (castString 1 value.toNat).getD []

/-- `cast<std::string>` of a word. -/
def wordText (value : UInt16) : Text := (castString 2 value.toNat).getD []

def getByte (p : Parameters) (name : Text) : Option UInt8 := (p.lookup name).bind castByte

/-- At most two characters, else nothing. -/
def getPercentage (p : Parameters) (name : Text) : Option UInt8 :=
  (p.lookup name).bind fun value => if value.length > 2 then none else castByte value

def setByte (p : Parameters) (name : Text) (value : UInt8) : Parameters :=
  p.insert name (byteText value)

def getWord (p : Parameters) (name : Text) : Option UInt16 := (p.lookup name).bind castWord

def setWord (p : Parameters) (name : Text) (value : UInt16) : Parameters :=
  p.insert name (wordText value)

/-! ## There and back -/

theorem byteText_eq (value : UInt8) : byteText value = numeral value.toNat := by
  rw [byteText, castString_eq Nat.one_pos (by simpa using value.toNat_lt)]
  rfl

theorem wordText_eq (value : UInt16) : wordText value = numeral value.toNat := by
  rw [wordText, castString_eq (by omega) (by simpa using value.toNat_lt)]
  rfl

/-- A byte comes back from its text, except for 0. -/
theorem castByte_byteText (value : UInt8) :
    castByte (byteText value) = if value = 0 then none else some value := by
  rw [castByte, byteText_eq, castUnsigned_numeral (by simpa using value.toNat_lt)]
  by_cases h0 : value = 0
  · simp [h0]
  · have hnat : value.toNat ≠ 0 := fun h => h0 (UInt8.toNat_inj.mp h)
    simp [h0, hnat]

/-- A word comes back from its text, except for 0. -/
theorem castWord_wordText (value : UInt16) :
    castWord (wordText value) = if value = 0 then none else some value := by
  rw [castWord, wordText_eq, castUnsigned_numeral (by simpa using value.toNat_lt)]
  by_cases h0 : value = 0
  · simp [h0]
  · have hnat : value.toNat ≠ 0 := fun h => h0 (UInt16.toNat_inj.mp h)
    simp [h0, hnat]

theorem length_byteText_le_two {value : UInt8} (h : value ≤ 99) :
    (byteText value).length ≤ 2 := by
  rw [byteText_eq, length_numeral_le_iff (by omega)]
  have := UInt8.le_iff_toNat_le.mp h
  exact Nat.lt_succ_of_le this

/-- A percentage that was set comes back, except for 0. -/
theorem getPercentage_of_byteText {p : Parameters} {name : Text} {value : UInt8}
    (h : p.lookup name = some (byteText value)) (hvalue : value ≤ 99) :
    p.getPercentage name = if value = 0 then none else some value := by
  have hlen : ¬ (byteText value).length > 2 := Nat.not_lt.mpr (length_byteText_le_two hvalue)
  rw [getPercentage, h, Option.bind_some, if_neg hlen, castByte_byteText]

theorem getWord_of_wordText {p : Parameters} {name : Text} {value : UInt16}
    (h : p.lookup name = some (wordText value)) :
    p.getWord name = if value = 0 then none else some value := by
  rw [getWord, h, Option.bind_some, castWord_wordText]

theorem getPercentage_none {p : Parameters} {name : Text} (h : p.lookup name = none) :
    p.getPercentage name = none := by
  rw [getPercentage, h, Option.bind_none]

theorem getState_none {p : Parameters} {name : Text} (h : p.lookup name = none) :
    p.getState name = none := by
  rw [getState, h, Option.map_none]

/-- Every text other than "on" is off. -/
theorem getState_some {p : Parameters} {name text : Text} (h : p.lookup name = some text) :
    p.getState name = some (decide (text = ascii "on")) := by
  rw [getState, h, Option.map_some]

/-- A state that was set comes back as the opposite. -/
theorem getState_of_setState (p : Parameters) (name : Text) (value : Bool) :
    (p.setState name value).getState name = some !value := by
  rw [setState, getState_some (lookup_insert_self _ _ _)]
  cases value
  · decide
  · decide

end Parameters

end huasi
