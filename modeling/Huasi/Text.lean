-- Text as std::string holds it: bytes, in the order of their values. Literals
-- stand for the bytes of their characters.
import Mathlib.Data.List.Lex
import Mathlib.Order.Defs.LinearOrder

namespace huasi.text

abbrev Text := List UInt8

/-- The bytes of a literal. -/
def ascii (s : String) : Text := s.toUTF8.data.toList

/-- The end of a line of HTTP. -/
def crlf : Text := [13, 10]

/-- `isspace` -/
def isSpace (ch : UInt8) : Bool := ch = 32 ∨ (9 ≤ ch ∧ ch ≤ 13)

/-- Bytes compare as unsigned numbers (`std::char_traits<char>::compare`). -/
instance linearOrderByte : LinearOrder UInt8 where
  le_refl := UInt8.le_refl
  le_trans _ _ _ := UInt8.le_trans
  le_antisymm _ _ := UInt8.le_antisymm
  le_total := UInt8.le_total
  lt_iff_le_not_ge a b := by
    rw [UInt8.lt_iff_toNat_lt, UInt8.le_iff_toNat_le, UInt8.le_iff_toNat_le]
    omega
  toDecidableLE := inferInstance
  toDecidableLT := inferInstance
  toDecidableEq := inferInstance

/-- What stands in front of the first separator or of the end, and the rest. -/
theorem takeWhile_piece {l rest : Text} {c : UInt8} (h : c ∉ l)
    (hrest : rest = [] ∨ ∃ more, rest = c :: more) :
    (l ++ rest).takeWhile (· ≠ c) = l ∧ (l ++ rest).dropWhile (· ≠ c) = rest := by
  induction l with
  | nil =>
    rcases hrest with rfl | ⟨more, rfl⟩
    · exact ⟨rfl, rfl⟩
    · simp
  | cons b l ih =>
    obtain ⟨hb, hl⟩ := not_or.mp (List.mem_cons.not.mp h)
    obtain ⟨htake, hdrop⟩ := ih hl
    have hne : b ≠ c := Ne.symm hb
    rw [List.cons_append]
    constructor
    · rw [List.takeWhile_cons_of_pos (by simpa using hne), htake]
    · rw [List.dropWhile_cons_of_pos (by simpa using hne), hdrop]

theorem takeWhile_separator {l : Text} {c : UInt8} (more : Text) (h : c ∉ l) :
    (l ++ c :: more).takeWhile (· ≠ c) = l ∧ (l ++ c :: more).dropWhile (· ≠ c) = c :: more :=
  takeWhile_piece h (Or.inr ⟨more, rfl⟩)

end huasi.text
