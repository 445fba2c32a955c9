-- cast (src/src/cast.hpp): text to integer and integer to text.
import Mathlib.Tactic.Ring
import Huasi.Decimal
import Huasi.Text

open huasi.text huasi.decimal

namespace huasi.cast

/-! ## Text to integer -/

/-- One turn of the loop of `cast<D>`, for an unsigned `D` of `w` bits. -/
def castDigit (w offset value : Nat) (ch : UInt8) : Option Nat :=
  -- check if digit
  if ch < 48 ∨ 57 < ch then none
  else
    let nextValue := (value * 10 + (ch.toNat - 48)) % 2 ^ w
    -- check for overflow
    if (offset + nextValue) % 2 ^ w ≤ value then none else some nextValue

/-- `cast<D>(s)` for an unsigned `D` of `w` bits. An empty text is 0. -/
def castUnsigned (w : Nat) (s : Text) : Option Nat :=
  match s with
  | [] => some 0
  | sign :: rest =>
    -- offset for overflow check: maximum for '-', minimum otherwise
    let offset := if sign = 45 then 2 ^ w - 1 else 0
    let digits := if sign = 45 ∨ sign = 43 then rest else sign :: rest
    (digits.foldlM (castDigit w offset) 0).map fun value =>
      if sign = 45 then (2 ^ w - value) % 2 ^ w else value

/-! ## Integer to text -/

/-- The loop of `cast<std::string>`: digits go backwards into the buffer, which has `b` places in
front of what is written already. -/
def writeDigits : (b : Nat) → (value : Nat) → Text → Option Text
  | 0, _, _ => none
  | b + 1, value, written =>
    let written := UInt8.ofNat (48 + value % 10) :: written
    if value / 10 > 0 then writeDigits b (value / 10) written else some written

/-- `cast<std::string>(value)` for an unsigned type of `bytes` bytes. The buffer has
`bytes * 3 + 2` places, and the last one is for the 0 at the end. -/
def castString (bytes value : Nat) : Option Text := writeDigits (bytes * 3 + 1) value []

theorem writeDigits_eq {b value : Nat} (hb : 0 < b) (h : value < 10 ^ b) (written : Text) :
    writeDigits b value written = some (numeral value ++ written) := by
  induction b generalizing value written with
  | zero => omega
  | succ b ih =>
    unfold writeDigits
    rcases Nat.lt_or_ge value 10 with hlt | hge
    · have hmod : value % 10 = value := Nat.mod_eq_of_lt hlt
      rw [if_neg (by omega), numeral_of_lt hlt, hmod]
      rfl
    · have hb' : 0 < b := by
        by_contra h0
        obtain rfl : b = 0 := by omega
        omega
      have hdiv : value / 10 < 10 ^ b := by
        rw [Nat.div_lt_iff_lt_mul (by omega)]
        rwa [Nat.pow_succ] at h
      rw [if_pos (by omega), ih hb' hdiv, numeral_of_le hge, List.append_assoc]
      rfl

/-- Three digits are enough for a byte. -/
theorem lt_pow_ten {bytes value : Nat} (h : value < 256 ^ bytes) : value < 10 ^ (3 * bytes) := by
  calc value < 256 ^ bytes := h
    _ ≤ 1000 ^ bytes := Nat.pow_le_pow_left (by omega) bytes
    _ = 10 ^ (3 * bytes) := by rw [Nat.pow_mul]

/-- Every value of the type has its numeral, and the numeral fits the buffer. -/
theorem castString_eq {bytes value : Nat} (hbytes : 0 < bytes) (h : value < 256 ^ bytes) :
    castString bytes value = some (numeral value) := by
  have hfits : value < 10 ^ (bytes * 3 + 1) := by
    calc value < 10 ^ (3 * bytes) := lt_pow_ten h
      _ ≤ 10 ^ (bytes * 3 + 1) := Nat.pow_le_pow_right (by omega) (by omega)
  rw [castString, writeDigits_eq (by omega) hfits, List.append_nil]

/-- The places that the loop writes and what it writes there, with the pointer at `b` before. -/
def writes (b : Int) (value : Nat) : List (Int × UInt8) :=
  let written := (b - 1, UInt8.ofNat (48 + value % 10))
  if value / 10 > 0 then written :: writes (b - 1) (value / 10) else [written]
termination_by value

/-- The loop writes the numeral from its end on, one place after the other. -/
theorem writes_eq (b : Int) (value : Nat) :
    writes b value = (numeral value).reverse.mapIdx fun i c => (b - 1 - i, c) := by
  induction value using Nat.strongRecOn generalizing b with
  | ind value ih =>
    unfold writes
    rcases Nat.lt_or_ge value 10 with hlt | hge
    · rw [if_neg (by omega), numeral_of_lt hlt, Nat.mod_eq_of_lt hlt]
      simp [digit]
    · rw [if_pos (by omega), ih (value / 10) (by omega), numeral_of_le hge,
        List.reverse_append, List.reverse_singleton, List.singleton_append, List.mapIdx_cons]
      congr 1
      · simp [digit]
      · apply List.mapIdx_eq_mapIdx_iff.mpr
        intro i hi
        rw [Int.natCast_add]
        congr 1
        omega

/-- The pointer stays between the start of what the numeral takes and the place of the 0. -/
theorem writes_place {b : Int} {value : Nat} {p : Int × UInt8} (hp : p ∈ writes b value) :
    b - (numeral value).length ≤ p.1 ∧ p.1 < b := by
  rw [writes_eq] at hp
  obtain ⟨i, hi, rfl⟩ := List.mem_mapIdx.mp hp
  rw [List.length_reverse] at hi
  dsimp only
  omega

/-- What is written is the text, from its end on. -/
theorem writes_text (b : Int) (value : Nat) :
    ((writes b value).map (·.2)).reverse = numeral value := by
  have hchars : (writes b value).map (·.2) = (numeral value).reverse := by
    rw [writes_eq]
    apply List.ext_getElem
    · rw [List.length_map, List.length_mapIdx]
    · intro i hi hi'
      rw [List.getElem_map, List.getElem_mapIdx]
  rw [hchars, List.reverse_reverse]

/-- `cast<std::string>` makes the one row of digits without leading zeros that stands for the
value, and it writes it between the start of the buffer and the 0 at its end. -/
theorem castString_is_canonical {bytes value : Nat} (hbytes : 1 ≤ bytes)
    (h : value < 256 ^ bytes) :
    (∃ s, castString bytes value = some s ∧ Canonical s value ∧
      (∀ t, Canonical t value → t = s) ∧
      ((writes (3 * bytes + 2 - 1) value).map (·.2)).reverse = s) ∧
    ∀ p ∈ writes (3 * bytes + 2 - 1) value, 0 ≤ p.1 ∧ p.1 < 3 * bytes + 2 - 1 := by
  constructor
  · exact ⟨numeral value, castString_eq hbytes h, canonical_numeral value,
      fun t ht => ht.eq_numeral, writes_text _ value⟩
  · intro p hp
    obtain ⟨hlow, hhigh⟩ := writes_place hp
    have hlength : (numeral value).length ≤ 3 * bytes :=
      (length_numeral_le_iff (by omega)).mpr (lt_pow_ten h)
    exact ⟨by omega, hhigh⟩

theorem castString_is_canonical_example :
    castString 1 255 = some (ascii "255") ∧ Canonical (ascii "255") 255 ∧
      ∀ p ∈ writes (3 * 1 + 2 - 1) 255, 0 ≤ p.1 := by
  have hlt : 255 < 256 ^ 1 := by decide
  obtain ⟨⟨s, hs, hcanonical, -⟩, hwrites⟩ := castString_is_canonical (Nat.le_refl 1) hlt
  have heval : castString 1 255 = some (ascii "255") := by decide
  rw [heval] at hs
  cases hs
  exact ⟨heval, hcanonical, fun p hp => (hwrites p hp).1⟩

/-! ## There and back -/

/-- On the numeral of a number that fits, the loop comes to the number, except for 0: the check for
overflow takes the first digit 0 for one. -/
theorem foldlM_castDigit_numeral {w n : Nat} (h : n < 2 ^ w) :
    (numeral n).foldlM (castDigit w 0) 0 = if n = 0 then none else some n := by
  induction n using Nat.strongRecOn with
  | ind n ih =>
    have hstep : ∀ value d, d < 10 → value * 10 + d = n →
        castDigit w 0 value (digit d) = if n ≤ value then none else some n := by
      intro value d hd hn
      obtain ⟨hlow, hhigh⟩ := isDigit_digit d hd
      have hval : (digit d).toNat - 48 = d := digitValue_digit d hd
      unfold castDigit
      rw [if_neg (by rw [not_or]; exact ⟨UInt8.not_lt.mpr hlow, UInt8.not_lt.mpr hhigh⟩), hval, hn]
      simp only [Nat.zero_add, Nat.mod_eq_of_lt h]
    rcases Nat.lt_or_ge n 10 with hlt | hge
    · rw [numeral_of_lt hlt]
      simp only [List.foldlM_cons, List.foldlM_nil, hstep 0 n hlt (by omega), Nat.le_zero]
      split <;> rfl
    · rw [numeral_of_le hge, List.foldlM_append, ih (n / 10) (by omega) (by omega),
        if_neg (by omega), if_neg (by omega)]
      have hlast := hstep (n / 10) (n % 10) (Nat.mod_lt n (by omega)) (by omega)
      rw [if_neg (by omega)] at hlast
      simp [hlast]

/-- `cast<D>(cast<std::string>(n))`. -/
theorem castUnsigned_numeral {w n : Nat} (h : n < 2 ^ w) :
    castUnsigned w (numeral n) = if n = 0 then none else some n := by
  have hdigits := foldlM_castDigit_numeral h
  cases hn : numeral n with
  | nil => exact absurd hn (numeral_ne_nil n)
  | cons sign rest =>
    obtain ⟨hlow, -⟩ : IsDigit sign := isDigit_of_mem_numeral (n := n) (by simp [hn])
    have hminus : sign ≠ 45 := fun h => absurd (h ▸ hlow) (by decide)
    have hplus : sign ≠ 43 := fun h => absurd (h ▸ hlow) (by decide)
    rw [hn] at hdigits
    simp only [castUnsigned, hminus, hplus, if_false, or_self, hdigits]
    split <;> rfl

end huasi.cast
