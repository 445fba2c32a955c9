-- When cast (src/src/cast.hpp) reads a numeral right. The check for overflow compares
-- values modulo the width of the type: it misses numbers that wrap past the value before,
-- and it takes a leading 0 for an overflow.
import Mathlib.Data.List.Induction
import Huasi.Parameters

open huasi.text huasi.decimal

namespace huasi.cast

/-! ## Numerals with a sign -/

/-- The text without its sign. -/
def digitsOf : Text → Text
  | [] => []
  | sign :: rest => if sign = 45 ∨ sign = 43 then rest else sign :: rest

def Negative (s : Text) : Prop := s.head? = some 45

instance (s : Text) : Decidable (Negative s) := inferInstanceAs (Decidable (_ = _))

/-- A row of digits with or without a sign, one digit at least. -/
def IsNumeral (s : Text) : Prop := digitsOf s ≠ [] ∧ ∀ b ∈ digitsOf s, IsDigit b

/-- The number that the text stands for. -/
def valueOf (s : Text) : Int :=
  if Negative s then -(number (digitsOf s) : Int) else number (digitsOf s)

/-- Every value that `cast` returns is the value of the text: of a numeral, or 0 of the empty
text. -/
def Sound (w : Nat) (s : Text) : Prop :=
  ∀ v, castUnsigned w s = some v → (s = [] ∨ IsNumeral s) ∧ valueOf s = v

/-- What the check for overflow adds: the maximum after a '-'. -/
def offsetOf (w : Nat) (s : Text) : Nat := if Negative s then 2 ^ w - 1 else 0

/-- The check for overflow hits at one of the digits: the number up to there, with the offset, is
modulo `2 ^ w` not above the number before. -/
def Caught (w offset : Nat) (digits : Text) : Prop :=
  ∃ front b, front ++ [b] <+: digits ∧
    (offset + number (front ++ [b])) % 2 ^ w ≤ number front % 2 ^ w

/-! ## The loop over the digits -/

/-- One turn, at a number that is known modulo `2 ^ w`. -/
theorem castDigit_some_iff {w offset v : Nat} {front : Text} {b : UInt8} :
    castDigit w offset (number front % 2 ^ w) b = some v ↔ IsDigit b ∧
      number front % 2 ^ w < (offset + number (front ++ [b])) % 2 ^ w ∧
      v = number (front ++ [b]) % 2 ^ w := by
  have hnext : (number front % 2 ^ w * 10 + (b.toNat - 48)) % 2 ^ w =
      number (front ++ [b]) % 2 ^ w := by
    rw [number_snoc, digitValue, Nat.mul_comm 10, Nat.add_mod, Nat.mod_mul_mod, ← Nat.add_mod]
  unfold castDigit
  simp only [hnext, Nat.add_mod_mod]
  by_cases hdigit : b < 48 ∨ 57 < b
  · rw [if_pos hdigit]
    refine iff_of_false (fun h => by cases h) ?_
    rintro ⟨⟨hlow, hhigh⟩, -⟩
    rcases hdigit with hlt | hlt
    · exact absurd hlow (UInt8.not_le.mpr hlt)
    · exact absurd hhigh (UInt8.not_le.mpr hlt)
  · rw [if_neg hdigit]
    rw [not_or, UInt8.not_lt, UInt8.not_lt] at hdigit
    by_cases hcheck : (offset + number (front ++ [b])) % 2 ^ w ≤ number front % 2 ^ w
    · rw [if_pos hcheck]
      refine iff_of_false (fun h => by cases h) ?_
      rintro ⟨-, hlt, -⟩
      omega
    · rw [if_neg hcheck, Option.some.injEq, eq_comm]
      exact ⟨fun h => ⟨hdigit, by omega, h⟩, fun h => h.2.2⟩

theorem caught_snoc {w offset : Nat} {digits : Text} {b : UInt8} :
    Caught w offset (digits ++ [b]) ↔ Caught w offset digits ∨
      (offset + number (digits ++ [b])) % 2 ^ w ≤ number digits % 2 ^ w := by
  constructor
  · rintro ⟨front, c, hprefix, hcheck⟩
    rcases List.prefix_concat_iff.mp hprefix with heq | hprefix
    · obtain ⟨rfl, hc⟩ := List.append_inj' heq rfl
      obtain rfl : c = b := List.singleton_inj.mp hc
      exact Or.inr hcheck
    · exact Or.inl ⟨front, c, hprefix, hcheck⟩
  · rintro (⟨front, c, hprefix, hcheck⟩ | hcheck)
    · exact ⟨front, c, hprefix.trans (List.prefix_append _ _), hcheck⟩
    · exact ⟨digits, b, List.prefix_refl _, hcheck⟩

theorem not_caught_nil (w offset : Nat) : ¬ Caught w offset [] := by
  rintro ⟨front, b, hprefix, -⟩
  have := hprefix.length_le
  simp at this

/-- The loop comes to its end exactly for digits at which the check does not hit, and it ends with
their number modulo `2 ^ w`. -/
theorem castDigits_some_iff {w offset v : Nat} {digits : Text} :
    digits.foldlM (castDigit w offset) 0 = some v ↔ (∀ b ∈ digits, IsDigit b) ∧
      ¬ Caught w offset digits ∧ v = number digits % 2 ^ w := by
  induction digits using List.reverseRecOn generalizing v with
  | nil =>
    have hzero : number [] % 2 ^ w = 0 := Nat.zero_mod _
    rw [List.foldlM_nil, hzero]
    constructor
    · intro h
      refine ⟨?_, not_caught_nil w offset, (Option.some.inj h).symm⟩
      intro b hb
      cases hb
    · rintro ⟨-, -, rfl⟩
      rfl
  | append_singleton digits b ih =>
    rw [List.foldlM_append, Option.bind_eq_bind, Option.bind_eq_some_iff, caught_snoc, not_or,
      Nat.not_le]
    simp only [List.foldlM_cons, List.foldlM_nil, bind_pure]
    constructor
    · rintro ⟨n, hn, hb⟩
      obtain ⟨hdigits, hcaught, rfl⟩ := ih.mp hn
      obtain ⟨hdigit, hcheck, hv⟩ := castDigit_some_iff.mp hb
      refine ⟨?_, ⟨hcaught, hcheck⟩, hv⟩
      intro c hc
      rcases List.mem_append.mp hc with hc | hc
      · exact hdigits c hc
      · exact List.mem_singleton.mp hc ▸ hdigit
    · rintro ⟨hdigits, ⟨hcaught, hcheck⟩, hv⟩
      have hfront : ∀ c ∈ digits, IsDigit c := fun c hc =>
        hdigits c (List.mem_append_left _ hc)
      refine ⟨_, ih.mpr ⟨hfront, hcaught, rfl⟩, ?_⟩
      have hdigit : IsDigit b := hdigits b (List.mem_append_right _ List.mem_cons_self)
      exact castDigit_some_iff.mpr ⟨hdigit, hcheck, hv⟩

/-- What `cast` returns. -/
theorem castUnsigned_some_iff {w v : Nat} {s : Text} :
    castUnsigned w s = some v ↔ (∀ b ∈ digitsOf s, IsDigit b) ∧
      ¬ Caught w (offsetOf w s) (digitsOf s) ∧
      v = if Negative s then (2 ^ w - number (digitsOf s) % 2 ^ w) % 2 ^ w
        else number (digitsOf s) % 2 ^ w := by
  cases s with
  | nil =>
    have h := @castDigits_some_iff w 0 v []
    exact h
  | cons sign rest =>
    have hnegative : Negative (sign :: rest) ↔ sign = 45 := by simp [Negative]
    have hloop := fun n =>
      @castDigits_some_iff w (offsetOf w (sign :: rest)) n (digitsOf (sign :: rest))
    simp only [castUnsigned, Option.map_eq_some_iff]
    simp only [offsetOf, digitsOf, hnegative] at hloop ⊢
    simp only [hloop]
    constructor
    · rintro ⟨n, ⟨hdigits, hcaught, rfl⟩, hv⟩
      exact ⟨hdigits, hcaught, hv.symm⟩
    · rintro ⟨hdigits, hcaught, hv⟩
      exact ⟨_, ⟨hdigits, hcaught, rfl⟩, hv.symm⟩

/-! ## Soundness -/

theorem digitsOf_eq_nil_iff {s : Text} :
    digitsOf s = [] ↔ s = [] ∨ s = ascii "+" ∨ s = ascii "-" := by
  have hplus : ascii "+" = [43] := by decide
  have hminus : ascii "-" = [45] := by decide
  rw [hplus, hminus]
  cases s with
  | nil => simp [digitsOf]
  | cons sign rest =>
    simp only [digitsOf, List.cons_ne_nil, false_or, List.cons.injEq]
    split
    · rename_i hsign
      constructor
      · rintro rfl
        exact hsign.symm.imp (fun h => ⟨h, rfl⟩) fun h => ⟨h, rfl⟩
      · rintro (h | h)
        · exact h.2
        · exact h.2
    · rename_i hsign
      rw [not_or] at hsign
      refine iff_of_false (List.cons_ne_nil _ _) ?_
      rintro (h | h)
      · exact hsign.2 h.1
      · exact hsign.1 h.1

/-- The value that comes out is the value of the text exactly if that is a value of the type. -/
theorem value_eq_iff (w : Nat) (s : Text) :
    valueOf s = ((if Negative s then (2 ^ w - number (digitsOf s) % 2 ^ w) % 2 ^ w
        else number (digitsOf s) % 2 ^ w : Nat) : Int) ↔
      0 ≤ valueOf s ∧ valueOf s < ((2 ^ w : Nat) : Int) := by
  have hpos : 0 < 2 ^ w := Nat.two_pow_pos w
  unfold valueOf
  generalize number (digitsOf s) = n
  generalize 2 ^ w = m at hpos
  split
  · constructor
    · intro h
      omega
    · rintro ⟨hzero, -⟩
      obtain rfl : n = 0 := by omega
      rw [Nat.zero_mod, Nat.sub_zero, Nat.mod_self]
      rfl
  · constructor
    · intro h
      have hn : n = n % m := Int.ofNat_inj.mp h
      have hlt := Nat.mod_lt n hpos
      omega
    · rintro ⟨-, hlt⟩
      rw [Nat.mod_eq_of_lt (Int.ofNat_lt.mp hlt)]

/-- A text is read right exactly if it is no sign alone, and it has another character, or its value
is one of the type, or the check for overflow hits. -/
theorem cast_sound_iff (w : Nat) (s : Text) :
    Sound w s ↔ (s ≠ ascii "+" ∧ s ≠ ascii "-") ∧
      ((∃ b ∈ digitsOf s, ¬ IsDigit b) ∨ (0 ≤ valueOf s ∧ valueOf s < ((2 ^ w : Nat) : Int)) ∨
        Caught w (offsetOf w s) (digitsOf s)) := by
  by_cases hsign : s = ascii "+" ∨ s = ascii "-"
  · refine iff_of_false ?_ fun h => hsign.elim h.1.1 h.1.2
    intro hsound
    have hnil : digitsOf s = [] := digitsOf_eq_nil_iff.mpr (Or.inr hsign)
    have hcast : ∃ v, castUnsigned w s = some v := by
      refine ⟨_, castUnsigned_some_iff.mpr ⟨?_, ?_, rfl⟩⟩
      · rw [hnil]
        intro b hb
        cases hb
      · rw [hnil]
        exact not_caught_nil _ _
    obtain ⟨v, hv⟩ := hcast
    obtain ⟨rfl | hnumeral, -⟩ := hsound v hv
    · exact absurd hsign (by decide)
    · exact hnumeral.1 hnil
  · have hshape : s = [] ∨ digitsOf s ≠ [] := by
      by_cases hs : s = []
      · exact Or.inl hs
      · exact Or.inr fun h => hsign ((digitsOf_eq_nil_iff.mp h).resolve_left hs)
    have hvalue := value_eq_iff w s
    rw [not_or] at hsign
    constructor
    · intro hsound
      refine ⟨hsign, ?_⟩
      by_cases hdigits : ∀ b ∈ digitsOf s, IsDigit b
      · right
        by_cases hcaught : Caught w (offsetOf w s) (digitsOf s)
        · exact Or.inr hcaught
        · left
          have hcast := hsound _ (castUnsigned_some_iff.mpr ⟨hdigits, hcaught, rfl⟩)
          exact hvalue.mp hcast.2
      · left
        simpa using hdigits
    · rintro ⟨-, hcase⟩ v hv
      obtain ⟨hdigits, hcaught, rfl⟩ := castUnsigned_some_iff.mp hv
      refine ⟨hshape.imp_right fun h => ⟨h, hdigits⟩, hvalue.mpr ?_⟩
      rcases hcase with ⟨b, hb, hno⟩ | hrange | hhit
      · exact absurd (hdigits b hb) hno
      · exact hrange
      · exact absurd hhit hcaught

/-- 300 is read as the byte 44, and -5 as the word 65531. -/
theorem cast_unsound : ¬ Sound 8 (ascii "300") ∧ ¬ Sound 16 (ascii "-5") := by
  constructor
  · intro h
    have hvalue := (h 44 (by decide)).2
    revert hvalue
    decide
  · intro h
    have hvalue := (h 65531 (by decide)).2
    revert hvalue
    decide

/-! ## Completeness -/

theorem digitsOf_eq {s : Text} (h : ∀ b ∈ s, IsDigit b) : digitsOf s = s ∧ ¬ Negative s := by
  cases s with
  | nil => exact ⟨rfl, fun h => by cases h⟩
  | cons b s =>
    obtain ⟨hlow, -⟩ := h b List.mem_cons_self
    have hminus : b ≠ 45 := fun h => absurd (h ▸ hlow) (by decide)
    have hplus : b ≠ 43 := fun h => absurd (h ▸ hlow) (by decide)
    refine ⟨if_neg (not_or.mpr ⟨hminus, hplus⟩), ?_⟩
    unfold Negative
    rw [List.head?_cons, Option.some.injEq]
    exact hminus

theorem digitValue_eq_zero {b : UInt8} (h : IsDigit b) (hzero : digitValue b = 0) : b = 48 := by
  obtain ⟨d, hd, rfl⟩ := exists_digit h
  rw [digitValue_digit d hd] at hzero
  rw [hzero]
  rfl

/-- For a number of the type, the check for overflow hits exactly at a leading 0. -/
theorem caught_iff_leading_zero {w : Nat} {digits : Text} (h : ∀ b ∈ digits, IsDigit b)
    (hlt : number digits < 2 ^ w) : Caught w 0 digits ↔ digits.head? = some 48 := by
  constructor
  · rintro ⟨front, b, hprefix, hcheck⟩
    have hnext := number_le_of_prefix hprefix
    have hfront := number_le_of_prefix ((List.prefix_append front [b]).trans hprefix)
    rw [Nat.zero_add, Nat.mod_eq_of_lt (by omega), Nat.mod_eq_of_lt (by omega),
      number_snoc] at hcheck
    cases front with
    | nil =>
      have hzero : digitValue b = 0 := by omega
      have hmem : b ∈ digits := hprefix.subset (by simp)
      obtain ⟨more, rfl⟩ := hprefix
      rw [← digitValue_eq_zero (h b hmem) hzero]
      rfl
    | cons c front =>
      have hc : digitValue c ≤ number (c :: front) := by
        have hle := number_le_of_prefix (s := [c]) (t := c :: front) ⟨front, rfl⟩
        simpa [number] using hle
      have hzero : digitValue c = 0 := by omega
      have hmem : c ∈ digits := hprefix.subset (by simp)
      obtain ⟨more, rfl⟩ := hprefix
      rw [← digitValue_eq_zero (h c hmem) hzero]
      rfl
  · intro hhead
    obtain ⟨rest, rfl⟩ := List.head?_eq_some_iff.mp hhead
    refine ⟨[], 48, ⟨rest, rfl⟩, ?_⟩
    have hzero : number ([] ++ [48]) = 0 := rfl
    rw [hzero, Nat.add_zero, Nat.zero_mod]
    exact Nat.zero_le _

/-- A row of digits with a value of the type is read right exactly if it does not start with 0. -/
theorem castUnsigned_digits_iff {w : Nat} {s : Text} (hdigits : ∀ b ∈ s, IsDigit b)
    (hlt : number s < 2 ^ w) : castUnsigned w s = some (number s) ↔ s.head? ≠ some 48 := by
  obtain ⟨heq, hsign⟩ := digitsOf_eq hdigits
  rw [castUnsigned_some_iff, heq, if_neg hsign, Nat.mod_eq_of_lt hlt, offsetOf, if_neg hsign,
    caught_iff_leading_zero hdigits hlt]
  exact ⟨fun h => h.2.1, fun h => ⟨hdigits, h, rfl⟩⟩

theorem ite_eq_some_iff {α : Type} {c : Prop} [Decidable c] (x : α) :
    (if c then none else some x) = some x ↔ ¬ c := by
  by_cases hc : c
  · rw [if_pos hc]
    exact iff_of_false (fun h => by cases h) (not_not.mpr hc)
  · rw [if_neg hc]
    exact iff_of_true rfl hc

/-- What is printed is read again, except for 0. -/
theorem cast_castString_iff {bytes n : Nat} (hbytes : 0 < bytes) (h : n < 256 ^ bytes) :
    (castString bytes n).bind (castUnsigned (8 * bytes)) = some n ↔ n ≠ 0 := by
  have hwidth : n < 2 ^ (8 * bytes) := by
    rwa [Nat.pow_mul]
  rw [castString_eq hbytes h, Option.bind_some, castUnsigned_numeral hwidth]
  exact ite_eq_some_iff n

theorem getByte_setByte_iff (p : Parameters) (name : Text) (value : UInt8) :
    (p.setByte name value).getByte name = some value ↔ value ≠ 0 := by
  rw [Parameters.getByte, Parameters.setByte, sorted_map.lookup_insert_self, Option.bind_some,
    Parameters.castByte_byteText]
  exact ite_eq_some_iff value

theorem getWord_setWord_iff (p : Parameters) (name : Text) (value : UInt16) :
    (p.setWord name value).getWord name = some value ↔ value ≠ 0 := by
  rw [Parameters.getWord, Parameters.setWord, sorted_map.lookup_insert_self, Option.bind_some,
    Parameters.castWord_wordText]
  exact ite_eq_some_iff value

/-- Of the digits with a value of the type exactly those without a leading 0 are read right; so a
number that was printed or set comes back exactly if it is not 0. -/
theorem cast_complete_iff (p : Parameters) (name : Text) :
    (∀ (w : Nat) (s : Text), s ≠ [] → (∀ b ∈ s, IsDigit b) → number s < 2 ^ w →
      (castUnsigned w s = some (number s) ↔ s.head? ≠ some 48)) ∧
    (∀ bytes n : Nat, 0 < bytes → n < 256 ^ bytes →
      ((castString bytes n).bind (castUnsigned (8 * bytes)) = some n ↔ n ≠ 0)) ∧
    (∀ value : UInt8, (p.setByte name value).getByte name = some value ↔ value ≠ 0) ∧
    (∀ value : UInt16, (p.setWord name value).getWord name = some value ↔ value ≠ 0) := by
  refine ⟨?_, ?_, getByte_setByte_iff p name, getWord_setWord_iff p name⟩
  · intro w s _ hdigits hlt
    exact castUnsigned_digits_iff hdigits hlt
  · intro bytes n hbytes hlt
    exact cast_castString_iff hbytes hlt

/-- 42 is read from its digits, 1000 comes back from its text, and so does a byte that was set. -/
theorem cast_complete_iff_examples :
    castUnsigned 8 (ascii "42") = some (number (ascii "42")) ∧
      (castString 2 1000).bind (castUnsigned (8 * 2)) = some 1000 ∧
      (Parameters.setByte .empty (ascii "dim") 99).getByte (ascii "dim") = some 99 := by
  obtain ⟨hdigits, hprinted, hbyte, -⟩ := cast_complete_iff .empty (ascii "dim")
  have hall : ∀ b ∈ ascii "42", IsDigit b := by
    intro b hb
    rcases List.mem_cons.mp hb with rfl | hb
    · decide
    · obtain rfl := List.mem_singleton.mp hb
      decide
  refine ⟨?_, ?_, ?_⟩
  · apply (hdigits 8 (ascii "42") (by decide) hall (by decide)).mpr
    decide
  · apply (hprinted 2 1000 (by decide) (by decide)).mpr
    decide
  · apply (hbyte 99).mpr
    decide

/-- 0 is not read, and a byte 0 that was set does not come back. -/
theorem zero_is_not_read :
    castUnsigned 8 (ascii "0") ≠ some (number (ascii "0")) ∧
      (castString 1 0).bind (castUnsigned 8) ≠ some 0 ∧
      (Parameters.setByte .empty (ascii "dim") 0).getByte (ascii "dim") ≠ some 0 := by
  decide

end huasi.cast
