-- Decimal numerals as bytes: the numeral of a number, the number of a numeral,
-- and how both grow by one digit at the end.
import Mathlib.Data.Nat.Digits.Defs

namespace huasi.decimal

/-- The digit of a number below 10. -/
def digit (d : Nat) : UInt8 := UInt8.ofNat (48 + d)

def IsDigit (b : UInt8) : Prop := 48 ≤ b ∧ b ≤ 57

instance (b : UInt8) : Decidable (IsDigit b) := inferInstanceAs (Decidable (_ ∧ _))

def digitValue (b : UInt8) : Nat := b.toNat - 48

/-- The numeral of `n`, without leading zeros. -/
def numeral (n : Nat) : List UInt8 := (Nat.toDigits 10 n).map fun c => UInt8.ofNat c.toNat

/-- The number that a row of digits stands for. -/
def number (s : List UInt8) : Nat := s.foldl (fun n b => 10 * n + digitValue b) 0

theorem digit_digitChar : ∀ d < 10, UInt8.ofNat (Nat.digitChar d).toNat = digit d := by decide

theorem isDigit_digit : ∀ d < 10, IsDigit (digit d) := by decide

theorem digitValue_digit : ∀ d < 10, digitValue (digit d) = d := by decide

theorem exists_digit {b : UInt8} (h : IsDigit b) : ∃ d < 10, b = digit d := by
  obtain ⟨hlow, hhigh⟩ := h
  have hlow := UInt8.le_iff_toNat_le.mp hlow
  have hhigh := UInt8.le_iff_toNat_le.mp hhigh
  change 48 ≤ b.toNat at hlow
  change b.toNat ≤ 57 at hhigh
  refine ⟨b.toNat - 48, by omega, ?_⟩
  rw [digit, Nat.add_sub_cancel' hlow, UInt8.ofNat_toNat]

/-- A numeral is one digit, or a numeral and a last digit. -/
theorem numeral_eq_if (n : Nat) :
    numeral n = if n < 10 then [digit n] else numeral (n / 10) ++ [digit (n % 10)] := by
  unfold numeral
  rw [Nat.toDigits_eq_if (by omega)]
  split
  · rw [List.map_singleton, digit_digitChar n ‹_›]
  · rw [List.map_append, List.map_singleton, digit_digitChar _ (Nat.mod_lt n (by omega))]

theorem numeral_of_lt {n : Nat} (h : n < 10) : numeral n = [digit n] := by
  rw [numeral_eq_if, if_pos h]

theorem numeral_of_le {n : Nat} (h : 10 ≤ n) :
    numeral n = numeral (n / 10) ++ [digit (n % 10)] := by
  rw [numeral_eq_if, if_neg (by omega)]

theorem numeral_ne_nil (n : Nat) : numeral n ≠ [] := by
  simp [numeral]

theorem length_numeral_le_iff {n k : Nat} (hk : 0 < k) : (numeral n).length ≤ k ↔ n < 10 ^ k := by
  rw [numeral, List.length_map]
  exact Nat.length_toDigits_le_iff (by omega) hk

theorem isDigit_of_mem_numeral {n : Nat} {b : UInt8} (hb : b ∈ numeral n) : IsDigit b := by
  induction n using Nat.strongRecOn with
  | ind n ih =>
    rw [numeral_eq_if] at hb
    split at hb
    · rw [List.mem_singleton] at hb
      exact hb ▸ isDigit_digit n ‹_›
    · rw [List.mem_append, List.mem_singleton] at hb
      rcases hb with hb | rfl
      · exact ih (n / 10) (by omega) hb
      · exact isDigit_digit _ (Nat.mod_lt n (by omega))

theorem number_snoc (s : List UInt8) (b : UInt8) :
    number (s ++ [b]) = 10 * number s + digitValue b := by
  simp [number]

/-- A row of digits stands for at least as much as its front. -/
theorem number_le_of_prefix {s t : List UInt8} (h : s <+: t) : number s ≤ number t := by
  obtain ⟨u, rfl⟩ := h
  induction u generalizing s with
  | nil => rw [List.append_nil]
  | cons b u ih =>
    have hnext := ih (s := s ++ [b])
    rw [number_snoc, List.append_assoc, List.singleton_append] at hnext
    omega

theorem number_numeral (n : Nat) : number (numeral n) = n := by
  induction n using Nat.strongRecOn with
  | ind n ih =>
    rw [numeral_eq_if]
    split
    · rw [number, List.foldl_cons, List.foldl_nil, digitValue_digit n ‹_›]
      omega
    · rw [number_snoc, ih (n / 10) (by omega), digitValue_digit _ (Nat.mod_lt n (by omega))]
      omega

/-! ## Numerals without leading zeros -/

/-- A row of digits for `n` that begins with 0 only if it is the digit 0. -/
structure Canonical (s : List UInt8) (n : Nat) : Prop where
  ne_nil : s ≠ []
  isDigit : ∀ b ∈ s, IsDigit b
  number_eq : number s = n
  head_zero : s.head? = some 48 → s = [48]

theorem head?_append {s : List UInt8} (h : s ≠ []) (t : List UInt8) :
    (s ++ t).head? = s.head? := by
  cases s with
  | nil => exact absurd rfl h
  | cons b s => rfl

/-- A row that begins with another digit than 0 does not stand for 0. -/
theorem number_pos {s : List UInt8} (hne : s ≠ []) (hdigit : ∀ b ∈ s, IsDigit b)
    (hhead : s.head? ≠ some 48) : 0 < number s := by
  cases s with
  | nil => exact absurd rfl hne
  | cons b s =>
    obtain ⟨d, hd, rfl⟩ := exists_digit (hdigit b List.mem_cons_self)
    have hle : number [digit d] ≤ number (digit d :: s) :=
      number_le_of_prefix (List.prefix_append [digit d] s)
    have hvalue : number [digit d] = d := by
      rw [number, List.foldl_cons, List.foldl_nil, digitValue_digit d hd]
      exact Nat.zero_add d
    have hd0 : d ≠ 0 := by
      rintro rfl
      exact hhead rfl
    omega

theorem head_numeral {n : Nat} (h : (numeral n).head? = some 48) : n = 0 := by
  induction n using Nat.strongRecOn with
  | ind n ih =>
    rcases Nat.lt_or_ge n 10 with hlt | hge
    · rw [numeral_of_lt hlt] at h
      have hvalue := digitValue_digit n hlt
      rw [Option.some.inj h] at hvalue
      exact hvalue.symm
    · rw [numeral_of_le hge, head?_append (numeral_ne_nil _)] at h
      have hzero := ih (n / 10) (by omega) h
      omega

theorem canonical_numeral (n : Nat) : Canonical (numeral n) n where
  ne_nil := numeral_ne_nil n
  isDigit _ := isDigit_of_mem_numeral
  number_eq := number_numeral n
  head_zero h := by
    rw [head_numeral h]
    exact numeral_of_lt (by omega)

/-- There is one such row for each number. -/
theorem Canonical.eq_numeral {s : List UInt8} {n : Nat} (h : Canonical s n) : s = numeral n := by
  induction n using Nat.strongRecOn generalizing s with
  | ind n ih =>
    obtain ⟨front, b, rfl⟩ := (List.eq_nil_or_concat s).resolve_left h.ne_nil
    rw [List.concat_eq_append] at h ⊢
    obtain ⟨d, hd, rfl⟩ := exists_digit (h.isDigit b (by simp))
    have hn : 10 * number front + d = n := by
      rw [← h.number_eq, number_snoc, digitValue_digit d hd]
    rcases List.eq_nil_or_concat front with rfl | ⟨more, c, hfront⟩
    · obtain rfl : d = n := by
        rw [← hn]
        exact (Nat.zero_add d).symm
      exact (numeral_of_lt hd).symm
    · have hne : front ≠ [] := by
        rw [hfront, List.concat_eq_append]
        exact List.append_ne_nil_of_right_ne_nil _ (List.cons_ne_nil _ _)
      -- a front that begins with 0 would make the whole row begin with 0
      have hzero : front.head? ≠ some 48 := by
        intro hhead
        have hwhole := h.head_zero (by rw [head?_append hne, hhead])
        have hlength := congrArg List.length hwhole
        rw [List.length_append, List.length_singleton, List.length_singleton] at hlength
        exact hne (List.length_eq_zero_iff.mp (by omega))
      have hdigit : ∀ b ∈ front, IsDigit b := fun b hb =>
        h.isDigit b (List.mem_append_left _ hb)
      have hpos := number_pos hne hdigit hzero
      have hfront := ih (number front) (by omega) ⟨hne, hdigit, rfl, fun h => absurd h hzero⟩
      have hle : 10 ≤ n := by omega
      rw [numeral_of_le hle, show n / 10 = number front by omega, show n % 10 = d by omega,
        ← hfront]

end huasi.decimal
