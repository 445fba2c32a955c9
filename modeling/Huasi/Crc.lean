-- Cyclic redundancy checks. The register takes one bit after the other, and what it
-- holds is the remainder of a division of polynomials over the field of two elements.
-- A short error is not divisible by the generator, so it changes the remainder.
import Mathlib.Algebra.Field.ZMod
import Mathlib.Algebra.Polynomial.Div
import Mathlib.Algebra.Polynomial.RingDivision
import Mathlib.Tactic.LinearCombination

open Polynomial

namespace huasi.crc

/-! ## Multiples of a generator -/

/-- A generator that `X` does not divide does not divide a shorter polynomial, wherever it is
shifted to. -/
theorem not_dvd_shifted {R : Type} [CommRing R] [IsDomain R] {g e : R[X]} (hg : g.coeff 0 ≠ 0)
    (he : e ≠ 0) (hdegree : e.degree < g.degree) (k : Nat) : ¬ g ∣ X ^ k * e := by
  rintro ⟨q, hq⟩
  have hX : ¬ X ∣ g := by
    rw [X_dvd_iff]
    exact hg
  have hshifted : X ^ k ∣ g * q := ⟨e, hq.symm⟩
  obtain ⟨p, rfl⟩ := prime_X.pow_dvd_of_dvd_mul_left k hX hshifted
  have hcancel : e = g * p := by
    have hne : (X : R[X]) ^ k ≠ 0 := pow_ne_zero k X_ne_zero
    apply mul_left_cancel₀ hne
    rw [hq]
    ring
  exact he (eq_zero_of_dvd_of_degree_lt ⟨p, hcancel⟩ hdegree)

/-! ## The polynomial of a row of bits -/

/-- A bit as a coefficient. -/
def coefficient (b : Bool) : ZMod 2 := if b then 1 else 0

theorem coefficient_xor (a b : Bool) : coefficient (a ^^ b) = coefficient a + coefficient b := by
  revert a b
  decide

/-- The highest power comes first. -/
noncomputable def ofBits : List Bool → (ZMod 2)[X]
  | [] => 0
  | b :: l => C (coefficient b) * X ^ l.length + ofBits l

theorem ofBits_append (l m : List Bool) : ofBits (l ++ m) = ofBits l * X ^ m.length + ofBits m := by
  induction l with
  | nil => rw [List.nil_append, ofBits, zero_mul, zero_add]
  | cons b l ih =>
    rw [List.cons_append, ofBits, ofBits, ih, List.length_append, pow_add]
    ring

theorem ofBits_degree (l : List Bool) : (ofBits l).degree < l.length := by
  induction l with
  | nil => exact degree_zero.trans_lt (WithBot.bot_lt_coe 0)
  | cons b l ih =>
    have hless : (l.length : WithBot Nat) < (b :: l).length :=
      WithBot.coe_lt_coe.mpr (Nat.lt_succ_self _)
    have hterm : (C (coefficient b) * X ^ l.length : (ZMod 2)[X]).degree < (b :: l).length :=
      (degree_C_mul_X_pow_le _ _).trans_lt hless
    have hrest : (ofBits l).degree < (b :: l).length := ih.trans hless
    exact (degree_add_le _ _).trans_lt (max_lt hterm hrest)

theorem ofBits_zero {l : List Bool} (h : true ∉ l) : ofBits l = 0 := by
  induction l with
  | nil => rfl
  | cons b l ih =>
    obtain ⟨hb, hl⟩ := not_or.mp (List.mem_cons.not.mp h)
    obtain rfl := Bool.eq_false_of_not_eq_true fun hb' => hb hb'.symm
    rw [ofBits, ih hl, add_zero]
    exact mul_eq_zero_of_left C_0 _

theorem ofBits_ne_zero {l : List Bool} (h : true ∈ l) : ofBits l ≠ 0 := by
  obtain ⟨front, rest, rfl, hfront⟩ := List.eq_append_cons_of_mem h
  intro hzero
  rw [ofBits_append, ofBits_zero hfront, zero_mul, zero_add, ofBits] at hzero
  have hcoeff := congrArg (fun p => coeff p rest.length) hzero
  simp only [coeff_add, coeff_C_mul, coeff_X_pow_self, coeff_zero,
    coeff_eq_zero_of_degree_lt (ofBits_degree rest)] at hcoeff
  exact absurd hcoeff (by decide)

theorem ofBits_xor {l m : List Bool} (h : l.length = m.length) :
    ofBits (List.zipWith xor l m) = ofBits l + ofBits m := by
  induction l generalizing m with
  | nil =>
    obtain rfl := List.length_eq_zero_iff.mp h.symm
    exact (add_zero 0).symm
  | cons b l ih =>
    cases m with
    | nil => cases h
    | cons c m =>
      have hlen : l.length = m.length := Nat.succ.inj h
      rw [List.zipWith_cons_cons, ofBits, ofBits, ofBits, ih hlen, List.length_zipWith, ← hlen,
        Nat.min_self, coefficient_xor, C_add]
      ring

/-- No power is left over: the sum of a polynomial with itself is 0. -/
theorem add_self (p : (ZMod 2)[X]) : p + p = 0 := by
  rw [← two_mul, show (2 : (ZMod 2)[X]) = C 2 from rfl, show (2 : ZMod 2) = 0 from rfl, C_0,
    zero_mul]

theorem eq_of_xor {l m : List Bool} (hlen : l.length = m.length)
    (h : true ∉ List.zipWith xor l m) : l = m := by
  induction l generalizing m with
  | nil => exact (List.length_eq_zero_iff.mp hlen.symm).symm
  | cons b l ih =>
    cases m with
    | nil => cases hlen
    | cons c m =>
      obtain ⟨hbit, hrest⟩ := not_or.mp (List.mem_cons.not.mp h)
      rw [ih (Nat.succ.inj hlen) hrest]
      cases b <;> cases c <;> simp at hbit ⊢

/-- Equal polynomials, equal rows. -/
theorem ofBits_inj {l m : List Bool} (hlen : l.length = m.length) (h : ofBits l = ofBits m) :
    l = m := by
  apply eq_of_xor hlen
  intro hmem
  apply ofBits_ne_zero hmem
  rw [ofBits_xor hlen, h, add_self]

/-! ## Words -/

variable {w : Nat}

/-- The bits of a word, the most significant bit first. -/
def bits (r : BitVec w) : List Bool := List.ofFn fun i : Fin w => r.getMsbD i

@[simp] theorem bits_length (r : BitVec w) : (bits r).length = w := List.length_ofFn

theorem getElem_bits {r : BitVec w} {i : Nat} (h : i < (bits r).length) :
    (bits r)[i] = r.getMsbD i := List.getElem_ofFn h

theorem bits_xor (r s : BitVec w) : bits (r ^^^ s) = List.zipWith xor (bits r) (bits s) := by
  apply List.ext_getElem
  · rw [List.length_zipWith, bits_length, bits_length, bits_length, Nat.min_self]
  · intro i hl hr
    rw [List.getElem_zipWith, getElem_bits, getElem_bits, getElem_bits, BitVec.getMsbD_xor]

theorem bits_inj {r s : BitVec w} (h : bits r = bits s) : r = s := by
  apply BitVec.eq_of_getMsbD_eq
  intro i hi
  have hr : i < (bits r).length := by rwa [bits_length]
  have hs : i < (bits s).length := by rwa [bits_length]
  rw [← getElem_bits hr, ← getElem_bits hs]
  simp only [h]

theorem ofBits_bits_xor (r s : BitVec w) :
    ofBits (bits (r ^^^ s)) = ofBits (bits r) + ofBits (bits s) := by
  rw [bits_xor, ofBits_xor (by rw [bits_length, bits_length])]

theorem ofBits_bits_zero : ofBits (bits (0 : BitVec w)) = 0 := by
  apply ofBits_zero
  intro hmem
  obtain ⟨i, hi⟩ := List.mem_ofFn.mp hmem
  simp at hi

/-- What a shift pushes out at one end comes in at the other. -/
theorem bits_shiftLeft (r : BitVec w) : r.msb :: bits (r <<< 1) = bits r ++ [false] := by
  apply List.ext_getElem
  · simp
  · intro i hl hr
    have hi : i ≤ w := by simpa [Nat.lt_succ_iff] using hr
    have hbit : (bits r ++ [false])[i] = r.getMsbD i := by
      by_cases hlt : i < w
      · rw [List.getElem_append_left (by rwa [bits_length]), getElem_bits]
      · have heq : i = w := by omega
        simp [heq, BitVec.getMsbD]
    rw [hbit]
    cases i with
    | zero => exact BitVec.msb_eq_getMsbD_zero r
    | succ i =>
      rw [List.getElem_cons_succ, getElem_bits, BitVec.getMsbD_shiftLeft]

/-! ## The register -/

/-- The next bit of a message is shifted in. -/
def feed (g r : BitVec w) (b : Bool) : BitVec w :=
  r <<< 1 ^^^ (if r.msb ^^ b then g else 0)

/-- The check of a message. -/
def check (g : BitVec w) (message : List Bool) : BitVec w := message.foldl (feed g) 0

/-- The generator that a word stands for: its highest power is not in the word. -/
noncomputable def generator (g : BitVec w) : (ZMod 2)[X] := X ^ w + ofBits (bits g)

theorem ofBits_bits_degree (r : BitVec w) : (ofBits (bits r)).degree < w := by
  have hdegree := ofBits_degree (bits r)
  rwa [bits_length] at hdegree

theorem generator_monic (g : BitVec w) : (generator g).Monic :=
  monic_X_pow_add (ofBits_bits_degree g)

theorem generator_degree (g : BitVec w) : (generator g).degree = w := by
  have hless : (ofBits (bits g)).degree < (X ^ w : (ZMod 2)[X]).degree := by
    rw [degree_X_pow]
    exact ofBits_bits_degree g
  rw [generator, degree_add_eq_left_of_degree_lt hless, degree_X_pow]

/-- A turn of the register is a step of the division: the generator is taken away if there is a
highest power to cancel. -/
theorem ofBits_feed (g r : BitVec w) (b : Bool) :
    ofBits (bits r) * X + C (coefficient b) * X ^ w =
      C (coefficient (r.msb ^^ b)) * generator g + ofBits (bits (feed g r b)) := by
  have hshift : C (coefficient r.msb) * X ^ w + ofBits (bits (r <<< 1)) = ofBits (bits r) * X := by
    have hbits := congrArg ofBits (bits_shiftLeft r)
    have hfalse : ofBits [false] = 0 := ofBits_zero (by simp)
    rw [ofBits_append, hfalse, add_zero, List.length_singleton, pow_one, ofBits, bits_length]
      at hbits
    exact hbits
  have htaken : ofBits (bits (if r.msb ^^ b then g else 0)) =
      C (coefficient (r.msb ^^ b)) * ofBits (bits g) := by
    cases r.msb ^^ b with
    | true => exact (one_mul _).symm
    | false => exact ofBits_bits_zero.trans (mul_eq_zero_of_left C_0 _).symm
  have hself := add_self (C (coefficient (r.msb ^^ b)) * ofBits (bits g))
  rw [feed, ofBits_bits_xor, htaken, generator, ← hshift]
  rw [coefficient_xor, C_add] at hself ⊢
  linear_combination -hself

/-- The register holds the remainder of what it was fed, behind what it held. -/
theorem ofBits_foldl (g r : BitVec w) (l : List Bool) :
    ofBits (bits (l.foldl (feed g) r)) =
      (ofBits (bits r) * X ^ l.length + ofBits l * X ^ w) %ₘ generator g := by
  induction l generalizing r with
  | nil =>
    rw [List.foldl_nil, List.length_nil, pow_zero, mul_one, ofBits, zero_mul, add_zero]
    symm
    rw [modByMonic_eq_self_iff (generator_monic g), generator_degree]
    exact ofBits_bits_degree r
  | cons b l ih =>
    rw [List.foldl_cons, ih]
    apply modByMonic_eq_of_dvd_sub (generator_monic g)
    refine ⟨-C (coefficient (r.msb ^^ b)) * X ^ l.length, ?_⟩
    have hfeed := ofBits_feed g r b
    rw [List.length_cons, ofBits, pow_succ]
    linear_combination -X ^ l.length * hfeed

/-- The check of a message is the remainder of the message with room for it. -/
theorem ofBits_check (g : BitVec w) (message : List Bool) :
    ofBits (bits (check g message)) = (ofBits message * X ^ w) %ₘ generator g := by
  rw [check, ofBits_foldl, ofBits_bits_zero, zero_mul, zero_add]

/-- A word is fed as if it were in the register before. -/
theorem foldl_bits (g r b : BitVec w) : (bits b).foldl (feed g) r = check g (bits (r ^^^ b)) := by
  apply bits_inj
  apply ofBits_inj
  · rw [bits_length, bits_length]
  · rw [ofBits_check, ofBits_foldl, bits_length, ofBits_bits_xor, add_mul]

/-! ## Errors -/

/-- A message with its check is a multiple of the generator, and with no other word it is. -/
theorem check_eq_iff (g : BitVec w) (message : List Bool) (c : BitVec w) :
    check g message = c ↔ generator g ∣ ofBits (message ++ bits c) := by
  rw [ofBits_append, bits_length]
  constructor
  · rintro rfl
    rw [← modByMonic_eq_zero_iff_dvd (generator_monic g), add_modByMonic, ← ofBits_check,
      (modByMonic_eq_self_iff (generator_monic g)).mpr ?_, add_self]
    rw [generator_degree]
    exact ofBits_bits_degree _
  · rintro ⟨q, hq⟩
    apply bits_inj
    apply ofBits_inj
    · rw [bits_length, bits_length]
    · have hc : (ofBits (bits c)).degree < (generator g).degree := by
        rw [generator_degree]
        exact ofBits_bits_degree c
      rw [ofBits_check, ← (modByMonic_eq_self_iff (generator_monic g)).mpr hc]
      apply modByMonic_eq_of_dvd_sub (generator_monic g)
      refine ⟨q, ?_⟩
      have hself := add_self (ofBits (bits c))
      linear_combination hq - hself

/-- The bits that are wrong are among `n` consecutive ones. -/
def Confined (n : Nat) (error : List Bool) : Prop :=
  ∃ i, ∀ k, error[k]? = some true → i ≤ k ∧ k < i + n

/-- Such an error is a short polynomial that is shifted. -/
theorem Confined.exists_shift {n : Nat} {error : List Bool} (h : Confined n error)
    (hmem : true ∈ error) :
    ∃ (k : Nat) (e : (ZMod 2)[X]), ofBits error = X ^ k * e ∧ e ≠ 0 ∧ e.degree < n := by
  obtain ⟨i, hi⟩ := h
  have hsplit : error = error.take i ++ ((error.drop i).take n ++ error.drop (i + n)) := by
    rw [← List.drop_drop, List.take_append_drop, List.take_append_drop]
  have hfront : true ∉ error.take i := by
    intro hin
    obtain ⟨k, hk⟩ := List.mem_iff_getElem?.mp hin
    rw [List.getElem?_take] at hk
    split at hk
    · have hinside := hi k hk
      omega
    · cases hk
  have hback : true ∉ error.drop (i + n) := by
    intro hin
    obtain ⟨k, hk⟩ := List.mem_iff_getElem?.mp hin
    rw [List.getElem?_drop] at hk
    have hinside := hi _ hk
    omega
  have hmiddle : true ∈ (error.drop i).take n := by
    rw [hsplit, List.mem_append, List.mem_append] at hmem
    exact (hmem.resolve_left hfront).resolve_right hback
  refine ⟨(error.drop (i + n)).length, ofBits ((error.drop i).take n), ?_,
    ofBits_ne_zero hmiddle, ?_⟩
  · conv_lhs => rw [hsplit]
    rw [ofBits_append, ofBits_append, ofBits_zero hfront, ofBits_zero hback]
    ring
  · apply (ofBits_degree _).trans_le
    rw [List.length_take]
    exact WithBot.coe_le_coe.mpr (Nat.min_le_left _ _)

/-- An error of no more bits than the generator has is noticed. -/
theorem check_ne_of_confined {g : BitVec w} (hg : (generator g).coeff 0 ≠ 0)
    {message received error : List Bool} {c : BitVec w}
    (hlen : error.length = message.length + w) (hconfined : Confined w error)
    (hmem : true ∈ error)
    (hreceived : received ++ bits c =
      List.zipWith xor (message ++ bits (check g message)) error) :
    check g received ≠ c := by
  intro heq
  have hsent : generator g ∣ ofBits (message ++ bits (check g message)) :=
    (check_eq_iff g message _).mp rfl
  have hboth : generator g ∣ ofBits (message ++ bits (check g message)) + ofBits error := by
    rw [← ofBits_xor, ← hreceived]
    · exact (check_eq_iff g received c).mp heq
    · rw [List.length_append, bits_length, hlen]
  obtain ⟨k, e, hshift, hne, hdegree⟩ := hconfined.exists_shift hmem
  apply not_dvd_shifted hg hne (by rwa [generator_degree]) k
  rw [← hshift]
  exact (dvd_add_right hsent).mp hboth

end huasi.crc
