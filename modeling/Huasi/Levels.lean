-- Levels on their way to a device: what `sendSet` makes of the texts of the
-- parameters. A text of at most two characters is a level if it is one or two digits,
-- and `getPercentage` reads some of these not at all, and other texts as if they were.
import Huasi.Numerals
import Huasi.ZWaveNetwork

open huasi.text huasi.decimal huasi.cast huasi.Parameters

namespace huasi.network

/-! ## Texts of at most two characters -/

/-- A numeral of one or two digits: its value is 0 to 99. -/
def isLevel (t : Text) : Bool :=
  !t.isEmpty && decide (t.length ≤ 2) && t.all fun b => decide (IsDigit b)

/-- What `getPercentage` makes of the text of a parameter. -/
def percentage (t : Text) : Option UInt8 := if t.length > 2 then none else castByte t

/-- "-2" to "-9". -/
def belowMinusOne : Text → Bool
  | [sign, b] => decide (sign = 45 ∧ 50 ≤ b ∧ b ≤ 57)
  | _ => false

/-- The texts that `getPercentage` does not take for what they are: "", "+", "-", "+1" to "+9",
"-0" and "-2" to "-9" are read although they are no numerals of one or two digits, and "0" and "00"
to "09" are such numerals and are not read. -/
def misread : Text → Bool
  | [] => true
  | [a] => decide (a = 43 ∨ a = 45 ∨ a = 48)
  | [a, b] => decide (IsDigit b ∧ (a = 43 ∧ b ≠ 48 ∨ a = 45 ∧ b ≠ 49 ∨ a = 48))
  | _ => false

theorem getPercentage_eq (p : Parameters) (name : Text) :
    p.getPercentage name = (p.lookup name).bind percentage := rfl

theorem percentage_none {t : Text} {b : UInt8} (hb : b ∈ digitsOf t) (hno : ¬ IsDigit b) :
    percentage t = none := by
  cases h : percentage t with
  | none => rfl
  | some v =>
    unfold percentage at h
    split at h
    · cases h
    · obtain ⟨n, hn, -⟩ := Option.map_eq_some_iff.mp h
      exact absurd ((castUnsigned_some_iff.mp hn).1 b hb) hno

/-- What is read and what is a level differ for the misread texts, and a text that is read gives a
level of at most 99 unless it is one of "-2" to "-9". -/
def Reads (t : Text) : Prop :=
  (percentage t).isSome = (isLevel t ^^ misread t) ∧
    ∀ v ∈ percentage t, v ≠ 0xff ∧ (v ≤ 99 ↔ belowMinusOne t = false)

instance (t : Text) : Decidable (Reads t) :=
  decidable_of_iff ((percentage t).isSome = (isLevel t ^^ misread t) ∧
    (percentage t).all (fun v => v ≠ 0xff ∧ (v ≤ 99 ↔ belowMinusOne t = false)) = true) (by
    unfold Reads
    rw [Option.all_eq_true]
    simp only [decide_eq_true_iff, Option.mem_def])

theorem reads_digit : ∀ d < 10, Reads [digit d] := by decide

theorem reads_digits : ∀ c < 10, ∀ d < 10, Reads [digit c, digit d] := by decide

theorem reads_plus : ∀ d < 10, Reads [43, digit d] := by decide

theorem reads_minus : ∀ d < 10, Reads [45, digit d] := by decide

theorem reads_of_none {t : Text} (hread : percentage t = none) (hlevel : isLevel t = false)
    (hmisread : misread t = false) : Reads t := by
  refine ⟨by rw [hread, hlevel, hmisread]; rfl, ?_⟩
  intro v hv
  rw [hread] at hv
  cases hv

theorem reads_one (a : UInt8) : Reads [a] := by
  by_cases ha : IsDigit a
  · obtain ⟨d, hd, rfl⟩ := exists_digit ha
    exact reads_digit d hd
  · by_cases hsign : a = 45 ∨ a = 43
    · rcases hsign with rfl | rfl
      · decide
      · decide
    · have hzero : a ≠ 48 := fun h => ha (h ▸ by decide)
      rw [not_or] at hsign
      apply reads_of_none
      · have hmem : a ∈ digitsOf [a] := by simp [digitsOf, hsign]
        exact percentage_none hmem ha
      · simp [isLevel, ha]
      · simp [misread, hsign, hzero]

theorem reads_two (a b : UInt8) : Reads [a, b] := by
  by_cases hb : IsDigit b
  · obtain ⟨d, hd, rfl⟩ := exists_digit hb
    by_cases ha : IsDigit a
    · obtain ⟨c, hc, rfl⟩ := exists_digit ha
      exact reads_digits c hc d hd
    · by_cases hsign : a = 45 ∨ a = 43
      · rcases hsign with rfl | rfl
        · exact reads_minus d hd
        · exact reads_plus d hd
      · have hzero : a ≠ 48 := fun h => ha (h ▸ by decide)
        rw [not_or] at hsign
        apply reads_of_none
        · have hmem : a ∈ digitsOf [a, digit d] := by simp [digitsOf, hsign]
          exact percentage_none hmem ha
        · simp [isLevel, ha]
        · simp [misread, hsign, hzero]
  · apply reads_of_none
    · have hmem : b ∈ digitsOf [a, b] := by
        simp only [digitsOf]
        split
        · exact List.mem_cons_self
        · exact List.mem_cons_of_mem _ List.mem_cons_self
      exact percentage_none hmem hb
    · simp [isLevel, hb]
    · simp [misread, hb]

/-- Every text is read as it says, but for the misread ones. -/
theorem reads (t : Text) : Reads t := by
  match t with
  | [] => decide
  | [a] => exact reads_one a
  | [a, b] => exact reads_two a b
  | a :: b :: c :: t =>
    apply reads_of_none
    · exact if_pos (by simp)
    · simp [isLevel]
    · rfl

/-! ## Parameters -/

/-- The parameter is there, and its text is a level. -/
def hasLevel (p : Parameters) (name : Text) : Bool := (p.lookup name).any isLevel

/-- The text of the parameter, if it is there, is taken for what it is. -/
def readRight (p : Parameters) (name : Text) : Bool := !(p.lookup name).any misread

theorem isSome_getPercentage (p : Parameters) (name : Text) :
    (p.getPercentage name).isSome = hasLevel p name ↔ readRight p name = true := by
  rw [getPercentage_eq, hasLevel, readRight]
  cases p.lookup name with
  | none => simp
  | some t =>
    rw [Option.bind_some, Option.any_some, Option.any_some, (reads t).1]
    cases isLevel t <;> cases misread t <;> simp

theorem misread_of_belowMinusOne {t : Text} (h : belowMinusOne t = true) : misread t = true := by
  unfold belowMinusOne at h
  split at h
  · rename_i sign b
    obtain ⟨rfl, hlow, hhigh⟩ := of_decide_eq_true h
    have hlow := UInt8.le_iff_toNat_le.mp hlow
    change 50 ≤ b.toNat at hlow
    have hne : b ≠ 49 := by
      rintro rfl
      exact absurd hlow (by decide)
    have hdigit : IsDigit b := ⟨UInt8.le_iff_toNat_le.mpr (Nat.le_trans (by decide) hlow), hhigh⟩
    simp [misread, hne, hdigit]
  · cases h

/-- A level that is read right is at most 99. -/
theorem getPercentage_le {p : Parameters} {name : Text} {v : UInt8} (h : readRight p name = true)
    (hv : p.getPercentage name = some v) : v ≤ 99 := by
  obtain ⟨t, ht, hread⟩ := Option.bind_eq_some_iff.mp hv
  apply ((reads t).2 v hread).2.mpr
  rw [readRight, ht, Option.any_some, Bool.not_eq_true'] at h
  by_contra hbelow
  rw [misread_of_belowMinusOne (by simpa using hbelow)] at h
  cases h

/-! ## BASIC -/

/-- What a `BasicCommand` sends carries a level, or 0xff for the state on. -/
def BasicValid (p : Parameters) : Prop :=
  ∀ value, ∀ command ∈ ((Command.basic value).sendSet p).2, ∃ level,
    command = [BASIC, 0x01, level] ∧ (level ≤ 99 ∨
      level = 0xff ∧ p.getState (ascii "state") = some true ∧
        p.getPercentage (ascii "dim") = none)

theorem exists_percentage {t : Text} (h : belowMinusOne t = true) :
    ∃ v, percentage t = some v := by
  have hlevel : isLevel t = false := by
    unfold belowMinusOne at h
    split at h
    · obtain ⟨rfl, -⟩ := of_decide_eq_true h
      rfl
    · cases h
  have hread := (reads t).1
  rw [hlevel, misread_of_belowMinusOne h] at hread
  exact Option.isSome_iff_exists.mp hread

/-- The commands of a `BasicCommand` with the levels that it can send. -/
theorem sendSet_basic (p : Parameters) (value : UInt8) :
    ((Command.basic value).sendSet p).2 =
      match p.getPercentage (ascii "dim"), p.getState (ascii "state") with
      | some dim, _ => [[BASIC, 0x01, dim]]
      | none, some state => [[BASIC, 0x01, if state then 0xff else 0x00]]
      | none, none => [] := by
  simp only [Command.sendSet]
  cases p.getPercentage (ascii "dim") <;> cases p.getState (ascii "state") <;> simp

theorem basicValid_iff (p : Parameters) :
    BasicValid p ↔ (p.lookup (ascii "dim")).any belowMinusOne = false := by
  unfold BasicValid
  simp only [sendSet_basic]
  cases hdim : p.getPercentage (ascii "dim") with
  | none =>
    refine iff_of_true ?_ ?_
    · intro value command hcommand
      cases hstate : p.getState (ascii "state") with
      | none =>
        rw [hstate] at hcommand
        cases hcommand
      | some state =>
        rw [hstate] at hcommand
        obtain rfl := List.mem_singleton.mp hcommand
        refine ⟨_, rfl, ?_⟩
        cases state with
        | true => exact Or.inr ⟨rfl, rfl, rfl⟩
        | false => exact Or.inl (by decide)
    · rw [getPercentage_eq] at hdim
      cases ht : p.lookup (ascii "dim") with
      | none => rfl
      | some t =>
        rw [ht, Option.bind_some] at hdim
        rw [Option.any_some, ← Bool.not_eq_true]
        intro hbelow
        obtain ⟨v, hv⟩ := exists_percentage hbelow
        rw [hdim] at hv
        cases hv
  | some v =>
    obtain ⟨t, ht, hv⟩ := Option.bind_eq_some_iff.mp (hdim.symm.trans (getPercentage_eq p _)).symm
    have hlevel := ((reads t).2 v hv).2
    rw [ht, Option.any_some, ← hlevel]
    constructor
    · intro hvalid
      obtain ⟨level, hlevel, hle | ⟨-, -, hnone⟩⟩ := hvalid 0 _ List.mem_cons_self
      · simp only [List.cons.injEq, and_true, true_and] at hlevel
        rwa [hlevel]
      · cases hnone
    · intro hle value command hcommand
      obtain rfl := List.mem_singleton.mp hcommand
      exact ⟨v, rfl, Or.inl hle⟩

/-! ## The blinds -/

/-- The flags of the levels that are there. -/
def levelFlags (p : Parameters) : UInt8 :=
  (if hasLevel p (ascii "position.blinds") then 2 else 0) |||
    (if hasLevel p (ascii "position.slat") then 1 else 0)

/-- What a `FibaroFgr222` sends carries two levels and the flags of the parameters that are levels,
and nothing is sent if none is. -/
def FibaroValid (p : Parameters) : Prop :=
  ∀ blinds slat,
    if levelFlags p = 0 then ((Command.fibaroFgr222 blinds slat).sendSet p).2 = []
    else ∃ newBlinds newSlat, newBlinds ≤ 99 ∧ newSlat ≤ 99 ∧
      ((Command.fibaroFgr222 blinds slat).sendSet p).2 =
        [[MANUFACTURER_PROPRIETARY, 0x01, 0x0f, 0x26, 0x01, levelFlags p, newBlinds, newSlat]]

/-- The flags that `sendSet` of a `FibaroFgr222` computes. -/
def sentFlags (p : Parameters) : UInt8 :=
  (if (p.getPercentage (ascii "position.blinds")).isSome then 2 else 0) |||
    (if (p.getPercentage (ascii "position.slat")).isSome then 1 else 0)

theorem flags_inj : ∀ a b c d : Bool,
    ((if a then 2 else 0) ||| (if b then 1 else 0) : UInt8) =
      (if c then 2 else 0) ||| (if d then 1 else 0) ↔ a = c ∧ b = d := by
  decide

/-- The workaround only makes 1 of a position 0 of the blinds. -/
theorem sendSet_fibaroFgr222 (p : Parameters) (blinds slat : UInt8) :
    ∃ newBlinds newSlat : UInt8,
      ((Command.fibaroFgr222 blinds slat).sendSet p).2 =
        (if sentFlags p = 0 then []
        else [[MANUFACTURER_PROPRIETARY, 0x01, 0x0f, 0x26, 0x01, sentFlags p, newBlinds,
          newSlat]]) ∧
      (newBlinds ≤ 1 ∨ p.getPercentage (ascii "position.blinds") = some newBlinds) ∧
      (newSlat ≤ 1 ∨ p.getPercentage (ascii "position.slat") = some newSlat) := by
  have hgetD : ∀ o : Option UInt8, o.getD 0 ≤ 1 ∨ o = some (o.getD 0) := by
    intro o
    cases o with
    | none => exact Or.inl (by decide)
    | some v => exact Or.inr rfl
  refine ⟨(if p.getPercentage (ascii "position.blinds") = some 0 ∧
      (p.getPercentage (ascii "position.slat")).isSome ∧
      (p.getPercentage (ascii "position.slat")).getD 0 > 0
    then some 1 else p.getPercentage (ascii "position.blinds")).getD 0,
    (p.getPercentage (ascii "position.slat")).getD 0, ?_, ?_, hgetD _⟩
  · simp only [Command.sendSet, apply_ite Prod.snd, ite_not]
    rfl
  · split
    · exact Or.inl (by decide)
    · exact hgetD _

theorem fibaroValid_iff (p : Parameters) : FibaroValid p ↔
    readRight p (ascii "position.blinds") = true ∧ readRight p (ascii "position.slat") = true := by
  have hflags : sentFlags p = levelFlags p ↔
      readRight p (ascii "position.blinds") = true ∧
        readRight p (ascii "position.slat") = true := by
    rw [← isSome_getPercentage, ← isSome_getPercentage]
    exact flags_inj _ _ _ _
  constructor
  · intro hvalid
    rw [← hflags]
    have hsent := hvalid 0 0
    obtain ⟨newBlinds, newSlat, heq, -, -⟩ := sendSet_fibaroFgr222 p 0 0
    rw [heq] at hsent
    by_cases hlevel : levelFlags p = 0
    · rw [if_pos hlevel] at hsent
      by_contra hne
      rw [if_neg (fun h => hne (h.trans hlevel.symm))] at hsent
      cases hsent
    · rw [if_neg hlevel] at hsent
      obtain ⟨_, _, -, -, hsent⟩ := hsent
      split at hsent
      · cases hsent
      · simp only [List.cons.injEq, and_true, true_and] at hsent
        exact hsent.1
  · rintro ⟨hblinds, hslat⟩ blinds slat
    obtain ⟨newBlinds, newSlat, heq, hb, hs⟩ := sendSet_fibaroFgr222 p blinds slat
    have hone : (1 : UInt8) ≤ 99 := by decide
    rw [heq, hflags.mpr ⟨hblinds, hslat⟩]
    split
    · rfl
    · refine ⟨newBlinds, newSlat, ?_, ?_, rfl⟩
      · rcases hb with hle | hget
        · exact UInt8.le_trans hle hone
        · exact getPercentage_le hblinds hget
      · rcases hs with hle | hget
        · exact UInt8.le_trans hle hone
        · exact getPercentage_le hslat hget

/-! ## Both commands -/

/-- Every command that is sent carries valid levels and the right flags exactly if the text of "dim"
is none of "-2" to "-9" and the texts of the two positions are read right. -/
theorem levels_valid_iff (p : Parameters) : BasicValid p ∧ FibaroValid p ↔
    (p.lookup (ascii "dim")).any belowMinusOne = false ∧
      readRight p (ascii "position.blinds") = true ∧
      readRight p (ascii "position.slat") = true := by
  rw [basicValid_iff, fibaroValid_iff]

/-- "-2" is sent as the level 254. -/
theorem negative_level_is_sent :
    ¬ BasicValid ((.empty : Parameters).insert (ascii "dim") (ascii "-2")) := by
  rw [basicValid_iff]
  decide

end huasi.network
