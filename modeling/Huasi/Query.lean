-- The form that the gateway writes into a response and reads from a query
-- (src/src/Gateway.cpp): the escapes of a value, and the arguments between '&' with
-- their keys in front of '='. Keys are neither escaped nor unescaped.
import Huasi.Parameters

open huasi.text huasi.sorted_map

namespace huasi.gateway

/-! ## Values -/

/-- The value of a hex digit. Every other character counts 0. -/
def hexValue (hex : UInt8) : UInt8 :=
  if 48 ≤ hex ∧ hex ≤ 57 then hex - 48
  else if 97 ≤ hex ∧ hex ≤ 102 then hex - 97 + 10
  else if 65 ≤ hex ∧ hex ≤ 70 then hex - 65 + 10
  else 0

/-- `decodeQuery`. It ends at a '%' that less than two characters follow. -/
def decodeQuery : Text → Text
  | [] => []
  | ch :: rest =>
    if ch = 37 then
      match rest with
      | a :: b :: rest => (hexValue a <<< 4 + hexValue b) :: decodeQuery rest
      | _ => []
    else (if ch = 43 then 32 else ch) :: decodeQuery rest

/-- The characters that stand for themselves: - . _ ~, letters and digits. -/
def unreserved (ch : UInt8) : Bool :=
  ch = 45 ∨ ch = 46 ∨ ch = 95 ∨ ch = 126 ∨ (65 ≤ ch ∧ ch ≤ 90) ∨ (97 ≤ ch ∧ ch ≤ 122) ∨
    (48 ≤ ch ∧ ch ≤ 57)

def hex : Text := ascii "0123456789ABCDEF"

/-- One turn of `encodeQuery`. -/
def encodeByte (ch : UInt8) : Text :=
  if unreserved ch then [ch]
  else if ch = 32 then [43]
  else [37, hex.getD (ch >>> 4).toNat 0, hex.getD (ch &&& 15).toNat 0]

def encodeQuery (s : Text) : Text := s.flatMap encodeByte

/-! ## The form -/

/-- The body of a response: the parameters in the order of their keys. -/
def formData (parameters : Parameters) : Text :=
  parameters.entries.foldl (fun data p =>
    (if data ≠ [] then data ++ [38] else data) ++ p.1 ++ [61] ++ encodeQuery p.2) []

/-- An argument of a query. Without '=' it is skipped. -/
def addArgument (parameters : Parameters) (argument : Text) : Parameters :=
  if argument.contains 61 then
    parameters.insert (argument.takeWhile (· ≠ 61))
      (decodeQuery ((argument.dropWhile (· ≠ 61)).drop 1))
  else parameters

/-- The loop over the arguments of what is left of a query, for the number of turns given at
most. -/
def addArguments : Nat → Parameters → Text → Parameters
  | 0, parameters, _ => parameters
  | n + 1, parameters, query =>
    if query ≠ [] then
      addArguments n (addArgument parameters (query.takeWhile (· ≠ 38)))
        ((query.dropWhile (· ≠ 38)).drop 1)
    else parameters

/-- Each turn takes a character away at least, so there are no more turns than characters. -/
def parseQuery (query : Text) : Parameters := addArguments query.length .empty query

/-! ## There and back -/

/-- A law of every byte can be decided. -/
theorem forall_byte {P : UInt8 → Prop} [DecidablePred P] (h : ∀ n : Fin 256, P (UInt8.ofFin n))
    (b : UInt8) : P b := h b.toFin

theorem decodeQuery_plain {ch : UInt8} (h : ch ≠ 37) (rest : Text) :
    decodeQuery (ch :: rest) = (if ch = 43 then 32 else ch) :: decodeQuery rest := by
  conv_lhs => unfold decodeQuery
  rw [if_neg h]

theorem hexValue_hex (ch : UInt8) :
    hexValue (hex.getD (ch >>> 4).toNat 0) <<< 4 + hexValue (hex.getD (ch &&& 15).toNat 0) = ch :=
  forall_byte (P := fun ch => hexValue (hex.getD (ch >>> 4).toNat 0) <<< 4 +
    hexValue (hex.getD (ch &&& 15).toNat 0) = ch) (by decide +kernel) ch

theorem unreserved_plain (ch : UInt8) : unreserved ch → ch ≠ 37 ∧ ch ≠ 43 :=
  forall_byte (P := fun ch => unreserved ch → ch ≠ 37 ∧ ch ≠ 43) (by decide +kernel) ch

theorem decodeQuery_encodeByte (ch : UInt8) (rest : Text) :
    decodeQuery (encodeByte ch ++ rest) = ch :: decodeQuery rest := by
  unfold encodeByte
  split
  · rename_i hplain
    obtain ⟨hpercent, hplus⟩ := unreserved_plain ch hplain
    rw [List.singleton_append, decodeQuery_plain hpercent, if_neg hplus]
  · split
    · rename_i hspace
      subst hspace
      exact decodeQuery_plain (by decide) rest
    · simp only [List.cons_append, List.nil_append]
      rw [decodeQuery, if_pos rfl, hexValue_hex]

/-- Every value comes back. -/
theorem decodeQuery_encodeQuery (s : Text) : decodeQuery (encodeQuery s) = s := by
  unfold encodeQuery
  induction s with
  | nil => rfl
  | cons ch s ih => rw [List.flatMap_cons, decodeQuery_encodeByte, ih]

theorem separator_encodeByte (ch : UInt8) : 38 ∉ encodeByte ch ∧ 61 ∉ encodeByte ch :=
  forall_byte (P := fun ch => 38 ∉ encodeByte ch ∧ 61 ∉ encodeByte ch) (by decide +kernel) ch

theorem separator_encodeQuery (s : Text) : 38 ∉ encodeQuery s := by
  unfold encodeQuery
  rw [List.mem_flatMap]
  rintro ⟨ch, -, hch⟩
  exact (separator_encodeByte ch).1 hch

/-- An entry as an argument. -/
def argument (p : Text × Text) : Text := p.1 ++ [61] ++ encodeQuery p.2

theorem addArgument_argument (parameters : Parameters) {p : Text × Text} (hkey : 61 ∉ p.1) :
    addArgument parameters (argument p) = parameters.insert p.1 p.2 := by
  have hargument : argument p = p.1 ++ 61 :: encodeQuery p.2 := by
    unfold argument
    rw [List.append_assoc, List.singleton_append]
  obtain ⟨htake, hdrop⟩ := takeWhile_separator (encodeQuery p.2) hkey
  unfold addArgument
  rw [hargument, if_pos (by simp), htake, hdrop, List.drop_one, List.tail_cons,
    decodeQuery_encodeQuery]

theorem argument_ne_nil (p : Text × Text) : argument p ≠ [] := by
  unfold argument
  simp

/-- Behind the first argument, each one has a separator in front. -/
theorem foldl_formData (entries : List (Text × Text)) {data : Text} (hdata : data ≠ []) :
    entries.foldl (fun data p =>
      (if data ≠ [] then data ++ [38] else data) ++ p.1 ++ [61] ++ encodeQuery p.2) data =
      data ++ entries.flatMap fun p => 38 :: argument p := by
  induction entries generalizing data with
  | nil => simp
  | cons p rest ih =>
    have hne : data ++ [38] ++ p.1 ++ [61] ++ encodeQuery p.2 ≠ [] := by simp
    rw [List.foldl_cons, if_pos hdata, ih hne, List.flatMap_cons]
    unfold argument
    simp only [List.append_assoc, List.cons_append, List.nil_append]

theorem formData_eq (parameters : Parameters) :
    formData parameters =
      match parameters.entries with
      | [] => []
      | p :: rest => argument p ++ rest.flatMap fun p => 38 :: argument p := by
  unfold formData
  cases parameters.entries with
  | nil => rfl
  | cons p rest =>
    rw [List.foldl_cons]
    exact foldl_formData rest (argument_ne_nil p)

/-- Keys that can stand in a form. -/
def Plain (entries : List (Text × Text)) : Prop := ∀ p ∈ entries, 38 ∉ p.1 ∧ 61 ∉ p.1

theorem separator_argument {p : Text × Text} (h : 38 ∉ p.1) : 38 ∉ argument p := by
  unfold argument
  simp only [List.mem_append, List.mem_singleton, not_or]
  exact ⟨⟨h, by decide⟩, separator_encodeQuery p.2⟩

/-- The loop files the arguments one after the other. -/
theorem addArguments_arguments {p : Text × Text} {rest : List (Text × Text)}
    (hplain : Plain (p :: rest)) {n : Nat}
    (hn : (argument p ++ rest.flatMap fun p => 38 :: argument p).length ≤ n)
    (parameters : Parameters) :
    addArguments n parameters (argument p ++ rest.flatMap fun p => 38 :: argument p) =
      parameters.insertAll (p :: rest) := by
  induction rest generalizing p n parameters with
  | nil =>
    obtain ⟨hamp, heq⟩ := hplain p List.mem_cons_self
    rw [List.flatMap_nil, List.append_nil] at hn ⊢
    have hpos := List.length_pos_of_ne_nil (argument_ne_nil p)
    obtain ⟨n, rfl⟩ : ∃ n', n = n' + 1 := ⟨n - 1, by omega⟩
    obtain ⟨htake, hdrop⟩ := takeWhile_piece (separator_argument hamp) (Or.inl rfl)
    rw [List.append_nil] at htake hdrop
    rw [addArguments, if_pos (argument_ne_nil p), htake, hdrop, addArgument_argument parameters heq]
    cases n <;> rfl
  | cons q rest ih =>
    obtain ⟨hamp, heq⟩ := hplain p List.mem_cons_self
    have hq : Plain (q :: rest) := fun e he => hplain e (List.mem_cons_of_mem _ he)
    rw [List.flatMap_cons, List.cons_append] at hn ⊢
    rw [List.length_append, List.length_cons] at hn
    obtain ⟨n, rfl⟩ : ∃ n', n = n' + 1 := ⟨n - 1, by omega⟩
    obtain ⟨htake, hdrop⟩ := takeWhile_separator
      (argument q ++ rest.flatMap fun p => 38 :: argument p) (separator_argument hamp)
    rw [addArguments, if_pos (by simp), htake, hdrop, addArgument_argument parameters heq,
      List.drop_one, List.tail_cons, ih hq (by omega)]
    rfl

/-- What a response says, a query says. -/
theorem parseQuery_formData {parameters : Parameters} (h : Plain parameters.entries) :
    parseQuery (formData parameters) = parameters := by
  have hall := insertAll_entries parameters
  unfold parseQuery
  rw [formData_eq]
  cases hp : parameters.entries with
  | nil =>
    rw [hp] at hall
    exact hall
  | cons p rest =>
    rw [hp] at hall h
    rw [addArguments_arguments h (Nat.le_refl _), hall]

end huasi.gateway
