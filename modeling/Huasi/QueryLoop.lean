-- The query loop of Gateway::onRequest (src/src/Gateway.cpp) with the positions that it
-- works with. It does what splitting the query at every '&' does: no position ever
-- leaves the piece that is at hand. `none` stands for a read behind the end of the text.
import Huasi.Query
import Huasi.Runs

open huasi.text huasi.sorted_map huasi.runs

namespace huasi.query_loop

/-! ## The loops -/

/-- One turn of the loop of `decodeQuery(s, start, end)`, with the index and the result so far. -/
def decodeTurn (s : Text) (stop : Nat) : Nat × Text → Option (Turn (Nat × Text))
  | (i, r) => do
    let ch ← s[i]?
    if ch = 43 then some (.again (i + 1, r ++ [32]))
    else if ch = 37 then
      -- check if two characters follow
      if i + 2 ≥ stop then some .leave
      else do
        let a ← s[i + 1]?
        let b ← s[i + 2]?
        some (.again (i + 2 + 1, r ++ [gateway.hexValue a <<< 4 + gateway.hexValue b]))
    else some (.again (i + 1, r ++ [ch]))

/-- The guard of the loop. -/
def undecoded (stop : Nat) (p : Nat × Text) : Bool := decide (p.1 < stop)

/-- `decodeQuery(s, start, end)`. Each turn goes on by a character at least. -/
def decodeQuery (s : Text) (start stop : Nat) : Option Text :=
  (loop (undecoded stop) (decodeTurn s stop) (stop - start) (start, [])).map (·.2)

/-- `s.find(ch, pos)`, where `none` stands for `npos`. -/
def find (s : Text) (ch : UInt8) (pos : Nat) : Option Nat :=
  ((s.drop pos).findIdx? fun b => b = ch).map (pos + ·)

/-- One turn of the loop over the arguments, with the position of the argument. -/
def argumentTurn (query : Text) : Nat × Parameters → Option (Turn (Nat × Parameters))
  | (argStartPos, parameters) => do
    -- get an argument
    let argEndPos := (find query 38 argStartPos).getD query.length
    -- split argument into key and value
    let parameters ← match find query 61 argStartPos with
      | none => some parameters
      | some eqPos =>
        if eqPos < argEndPos then do
          let key := (query.drop argStartPos).take (eqPos - argStartPos)
          let value ← decodeQuery query (eqPos + 1) argEndPos
          some (parameters.insert key value)
        else some parameters
    some (.again (argEndPos + 1, parameters))

/-- The guard of the loop. -/
def unparsed (query : Text) (p : Nat × Parameters) : Bool := decide (p.1 < query.length)

/-- The query loop. Each turn goes on by a character at least. -/
def parseQuery (query : Text) : Option Parameters :=
  (loop (unparsed query) (argumentTurn query) query.length (0, .empty)).map (·.2)

/-! ## What a query says -/

/-- The digits in the order of their values. -/
def lowerDigits : Text := ascii "0123456789abcdef"
def upperDigits : Text := ascii "0123456789ABCDEF"

/-- The number that a hex digit stands for. No other character stands for more than 0. -/
def digitValue (ch : UInt8) : Nat :=
  ((lowerDigits.idxOf? ch).or (upperDigits.idxOf? ch)).getD 0

/-- The text that a value stands for. '+' is a space, '%XY' is the byte 16 * X + Y, and a '%' that
less than two characters follow ends the value. -/
def decoded : Text → Text
  | [] => []
  | ch :: rest =>
    if ch = 37 then
      match rest with
      | a :: b :: rest => UInt8.ofNat (16 * digitValue a + digitValue b) :: decoded rest
      | _ => []
    else (if ch = 43 then 32 else ch) :: decoded rest

/-- The code finds the value of a digit by its ranges, and puts two digits together by a shift. -/
theorem hexValue_eq (ch : UInt8) :
    gateway.hexValue ch = UInt8.ofNat (digitValue ch) ∧ digitValue ch < 16 :=
  gateway.forall_byte (P := fun ch => gateway.hexValue ch = UInt8.ofNat (digitValue ch) ∧
    digitValue ch < 16) (by decide +kernel) ch

theorem escape_eq (a b : UInt8) : gateway.hexValue a <<< 4 + gateway.hexValue b =
    UInt8.ofNat (16 * digitValue a + digitValue b) := by
  obtain ⟨ha, hlta⟩ := hexValue_eq a
  obtain ⟨hb, hltb⟩ := hexValue_eq b
  rw [ha, hb, ← UInt8.toNat_inj, UInt8.toNat_add, UInt8.toNat_shiftLeft, UInt8.toNat_ofNat',
    UInt8.toNat_ofNat', UInt8.toNat_ofNat', Nat.shiftLeft_eq]
  change (digitValue a % 256 * 16 % 256 + digitValue b % 256) % 256 = _
  omega

theorem decoded_plain {ch : UInt8} (h : ch ≠ 37) (rest : Text) :
    decoded (ch :: rest) = (if ch = 43 then 32 else ch) :: decoded rest := by
  conv_lhs => unfold decoded
  rw [if_neg h]

/-- `decodeQuery` of the text alone decodes a value. -/
theorem decodeQuery_decoded (s : Text) : gateway.decodeQuery s = decoded s := by
  induction s using decoded.induct with
  | case1 => rfl
  | case2 a b rest ih => rw [gateway.decodeQuery, decoded, if_pos rfl, if_pos rfl, escape_eq, ih]
  | case3 rest hshort =>
    cases rest with
    | nil => rfl
    | cons a rest =>
      cases rest with
      | nil => rfl
      | cons b rest => exact absurd rfl (hshort a b rest)
  | case4 ch rest hne ih => rw [gateway.decodeQuery_plain hne, decoded_plain hne, ih]

/-! ## Values -/

theorem take_drop_cons {s : Text} {i stop : Nat} (hi : i < stop) (hstop : stop ≤ s.length) :
    ∃ ch, s[i]? = some ch ∧ (s.take stop).drop i = ch :: (s.take stop).drop (i + 1) := by
  have hlen : i < (s.take stop).length := by
    rw [List.length_take]
    omega
  refine ⟨s[i], List.getElem?_eq_getElem (by omega), ?_⟩
  rw [List.drop_eq_getElem_cons hlen, List.getElem_take]

theorem decodeQuery_percent {a b : UInt8} (rest : Text) :
    gateway.decodeQuery (37 :: a :: b :: rest) =
      (gateway.hexValue a <<< 4 + gateway.hexValue b) :: gateway.decodeQuery rest := rfl

/-- A '%' that less than two characters follow. -/
theorem decodeQuery_cut {rest : Text} (h : rest.length < 2) :
    gateway.decodeQuery (37 :: rest) = [] := by
  match rest, h with
  | [], _ => rfl
  | [a], _ => rfl

/-- A turn takes one character or one escape, or it breaks at an escape that is cut. -/
theorem decodeTurn_spec {s : Text} {stop i : Nat} (r : Text) (hi : i < stop)
    (hstop : stop ≤ s.length) :
    (∃ k r', 0 < k ∧ decodeTurn s stop (i, r) = some (.again (i + k, r')) ∧
      r ++ gateway.decodeQuery ((s.take stop).drop i) =
        r' ++ gateway.decodeQuery ((s.take stop).drop (i + k))) ∨
    (decodeTurn s stop (i, r) = some .leave ∧ gateway.decodeQuery ((s.take stop).drop i) = []) := by
  obtain ⟨ch, hget, hcons⟩ := take_drop_cons hi hstop
  by_cases hpercent : ch = 37
  · subst hpercent
    by_cases hcut : i + 2 ≥ stop
    · right
      refine ⟨by simp [decodeTurn, hget, hcut], ?_⟩
      rw [hcons]
      apply decodeQuery_cut
      rw [List.length_drop, List.length_take]
      omega
    · left
      obtain ⟨a, ha, hconsa⟩ := take_drop_cons (show i + 1 < stop by omega) hstop
      obtain ⟨b, hb, hconsb⟩ := take_drop_cons (show i + 2 < stop by omega) hstop
      refine ⟨3, r ++ [gateway.hexValue a <<< 4 + gateway.hexValue b], by omega, ?_, ?_⟩
      · simp [decodeTurn, hget, hcut, ha, hb]
      · rw [hcons, hconsa, hconsb, decodeQuery_percent, List.append_assoc]
        rfl
  · left
    refine ⟨1, r ++ [if ch = 43 then 32 else ch], by omega, ?_, ?_⟩
    · by_cases hplus : ch = 43
      · simp [decodeTurn, hget, hplus]
      · simp [decodeTurn, hget, hplus, hpercent]
    · rw [hcons, gateway.decodeQuery_plain hpercent, List.append_assoc]
      rfl

/-- The loop over a part of the text comes to its end, and it decodes that part, whatever is around
it. -/
theorem decode_loop {s : Text} {stop : Nat} (hstop : stop ≤ s.length) {n i : Nat}
    (hn : stop - i ≤ n) (r : Text) :
    ∃ j, Visits (undecoded stop) (decodeTurn s stop) (i, r)
        (j, r ++ gateway.decodeQuery ((s.take stop).drop i)) ∧
      Ends (undecoded stop) (decodeTurn s stop)
        (j, r ++ gateway.decodeQuery ((s.take stop).drop i)) ∧
      loop (undecoded stop) (decodeTurn s stop) n (i, r) =
        some (j, r ++ gateway.decodeQuery ((s.take stop).drop i)) := by
  have hstay : gateway.decodeQuery ((s.take stop).drop i) = [] →
      Ends (undecoded stop) (decodeTurn s stop) (i, r) →
      ∃ j, Visits (undecoded stop) (decodeTurn s stop) (i, r)
          (j, r ++ gateway.decodeQuery ((s.take stop).drop i)) ∧
        Ends (undecoded stop) (decodeTurn s stop)
          (j, r ++ gateway.decodeQuery ((s.take stop).drop i)) ∧
        loop (undecoded stop) (decodeTurn s stop) n (i, r) =
          some (j, r ++ gateway.decodeQuery ((s.take stop).drop i)) := by
    intro hnil hends
    rw [hnil, List.append_nil]
    exact ⟨i, .refl, hends, loop_ends hends⟩
  by_cases hi : i < stop
  · have hguard : undecoded stop (i, r) = true := decide_eq_true hi
    rcases decodeTurn_spec r hi hstop with ⟨k, r', hk, hturn, hrest⟩ | ⟨hturn, hnil⟩
    · obtain ⟨n, rfl⟩ : ∃ n', n = n' + 1 := ⟨n - 1, by omega⟩
      obtain ⟨j, hvisits, hends, hloop⟩ := decode_loop hstop (n := n) (i := i + k) (by omega) r'
      rw [loop_goes ⟨hguard, hturn⟩, hrest]
      exact ⟨j, .head ⟨hguard, hturn⟩ hvisits, hends, hloop⟩
    · exact hstay hnil (Or.inr hturn)
  · apply hstay
    · have hnil : (s.take stop).drop i = [] := by
        rw [List.drop_eq_nil_iff, List.length_take]
        omega
      rw [hnil]
      rfl
    · exact Or.inl (decide_eq_false hi)
termination_by stop - i

theorem decodeQuery_eq {s : Text} {start stop : Nat} (hstop : stop ≤ s.length) :
    decodeQuery s start stop = some (decoded ((s.take stop).drop start)) := by
  obtain ⟨j, -, -, hloop⟩ := decode_loop hstop (Nat.le_refl (stop - start)) []
  rw [decodeQuery, hloop, decodeQuery_decoded]
  rfl

/-! ## Arguments -/

theorem findIdx_none {l : Text} {ch : UInt8} (h : ch ∉ l) :
    l.findIdx? (fun b => b = ch) = none := by
  rw [List.findIdx?_eq_none_iff]
  intro b hb
  rw [decide_eq_false_iff_not]
  rintro rfl
  exact h hb

theorem find_none {s : Text} {ch : UInt8} {pos : Nat} (h : ch ∉ s.drop pos) :
    find s ch pos = none := by
  rw [find, findIdx_none h]
  rfl

theorem find_some {s front more : Text} {ch : UInt8} {pos : Nat}
    (hs : s.drop pos = front ++ ch :: more) (h : ch ∉ front) :
    find s ch pos = some (pos + front.length) := by
  have hfirst : (ch :: more).findIdx? (fun b => b = ch) = some 0 := by
    simp [List.findIdx?_cons]
  rw [find, hs, List.findIdx?_append, findIdx_none h, hfirst]
  simp

/-- Behind a position that is left, the text is one argument, or one argument and a separator. -/
theorem exists_argument (l : Text) :
    ∃ argument rest, l = argument ++ rest ∧ 38 ∉ argument ∧
      (rest = [] ∨ ∃ more, rest = 38 :: more) := by
  by_cases h : 38 ∈ l
  · obtain ⟨argument, more, rfl, hno⟩ := List.eq_append_cons_of_mem h
    exact ⟨argument, 38 :: more, rfl, hno, Or.inr ⟨more, rfl⟩⟩
  · exact ⟨l, [], (List.append_nil l).symm, h, Or.inl rfl⟩

/-- What is filed for one piece. A piece without '=' is ignored. -/
def assignment (piece : Text) : Option (Text × Text) :=
  if piece.contains 61 then
    some (piece.takeWhile (· ≠ 61), decoded ((piece.dropWhile (· ≠ 61)).drop 1))
  else none

theorem assignment_none {piece : Text} (h : 61 ∉ piece) : assignment piece = none := by
  unfold assignment
  rw [if_neg]
  simpa using h

theorem assignment_some {key : Text} (value : Text) (h : 61 ∉ key) :
    assignment (key ++ 61 :: value) = some (key, decoded value) := by
  obtain ⟨htake, hdrop⟩ := takeWhile_separator value h
  unfold assignment
  rw [if_pos (by simp), htake, hdrop]
  rfl

/-- A turn files the argument at its position, and no position of it is outside the argument. -/
theorem argumentTurn_spec {query argument rest : Text} {pos : Nat} (parameters : Parameters)
    (hpos : pos ≤ query.length) (hsplit : query.drop pos = argument ++ rest)
    (hno : 38 ∉ argument) (hrest : rest = [] ∨ ∃ more, rest = 38 :: more) :
    argumentTurn query (pos, parameters) = some (.again (pos + argument.length + 1,
      parameters.insertAll (assignment argument).toList)) := by
  have hend : (find query 38 pos).getD query.length = pos + argument.length := by
    rcases hrest with rfl | ⟨more, rfl⟩
    · have hlen := congrArg List.length hsplit
      rw [List.append_nil] at hsplit
      rw [find_none (by rw [hsplit]; exact hno)]
      rw [List.length_drop, List.append_nil] at hlen
      simp only [Option.getD_none]
      omega
    · rw [find_some hsplit hno]
      rfl
  have hfits : pos + argument.length ≤ query.length := by
    have hlen := congrArg List.length hsplit
    rw [List.length_drop, List.length_append] at hlen
    omega
  by_cases heq : 61 ∈ query.drop pos
  · obtain ⟨key, more, hkey, hnokey⟩ := List.eq_append_cons_of_mem heq
    have hseparated : key ++ [61] <+: query.drop pos :=
      ⟨more, by rw [hkey, List.append_assoc]; rfl⟩
    have hpiece : argument <+: query.drop pos := ⟨rest, hsplit.symm⟩
    by_cases hinside : key.length < argument.length
    · -- the first '=' is in the argument
      obtain ⟨value, hvalue⟩ : ∃ value, argument = key ++ 61 :: value := by
        have hlonger : (key ++ [61]).length ≤ argument.length := by
          rw [List.length_append, List.length_singleton]
          omega
        obtain ⟨value, hvalue⟩ := List.prefix_of_prefix_length_le hseparated hpiece hlonger
        exact ⟨value, by rw [← hvalue, List.append_assoc]; rfl⟩
      have hpart : (query.take (pos + argument.length)).drop (pos + key.length + 1) = value := by
        have htake : (query.drop pos).take argument.length = argument := by
          rw [hsplit, List.take_left]
        have hcut : (query.take (pos + argument.length)).drop pos = argument := by
          rw [List.drop_take, Nat.add_sub_cancel_left, htake]
        rw [Nat.add_assoc, ← List.drop_drop, hcut, hvalue, ← List.drop_drop, List.drop_left]
        rfl
      have hsubstr : (query.drop pos).take (pos + key.length - pos) = key := by
        rw [Nat.add_sub_cancel_left, hkey, List.take_left]
      have hassign : assignment argument = some (key, decoded value) := by
        rw [hvalue]
        exact assignment_some value hnokey
      simp only [argumentTurn, find_some hkey hnokey, hend, Nat.add_lt_add_iff_left, hinside,
        if_true, hsubstr, decodeQuery_eq hfits, hpart, hassign, Option.bind_eq_bind,
        Option.bind_some]
      rfl
    · -- the first '=' is behind the argument
      have hnone : 61 ∉ argument := by
        intro hmem
        apply hnokey
        have hprefix : argument <+: key := List.prefix_of_prefix_length_le hpiece
          ((List.prefix_append _ _).trans hseparated) (Nat.not_lt.mp hinside)
        exact hprefix.subset hmem
      simp only [argumentTurn, find_some hkey hnokey, hend, Nat.add_lt_add_iff_left, hinside,
        if_false, assignment_none hnone, Option.bind_eq_bind, Option.bind_some]
      rfl
  · have hnone : 61 ∉ argument := by
      intro hmem
      apply heq
      rw [hsplit]
      exact List.mem_append_left _ hmem
    simp only [argumentTurn, find_none heq, hend, assignment_none hnone, Option.bind_eq_bind,
      Option.bind_some]
    rfl

/-! ## The whole query -/

/-- The map of a query: it is split at every '&', and the pieces are filed in order. -/
def splitQuery (query : Text) : Parameters :=
  .insertAll .empty ((query.splitOn 38).filterMap assignment)

/-- The first piece, and what is behind it. Behind the last piece there is nothing to file. -/
theorem filterMap_splitOn {argument rest : Text} (hno : 38 ∉ argument)
    (hrest : rest = [] ∨ ∃ more, rest = 38 :: more) :
    ((argument ++ rest).splitOn 38).filterMap assignment =
      (assignment argument).toList ++ ((rest.drop 1).splitOn 38).filterMap assignment := by
  have hcons : ∀ pieces, (argument :: pieces).filterMap assignment =
      (assignment argument).toList ++ pieces.filterMap assignment := by
    intro pieces
    rw [List.filterMap_cons]
    cases assignment argument <;> rfl
  rcases hrest with rfl | ⟨more, rfl⟩
  · rw [List.append_nil, List.splitOn_eq_singleton hno, hcons]
    rfl
  · rw [List.splitOn_append_cons_self_of_not_mem hno, hcons]
    rfl

theorem insertAll_append (m : Parameters) (l k : List (Text × Text)) :
    m.insertAll (l ++ k) = (m.insertAll l).insertAll k := List.foldl_append

/-- The loop comes to its end behind the query, with everything filed that is left. -/
theorem parse_loop (query : Text) {n : Nat} (pos : Nat) (hn : query.length - pos ≤ n)
    (parameters : Parameters) :
    ∃ stop, Visits (unparsed query) (argumentTurn query) (pos, parameters)
        (stop, parameters.insertAll (((query.drop pos).splitOn 38).filterMap assignment)) ∧
      query.length ≤ stop ∧
      loop (unparsed query) (argumentTurn query) n (pos, parameters) =
        some (stop, parameters.insertAll (((query.drop pos).splitOn 38).filterMap assignment)) := by
  by_cases hpos : pos < query.length
  · obtain ⟨argument, rest, hsplit, hno, hrest⟩ := exists_argument (query.drop pos)
    have hgo : Goes (unparsed query) (argumentTurn query) (pos, parameters) _ :=
      ⟨decide_eq_true hpos, argumentTurn_spec parameters (Nat.le_of_lt hpos) hsplit hno hrest⟩
    have hnext : query.drop (pos + argument.length + 1) = rest.drop 1 := by
      rw [← List.drop_drop, ← List.drop_drop, hsplit, List.drop_left]
    obtain ⟨n, rfl⟩ : ∃ n', n = n' + 1 := ⟨n - 1, by omega⟩
    have hless : query.length - (pos + argument.length + 1) ≤ n := by omega
    obtain ⟨stop, hvisits, hstop, hloop⟩ := parse_loop query _ hless
      (parameters.insertAll (assignment argument).toList)
    rw [hnext] at hvisits hloop
    rw [hsplit, filterMap_splitOn hno hrest, insertAll_append, loop_goes hgo]
    exact ⟨stop, .head hgo hvisits, hstop, hloop⟩
  · have hnil : query.drop pos = [] := List.drop_eq_nil_iff.mpr (Nat.not_lt.mp hpos)
    have hguard : unparsed query (pos, parameters) = false := decide_eq_false hpos
    rw [hnil]
    exact ⟨pos, .refl, Nat.not_lt.mp hpos, loop_ends (Or.inl hguard)⟩
termination_by query.length - pos

theorem parseQuery_eq (query : Text) : parseQuery query = some (splitQuery query) := by
  obtain ⟨stop, -, -, hloop⟩ := parse_loop query 0 (Nat.le_refl query.length) .empty
  rw [parseQuery, hloop]
  rfl

theorem lookup_splitQuery (query k : Text) : (splitQuery query).lookup k =
    lastValue k ((query.splitOn 38).filterMap assignment) := by
  rw [splitQuery, lookup_insertAll, lookup_empty, Option.or_none]

/-- The query loop ends, with the map that splitting the query gives; a value is decoded from the
characters between its positions alone; and what stands behind an '&' overrides what stands in front
of it. -/
theorem query_loop_splits (query : Text) :
    (∃ stop, Visits (unparsed query) (argumentTurn query) (0, .empty) (stop, splitQuery query) ∧
      unparsed query (stop, splitQuery query) = false) ∧
    parseQuery query = some (splitQuery query) ∧
    (∀ start stop, stop ≤ query.length → decodeQuery query start stop =
      some (decoded ((query.take stop).drop start))) ∧
    ∀ more k, (splitQuery (query ++ 38 :: more)).lookup k =
      ((splitQuery more).lookup k).or ((splitQuery query).lookup k) := by
  refine ⟨?_, parseQuery_eq query, fun start stop => decodeQuery_eq, ?_⟩
  · obtain ⟨stop, hvisits, hstop, -⟩ := parse_loop query 0 (Nat.le_refl query.length)
      .empty
    exact ⟨stop, hvisits, decide_eq_false (Nat.not_lt.mpr hstop)⟩
  · intro more k
    rw [lookup_splitQuery, lookup_splitQuery, lookup_splitQuery, List.splitOn_append_cons_self,
      List.filterMap_append, lastValue_append]

/-! ## The form, there and back -/

theorem addArgument_eq (parameters : Parameters) (argument : Text) :
    gateway.addArgument parameters argument =
      parameters.insertAll (assignment argument).toList := by
  unfold gateway.addArgument assignment
  rw [decodeQuery_decoded]
  split
  · rfl
  · rfl

/-- The loop over what is left of a query files what splitting it gives. -/
theorem addArguments_eq {query : Text} {n : Nat} (hn : query.length ≤ n)
    (parameters : Parameters) :
    gateway.addArguments n parameters query =
      parameters.insertAll ((query.splitOn 38).filterMap assignment) := by
  induction n generalizing query parameters with
  | zero =>
    obtain rfl := List.length_eq_zero_iff.mp (Nat.le_zero.mp hn)
    rfl
  | succ n ih =>
    unfold gateway.addArguments
    split
    · rename_i hne
      obtain ⟨argument, rest, rfl, hno, hrest⟩ := exists_argument query
      obtain ⟨htake, hdrop⟩ := takeWhile_piece hno hrest
      have hshort : (rest.drop 1).length ≤ n := by
        have hpos := List.length_pos_of_ne_nil hne
        rw [List.length_append] at hn hpos
        rw [List.length_drop]
        omega
      rw [htake, hdrop, addArgument_eq, ih hshort, filterMap_splitOn hno hrest, insertAll_append]
    · rename_i hnil
      obtain rfl := not_not.mp hnil
      rfl

/-- With positions or with what is left: the loop gives the same map. -/
theorem parseQuery_left (query : Text) : parseQuery query = some (gateway.parseQuery query) := by
  rw [parseQuery_eq, gateway.parseQuery, addArguments_eq (Nat.le_refl query.length)]
  rfl

/-- An escaped value is decoded to what it was, wherever it stands in a query. -/
theorem decodeQuery_embedded (front s back : Text) :
    decodeQuery (front ++ gateway.encodeQuery s ++ back) front.length
      (front.length + (gateway.encodeQuery s).length) = some s := by
  have hfits : front.length + (gateway.encodeQuery s).length ≤
      (front ++ gateway.encodeQuery s ++ back).length := by
    rw [List.length_append, List.length_append]
    omega
  have hpart : ((front ++ gateway.encodeQuery s ++ back).take
      (front.length + (gateway.encodeQuery s).length)).drop front.length =
      gateway.encodeQuery s := by
    rw [← List.length_append, List.take_left, List.drop_left]
  rw [decodeQuery_eq hfits, hpart, ← decodeQuery_decoded, gateway.decodeQuery_encodeQuery]

/-- A map comes back from the form that is made of it, unless a separator is in a key. Each value
comes back wherever it stands. -/
theorem form_comes_back :
    (∀ parameters : Parameters, gateway.Plain parameters.entries →
      parseQuery (gateway.formData parameters) = some parameters) ∧
    ∀ front s back, decodeQuery (front ++ gateway.encodeQuery s ++ back) front.length
      (front.length + (gateway.encodeQuery s).length) = some s := by
  refine ⟨?_, decodeQuery_embedded⟩
  intro parameters hplain
  rw [parseQuery_left, gateway.parseQuery_formData hplain]

/-- Separators, a space, an escape, 0 and 255 in a value, under an empty key and under another. -/
def oddParameters : Parameters :=
  ((.empty : Parameters).insert [] [38, 61, 43, 37]).insert (ascii "name") [32, 0, 255, 37]

theorem form_comes_back_odd :
    gateway.formData oddParameters = ascii "=%26%3D%2B%25&name=+%00%FF%25" ∧
      parseQuery (ascii "=%26%3D%2B%25&name=+%00%FF%25") = some oddParameters := by
  have hform : gateway.formData oddParameters = ascii "=%26%3D%2B%25&name=+%00%FF%25" := by
    decide
  have hplain : gateway.Plain oddParameters.entries := by
    have hentries : oddParameters.entries =
        [([], [38, 61, 43, 37]), (ascii "name", [32, 0, 255, 37])] := by
      decide
    rw [gateway.Plain, hentries, List.forall_mem_cons, List.forall_mem_singleton]
    decide
  exact ⟨hform, hform ▸ form_comes_back.1 oddParameters hplain⟩

end huasi.query_loop
