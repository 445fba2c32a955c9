-- The loop over a header value in http_parser_execute (src/src/http/http_parser.c), with its way
-- through a general header by memchr, against the same bytes one by one.
import Huasi.HttpParserBytes

open huasi.text huasi.runs huasi.http_parser

namespace huasi.http_execute

/-! ## The parser that a character sees -/

/-- The parser with another number of bytes counted, and another header. -/
def HttpParser.reheader (p : HttpParser) (n : Nat) (h : HeaderState) : HttpParser :=
  { p with nread := n, headerState := h }

section Characters

variable {p : HttpParser} {ch : UInt8} {h : HeaderState}

theorem matchName_reheader {name : Text} {waiting complete other : HeaderState} {c : UInt8}
    (n : Nat) (g : HeaderState) :
    matchName name waiting complete other (p.reheader n g) c =
      (matchName name waiting complete other p c).map fun x => (x.1.reheader n g, x.2) := by
  have hnext : (p.reheader n g).nextIndex = p.nextIndex.reheader n g := rfl
  have hindex : (p.nextIndex.reheader n g).index = p.nextIndex.index := rfl
  unfold matchName
  simp only [hnext, hindex]
  by_cases hlong : name.length < p.nextIndex.index
  · rw [if_pos hlong, if_pos hlong]
    rfl
  · rw [if_neg hlong, if_neg hlong]
    cases (name ++ [0])[p.nextIndex.index]? with
    | none => rfl
    | some expected =>
      simp only [Option.bind_eq_bind, Option.bind_some]
      split_ifs <;> rfl

/-- A character looks at neither. -/
theorem valueChar_reheader (n : Nat) (g : HeaderState) :
    valueChar (p.reheader n g) h ch =
      (valueChar p h ch).map (Except.map fun x => (x.1.reheader n g, x.2)) := by
  have hmatch : ∀ (name : Text) (waiting complete other : HeaderState) (c : UInt8),
      (matchName name waiting complete other (p.reheader n g) c).map Except.ok =
        ((matchName name waiting complete other p c).map
          (Except.ok : _ → Except Errno (HttpParser × HeaderState))).map
          (Except.map fun x => (x.1.reheader n g, x.2)) := by
    intro name waiting complete other c
    rw [matchName_reheader, Option.map_map, Option.map_map]
    rfl
  unfold valueChar
  cases h with
  | contentLength =>
    simp only [Option.map_some]
    unfold contentLengthChar
    split_ifs <;> first | rfl | contradiction
  | matchingTransferEncodingChunked | matchingConnectionKeepAlive | matchingConnectionClose
  | matchingConnectionUpgrade => exact hmatch _ _ _ _ _
  | matchingConnectionToken =>
    simp only [Option.map_some]
    split_ifs <;> rfl
  | connectionKeepAlive | connectionClose | connectionUpgrade =>
    simp only [Option.map_some]
    unfold tokenEnd
    split_ifs <;> rfl
  | _ => rfl

/-- The loop ends with an error. -/
def ValueEnd.isError : ValueEnd → Bool
  | .error _ _ => true
  | _ => false

/-- The same result, of a parser with other bytes counted and another header. -/
structure Value.Alike (n : Nat) (g : HeaderState) (v w : Value) : Prop where
  parser : w.parser = v.parser.reheader n g
  headerState : w.headerState = v.headerState
  length : w.length = v.length
  stop : w.stop = v.stop ∨ (w.stop.isError = true ∧ v.stop.isError = true)

theorem scanValue_reheader {turns : Nat} {data : Text} {v : Value} (n : Nat) (g : HeaderState)
    (hv : scanValue turns p h data = some v) :
    ∃ w, scanValue turns (p.reheader n g) h data = some w ∧ v.Alike n g w := by
  induction turns generalizing p h data v with
  | zero =>
    simp only [scanValue, Option.some.injEq] at hv ⊢
    subst hv
    exact ⟨_, rfl, rfl, rfl, rfl, Or.inl rfl⟩
  | succ turns ih =>
    cases data with
    | nil =>
      simp only [scanValue, Option.some.injEq] at hv ⊢
      subst hv
      exact ⟨_, rfl, rfl, rfl, rfl, Or.inl rfl⟩
    | cons ch rest =>
      have hnext : ∀ {q : HttpParser} {h' : HeaderState} {k : Nat} {data : Text} {v : Value},
          (scanValue turns q h' data).map (·.longer k) = some v →
          ∃ w, (scanValue turns (q.reheader n g) h' data).map (·.longer k) = some w ∧
            v.Alike n g w := by
        intro q h' k data v hv
        obtain ⟨x, hx, rfl⟩ := Option.map_eq_some_iff.mp hv
        obtain ⟨w, hw, halike⟩ := ih hx
        rw [hw]
        exact ⟨_, rfl, halike.parser, halike.headerState, by simp [Value.longer, halike.length],
          halike.stop⟩
      unfold scanValue at hv ⊢
      split_ifs at hv ⊢
      · cases hv
        exact ⟨_, rfl, rfl, rfl, rfl, Or.inl rfl⟩
      · cases hv
        exact ⟨_, rfl, rfl, rfl, rfl, Or.inl rfl⟩
      · cases hv
        exact ⟨_, rfl, rfl, rfl, rfl, Or.inr ⟨rfl, rfl⟩⟩
      · exact hnext hv
      · rw [valueChar_reheader]
        cases hchar : valueChar p h ch with
        | none => simp [hchar] at hv
        | some r =>
          cases r with
          | error e =>
            simp only [hchar, Option.some.injEq] at hv
            subst hv
            exact ⟨_, rfl, rfl, rfl, rfl, Or.inl rfl⟩
          | ok x =>
            simp only [hchar] at hv
            exact hnext hv

/-! ## A general header -/

theorem memchr_some {c : UInt8} {data : Text} {n i : Nat} (h : memchr c (data.take n) = some i) :
    i < n ∧ data[i]? = some c ∧ ∀ j < i, data[j]? ≠ some c := by
  obtain ⟨hlt, hat, hbefore⟩ := List.findIdx?_eq_some_iff_getElem.mp h
  rw [List.length_take] at hlt
  refine ⟨by omega, ?_, fun j hj hc => ?_⟩
  · rw [List.getElem_take] at hat
    rw [List.getElem?_eq_getElem (by omega), of_decide_eq_true hat]
  · have hne := hbefore j hj
    rw [List.getElem_take] at hne
    rw [List.getElem?_eq_getElem (by omega), Option.some.injEq] at hc
    exact hne (decide_eq_true hc)

theorem memchr_none {c : UInt8} {data : Text} {n : Nat} (h : memchr c (data.take n) = none) :
    ∀ j < n, data[j]? ≠ some c := by
  intro j hj hc
  obtain ⟨hlt, heq⟩ := List.getElem?_eq_some_iff.mp hc
  have hmem : c ∈ data.take n := by
    rw [List.mem_take_iff_getElem]
    exact ⟨j, by omega, heq⟩
  have hno := List.findIdx?_eq_none_iff.mp h c hmem
  simp at hno

/-- The line ends at `i`, and not before. -/
theorem ends_at {data : Text} {i : Nat} (hcr : ∀ j < i, data[j]? ≠ some CR)
    (hlf : ∀ j < i, data[j]? ≠ some LF) (hend : ∀ c, data[i]? = some c → c = CR ∨ c = LF) :
    (∀ c ∈ data.take i, c ≠ CR ∧ c ≠ LF) ∧
      ∀ c rest, data.drop i = c :: rest → c = CR ∨ c = LF := by
  constructor
  · intro c hc
    obtain ⟨j, hj, rfl⟩ := List.mem_take_iff_getElem.mp hc
    have hat : data[j]? = some data[j] := List.getElem?_eq_getElem (by omega)
    constructor
    · intro heq
      exact hcr j (by omega) (by rw [hat, heq])
    · intro heq
      exact hlf j (by omega) (by rw [hat, heq])
  · intro c rest hdrop
    apply hend
    rw [← List.head?_drop, hdrop]
    rfl

/-- The value of a general header ends where its line ends, if that is not too far. -/
theorem generalLength_ends {data : Text}
    (hshort : (∀ c ∈ data.take HTTP_MAX_HEADER_SIZE, c ≠ CR ∧ c ≠ LF) →
      data.length ≤ HTTP_MAX_HEADER_SIZE) :
    (∀ c ∈ data.take (generalLength data), c ≠ CR ∧ c ≠ LF) ∧
      ∀ c rest, data.drop (generalLength data) = c :: rest → c = CR ∨ c = LF := by
  unfold generalLength
  simp only
  cases hcr : memchr CR (data.take HTTP_MAX_HEADER_SIZE) with
  | some cr =>
    obtain ⟨hltcr, hatcr, hbeforecr⟩ := memchr_some hcr
    cases hlf : memchr LF (data.take HTTP_MAX_HEADER_SIZE) with
    | some lf =>
      obtain ⟨-, hatlf, hbeforelf⟩ := memchr_some hlf
      simp only
      split_ifs with hle
      · refine ends_at (fun j hj => hbeforecr j (by omega)) hbeforelf fun c hc => Or.inr ?_
        exact Option.some.inj (hc.symm.trans hatlf)
      · refine ends_at hbeforecr (fun j hj => hbeforelf j (by omega)) fun c hc => Or.inl ?_
        exact Option.some.inj (hc.symm.trans hatcr)
    | none =>
      simp only
      refine ends_at hbeforecr (fun j hj => memchr_none hlf j (by omega)) fun c hc => Or.inl ?_
      exact Option.some.inj (hc.symm.trans hatcr)
  | none =>
    cases hlf : memchr LF (data.take HTTP_MAX_HEADER_SIZE) with
    | some lf =>
      obtain ⟨hltlf, hatlf, hbeforelf⟩ := memchr_some hlf
      simp only
      refine ends_at (fun j hj => memchr_none hcr j (by omega)) hbeforelf fun c hc => Or.inr ?_
      exact Option.some.inj (hc.symm.trans hatlf)
    | none =>
      have hlines : ∀ c ∈ data.take HTTP_MAX_HEADER_SIZE, c ≠ CR ∧ c ≠ LF := by
        intro c hc
        obtain ⟨j, hj, rfl⟩ := List.mem_take_iff_getElem.mp hc
        have hat : data[j]? = some data[j] := List.getElem?_eq_getElem (by omega)
        exact ⟨fun heq => memchr_none hcr j (by omega) (by rw [hat, heq]),
          fun heq => memchr_none hlf j (by omega) (by rw [hat, heq])⟩
      have hlen := hshort hlines
      rw [List.take_of_length_le hlen] at hlines
      refine ⟨by simpa using hlines, ?_⟩
      simp

end Characters

/-! ## A turn over a header value -/

section Turns

variable {start place : Place} {s t u : Cursor} {p q : HttpParser} {ch : UInt8} {rest : Text}

/-- Behind the characters of a header value, counted. -/
def Cursor.valued (u : Cursor) (v : Value) (state : State) : Cursor :=
  { u with parser := { v.parser.reheader (v.parser.nread + v.length) v.headerState with
      state } }.advance v.length

/-- The data of a header value goes to its callback. -/
def Cursor.handed (u : Cursor) (bytes : Text) : Cursor :=
  { u with mark := none, calls := u.calls ++ [.data .headerValue bytes] }

theorem headerValue_out {v : Value}
    (hscan : scanValue u.rest.length u.parser u.parser.headerState u.rest = some v)
    (hstop : v.stop = .out) (hroom : v.parser.nread + v.length ≤ HTTP_MAX_HEADER_SIZE) :
    headerValue u = some (u.valued v v.parser.state) := by
  unfold headerValue
  simp only [hscan, hstop, Option.bind_eq_bind, Option.bind_some]
  rw [count_eq hroom]
  rfl

theorem headerValue_cr {v : Value} {bytes : Text}
    (hscan : scanValue u.rest.length u.parser u.parser.headerState u.rest = some v)
    (hstop : v.stop = .cr) (hroom : v.parser.nread + v.length ≤ HTTP_MAX_HEADER_SIZE)
    (hreturned : u.returned = false) (hmark : u.mark = some (.headerValue, bytes)) :
    headerValue u = some (((u.valued v .headerAlmostDone).handed
      (bytes ++ u.rest.take v.length)).advance 1) := by
  unfold headerValue
  simp only [hscan, hstop, Option.bind_eq_bind, Option.bind_some]
  unfold valueCr
  simp only [Cursor.perform, Cursor.advance, hmark, Option.map_some, if_true, Option.bind_eq_bind,
    Option.bind_some]
  rw [count_eq hroom, if_neg (by simp [hreturned])]
  rfl

theorem headerValue_lf {v : Value} {bytes : Text}
    (hscan : scanValue u.rest.length u.parser u.parser.headerState u.rest = some v)
    (hstop : v.stop = .lf) (hroom : v.parser.nread + v.length ≤ HTTP_MAX_HEADER_SIZE)
    (hreturned : u.returned = false) (hmark : u.mark = some (.headerValue, bytes)) :
    headerValue u = some (((u.valued v .headerValueLws).handed
      (bytes ++ u.rest.take v.length)).advance 1) := by
  unfold headerValue
  simp only [hscan, hstop, Option.bind_eq_bind, Option.bind_some]
  rw [count_eq hroom]
  unfold valueLf
  rw [if_neg (by simp [Cursor.advance, hreturned])]
  have hmove : ∀ w : Cursor, w.move (headerAlmostDone w.parser LF) =
      some (Cursor.advance { w with parser := { w.parser with state := .headerValueLws } } 1) := by
    intro w
    simp [Cursor.move, headerAlmostDone, HttpParser.goTo, HttpParser.next, Cursor.close]
  simp only [Cursor.perform, Cursor.advance, hmark, Option.map_some, if_true, Option.bind_eq_bind,
    Option.bind_some, hmove]
  rfl

theorem parser_callbackData {kind : Kind} (h : s.perform (.callbackData kind) = some t) :
    t.parser = s.parser := by
  unfold Cursor.perform at h
  cases hmark : s.mark with
  | none =>
    simp only [hmark, Option.some.injEq] at h
    rw [← h]
  | some m =>
    simp only [hmark] at h
    split_ifs at h <;> cases h <;> rfl

/-- A turn over a header value that goes on has room for it, and no error. -/
theorem headerValue_room {v : Value}
    (hscan : scanValue u.rest.length u.parser u.parser.headerState u.rest = some v)
    (hturn : headerValue u = some t) (ht : t.returned = false) :
    v.parser.nread + v.length ≤ HTTP_MAX_HEADER_SIZE ∧ v.stop.isError = false := by
  unfold headerValue at hturn
  simp only [hscan, Option.bind_eq_bind, Option.bind_some] at hturn
  have hover : ∀ w : Cursor, w.parser.nread = v.parser.nread → (w.count v.length).returned = false →
      v.parser.nread + v.length ≤ HTTP_MAX_HEADER_SIZE := by
    intro w hw hreturned
    by_contra hover
    have := @count_over w v.length (by omega)
    rw [hreturned] at this
    cases this
  cases hstop : v.stop with
  | out =>
    simp only [hstop, Option.some.injEq] at hturn
    exact ⟨hover _ rfl (by rw [hturn]; exact ht), rfl⟩
  | cr =>
    simp only [hstop] at hturn
    unfold valueCr at hturn
    obtain ⟨w, hperform, hturn⟩ := Option.bind_eq_some_iff.mp hturn
    refine ⟨hover w (by rw [parser_callbackData hperform]; rfl) ?_, rfl⟩
    by_contra hreturned
    rw [if_pos (by simpa using hreturned), Option.some.injEq] at hturn
    rw [hturn, ht] at hreturned
    exact hreturned rfl
  | lf =>
    simp only [hstop] at hturn
    unfold valueLf at hturn
    split_ifs at hturn with hreturned
    · rw [Option.some.inj hturn, ht] at hreturned
      cases hreturned
    · exact ⟨hover _ rfl (by simpa using hreturned), rfl⟩
  | error e headerState =>
    simp only [hstop, Option.some.injEq] at hturn
    rw [← hturn] at ht
    cases ht

/-- A byte in a header value. -/
theorem value_byte {r : Result} (hwaits : Waits p place) (hstate : p.state = .headerValue)
    (hbyte : Byte p ch r) :
    p.nread + 1 ≤ HTTP_MAX_HEADER_SIZE ∧
    ((ch = CR ∧ r.parser = { p.recount (p.nread + 1) with state := .headerAlmostDone } ∧
      r.calls = [.data .headerValue []]) ∨
    (ch = LF ∧ r.parser = { p.recount (p.nread + 1) with state := .headerValueLws } ∧
      r.calls = [.data .headerValue []]) ∨
    (ch ≠ CR ∧ ch ≠ LF ∧ ∃ w, scanValue 1 p p.headerState [ch] = some w ∧ w.stop = .out ∧
      p.nread + 2 ≤ HTTP_MAX_HEADER_SIZE ∧
      r.parser = w.parser.reheader (p.nread + 2) w.headerState ∧
      r.calls = [.data .headerValue [ch]])) := by
  obtain ⟨hcounts, t, hturn, hgoes, hparser, hcalls⟩ := byte_dispatch hwaits hbyte
  have hroom : p.nread + 1 ≤ HTTP_MAX_HEADER_SIZE := hcounts (by rw [hstate]; rfl)
  have hcounted : (Cursor.switched p ch).parser = p.recount (p.nread + 1) := by
    simp [Cursor.switched, HttpParser.counted, hstate, State.parsingHeader, HttpParser.recount]
  have hmark : (Cursor.switched p ch).mark = some (.headerValue, []) := by
    simp [Cursor.switched, Cursor.start, hstate, State.resumed]
  have hrest : (Cursor.switched p ch).rest = [ch] := rfl
  have hnone : (Cursor.switched p ch).calls = [] ∧ (Cursor.switched p ch).returned = false :=
    ⟨rfl, rfl⟩
  generalize Cursor.switched p ch = u at *
  have hturn : headerValue u = some t := by
    unfold dispatch at hturn
    simpa [hcounted, HttpParser.recount, hstate] using hturn
  refine ⟨hroom, ?_⟩
  by_cases hcr : ch = CR
  · have hscan : scanValue u.rest.length u.parser u.parser.headerState u.rest =
        some ⟨u.parser, u.parser.headerState, 0, .cr⟩ := by
      simp [hrest, scanValue, hcr]
    have hroom' : u.parser.nread + 0 ≤ HTTP_MAX_HEADER_SIZE := by
      rw [hcounted]
      exact hroom
    rw [headerValue_cr hscan rfl hroom' hnone.2 hmark] at hturn
    have ht := Option.some.inj hturn
    refine Or.inl ⟨hcr, ?_, ?_⟩
    · rw [hparser, ← ht]
      simp [Cursor.advance, Cursor.handed, Cursor.valued, hcounted, HttpParser.recount,
        HttpParser.reheader]
    · rw [hcalls, ← ht, flush_calls_eq]
      simp [Cursor.advance, Cursor.handed, Cursor.valued, hnone.1]
  by_cases hlf : ch = LF
  · have hscan : scanValue u.rest.length u.parser u.parser.headerState u.rest =
        some ⟨u.parser, u.parser.headerState, 0, .lf⟩ := by
      rw [hlf] at hcr hrest
      simp [hrest, scanValue, hcr]
    have hroom' : u.parser.nread + 0 ≤ HTTP_MAX_HEADER_SIZE := by
      rw [hcounted]
      exact hroom
    rw [headerValue_lf hscan rfl hroom' hnone.2 hmark] at hturn
    have ht := Option.some.inj hturn
    refine Or.inr (Or.inl ⟨hlf, ?_, ?_⟩)
    · rw [hparser, ← ht]
      simp [Cursor.advance, Cursor.handed, Cursor.valued, hcounted, HttpParser.recount,
        HttpParser.reheader]
    · rw [hcalls, ← ht, flush_calls_eq]
      simp [Cursor.advance, Cursor.handed, Cursor.valued, hnone.1]
  · have hready := hwaits.ready
    simp only [ReadyAt, hstate] at hready
    obtain ⟨w, hw, hdone⟩ := @scanValue_ok p 1 p.headerState [ch] (Nat.le_refl 1) hready
    obtain ⟨v, hv, halike⟩ := scanValue_reheader (p.nread + 1) p.headerState hw
    have hscan : scanValue u.rest.length u.parser u.parser.headerState u.rest = some v := by
      rw [hrest, hcounted]
      exact hv
    obtain ⟨hroom', hclean⟩ := headerValue_room hscan hturn hgoes
    have hout : w.stop = .out := by
      cases hstop : w.stop with
      | out => rfl
      | cr =>
        have hat := hdone.cr hstop
        have hzero : w.length = 0 := by
          have := (List.getElem?_eq_some_iff.mp hat).1
          simpa using this
        rw [hzero] at hat
        exact absurd (by simpa using hat) hcr
      | lf =>
        have hat := hdone.lf hstop
        have hzero : w.length = 0 := by
          have := (List.getElem?_eq_some_iff.mp hat).1
          simpa using this
        rw [hzero] at hat
        exact absurd (by simpa using hat) hlf
      | error e g =>
        rcases halike.stop with h | h
        · rw [h, hstop] at hclean
          cases hclean
        · rw [h.1] at hclean
          cases hclean
    have hone : v.length = 1 := by rw [halike.length, hdone.out hout]; rfl
    have hvout : v.stop = .out := by
      rcases halike.stop with h | h
      · rw [h, hout]
      · rw [h.1] at hclean
        cases hclean
    have hsize : v.parser.nread + v.length = p.nread + 2 := by rw [halike.parser, hone]; rfl
    have hvalued : (u.valued v v.parser.state).parser =
        v.parser.reheader (p.nread + 2) v.headerState := by
      rw [← hsize]
      rfl
    rw [headerValue_out hscan hvout hroom'] at hturn
    have ht := Option.some.inj hturn
    refine Or.inr (Or.inr ⟨hcr, hlf, w, hw, hout, by omega, ?_, ?_⟩)
    · rw [hparser, ← ht, hvalued, halike.parser, halike.headerState]
      rfl
    · rw [hcalls, ← ht, flush_calls_eq]
      simp [Cursor.valued, Cursor.advance, hone, hmark, hnone.1, hrest]

/-- A character that the loop over a header value goes on behind. -/
theorem scanValue_one {h : HeaderState} {w : Value} (hcr : ch ≠ CR) (hlf : ch ≠ LF)
    (hscan : scanValue 1 p h [ch] = some w) (hout : w.stop = .out) :
    isHeaderChar ch = true ∧
      if h = .general then w.parser = p ∧ w.headerState = .general
      else valueChar p h ch = some (.ok (w.parser, w.headerState)) := by
  unfold scanValue at hscan
  rw [if_neg hcr, if_neg hlf] at hscan
  by_cases hchar : isHeaderChar ch = true
  · refine ⟨hchar, ?_⟩
    rw [if_neg (by simp [hchar])] at hscan
    by_cases hgeneral : h = .general
    · simp only [hgeneral, if_true, scanValue, Option.map_some, Option.some.injEq] at hscan ⊢
      rw [← hscan]
      exact ⟨rfl, rfl⟩
    · rw [if_neg hgeneral] at hscan ⊢
      cases hr : valueChar p h ch with
      | none => simp [hr] at hscan
      | some r =>
        cases r with
        | error e =>
          simp only [hr, Option.some.injEq] at hscan
          rw [← hscan] at hout
          cases hout
        | ok x =>
          simp only [hr, scanValue, Option.map_some, Option.some.injEq] at hscan
          rw [← hscan]
          rfl
  · rw [if_pos (by simp [hchar]), Option.some.injEq] at hscan
    rw [← hscan] at hout
    cases hout

/-- The rest of a line in a general header. -/
theorem general_bytes {data : Text} {calls : List Call} (hwaits : Waits p place)
    (hstate : p.state = .headerValue) (hgeneral : p.headerState = .general)
    (hline : ∀ c ∈ data, c ≠ CR ∧ c ≠ LF) (h : Bytewise p data q calls) :
    q = p.recount (p.nread + 2 * data.length) ∧ calls = pieces .headerValue data ∧
      (data ≠ [] → p.nread + 2 * data.length ≤ HTTP_MAX_HEADER_SIZE) := by
  induction data generalizing p calls place with
  | nil =>
    obtain ⟨rfl, rfl⟩ := h
    exact ⟨rfl, rfl, nofun⟩
  | cons ch rest ih =>
    obtain ⟨r, more, hbyte, hrest, rfl⟩ := h
    obtain ⟨hcr, hlf⟩ := hline ch (by simp)
    obtain ⟨next, hwaits'⟩ := byte_waits hwaits hbyte
    obtain ⟨-, hcase⟩ := value_byte hwaits hstate hbyte
    rcases hcase with ⟨rfl, -⟩ | ⟨rfl, -⟩ | ⟨-, -, w, hscan, hout, hroom, hparser, hcalls⟩
    · exact absurd rfl hcr
    · exact absurd rfl hlf
    obtain ⟨-, hw⟩ := scanValue_one hcr hlf hscan hout
    rw [if_pos hgeneral] at hw
    rw [hw.1, hw.2, ← hgeneral] at hparser
    have hparser : r.parser = p.recount (p.nread + 2) := hparser
    rw [hparser] at hwaits' hrest
    obtain ⟨rfl, rfl, hroom'⟩ := ih hwaits' hstate hgeneral
      (fun c hc => hline c (by simp [hc])) hrest
    have hsize : p.nread + 2 + 2 * rest.length = p.nread + 2 * (ch :: rest).length := by
      rw [List.length_cons]
      omega
    refine ⟨?_, ?_, fun _ => ?_⟩
    · rw [← hsize]
      rfl
    · rw [hcalls]
      rfl
    · rw [← hsize]
      cases rest with
      | nil => simpa using hroom
      | cons c rest => exact hroom' (List.cons_ne_nil c rest)

/-- What the loop over a header value does, where its bytes are accepted. -/
structure Valued (p : HttpParser) (data : Text) (q : HttpParser) (calls : List Call) (v : Value) :
    Prop where
  scan : scanValue data.length p p.headerState data = some v
  clean : v.stop.isError = false
  state : v.parser.state = .headerValue
  bytes : Bytewise p (data.take v.length) (v.parser.reheader (p.nread + 2 * v.length) v.headerState)
    (pieces .headerValue (data.take v.length))
  more : ∃ more, calls = pieces .headerValue (data.take v.length) ++ more ∧
    Bytewise (v.parser.reheader (p.nread + 2 * v.length) v.headerState) (data.drop v.length) q more
  room : 0 < v.length → p.nread + 2 * v.length ≤ HTTP_MAX_HEADER_SIZE

/-- In front of the end of a line, or of the data. -/
theorem valued_here {data : Text} {calls : List Call} {stop : ValueEnd}
    (hstate : p.state = .headerValue) (h : Bytewise p data q calls)
    (hscan : scanValue data.length p p.headerState data = some ⟨p, p.headerState, 0, stop⟩)
    (hclean : stop.isError = false) : Valued p data q calls ⟨p, p.headerState, 0, stop⟩ where
  scan := hscan
  clean := hclean
  state := hstate
  bytes := ⟨rfl, rfl⟩
  more := ⟨calls, rfl, h⟩
  room := nofun

theorem scanValue_end {data : Text} (hend : ∀ c rest, data = c :: rest → c = CR ∨ c = LF) :
    ∃ stop : ValueEnd, stop.isError = false ∧ ∀ turns (p : HttpParser) h, data.length ≤ turns →
      scanValue turns p h data = some ⟨p, h, 0, stop⟩ := by
  cases data with
  | nil =>
    refine ⟨.out, rfl, fun turns p h _ => ?_⟩
    cases turns <;> rfl
  | cons c rest =>
    have hsucc : ∀ turns, (c :: rest).length ≤ turns → ∃ n, turns = n + 1 := by
      intro turns hle
      rw [List.length_cons] at hle
      exact ⟨turns - 1, by omega⟩
    by_cases hcr : c = CR
    · refine ⟨.cr, rfl, fun turns p h hle => ?_⟩
      obtain ⟨n, rfl⟩ := hsucc turns hle
      unfold scanValue
      rw [if_pos hcr]
    · refine ⟨.lf, rfl, fun turns p h hle => ?_⟩
      obtain ⟨n, rfl⟩ := hsucc turns hle
      unfold scanValue
      rw [if_neg hcr, if_pos ((hend c rest rfl).resolve_left hcr)]

/-- A general header, which the loop takes up to the end of the line in one go. -/
theorem general_valued {data : Text} {calls : List Call} (hwaits : Waits p place)
    (hstate : p.state = .headerValue) (hgeneral : p.headerState = .general) (hcr : ch ≠ CR)
    (hlf : ch ≠ LF) (hchar : isHeaderChar ch = true) (h : Bytewise p (ch :: data) q calls) :
    ∃ v, Valued p (ch :: data) q calls v := by
  have hsome : (ch :: data).take HTTP_MAX_HEADER_SIZE ≠ [] := by
    simp [HTTP_MAX_HEADER_SIZE]
  have hshort : (∀ c ∈ (ch :: data).take HTTP_MAX_HEADER_SIZE, c ≠ CR ∧ c ≠ LF) →
      (ch :: data).length ≤ HTTP_MAX_HEADER_SIZE := by
    intro hline
    have hsplit := h
    rw [← List.take_append_drop HTTP_MAX_HEADER_SIZE (ch :: data)] at hsplit
    obtain ⟨r, c, d, htake, -, -⟩ := bytewise_append.mp hsplit
    obtain ⟨-, -, hroom⟩ := general_bytes hwaits hstate hgeneral hline htake
    have hlen := hroom hsome
    rw [List.length_take] at hlen
    simp only [HTTP_MAX_HEADER_SIZE] at hlen ⊢
    omega
  obtain ⟨hline, hends⟩ := generalLength_ends hshort
  obtain ⟨hpos, hle⟩ := @generalLength_bounds ch data hcr hlf
  obtain ⟨stop, hclean, hstop⟩ := scanValue_end hends
  generalize hn : generalLength (ch :: data) = n at *
  have hsplit := h
  rw [← List.take_append_drop n (ch :: data)] at hsplit
  obtain ⟨r, c, d, htake, hdrop, rfl⟩ := bytewise_append.mp hsplit
  obtain ⟨rfl, rfl, hroom⟩ := general_bytes hwaits hstate hgeneral hline htake
  have hlen : ((ch :: data).take n).length = n := by
    rw [List.length_take]
    omega
  rw [hlen] at htake hdrop hroom
  have hlonger : Value.longer ⟨p, p.headerState, 0, stop⟩ n = ⟨p, p.headerState, n, stop⟩ := by
    simp [Value.longer]
  refine ⟨⟨p, p.headerState, n, stop⟩, ?_, hclean, hstate, htake, ⟨d, rfl, hdrop⟩, fun _ => ?_⟩
  · have hturns : ((ch :: data).drop n).length ≤ data.length := by
      rw [List.length_drop, List.length_cons]
      omega
    rw [List.length_cons]
    unfold scanValue
    rw [if_neg hcr, if_neg hlf, if_neg (by simp [hchar]), if_pos hgeneral]
    simp only [hn]
    rw [hstop data.length p p.headerState hturns, Option.map_some, hlonger]
  · refine hroom fun hnil => ?_
    rw [List.take_eq_nil_iff] at hnil
    rcases hnil with hnil | hnil
    · omega
    · cases hnil

/-- The bytes of a header value: as far as the loop over them goes. -/
theorem value_bytes {data : Text} {calls : List Call} (hwaits : Waits p place)
    (hstate : p.state = .headerValue) (h : Bytewise p data q calls) :
    ∃ v, Valued p data q calls v := by
  induction data generalizing p calls place with
  | nil =>
    obtain ⟨stop, hclean, hstop⟩ := @scanValue_end [] nofun
    exact ⟨_, valued_here hstate h (hstop _ p p.headerState (Nat.le_refl _)) hclean⟩
  | cons ch rest ih =>
    obtain ⟨r, more, hbyte, hrest, rfl⟩ := id h
    obtain ⟨hroom, hcase⟩ := value_byte hwaits hstate hbyte
    by_cases hends : ch = CR ∨ ch = LF
    · obtain ⟨stop, hclean, hstop⟩ := @scanValue_end (ch :: rest) fun c rest' heq => by
        rw [← (List.cons.inj heq).1]
        exact hends
      exact ⟨_, valued_here hstate h (hstop _ p p.headerState (Nat.le_refl _)) hclean⟩
    rw [not_or] at hends
    obtain ⟨hcr, hlf⟩ := hends
    obtain ⟨w, hscan, hout, hroom2, hparser, hcalls⟩ :=
      (hcase.resolve_left fun hcase => hcr hcase.1).resolve_left (fun hcase => hlf hcase.1) |>.2.2
    obtain ⟨hchar, hw⟩ := scanValue_one hcr hlf hscan hout
    by_cases hgeneral : p.headerState = .general
    · exact general_valued hwaits hstate hgeneral hcr hlf hchar h
    rw [if_neg hgeneral] at hw
    obtain ⟨next, hwaits'⟩ := byte_waits hwaits hbyte
    have hready := hwaits.ready
    simp only [ReadyAt, hstate] at hready
    obtain ⟨x, hx, hok⟩ := @valueChar_ok p ch p.headerState hready
    obtain rfl := Option.some.inj (hw.symm.trans hx)
    have hstate' : r.parser.state = .headerValue := by
      rw [hparser]
      exact hok.2.state.trans hstate
    obtain ⟨v, hv⟩ := ih hwaits' hstate' hrest
    have hcount : r.parser.nread = p.nread + 2 := by rw [hparser]; rfl
    have hheader : r.parser.headerState = w.headerState := by rw [hparser]; rfl
    have hself : w.parser = r.parser.reheader w.parser.nread w.parser.headerState := by
      rw [hparser]
      rfl
    obtain ⟨more', hmore, hdrop⟩ := hv.more
    obtain ⟨y, hy, halike⟩ :=
      scanValue_reheader w.parser.nread w.parser.headerState hv.scan
    rw [← hself, hheader] at hy
    have hclean : y.stop.isError = false := by
      rcases halike.stop with hstop | hstop
      · rw [hstop]
        exact hv.clean
      · rw [hv.clean] at hstop
        cases hstop.2
    have hend : (y.longer 1).parser.reheader (p.nread + 2 * (y.longer 1).length)
        (y.longer 1).headerState = v.parser.reheader (r.parser.nread + 2 * v.length) v.headerState := by
      have hsize : p.nread + 2 * (y.longer 1).length = r.parser.nread + 2 * v.length := by
        simp only [Value.longer, halike.length]
        omega
      rw [hsize]
      simp only [Value.longer, halike.parser, halike.headerState]
      rfl
    have hlength : (y.longer 1).length = v.length + 1 := by
      simp [Value.longer, halike.length, Nat.add_comm]
    have htake : (ch :: rest).take (y.longer 1).length = ch :: rest.take v.length := by
      rw [hlength, List.take_succ_cons]
    have hdropped : (ch :: rest).drop (y.longer 1).length = rest.drop v.length := by
      rw [hlength, List.drop_succ_cons]
    refine ⟨y.longer 1, ?_, hclean, ?_, ?_, ⟨more', ?_, ?_⟩, ?_⟩
    · rw [List.length_cons]
      unfold scanValue
      rw [if_neg hcr, if_neg hlf, if_neg (by simp [hchar]), if_neg hgeneral]
      simp only [hw, hy, Option.map_some]
    · simp only [Value.longer, halike.parser]
      exact hv.state
    · rw [hend, htake]
      exact ⟨r, _, hbyte, hv.bytes, by rw [hcalls]; rfl⟩
    · rw [htake, hcalls, hmore]
      rfl
    · rw [hend, hdropped]
      exact hdrop
    · intro _
      have := hv.room
      simp only [Value.longer, halike.length]
      by_cases hpos : 0 < v.length
      · have := hv.room hpos
        omega
      · omega

/-- The byte that ends a line hands the data of the header value over. -/
theorem valueEnd_joined {calls : List Call} {v w : Value} {bytes : Text} {state : State} {r : Result}
    {k : Nat} (hvalued : Valued p s.rest q calls v) (hk : k ≤ p.nread)
    (halike : v.Alike (k + 1) p.headerState w) (hmark : s.mark = some (.headerValue, bytes))
    (hreturned : s.returned = false) (hrest : s.rest.drop v.length = ch :: rest)
    (hbyte : Byte (v.parser.reheader (p.nread + 2 * v.length) v.headerState) ch r)
    (hparser : r.parser = { v.parser.reheader (p.nread + 2 * v.length + 1) v.headerState with state })
    (hcalls : r.calls = [.data .headerValue []]) :
    Joined s p (s.rest.take v.length ++ [ch])
      ((({ s with parser := p.recount (k + 1) }.valued w state).handed
        (bytes ++ s.rest.take w.length)).advance 1) r.parser
      (pieces .headerValue (s.rest.take v.length) ++ r.calls) where
  bytes := bytewise_append.mpr ⟨_, _, _, hvalued.bytes, bytewise_singleton hbyte, rfl⟩
  near := by
    rw [hparser]
    refine ⟨k + 1 + v.length, ?_, ?_⟩
    · show k + 1 + v.length ≤ p.nread + 2 * v.length + 1
      omega
    · show { w.parser.reheader (w.parser.nread + w.length) w.headerState with state } = _
      rw [halike.parser, halike.headerState, halike.length]
      rfl
  calls := by
    have hjoin : join (s.calls ++ [.data .headerValue (bytes ++ s.rest.take v.length)]) =
        join (s.flush.calls ++ pieces .headerValue (s.rest.take v.length)) := by
      rw [flush_calls_eq, hmark]
      exact (join_pieces _ _ _ _).symm
    rw [hcalls, ← join_handed hjoin, flush_calls_eq]
    simp [Cursor.handed, Cursor.valued, Cursor.advance, halike.length]
  rest := by
    have hsplit := (List.take_append_drop v.length s.rest).symm
    show s.rest = s.rest.take v.length ++ [ch] ++ (s.rest.drop w.length).drop 1
    rw [halike.length, hrest]
    simpa [hrest] using hsplit
  some := by simp
  returned := hreturned

/-- A turn over a header value. -/
theorem headerValue_joined {calls : List Call} (hwaits : Waits p place)
    (hnear : Near p s.parser) (hstate : p.state = .headerValue) (hready : s.Ready start)
    (hrest : s.rest = ch :: rest) (hreturned : s.returned = false)
    (hbytes : Bytewise p s.rest q calls) :
    ∃ t data r c, turn s = some t ∧ Joined s p data t r c := by
  obtain ⟨v, hvalued⟩ := value_bytes hwaits hstate hbytes
  obtain ⟨k, hk, hparser⟩ := hnear
  have hcounts : p.nread + 1 ≤ HTTP_MAX_HEADER_SIZE := by
    rw [hrest] at hbytes
    obtain ⟨r, -, hbyte, -⟩ := hbytes
    exact (byte_dispatch hwaits hbyte).1 (by rw [hstate]; rfl)
  have hcounted : s.parser.counted = p.recount (k + 1) := by
    simp [HttpParser.counted, hparser, hstate, State.parsingHeader, HttpParser.recount]
  have hturn : turn s = headerValue { s with parser := p.recount (k + 1) } := by
    have hcountss : s.parser.Counts := by
      intro _
      rw [hparser]
      exact Nat.le_trans (Nat.add_le_add_right hk 1) hcounts
    rw [turn_dispatch hrest hreturned hcountss, hcounted]
    unfold dispatch
    simp [HttpParser.recount, hstate]
  obtain ⟨w, hscan, halike⟩ := scanValue_reheader (k + 1) p.headerState hvalued.scan
  have hstop : w.stop = v.stop := by
    rcases halike.stop with h | h
    · exact h
    · rw [hvalued.clean] at h
      cases h.2
  have hroom : w.parser.nread + w.length ≤ HTTP_MAX_HEADER_SIZE := by
    rw [halike.parser, halike.length]
    show k + 1 + v.length ≤ _
    by_cases hn : 0 < v.length
    · have := hvalued.room hn
      omega
    · omega
  obtain ⟨bytes, hmark⟩ : ∃ bytes, s.mark = some (.headerValue, bytes) := by
    have hstates : s.parser.state = .headerValue := by rw [hparser, hstate]
    have hkind := mark_resumed hready (by rw [hstates]; rfl)
    rw [hstates] at hkind
    obtain ⟨m, hm, hkind⟩ := Option.map_eq_some_iff.mp hkind
    exact ⟨m.2, by rw [hm, ← hkind]⟩
  have hpoint := hwaits.ready
  simp only [ReadyAt, hstate] at hpoint
  obtain ⟨x, hx, hdone⟩ := scanValue_ok (Nat.le_refl s.rest.length) hpoint
  obtain rfl := Option.some.inj (hvalued.scan.symm.trans hx)
  obtain ⟨more, -, hdrop⟩ := hvalued.more
  -- the byte that ends the line
  have hends : ∀ c, s.rest[v.length]? = some c → ∃ rest' r, s.rest.drop v.length = c :: rest' ∧
      Byte (v.parser.reheader (p.nread + 2 * v.length) v.headerState) c r ∧
      ∃ place, Waits (v.parser.reheader (p.nread + 2 * v.length) v.headerState) place := by
    intro c hc
    obtain ⟨hlt, hat⟩ := List.getElem?_eq_some_iff.mp hc
    have hcons := List.drop_eq_getElem_cons hlt
    rw [hat] at hcons
    rw [hcons] at hdrop
    obtain ⟨r, -, hbyte, -⟩ := hdrop
    exact ⟨_, r, hcons, hbyte, bytewise_waits ⟨place, hwaits⟩ hvalued.bytes⟩
  have hstatev : (v.parser.reheader (p.nread + 2 * v.length) v.headerState).state = .headerValue :=
    hvalued.state
  cases hcase : v.stop with
  | out =>
    rw [headerValue_out hscan (hstop.trans hcase) hroom] at hturn
    have hlen := hdone.out hcase
    refine ⟨_, s.rest.take v.length, _, _, hturn, hvalued.bytes, ?_, ?_, ?_, ?_, hreturned⟩
    · refine ⟨k + 1 + v.length, ?_, ?_⟩
      · show k + 1 + v.length ≤ p.nread + 2 * v.length
        rw [hlen, hrest, List.length_cons]
        omega
      · show { w.parser.reheader (w.parser.nread + w.length) w.headerState with
          state := w.parser.state } = _
        rw [halike.parser, halike.headerState, halike.length]
        rfl
    · rw [flush_calls_eq s, hmark]
      simp only [Option.map_some, Option.toList_some]
      rw [join_pieces, flush_calls_eq]
      simp [Cursor.valued, Cursor.advance, halike.length]
    · show s.rest = s.rest.take v.length ++ s.rest.drop w.length
      rw [halike.length, List.take_append_drop]
    · rw [hlen, List.take_length, hrest]
      simp
  | cr =>
    rw [headerValue_cr (u := { s with parser := p.recount (k + 1) }) hscan (hstop.trans hcase)
      hroom hreturned hmark] at hturn
    obtain ⟨rest', r, hcons, hbyte, place', hwaits'⟩ := hends CR (hdone.cr hcase)
    obtain ⟨-, ⟨-, hparserr, hcallsr⟩ | ⟨h, -⟩ | ⟨h, -⟩⟩ := value_byte hwaits' hstatev hbyte
    · exact ⟨_, _, _, _, hturn,
        valueEnd_joined hvalued hk halike hmark hreturned hcons hbyte hparserr hcallsr⟩
    · cases h
    · exact absurd rfl h
  | lf =>
    rw [headerValue_lf (u := { s with parser := p.recount (k + 1) }) hscan (hstop.trans hcase)
      hroom hreturned hmark] at hturn
    obtain ⟨rest', r, hcons, hbyte, place', hwaits'⟩ := hends LF (hdone.lf hcase)
    obtain ⟨-, ⟨h, -⟩ | ⟨-, hparserr, hcallsr⟩ | ⟨-, h, -⟩⟩ := value_byte hwaits' hstatev hbyte
    · cases h
    · exact ⟨_, _, _, _, hturn,
        valueEnd_joined hvalued hk halike hmark hreturned hcons hbyte hparserr hcallsr⟩
    · exact absurd rfl h
  | error e h =>
    have hclean := hvalued.clean
    rw [hcase] at hclean
    cases hclean

end Turns

end huasi.http_execute
