-- The header lines that http_parser_execute (src/src/http/http_parser.c) takes: lines that mean
-- nothing to it, Content-Length, and Transfer-Encoding: chunked, in any reads.
import Huasi.HttpTakes
import Huasi.Decimal

open huasi.text huasi.runs huasi.http_parser huasi.decimal

namespace huasi.http_execute

/-- What the parser knows of a request in front of the next header line. -/
structure Known where
  method : Nat
  flags : Flags
  contentLength : Nat

/-- The parser knows this, with `n` bytes counted at most. -/
structure Carries (p : HttpParser) (known : Known) (n : Nat) : Prop where
  running : p.Running
  method : p.method = known.method
  flags : p.flags = known.flags
  contentLength : p.contentLength = known.contentLength
  version : p.httpMajor = 1 ∧ p.httpMinor = 1
  count : p.nread ≤ n

/-- The states in front of a header line: at the first one, and behind a value, which may be
empty. -/
def State.beforeLine (state : State) : Prop :=
  state = .headerFieldStart ∨ state = .headerValueLws ∨ state = .headerValueDiscardLws

/-- The parser when the line before is finished. -/
def HttpParser.finished (p : HttpParser) : HttpParser :=
  { p with
    flags := if p.state = .headerFieldStart then p.flags else p.flags.finish p.headerState
    state := .headerFieldStart }

/-- In front of a header line. -/
structure AtLine (p : HttpParser) (known : Known) (n : Nat) : Prop where
  state : p.state.beforeLine
  carries : Carries p.finished known n

section Lines

variable {p q : HttpParser} {known : Known} {n : Nat} {ch : UInt8} {data : Text}
  {calls : List Call}

theorem Carries.mono {m : Nat} (h : Carries p known n) (hm : n ≤ m) : Carries p known m :=
  { h with count := Nat.le_trans h.count hm }

/-- The actions for an empty value. -/
def HttpParser.pendingActions (p : HttpParser) : List Action :=
  if p.state = .headerValueDiscardLws then [.mark .headerValue, .callbackData .headerValue] else []

/-- The first byte of a line finishes the line before. -/
theorem line_switch (hstate : p.state.beforeLine) (hspace : ch ≠ 32) (htab : ch ≠ 9) :
    switch p.counted ch =
      some ((headerFieldStart (p.finished.recount (p.nread + 1)) ch).after p.pendingActions) := by
  have hcounted : p.counted = p.recount (p.nread + 1) := by
    rcases hstate with hstate | hstate | hstate <;>
      simp [HttpParser.counted, hstate, State.parsingHeader, HttpParser.recount]
  have hstates : (p.recount (p.nread + 1)).state = p.state := rfl
  rw [hcounted]
  unfold switch
  rw [hstates]
  rcases hstate with hstate | hstate | hstate
  · have hsame : p.finished.recount (p.nread + 1) = p.recount (p.nread + 1) := by
      unfold HttpParser.finished
      rw [if_pos hstate, ← hstate]
    rw [hsame]
    simp [hstate, HttpParser.pendingActions, Move.after]
  · have hflags : p.finished.flags = p.flags.finish p.headerState := by
      simp [HttpParser.finished, hstate]
    simp only [hstate, HttpParser.pendingActions]
    unfold headerValueLws
    rw [if_neg (by simp [hspace, htab])]
    simp [HttpParser.recount, ← hflags, Move.after]
    rfl
  · have hflags : p.finished.flags = p.flags.finish p.headerState := by
      simp [HttpParser.finished, hstate]
    simp only [hstate, HttpParser.pendingActions]
    unfold headerValueDiscardLws
    rw [if_neg (by simp [hspace, htab])]
    simp [HttpParser.recount, ← hflags]
    rfl

theorem beforeLine_resumed (hstate : p.state.beforeLine) :
    p.state.resumed = none ∧ p.state.bulk = false := by
  rcases hstate with hstate | hstate | hstate <;> rw [hstate] <;> exact ⟨rfl, rfl⟩

theorem pendingActions_performed (hstate : p.state.beforeLine) (q : HttpParser) (ch : UInt8) :
    p.pendingActions.foldlM Cursor.perform { Cursor.start p [ch] with parser := q } =
      some { Cursor.start p [ch] with parser := q, calls := p.pending } := by
  have hmark : (Cursor.start p [ch]).mark = none := by
    simp [Cursor.start, (beforeLine_resumed hstate).1]
  unfold HttpParser.pendingActions HttpParser.pending
  split_ifs <;> simp [Cursor.perform, hmark] <;> rfl

/-- The parser behind the first letter of a name. -/
def HttpParser.lettered (p : HttpParser) (ch : UInt8) : HttpParser :=
  { p.finished with
    nread := p.nread + 1
    index := 0
    state := .headerField
    headerState := firstHeaderState (token ch) }

/-- The first letter of a name. -/
theorem letter_takes (hp : p.Running) (hstate : p.state.beforeLine) (hch : token ch ≠ 0)
    (hroom : p.nread + 1 ≤ HTTP_MAX_HEADER_SIZE) :
    Takes p [ch] (p.lettered ch) [.data .headerField [ch]] := by
  have hspace : ch ≠ 32 := by
    rintro rfl
    exact hch (by decide)
  have htab : ch ≠ 9 := by
    rintro rfl
    exact hch (by decide)
  obtain ⟨hresumed, hbulk⟩ := beforeLine_resumed hstate
  have hswitch : switch p.counted ch =
      some ((p.lettered ch).next (p.pendingActions ++ [.mark .headerField])) := by
    rw [line_switch hstate hspace htab, headerFieldStart_letter hch]
    rfl
  have hact : (p.pendingActions ++ [Action.mark .headerField]).foldlM Cursor.perform
      { Cursor.start p [ch] with parser := p.lettered ch } =
        some ⟨p.lettered ch, [ch], some (.headerField, []), p.pending, false⟩ := by
    rw [List.foldlM_append, pendingActions_performed hstate]
    simp [Cursor.perform, Cursor.start, hresumed]
  refine takes_byte (byte_of_switch hp (fun _ => hroom) hbulk hswitch hact hp) rfl ?_
  rw [flush_calls_eq]
  simp [Cursor.advance, HttpParser.pending, HttpParser.lettered]

/-- The end of the lines. -/
theorem lines_end (hp : p.Running) (hstate : p.state.beforeLine)
    (hroom : p.nread + 1 ≤ HTTP_MAX_HEADER_SIZE) :
    Takes p [CR] { p.finished with nread := p.nread + 1, state := .headersAlmostDone } [] := by
  obtain ⟨hresumed, hbulk⟩ := beforeLine_resumed hstate
  have hswitch := @line_switch _ CR hstate (by decide) (by decide)
  have hact := pendingActions_performed hstate
    { p.finished with nread := p.nread + 1, state := .headersAlmostDone } CR
  rw [← List.append_nil p.pendingActions] at hact
  refine takes_byte (byte_of_switch hp (fun _ => hroom) hbulk hswitch hact hp) rfl ?_
  rw [flush_calls_eq]
  simp [Cursor.advance, Cursor.start, hresumed, HttpParser.pending]

/-! ## A name -/

/-- A letter of a name. -/
theorem field_takes {q : HttpParser} {h : HeaderState} (hp : p.Running) (hstate : p.state = .headerField)
    (hch : token ch ≠ 0) (hchar : fieldChar p ch (token ch) = some (q, h))
    (hsame : q = p.reindex q.index) (hroom : p.nread + 2 ≤ HTTP_MAX_HEADER_SIZE) :
    Takes p [ch] { q.recount (p.nread + 2) with headerState := h } [.data .headerField [ch]] := by
  have hcounted : p.counted = p.recount (p.nread + 1) := by
    simp [HttpParser.counted, hstate, State.parsingHeader, HttpParser.recount]
  have hscan : scanField (Cursor.switched p ch).parser (Cursor.switched p ch).rest =
      some (({ q with headerState := h } : HttpParser).recount (p.nread + 1), 1) := by
    show scanField p.counted [ch] = _
    rw [hcounted, scanField_recount]
    simp [scanField, hch, hchar]
  have hdispatch : dispatch (.switched p ch) ch = headerField (.switched p ch) := by
    have hmoved : (Cursor.switched p ch).parser.state = .headerField := (counted_state p).trans hstate
    unfold dispatch
    simp [hmoved]
  rw [headerField_eq hscan hroom rfl] at hdispatch
  have hrun : ({ q.recount (p.nread + 2) with headerState := h } : HttpParser).Running := by
    rw [hsame]
    exact hp
  have hstates : q.state = .headerField := by
    rw [hsame]
    exact hstate
  have hbyte := byte_of_dispatch hp (fun _ => by omega) hdispatch rfl rfl hrun
  refine takes_byte hbyte rfl ?_
  rw [flush_calls_eq]
  simp [Cursor.behind, Cursor.advance, Cursor.switched, Cursor.start, hstate, State.resumed,
    HttpParser.pending, hstates, HttpParser.recount]

/-- The letters of a name behind its first one. -/
theorem letters_take {pre name : Text} (hp : p.Running) (hstate : p.state = .headerField)
    (hname : ∀ c ∈ name, token c ≠ 0) (hspelled : Spelled pre p.index p.headerState)
    (hroom : p.nread + 2 * name.length ≤ HTTP_MAX_HEADER_SIZE) :
    ∃ i h, Takes p name { (p.reindex i).recount (p.nread + 2 * name.length) with headerState := h }
      (pieces .headerField name) ∧ Spelled (pre ++ name.map token) i h := by
  induction name generalizing p pre with
  | nil => exact ⟨p.index, p.headerState, takes_nil p, by simpa using hspelled⟩
  | cons ch name ih =>
    have hch : token ch ≠ 0 := hname ch (by simp)
    have hspace : ch ≠ 32 := by
      rintro rfl
      exact hch (by decide)
    rw [List.length_cons] at hroom
    obtain ⟨q, h, hchar, hsame, hspelled'⟩ := fieldChar_spelled (c := token ch) hspace hspelled
    have hfirst := field_takes hp hstate hch hchar hsame (by omega)
    obtain ⟨i, h', hrest, hend⟩ := @ih { q.recount (p.nread + 2) with headerState := h }
      (pre ++ [token ch]) (by rw [hsame]; exact hp) (by rw [hsame]; exact hstate)
      (fun c hc => hname c (by simp [hc])) hspelled'
      (by show p.nread + 2 + 2 * name.length ≤ _; omega)
    refine ⟨i, h', ?_, by simpa using hend⟩
    have hsize : p.nread + 2 * (name.length + 1) = p.nread + 2 + 2 * name.length := by omega
    have hboth := takes_append hfirst hrest
    rw [hsame] at hboth
    rw [List.length_cons, hsize]
    exact hboth

/-- The colon behind a name. -/
theorem colon_takes (hp : p.Running) (hstate : p.state = .headerField)
    (hroom : p.nread + 1 ≤ HTTP_MAX_HEADER_SIZE) :
    Takes p [58] { p.recount (p.nread + 1) with state := .headerValueDiscardWs }
      [.data .headerField []] := by
  have hcounted : p.counted = p.recount (p.nread + 1) := by
    simp [HttpParser.counted, hstate, State.parsingHeader, HttpParser.recount]
  have hscan : scanField (Cursor.switched p 58).parser (Cursor.switched p 58).rest =
      some (p.recount (p.nread + 1), 0) := by
    show scanField p.counted [58] = _
    rw [hcounted]
    rfl
  have hdispatch : dispatch (.switched p 58) 58 = headerField (.switched p 58) := by
    have hmoved : (Cursor.switched p 58).parser.state = .headerField := (counted_state p).trans hstate
    unfold dispatch
    simp [hmoved]
  have hmark : ((Cursor.switched p 58).behind (p.recount (p.nread + 1)) 0).mark =
      some (.headerField, []) := by
    simp [Cursor.behind, Cursor.advance, Cursor.switched, Cursor.start, hstate, State.resumed]
  rw [headerField_eq hscan hroom rfl] at hdispatch
  have hmove := hdispatch.trans (fieldEnd_move hmark 58)
  rw [if_pos rfl] at hmove
  refine takes_byte (byte_of_dispatch hp (fun _ => hroom) hmove rfl rfl hp) rfl ?_
  rw [flush_calls_eq]
  simp [Cursor.behind, Cursor.advance, Cursor.switched, Cursor.start, HttpParser.pending, hstate]

/-- A name, the colon and a space. -/
theorem name_takes {name : Text} (h : AtLine p known n) (hsome : name ≠ [])
    (hname : ∀ c ∈ name, token c ≠ 0) (hroom : n + 2 * name.length + 2 ≤ HTTP_MAX_HEADER_SIZE) :
    ∃ q i, Takes p (name ++ [58, 32]) q [.data .headerField name] ∧
      q.state = .headerValueDiscardWs ∧ Carries q known (n + 2 * name.length + 1) ∧
      Spelled (name.map token) i q.headerState := by
  obtain ⟨hstate, hcarries⟩ := h
  have hp : p.Running := hcarries.running
  have hcount : p.nread ≤ n := hcarries.count
  cases name with
  | nil => exact absurd rfl hsome
  | cons ch name =>
    rw [List.length_cons] at hroom ⊢
    have hfirst := letter_takes hp hstate (hname ch (by simp)) (by omega)
    obtain ⟨i, hs, hletters, hspelled⟩ := @letters_take (p.lettered ch) [token ch] name hp rfl
      (fun c hc => hname c (by simp [hc])) (first_spelled (token ch))
      (by show p.nread + 1 + 2 * name.length ≤ _; omega)
    generalize hr : ({ ((p.lettered ch).reindex i).recount ((p.lettered ch).nread + 2 * name.length)
      with headerState := hs } : HttpParser) = r at hletters
    have hcarriesr : Carries r known (n + 2 * name.length + 1) := by
      rw [← hr]
      refine ⟨hp, hcarries.method, hcarries.flags, hcarries.contentLength, hcarries.version, ?_⟩
      show p.nread + 1 + 2 * name.length ≤ _
      omega
    have hcountr : r.nread = p.nread + 1 + 2 * name.length := by rw [← hr]; rfl
    have hstater : r.state = .headerField := by rw [← hr]; rfl
    have hheader : r.headerState = hs := by rw [← hr]
    have hcolon := colon_takes hcarriesr.running hstater (by omega)
    have hspace : Takes { r.recount (r.nread + 1) with state := .headerValueDiscardWs } [32]
        { r.recount (r.nread + 2) with state := .headerValueDiscardWs } [] := by
      refine takes_plain hcarriesr.running rfl rfl ?_ rfl hcarriesr.running
      show r.nread + 1 + 1 ≤ _
      omega
    refine ⟨_, i, ((takes_append (takes_append hfirst hletters)
      (takes_append hcolon hspace)).joined ?_), rfl, ?_, ?_⟩
    · have hpieces := join_pieces [] .headerField [ch] name
      rw [List.nil_append, List.nil_append] at hpieces
      exact (join_append_congr hpieces rfl).trans (join_data_nil [] .headerField (ch :: name))
    · refine { hcarriesr with count := ?_ }
      show r.nread + 2 ≤ _
      omega
    · rw [← hheader] at hspelled
      exact hspelled

/-! ## A value -/

/-- A character of a value. -/
theorem char_takes {w : Value} (hp : p.Running) (hstate : p.state = .headerValue)
    (hscan : scanValue 1 p p.headerState [ch] = some w) (hstop : w.stop = .out)
    (hlength : w.length = 1) (hkeeps : Keeps p w.parser) (hok : w.parser.httpErrno = .ok)
    (hroom : p.nread + 2 ≤ HTTP_MAX_HEADER_SIZE) :
    Takes p [ch] (w.parser.reheader (p.nread + 2) w.headerState) [.data .headerValue [ch]] := by
  have hcounted : p.counted = p.reheader (p.nread + 1) p.headerState := by
    simp [HttpParser.counted, hstate, State.parsingHeader, HttpParser.reheader]
  obtain ⟨v, hv, halike⟩ := scanValue_reheader (p.nread + 1) p.headerState hscan
  have hvstop : v.stop = .out := by
    rcases halike.stop with h | h
    · rw [h, hstop]
    · rw [hstop] at h
      cases h.2
  have hscan' : scanValue (Cursor.switched p ch).rest.length (Cursor.switched p ch).parser
      (Cursor.switched p ch).parser.headerState (Cursor.switched p ch).rest = some v := by
    show scanValue 1 p.counted p.counted.headerState [ch] = some v
    rw [hcounted]
    exact hv
  have hlen : v.length = 1 := halike.length.trans hlength
  have hsize : v.parser.nread + v.length = p.nread + 2 := by
    rw [hlen, halike.parser]
    rfl
  have hdispatch : dispatch (.switched p ch) ch = headerValue (.switched p ch) := by
    have hmoved : (Cursor.switched p ch).parser.state = .headerValue := (counted_state p).trans hstate
    unfold dispatch
    simp [hmoved]
  rw [headerValue_out hscan' hvstop (by omega)] at hdispatch
  have hparser : ((Cursor.switched p ch).valued v v.parser.state).parser =
      w.parser.reheader (p.nread + 2) w.headerState := by
    show { v.parser.reheader (v.parser.nread + v.length) v.headerState with
      state := v.parser.state } = _
    rw [hsize, halike.parser, halike.headerState]
    rfl
  have hbyte := byte_of_dispatch hp (fun _ => by omega) hdispatch rfl
    (by simp [Cursor.valued, Cursor.advance, Cursor.switched, Cursor.start, hlen])
    (by rw [hparser]; exact ⟨hok, hkeeps.upgrade.trans hp.2⟩)
  refine takes_byte hbyte hparser ?_
  have hpending : (w.parser.reheader (p.nread + 2) w.headerState).pending = [] := by
    have hstates : (w.parser.reheader (p.nread + 2) w.headerState).state = .headerValue :=
      hkeeps.state.trans hstate
    simp [HttpParser.pending, hstates]
  rw [flush_calls_eq, hpending]
  simp [Cursor.valued, Cursor.advance, Cursor.switched, Cursor.start, hstate, State.resumed,
    HttpParser.pending, hlen]

/-- The end of the line behind a value. -/
theorem valueEnd_takes (hp : p.Running) (hstate : p.state = .headerValue)
    (hroom : p.nread + 2 ≤ HTTP_MAX_HEADER_SIZE) :
    Takes p [CR, LF] { p.recount (p.nread + 2) with state := .headerValueLws }
      [.data .headerValue []] := by
  have hcounted : p.counted = p.recount (p.nread + 1) := by
    simp [HttpParser.counted, hstate, State.parsingHeader, HttpParser.recount]
  have hscan : scanValue (Cursor.switched p CR).rest.length (Cursor.switched p CR).parser
      (Cursor.switched p CR).parser.headerState (Cursor.switched p CR).rest =
        some ⟨p.recount (p.nread + 1), p.headerState, 0, .cr⟩ := by
    show scanValue 1 p.counted p.counted.headerState [CR] = _
    rw [hcounted]
    rfl
  have hdispatch : dispatch (.switched p CR) CR = headerValue (.switched p CR) := by
    have hmoved : (Cursor.switched p CR).parser.state = .headerValue := (counted_state p).trans hstate
    unfold dispatch
    simp [hmoved]
  have hmark : (Cursor.switched p CR).mark = some (.headerValue, []) := by
    simp [Cursor.switched, Cursor.start, hstate, State.resumed]
  rw [headerValue_cr hscan rfl (by show p.nread + 1 + 0 ≤ _; omega) rfl hmark] at hdispatch
  have hcr : Takes p [CR] { p.recount (p.nread + 1) with state := .headerAlmostDone }
      [.data .headerValue []] := by
    refine takes_byte (byte_of_dispatch hp (fun _ => by omega) hdispatch rfl rfl hp) rfl ?_
    rw [flush_calls_eq]
    simp [Cursor.valued, Cursor.advance, Cursor.handed, Cursor.switched, Cursor.start,
      HttpParser.pending, hstate]
  have hlf : Takes { p.recount (p.nread + 1) with state := .headerAlmostDone } [LF]
      { p.recount (p.nread + 2) with state := .headerValueLws } [] := by
    refine takes_plain hp rfl rfl ?_ rfl hp
    show p.nread + 1 + 1 ≤ _
    omega
  exact takes_append hcr hlf

/-- The end of a line does not change the flags, if the header means nothing. -/
theorem finish_spelled {pre : Text} {i : Nat} {h : HeaderState} (hspelled : Spelled pre i h)
    (flags : Flags) : flags.finish h = flags := by
  cases h <;> first | rfl | exact absurd hspelled (by simp [Spelled])

/-- A character of a header that means nothing. -/
theorem general_takes (hp : p.Running) (hstate : p.state = .headerValue)
    (hgeneral : p.headerState = .general) (hchar : isHeaderChar ch = true) (hcr : ch ≠ CR)
    (hlf : ch ≠ LF) (hroom : p.nread + 2 ≤ HTTP_MAX_HEADER_SIZE) :
    Takes p [ch] (p.recount (p.nread + 2)) [.data .headerValue [ch]] := by
  have hone : generalLength [ch] = 1 := by
    obtain ⟨hpos, hle⟩ := @generalLength_bounds ch [] hcr hlf
    have hle : generalLength [ch] ≤ 1 := hle
    omega
  have hscan : scanValue 1 p p.headerState [ch] = some ⟨p, p.headerState, 1, .out⟩ := by
    unfold scanValue
    rw [if_neg hcr, if_neg hlf, if_neg (by simp [hchar]), if_pos hgeneral]
    simp only [hone]
    rfl
  exact char_takes hp hstate hscan rfl rfl (Keeps.refl p) hp.1 hroom

theorem generals_take {value : Text} (hp : p.Running) (hstate : p.state = .headerValue)
    (hgeneral : p.headerState = .general)
    (hvalue : ∀ c ∈ value, isHeaderChar c = true ∧ c ≠ CR ∧ c ≠ LF)
    (hroom : p.nread + 2 * value.length ≤ HTTP_MAX_HEADER_SIZE) :
    Takes p value (p.recount (p.nread + 2 * value.length)) (pieces .headerValue value) := by
  induction value generalizing p with
  | nil => exact takes_nil p
  | cons ch value ih =>
    obtain ⟨hchar, hcr, hlf⟩ := hvalue ch (by simp)
    rw [List.length_cons] at hroom
    have hfirst := general_takes hp hstate hgeneral hchar hcr hlf (by omega)
    have hrest := @ih (p.recount (p.nread + 2)) hp hstate hgeneral
      (fun c hc => hvalue c (by simp [hc])) (by show p.nread + 2 + 2 * value.length ≤ _; omega)
    have hsize : p.nread + 2 * (value.length + 1) = p.nread + 2 + 2 * value.length := by omega
    rw [List.length_cons, hsize]
    exact takes_append hfirst hrest

/-- A value that is empty. -/
theorem emptyValue_takes (hcarries : Carries p known n) (hstate : p.state = .headerValueDiscardWs)
    (hflags : p.flags.finish p.headerState = p.flags) (hroom : n + 2 ≤ HTTP_MAX_HEADER_SIZE) :
    ∃ q, Takes p [CR, LF] q [.data .headerValue []] ∧ AtLine q known (n + 2) := by
  have hp := hcarries.running
  have hcount := hcarries.count
  have hcounted : p.counted = p.recount (p.nread + 1) := by
    simp [HttpParser.counted, hstate, State.parsingHeader, HttpParser.recount]
  have hcr : Takes p [CR] { p.recount (p.nread + 1) with state := .headerValueDiscardWsAlmostDone }
      [] := by
    refine takes_plain hp (by rw [hstate]; rfl) rfl (by omega) ?_ hp
    unfold switch
    rw [counted_state, hstate, hcounted]
    rfl
  have hlf : Takes { p.recount (p.nread + 1) with state := .headerValueDiscardWsAlmostDone } [LF]
      { p.recount (p.nread + 2) with state := .headerValueDiscardLws }
      [.data .headerValue []] := by
    refine takes_byte (byte_of_switch hp (fun _ => ?_) rfl rfl rfl hp) rfl ?_
    · show p.nread + 1 + 1 ≤ _
      omega
    · rw [flush_calls_eq]
      simp [Cursor.advance, Cursor.start, State.resumed, HttpParser.pending]
  refine ⟨_, takes_append hcr hlf, Or.inr (Or.inr rfl), hp, hcarries.method, ?_,
    hcarries.contentLength, hcarries.version, ?_⟩
  · rw [← hcarries.flags]
    exact hflags
  · show p.nread + 2 ≤ n + 2
    omega

/-- The first character of a value that means nothing. -/
theorem firstChar_takes {pre : Text} {i : Nat} (hcarries : Carries p known n)
    (hstate : p.state = .headerValueDiscardWs) (hspelled : Spelled pre i p.headerState)
    (hplain : ∀ k, (pre, k) ∉ fieldNames) (hspace : ch ≠ 32) (htab : ch ≠ 9) (hcr : ch ≠ CR)
    (hlf : ch ≠ LF) (hroom : n + 1 ≤ HTTP_MAX_HEADER_SIZE) :
    Takes p [ch] { p.recount (p.nread + 1) with
      state := .headerValue
      index := 0
      headerState := .general } [.data .headerValue [ch]] := by
  have hp := hcarries.running
  have hcount := hcarries.count
  have hcounted : p.counted = p.recount (p.nread + 1) := by
    simp [HttpParser.counted, hstate, State.parsingHeader, HttpParser.recount]
  have hmeans : ∀ k ∈ fieldNames.map Prod.snd, p.headerState ≠ k := fun k hk heq =>
    hplain k ((spelled_iff hspelled hk).mp heq)
  refine takes_mark hp (by rw [hstate]; rfl) (by rw [hstate]; rfl) (by simp [HttpParser.pending, hstate])
    rfl (fun _ => by omega) ?_ hp
  unfold switch
  rw [counted_state, hstate, hcounted]
  simp only
  unfold headerValueDiscardWs
  rw [if_neg (by simp [hspace, htab]), if_neg hcr, if_neg hlf]
  unfold headerValueStart
  simp only [HttpParser.recount]
  cases hh : p.headerState with
  | connection | contentLength | transferEncoding | upgrade => exact absurd hh (hmeans _ (by decide))
  | matchingConnectionTokenStart =>
    rw [hh] at hspelled
    exact hspelled.elim
  | _ => rfl

/-- A value that means nothing, and the end of its line. -/
theorem plainValue_takes {pre value : Text} {i : Nat} (hcarries : Carries p known n)
    (hstate : p.state = .headerValueDiscardWs) (hspelled : Spelled pre i p.headerState)
    (hplain : ∀ k, (pre, k) ∉ fieldNames)
    (hvalue : ∀ c ∈ value, isHeaderChar c = true ∧ c ≠ CR ∧ c ≠ LF)
    (hstart : ∀ c ∈ value.head?, c ≠ 32 ∧ c ≠ 9)
    (hroom : n + 2 * value.length + 2 ≤ HTTP_MAX_HEADER_SIZE) :
    ∃ q, Takes p (value ++ [CR, LF]) q [.data .headerValue value] ∧
      AtLine q known (n + 2 * value.length + 2) := by
  have hp := hcarries.running
  have hcount := hcarries.count
  cases value with
  | nil => exact emptyValue_takes hcarries hstate (finish_spelled hspelled _) hroom
  | cons ch value =>
    rw [List.length_cons] at hroom ⊢
    obtain ⟨hspace, htab⟩ := hstart ch rfl
    obtain ⟨-, hcr, hlf⟩ := hvalue ch (by simp)
    have hfirst := firstChar_takes hcarries hstate hspelled hplain hspace htab hcr hlf (by omega)
    generalize hr : ({ p.recount (p.nread + 1) with
      state := .headerValue
      index := 0
      headerState := .general } : HttpParser) = r at hfirst
    have hr' : r.Running ∧ r.state = .headerValue ∧ r.headerState = .general ∧
        r.nread = p.nread + 1 := by
      rw [← hr]
      exact ⟨hp, rfl, rfl, rfl⟩
    obtain ⟨hpr, hstater, hgeneral, hcountr⟩ := hr'
    have hrest : Takes r value _ _ :=
      generals_take hpr hstater hgeneral (fun c hc => hvalue c (by simp [hc])) (by omega)
    have hend := @valueEnd_takes (r.recount (r.nread + 2 * value.length)) hpr hstater
      (by show r.nread + 2 * value.length + 2 ≤ _; omega)
    refine ⟨_, (takes_append (takes_append hfirst hrest) hend).joined ?_, Or.inr (Or.inl rfl), hpr,
      ?_, ?_, ?_, ?_, ?_⟩
    · have hpieces := join_pieces [] .headerValue [ch] value
      rw [List.nil_append, List.nil_append] at hpieces
      exact (join_append_congr hpieces rfl).trans (join_data_nil [] .headerValue (ch :: value))
    · rw [← hr]
      exact hcarries.method
    · show r.flags.finish r.headerState = _
      rw [hgeneral, ← hr]
      exact hcarries.flags
    · rw [← hr]
      exact hcarries.contentLength
    · rw [← hr]
      exact hcarries.version
    · show r.nread + 2 * value.length + 2 ≤ _
      omega

/-! ## Content-Length -/

/-- What may stand in front of another digit of a length. -/
def LENGTH_LIMIT : Nat := (ULLONG_MAX - 10) / 10

theorem isNum_bounds (h : isNum ch = true) : 48 ≤ ch.toNat ∧ ch.toNat ≤ 57 := by
  unfold isNum at h
  simpa [UInt8.le_iff_toNat_le] using h

theorem isNum_char (h : isNum ch = true) :
    isHeaderChar ch = true ∧ ch ≠ CR ∧ ch ≠ LF ∧ ch ≠ 32 ∧ ch ≠ 9 := by
  obtain ⟨hlow, hhigh⟩ := isNum_bounds h
  have hne : ∀ c : UInt8, c.toNat < 48 → ch ≠ c := by
    rintro c hc rfl
    omega
  refine ⟨?_, hne _ (by decide), hne _ (by decide), hne _ (by decide), hne _ (by decide)⟩
  have hgreat : 31 < ch := UInt8.lt_iff_toNat_lt.mpr (by show 31 < ch.toNat; omega)
  have hdelete : ch ≠ 127 := by
    rintro rfl
    revert hhigh
    decide
  unfold isHeaderChar
  simp [hgreat, hdelete]

/-- A digit of a length is never lost in an overflow. -/
theorem contentLengthChar_digit (h : isNum ch = true) (hlimit : p.contentLength ≤ LENGTH_LIMIT) :
    contentLengthChar p ch = .ok
      ({ p with contentLength := 10 * p.contentLength + digitValue ch }, .contentLength) := by
  obtain ⟨-, -, -, hspace, -⟩ := isNum_char h
  obtain ⟨hlow, hhigh⟩ := isNum_bounds h
  have hsmall : p.contentLength * 10 + (ch.toNat - 48) < ULLONG_MAX + 1 := by
    simp only [LENGTH_LIMIT, ULLONG_MAX] at hlimit ⊢
    omega
  have hover : ¬ (ULLONG_MAX - 10) / 10 < p.contentLength := Nat.not_lt.mpr hlimit
  unfold contentLengthChar
  rw [if_neg hspace, if_neg (by simp [h]), if_neg hover, Nat.mod_eq_of_lt hsmall, Nat.mul_comm]
  rfl

theorem digit_takes (hp : p.Running) (hstate : p.state = .headerValue)
    (hheader : p.headerState = .contentLength) (h : isNum ch = true)
    (hlimit : p.contentLength ≤ LENGTH_LIMIT) (hroom : p.nread + 2 ≤ HTTP_MAX_HEADER_SIZE) :
    Takes p [ch] { p.recount (p.nread + 2) with
      contentLength := 10 * p.contentLength + digitValue ch } [.data .headerValue [ch]] := by
  obtain ⟨hchar, hcr, hlf, -, -⟩ := isNum_char h
  obtain ⟨hlow, hhigh⟩ := isNum_bounds h
  have hscan : ∀ g, g = .contentLength → scanValue 1 p g [ch] = some
      ⟨{ p with contentLength := 10 * p.contentLength + digitValue ch }, .contentLength, 1, .out⟩ := by
    rintro g rfl
    unfold scanValue
    rw [if_neg hcr, if_neg hlf, if_neg (by simp [hchar]), if_neg (by simp)]
    simp only [valueChar, contentLengthChar_digit h hlimit]
    rfl
  have hkeeps : Keeps p { p with contentLength := 10 * p.contentLength + digitValue ch } := by
    refine ⟨rfl, fun hsound => ⟨hsound.1, ?_⟩, rfl, rfl, rfl⟩
    show 10 * p.contentLength + (ch.toNat - 48) ≤ ULLONG_MAX
    simp only [LENGTH_LIMIT, ULLONG_MAX] at hlimit ⊢
    omega
  have htakes := char_takes hp hstate (hscan _ hheader) rfl rfl hkeeps hp.1 hroom
  have heq : HttpParser.reheader { p with contentLength := 10 * p.contentLength + digitValue ch }
      (p.nread + 2) .contentLength = { p.recount (p.nread + 2) with
        contentLength := 10 * p.contentLength + digitValue ch } := by
    rw [← hheader]
    rfl
  rwa [heq] at htakes

theorem digits_take {pre digits : Text} (hp : p.Running) (hstate : p.state = .headerValue)
    (hheader : p.headerState = .contentLength) (hdigits : ∀ c ∈ digits, isNum c = true)
    (hlength : p.contentLength = number pre) (hlimit : number (pre ++ digits) / 10 ≤ LENGTH_LIMIT)
    (hroom : p.nread + 2 * digits.length ≤ HTTP_MAX_HEADER_SIZE) :
    Takes p digits { p.recount (p.nread + 2 * digits.length) with
      contentLength := number (pre ++ digits) } (pieces .headerValue digits) := by
  induction digits generalizing p pre with
  | nil =>
    have hsame : { p.recount (p.nread + 2 * ([] : Text).length) with
        contentLength := number (pre ++ []) } = p := by
      rw [List.append_nil, ← hlength]
      rfl
    rw [hsame]
    exact takes_nil p
  | cons ch digits ih =>
    have hsplit : pre ++ ch :: digits = pre ++ [ch] ++ digits := by simp
    rw [List.length_cons] at hroom
    rw [hsplit] at hlimit ⊢
    have hch := hdigits ch (by simp)
    have hprefix : p.contentLength ≤ LENGTH_LIMIT := by
      have hle := number_le_of_prefix (List.prefix_append (pre ++ [ch]) digits)
      rw [number_snoc] at hle
      rw [hlength]
      omega
    have hfirst := digit_takes hp hstate hheader hch hprefix (by omega)
    rw [hlength, ← number_snoc] at hfirst
    have hrest := @ih { p.recount (p.nread + 2) with contentLength := number (pre ++ [ch]) }
      (pre ++ [ch]) hp hstate hheader (fun c hc => hdigits c (by simp [hc])) rfl hlimit
      (by show p.nread + 2 + 2 * digits.length ≤ _; omega)
    have hsize : p.nread + 2 * (digits.length + 1) = p.nread + 2 + 2 * digits.length := by omega
    rw [List.length_cons, hsize]
    exact takes_append hfirst hrest

/-- A length, and the end of its line. -/
theorem lengthValue_takes {digits : Text} (hcarries : Carries p known n)
    (hstate : p.state = .headerValueDiscardWs) (hheader : p.headerState = .contentLength)
    (hnone : known.flags.contentlength = false) (hsome : digits ≠ [])
    (hdigits : ∀ c ∈ digits, isNum c = true) (hlimit : number digits / 10 ≤ LENGTH_LIMIT)
    (hroom : n + 2 * digits.length + 2 ≤ HTTP_MAX_HEADER_SIZE) :
    ∃ q, Takes p (digits ++ [CR, LF]) q [.data .headerValue digits] ∧
      AtLine q { known with
        flags := { known.flags with contentlength := true }
        contentLength := number digits } (n + 2 * digits.length + 2) := by
  have hp := hcarries.running
  have hcount := hcarries.count
  cases digits with
  | nil => exact absurd rfl hsome
  | cons ch digits =>
    rw [List.length_cons] at hroom ⊢
    have hch := hdigits ch (by simp)
    obtain ⟨-, hcr, hlf, hspace, htab⟩ := isNum_char hch
    have hcounted : p.counted = p.recount (p.nread + 1) := by
      simp [HttpParser.counted, hstate, State.parsingHeader, HttpParser.recount]
    have hfirst : Takes p [ch] { p.recount (p.nread + 1) with
        state := .headerValue
        index := 0
        flags := { p.flags with contentlength := true }
        contentLength := number [ch] } [.data .headerValue [ch]] := by
      refine takes_mark hp (by rw [hstate]; rfl) (by rw [hstate]; rfl)
        (by simp [HttpParser.pending, hstate]) rfl (fun _ => by omega) ?_ hp
      have hflag : p.flags.contentlength = false := by
        rw [hcarries.flags]
        exact hnone
      have hnumber : number [ch] = ch.toNat - 48 := by simp [number, digitValue]
      unfold switch
      rw [counted_state, hstate, hcounted]
      simp only
      unfold headerValueDiscardWs
      rw [if_neg (by simp [hspace, htab]), if_neg hcr, if_neg hlf]
      unfold headerValueStart
      simp [HttpParser.recount, hheader, hch, hflag, hnumber]
    generalize hr : ({ p.recount (p.nread + 1) with
      state := .headerValue
      index := 0
      flags := { p.flags with contentlength := true }
      contentLength := number [ch] } : HttpParser) = r at hfirst
    have hr' : r.Running ∧ r.state = .headerValue ∧ r.headerState = .contentLength ∧
        r.nread = p.nread + 1 ∧ r.contentLength = number [ch] := by
      rw [← hr]
      exact ⟨hp, rfl, hheader, rfl, rfl⟩
    obtain ⟨hpr, hstater, hheaderr, hcountr, hlengthr⟩ := hr'
    have hrest : Takes r digits _ _ := digits_take hpr hstater hheaderr
      (fun c hc => hdigits c (by simp [hc])) hlengthr hlimit (by omega)
    have hend := @valueEnd_takes { r.recount (r.nread + 2 * digits.length) with
      contentLength := number ([ch] ++ digits) } hpr hstater
      (by show r.nread + 2 * digits.length + 2 ≤ _; omega)
    refine ⟨_, (takes_append (takes_append hfirst hrest) hend).joined ?_, Or.inr (Or.inl rfl), hpr,
      ?_, ?_, rfl, ?_, ?_⟩
    · have hpieces := join_pieces [] .headerValue [ch] digits
      rw [List.nil_append, List.nil_append] at hpieces
      exact (join_append_congr hpieces rfl).trans (join_data_nil [] .headerValue (ch :: digits))
    · rw [← hr]
      exact hcarries.method
    · show r.flags.finish r.headerState = _
      rw [hheaderr, ← hr, ← hcarries.flags]
      rfl
    · rw [← hr]
      exact hcarries.version
    · show r.nread + 2 * digits.length + 2 ≤ _
      omega

/-! ## Transfer-Encoding: chunked -/

theorem coding_char : ∀ n < 256, lower (UInt8.ofNat n) ∈ ascii "chunked" →
    isHeaderChar (UInt8.ofNat n) = true ∧ UInt8.ofNat n ≠ CR ∧ UInt8.ofNat n ≠ LF ∧
      UInt8.ofNat n ≠ 32 ∧ UInt8.ofNat n ≠ 9 := by decide +kernel

theorem chunked_char (h : lower ch ∈ ascii "chunked") :
    isHeaderChar ch = true ∧ ch ≠ CR ∧ ch ≠ LF ∧ ch ≠ 32 ∧ ch ≠ 9 := by
  have hchar := coding_char ch.toNat ch.toNat_lt
  rw [UInt8.ofNat_toNat] at hchar
  exact hchar h

/-- The next letter of a name that is matched. -/
theorem matchName_next {name : Text} {k : Nat} {c : UInt8} (waiting complete other : HeaderState)
    (hindex : p.index = k) (hk : k < 100) (hc : name[k + 1]? = some c) :
    matchName name waiting complete other p c =
      some (p.reindex (k + 1), if k + 1 = name.length - 1 then complete else waiting) := by
  have hnext : p.nextIndex = p.reindex (k + 1) := by
    unfold HttpParser.nextIndex
    rw [hindex, Nat.mod_eq_of_lt (by omega)]
    rfl
  obtain ⟨hlt, hat⟩ := List.getElem?_eq_some_iff.mp hc
  have hzero : (name ++ [0])[k + 1]? = some c := by
    rw [List.getElem?_append_left hlt, hc]
  have hindex' : (p.reindex (k + 1)).index = k + 1 := rfl
  unfold matchName
  simp only [hnext, hindex', hzero, Option.bind_eq_bind, Option.bind_some]
  rw [if_neg (by omega), if_neg (by simp)]
  split_ifs <;> rfl

/-- The letters of `chunked` behind the first one. -/
theorem coding_takes {value : Text} {k : Nat} (hp : p.Running) (hstate : p.state = .headerValue)
    (hheader : p.headerState = .matchingTransferEncodingChunked) (hindex : p.index = k) (hk : k < 6)
    (hvalue : value.map lower = (ascii "chunked").drop (k + 1))
    (hroom : p.nread + 2 * value.length ≤ HTTP_MAX_HEADER_SIZE) :
    Takes p value { p.recount (p.nread + 2 * value.length) with
      index := 6
      headerState := .transferEncodingChunked } (pieces .headerValue value) := by
  induction value generalizing p k with
  | nil =>
    have hlength := congrArg List.length hvalue
    have hseven : (ascii "chunked").length = 7 := by decide
    rw [List.map_nil, List.length_nil, List.length_drop, hseven] at hlength
    omega
  | cons ch value ih =>
    have hseven : (ascii "chunked").length = 7 := by decide
    rw [List.length_cons] at hroom
    have hc : (ascii "chunked")[k + 1]? = some (lower ch) := by
      rw [← List.head?_drop, ← hvalue]
      rfl
    have hrest : value.map lower = (ascii "chunked").drop (k + 2) := by
      rw [← List.tail_drop, ← hvalue]
      rfl
    obtain ⟨hchar, hcr, hlf, -, -⟩ := chunked_char (List.mem_of_getElem? hc)
    have hmatch := matchName_next (p := p) .matchingTransferEncodingChunked .transferEncodingChunked
      .general hindex (by omega) hc
    generalize hnext : (if k + 1 = (ascii "chunked").length - 1 then
      HeaderState.transferEncodingChunked else .matchingTransferEncodingChunked) = next at hmatch
    have hscan : ∀ g, g = .matchingTransferEncodingChunked →
        scanValue 1 p g [ch] = some ⟨p.reindex (k + 1), next, 1, .out⟩ := by
      rintro g rfl
      unfold scanValue
      rw [if_neg hcr, if_neg hlf, if_neg (by simp [hchar]), if_neg (by simp)]
      simp only [valueChar, hmatch, Option.map_some]
      rfl
    have hfirst := char_takes hp hstate (hscan _ hheader) rfl rfl ⟨rfl, id, rfl, rfl, rfl⟩ hp.1
      (by omega)
    have hsize : p.nread + 2 * (value.length + 1) = p.nread + 2 + 2 * value.length := by omega
    rw [List.length_cons, hsize]
    by_cases hend : k + 1 = 6
    · have hnil : value = [] := by
        rw [show k + 2 = 7 by omega, ← hseven, List.drop_length, List.map_eq_nil_iff] at hrest
        exact hrest
      have hcomplete : next = .transferEncodingChunked := by
        rw [← hnext, hseven, if_pos hend]
      subst hnil
      rw [hend, hcomplete] at hfirst
      exact hfirst
    · have hwaiting : next = .matchingTransferEncodingChunked := by
        rw [← hnext, hseven, if_neg hend]
      rw [hwaiting] at hfirst
      exact takes_append hfirst (@ih ((p.reindex (k + 1)).reheader (p.nread + 2)
        .matchingTransferEncodingChunked) (k + 1) hp hstate rfl rfl (by omega) hrest
        (by show p.nread + 2 + 2 * value.length ≤ _; omega))

/-- `chunked`, and the end of its line. -/
theorem codingValue_takes {value : Text} (hcarries : Carries p known n)
    (hstate : p.state = .headerValueDiscardWs) (hheader : p.headerState = .transferEncoding)
    (hvalue : value.map lower = ascii "chunked")
    (hroom : n + 2 * value.length + 2 ≤ HTTP_MAX_HEADER_SIZE) :
    ∃ q, Takes p (value ++ [CR, LF]) q [.data .headerValue value] ∧
      AtLine q { known with flags := { known.flags with chunked := true } }
        (n + 2 * value.length + 2) := by
  have hp := hcarries.running
  have hcount := hcarries.count
  cases value with
  | nil => exact absurd hvalue (by decide)
  | cons ch value =>
    rw [List.length_cons] at hroom ⊢
    obtain ⟨hc, hrest⟩ : lower ch = 99 ∧ value.map lower = (ascii "chunked").drop 1 :=
      List.cons.inj hvalue
    obtain ⟨-, hcr, hlf, hspace, htab⟩ := @chunked_char ch (by rw [hc]; decide)
    have hcounted : p.counted = p.recount (p.nread + 1) := by
      simp [HttpParser.counted, hstate, State.parsingHeader, HttpParser.recount]
    have hfirst : Takes p [ch] { p.recount (p.nread + 1) with
        state := .headerValue
        index := 0
        headerState := .matchingTransferEncodingChunked } [.data .headerValue [ch]] := by
      refine takes_mark hp (by rw [hstate]; rfl) (by rw [hstate]; rfl)
        (by simp [HttpParser.pending, hstate]) rfl (fun _ => by omega) ?_ hp
      unfold switch
      rw [counted_state, hstate, hcounted]
      simp only
      unfold headerValueDiscardWs
      rw [if_neg (by simp [hspace, htab]), if_neg hcr, if_neg hlf]
      unfold headerValueStart
      simp [HttpParser.recount, hheader, hc]
    generalize hr : ({ p.recount (p.nread + 1) with
      state := .headerValue
      index := 0
      headerState := .matchingTransferEncodingChunked } : HttpParser) = r at hfirst
    have hr' : r.Running ∧ r.state = .headerValue ∧
        r.headerState = .matchingTransferEncodingChunked ∧ r.index = 0 ∧ r.nread = p.nread + 1 := by
      rw [← hr]
      exact ⟨hp, rfl, rfl, rfl, rfl⟩
    obtain ⟨hpr, hstater, hheaderr, hindexr, hcountr⟩ := hr'
    have hletters := coding_takes hpr hstater hheaderr hindexr (by omega) hrest (by omega)
    have hend := @valueEnd_takes { r.recount (r.nread + 2 * value.length) with
      index := 6
      headerState := .transferEncodingChunked } hpr hstater
      (by show r.nread + 2 * value.length + 2 ≤ _; omega)
    refine ⟨_, (takes_append (takes_append hfirst hletters) hend).joined ?_, Or.inr (Or.inl rfl), hpr,
      ?_, ?_, ?_, ?_, ?_⟩
    · have hpieces := join_pieces [] .headerValue [ch] value
      rw [List.nil_append, List.nil_append] at hpieces
      exact (join_append_congr hpieces rfl).trans (join_data_nil [] .headerValue (ch :: value))
    · rw [← hr]
      exact hcarries.method
    · show { r.flags with chunked := true } = _
      rw [← hr, ← hcarries.flags]
      rfl
    · rw [← hr]
      exact hcarries.contentLength
    · rw [← hr]
      exact hcarries.version
    · show r.nread + 2 * value.length + 2 ≤ _
      omega

end Lines

end huasi.http_execute
