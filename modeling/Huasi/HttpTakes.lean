-- Which bytes http_parser_execute (src/src/http/http_parser.c) takes, with which callbacks: one
-- byte, a row of bytes without a callback, and the line of a request.
import Huasi.HttpFields
import Huasi.HttpReads

open huasi.text huasi.runs huasi.http_parser

namespace huasi.http_execute

/-- No error was found, and no other protocol follows. -/
def HttpParser.Running (p : HttpParser) : Prop := p.httpErrno = .ok ∧ p.upgrade = false

/-- The callback for an empty header value comes with the next line only. -/
def HttpParser.pending (p : HttpParser) : List Call :=
  if p.state = .headerValueDiscardLws then [.data .headerValue []] else []

/-- The bytes are taken one by one, with these callbacks but for how they cut the data. -/
def Takes (p : HttpParser) (data : Text) (q : HttpParser) (calls : List Call) : Prop :=
  ∃ c, Bytewise p data q c ∧ join (c ++ q.pending) = join (p.pending ++ calls)

section Bytes

variable {p q r : HttpParser} {ch : UInt8} {data more : Text} {calls next : List Call}

theorem takes_nil (p : HttpParser) : Takes p [] p [] := ⟨[], ⟨rfl, rfl⟩, by simp⟩

theorem takes_append (h : Takes p data q calls) (h' : Takes q more r next) :
    Takes p (data ++ more) r (calls ++ next) := by
  obtain ⟨c, hdata, hcalls⟩ := h
  obtain ⟨d, hmore, hnext⟩ := h'
  refine ⟨c ++ d, bytewise_append.mpr ⟨q, c, d, hdata, hmore, rfl⟩, ?_⟩
  calc join (c ++ d ++ r.pending)
      = join (c ++ (d ++ r.pending)) := by rw [List.append_assoc]
    _ = join (c ++ (q.pending ++ next)) := join_append_congr rfl hnext
    _ = join (c ++ q.pending ++ next) := by rw [List.append_assoc]
    _ = join (p.pending ++ calls ++ next) := join_append_congr hcalls rfl
    _ = join (p.pending ++ (calls ++ next)) := by rw [List.append_assoc]

/-- Callbacks that cut the data in another way. -/
theorem Takes.joined (h : Takes p data q calls) (hjoin : join calls = join next) :
    Takes p data q next := by
  obtain ⟨c, hdata, hcalls⟩ := h
  exact ⟨c, hdata, hcalls.trans (join_append_congr rfl hjoin)⟩

/-- A byte that goes on is taken. -/
theorem byte_of_dispatch {t : Cursor} (hp : p.Running) (hcounts : p.Counts)
    (hdispatch : dispatch (.switched p ch) ch = some t) (hgoes : t.returned = false)
    (hrest : t.rest = []) (ht : t.parser.Running) :
    Byte p ch ⟨t.parser, t.flush.calls, 1⟩ := by
  have hturn : turn (.start p [ch]) = some t := by
    rw [@turn_dispatch (.start p [ch]) ch [] rfl rfl hcounts]
    exact hdispatch
  have hloop : Goes unfinished (fun s => (turn s).map .again) (.start p [ch]) t :=
    ⟨rfl, by simp [hturn]⟩
  refine ⟨?_, ht.1, ht.2⟩
  unfold execute
  rw [if_neg (by simp [hp.1]), if_neg (by simp)]
  simp only [List.length_singleton, loop_goes hloop, loop, Option.bind_eq_bind, Option.bind_some]
  rw [if_neg (by simp [hgoes]), parser_flush, flush_rest, hrest]
  rfl

theorem perform_keeps {s t : Cursor} {a : Action} (h : s.perform a = some t) :
    t.parser = s.parser ∧ t.rest = s.rest ∧ t.returned = s.returned := by
  unfold Cursor.perform at h
  split at h
  · split at h
    · cases h
      exact ⟨rfl, rfl, rfl⟩
    · split_ifs at h
      cases h
      exact ⟨rfl, rfl, rfl⟩
  · split at h
    · cases h
      exact ⟨rfl, rfl, rfl⟩
    · split_ifs at h <;> cases h <;> exact ⟨rfl, rfl, rfl⟩
  · cases h
    exact ⟨rfl, rfl, rfl⟩

theorem performAll_keeps {s t : Cursor} {actions : List Action}
    (h : actions.foldlM Cursor.perform s = some t) :
    t.parser = s.parser ∧ t.rest = s.rest ∧ t.returned = s.returned := by
  refine foldlM_keeps (P := fun t => t.parser = s.parser ∧ t.rest = s.rest ∧
    t.returned = s.returned) ?_ h ⟨rfl, rfl, rfl⟩
  rintro u a v ⟨hparser, hrest, hreturned⟩ hv
  obtain ⟨hparser', hrest', hreturned'⟩ := perform_keeps hv
  exact ⟨hparser'.trans hparser, hrest'.trans hrest, hreturned'.trans hreturned⟩

/-- A byte that its case of the switch takes. -/
theorem byte_of_switch {actions : List Action} {u : Cursor} (hp : p.Running) (hcounts : p.Counts)
    (hbulk : p.state.bulk = false) (hswitch : switch p.counted ch = some (q.next actions))
    (hact : actions.foldlM Cursor.perform { Cursor.start p [ch] with parser := q } = some u)
    (hq : q.Running) : Byte p ch ⟨q, (u.advance 1).flush.calls, 1⟩ := by
  obtain ⟨hparser, hrest, hreturned⟩ := performAll_keeps hact
  have hdispatch : dispatch (.switched p ch) ch = some (u.advance 1) := by
    have hmoved : (Cursor.switched p ch).parser = p.counted := rfl
    rw [dispatch_switch (by simpa [hmoved] using hbulk), hmoved, hswitch]
    have hact' : actions.foldlM Cursor.perform { Cursor.switched p ch with parser := q } = some u :=
      hact
    simp [Cursor.move, HttpParser.next, Cursor.close, hact']
  have hparser' : (u.advance 1).parser = q := hparser
  have hbyte := byte_of_dispatch hp hcounts hdispatch hreturned
    (by simp [Cursor.advance, hrest, Cursor.start]) (by rw [hparser']; exact hq)
  rwa [hparser'] at hbyte

theorem takes_byte {result : Result} (h : Byte p ch result) (hparser : result.parser = q)
    (hcalls : join (result.calls ++ q.pending) = join (p.pending ++ calls)) :
    Takes p [ch] q calls := by
  refine ⟨result.calls, ?_, hcalls⟩
  rw [← hparser]
  exact bytewise_singleton h

/-- A byte of data that goes on. -/
theorem takes_data {kind : Kind} (hp : p.Running) (hbulk : p.state.bulk = false)
    (hresumed : p.state.resumed = some kind) (hpending : p.pending = []) (hpending' : q.pending = [])
    (hcounts : p.Counts) (hswitch : switch p.counted ch = some (q.next [])) (hq : q.Running) :
    Takes p [ch] q [.data kind [ch]] := by
  refine takes_byte (byte_of_switch hp hcounts hbulk hswitch rfl hq) rfl ?_
  rw [hpending, hpending', flush_calls_eq]
  simp [Cursor.advance, Cursor.start, hresumed]

/-- The first byte of data. -/
theorem takes_mark {kind : Kind} (hp : p.Running) (hbulk : p.state.bulk = false)
    (hresumed : p.state.resumed = none) (hpending : p.pending = []) (hpending' : q.pending = [])
    (hcounts : p.Counts) (hswitch : switch p.counted ch = some (q.next [.mark kind]))
    (hq : q.Running) : Takes p [ch] q [.data kind [ch]] := by
  refine takes_byte (byte_of_switch hp hcounts hbulk hswitch (by
    simp [Cursor.perform, Cursor.start, hresumed]
    rfl) hq) rfl ?_
  rw [hpending, hpending', flush_calls_eq]
  simp [Cursor.advance]

/-- The byte behind data. -/
theorem takes_handed {kind : Kind} (hp : p.Running) (hbulk : p.state.bulk = false)
    (hresumed : p.state.resumed = some kind) (hpending : p.pending = []) (hpending' : q.pending = [])
    (hcounts : p.Counts) (hswitch : switch p.counted ch = some (q.next [.callbackData kind]))
    (hq : q.Running) : Takes p [ch] q [.data kind []] := by
  refine takes_byte (byte_of_switch hp hcounts hbulk hswitch (by
    simp [Cursor.perform, Cursor.start, hresumed]
    rfl) hq) rfl ?_
  rw [hpending, hpending', flush_calls_eq]
  simp [Cursor.advance]

/-! ## Rows of bytes without callbacks -/

/-- The states between which bytes come without a callback. -/
def State.plain (state : State) : Bool :=
  !state.bulk && state.resumed.isNone && state.parsingHeader && state ≠ .headerValueDiscardLws

/-- The parser behind bytes that only change it. -/
def glide (p : HttpParser) : Text → Option HttpParser
  | [] => some p
  | ch :: rest =>
    match switch p.counted ch with
    | some ⟨q, [], .next⟩ =>
      if p.state.plain ∧ q.state.plain ∧ q.nread = p.nread + 1 ∧ q.httpErrno = .ok ∧
        q.upgrade = false then glide q rest
      else none
    | _ => none

theorem pending_plain (h : p.state.plain = true) : p.pending = [] := by
  unfold HttpParser.pending
  rw [if_neg]
  rintro hstate
  simp [State.plain, hstate] at h

/-- A byte with notifications. -/
theorem takes_notified (hp : p.Running) (hbulk : p.state.bulk = false)
    (hresumed : p.state.resumed = none) (hpending : p.pending = []) (hpending' : q.pending = [])
    (hcounts : p.Counts) (hswitch : switch p.counted ch = some (q.next (calls.map .notify)))
    (hq : q.Running) : Takes p [ch] q calls := by
  have hact : ∀ (calls : List Call) (s : Cursor), (calls.map Action.notify).foldlM Cursor.perform s =
      some { s with calls := s.calls ++ calls } := by
    intro calls
    induction calls with
    | nil => simp
    | cons call calls ih => simp [Cursor.perform, ih]
  refine takes_byte (byte_of_switch hp hcounts hbulk hswitch (hact _ _) hq) rfl ?_
  rw [hpending, hpending', flush_calls_eq]
  simp [Cursor.advance, Cursor.start, hresumed]

/-- A byte that only changes the parser. -/
theorem takes_plain (hp : p.Running) (hplain : p.state.plain = true) (hplain' : q.state.plain = true)
    (hroom : p.nread + 1 ≤ HTTP_MAX_HEADER_SIZE) (hswitch : switch p.counted ch = some (q.next []))
    (hq : q.Running) : Takes p [ch] q [] := by
  have hstate : p.state.bulk = false ∧ p.state.resumed = none := by
    simp only [State.plain, Bool.and_eq_true, Bool.not_eq_true', Option.isNone_iff_eq_none]
      at hplain
    exact ⟨hplain.1.1.1, hplain.1.1.2⟩
  exact takes_notified hp hstate.1 hstate.2 (pending_plain hplain) (pending_plain hplain')
    (fun _ => hroom) hswitch hq

theorem glide_takes (hp : p.Running) (h : glide p data = some q)
    (hroom : p.nread + data.length ≤ HTTP_MAX_HEADER_SIZE) : Takes p data q [] := by
  induction data generalizing p with
  | nil =>
    cases h
    exact takes_nil _
  | cons ch rest ih =>
    unfold glide at h
    split at h
    · rename_i r hswitch
      split_ifs at h with hcase
      obtain ⟨hplain, hplain', hcount, hrun⟩ := hcase
      rw [List.length_cons] at hroom
      have hrest := @ih r hrun h (by omega)
      exact takes_append (takes_plain hp hplain hplain' (by omega) hswitch hrun) hrest
    · cases h

/-- A parser whose state is known, with what is known of it in the record. -/
theorem running_eq (hp : p.Running) {state : State} (hstate : p.state = state) :
    p = { p with state, httpErrno := .ok, upgrade := false } := by
  obtain ⟨hok, hupgrade⟩ := hp
  cases p
  simp_all

/-! ## The line of a request -/

theorem version_glides (p : HttpParser) :
    glide { p with state := .reqHttpStart, httpErrno := .ok, upgrade := false }
        (ascii "HTTP/1.1\r\n") =
      some { p with
        state := .headerFieldStart
        nread := p.nread + 10
        httpMajor := 1
        httpMinor := 1
        httpErrno := .ok
        upgrade := false } := by
  have htext : ascii "HTTP/1.1\r\n" = [72, 84, 84, 80, 47, 49, 46, 49, 13, 10] := by decide
  rw [htext]
  simp [glide, switch, HttpParser.counted, State.parsingHeader, reqHttpStart, strictChar,
    reqHttpMajor, reqHttpDot, reqHttpMinor, reqHttpEnd, reqLineAlmostDone, HttpParser.goTo,
    HttpParser.next, State.plain, State.bulk, State.resumed, isNum, CR, LF]

/-- The parser inside of the name of a method. -/
def HttpParser.inMethod (p : HttpParser) (method index : Nat) (state : State) : HttpParser :=
  { p with method, index, state }

/-- The method and the index behind letters of a name, and the state. -/
def spellMethod (method index : Nat) : Text → Option (Nat × Nat × State)
  | [] => some (method, index, .reqMethod)
  | ch :: rest =>
    match reqMethod (HttpParser.init.inMethod method index .reqMethod) ch with
    | some ⟨q, [], .next⟩ =>
      if rest = [] then some (q.method, q.index, q.state)
      else if q.state = .reqMethod then spellMethod q.method q.index rest
      else none
    | _ => none

/-- The name of a method is spelled with its first letter, the others and a space. -/
def methodSpells (name : Text) (method : Nat) : Bool :=
  match name with
  | [] => false
  | first :: rest =>
    match firstMethods.lookup first with
    | none => false
    | some m => isAlpha first ∧ first ≠ CR ∧ first ≠ LF ∧
        spellMethod m 1 (rest ++ [32]) = some (method, name.length + 1, .url .spacesBeforeUrl)

theorem methods_spell : ∀ e ∈ methodStrings.zipIdx, methodSpells e.1 e.2 = true := by
  decide +kernel

/-- The parsers differ in nothing that a letter of the name of a method looks at. -/
theorem reqMethod_inMethod {method index : Nat} {q : HttpParser}
    (h : reqMethod (HttpParser.init.inMethod method index .reqMethod) ch = some ⟨q, [], .next⟩) :
    reqMethod (p.inMethod method index .reqMethod) ch =
      some ⟨p.inMethod q.method q.index q.state, [], .next⟩ := by
  have hfields : ∀ p : HttpParser, (p.inMethod method index .reqMethod).method = method ∧
      (p.inMethod method index .reqMethod).index = index := fun _ => ⟨rfl, rfl⟩
  unfold reqMethod at h ⊢
  simp only [hfields] at h ⊢
  by_cases hzero : ch = 0
  · rw [if_pos hzero] at h
    cases h
  · rw [if_neg hzero] at h ⊢
    obtain ⟨name, hname, h⟩ := Option.bind_eq_some_iff.mp h
    obtain ⟨matcher, hmatcher, h⟩ := Option.bind_eq_some_iff.mp h
    rw [hname]
    simp only [Option.bind_eq_bind, Option.bind_some, hmatcher]
    by_cases hend : ch = 32 ∧ matcher = 0
    · rw [if_pos hend] at h ⊢
      cases h
      rfl
    · rw [if_neg hend] at h ⊢
      by_cases hmatch : ch = matcher
      · rw [if_pos hmatch] at h ⊢
        cases h
        rfl
      · rw [if_neg hmatch] at h ⊢
        by_cases hletter : (65 ≤ ch ∧ ch ≤ 90) ∨ ch = 45
        · rw [if_pos hletter] at h ⊢
          cases hchange : methodChanges.lookup (method, index, ch) with
          | none =>
            simp only [hchange] at h
            cases h
          | some m =>
            simp only [hchange] at h ⊢
            cases h
            rfl
        · rw [if_neg hletter] at h
          cases h

theorem spellMethod_takes {method index m j : Nat} {state : State} (hp : p.Running)
    (hstate : p = p.inMethod method index .reqMethod)
    (h : spellMethod method index data = some (m, j, state)) (hdata : data ≠ [])
    (hplain : state.plain = true) (hroom : p.nread + data.length ≤ HTTP_MAX_HEADER_SIZE) :
    Takes p data ((p.inMethod m j state).recount (p.nread + data.length)) [] := by
  induction data generalizing p method index with
  | nil => exact absurd rfl hdata
  | cons ch rest ih =>
    unfold spellMethod at h
    split at h
    · rename_i q hmethod
      rw [List.length_cons] at hroom
      have hstate' : p.state = .reqMethod := by rw [hstate]; rfl
      have hcounted : p.counted = (p.recount (p.nread + 1)).inMethod method index .reqMethod := by
        rw [hstate]
        rfl
      have hswitch : switch p.counted ch =
          some (HttpParser.next ((p.recount (p.nread + 1)).inMethod q.method q.index q.state) []) := by
        unfold switch
        rw [counted_state, hstate', hcounted]
        exact reqMethod_inMethod hmethod
      have hstep : ∀ state : State, state = q.state → state.plain = true →
          Takes p [ch] ((p.recount (p.nread + 1)).inMethod q.method q.index state) [] := by
        rintro state rfl hplain
        exact takes_plain hp (by rw [hstate']; rfl) hplain (by omega) hswitch hp
      split_ifs at h with hend hmore
      · obtain ⟨rfl, rfl, rfl⟩ : q.method = m ∧ q.index = j ∧ q.state = state := by simpa using h
        rw [hend]
        exact hstep _ rfl hplain
      · rw [hmore] at hstep
        have hrest := @ih ((p.recount (p.nread + 1)).inMethod q.method q.index .reqMethod) _ _ hp rfl
          h hend (by show p.nread + 1 + rest.length ≤ _; omega)
        have hsize : p.nread + (rest.length + 1) = p.nread + 1 + rest.length := by omega
        rw [List.length_cons, hsize]
        exact takes_append (hstep _ rfl rfl) hrest
    · cases h

/-- The name of a method, and the space behind it. -/
theorem method_takes {name : Text} {k : Nat} (hp : p.Running) (hstate : p.state = .startReq)
    (hname : methodStrings[k]? = some name) (hroom : p.nread + name.length + 1 ≤ HTTP_MAX_HEADER_SIZE) :
    Takes p (name ++ [32]) { p with
      flags := .none
      state := .url .spacesBeforeUrl
      index := name.length + 1
      nread := p.nread + name.length + 1
      contentLength := ULLONG_MAX
      method := k } [.onMessageBegin] := by
  have hspells := methods_spell (name, k) (by
    rw [List.mem_zipIdx_iff_getElem?]
    exact hname)
  unfold methodSpells at hspells
  cases name with
  | nil => cases hspells
  | cons first rest =>
    cases hlookup : firstMethods.lookup first with
    | none => simp [hlookup] at hspells
    | some m =>
      simp only [hlookup, decide_eq_true_eq] at hspells
      obtain ⟨halpha, hcr, hlf, hspell⟩ := hspells
      rw [List.length_cons] at hroom
      have hcounted : p.counted = p.recount (p.nread + 1) := by
        simp [HttpParser.counted, hstate, State.parsingHeader, HttpParser.recount]
      have hbegin : Takes p [first] (HttpParser.inMethod { p with
          flags := .none
          nread := p.nread + 1
          contentLength := ULLONG_MAX } m 1 .reqMethod) [.onMessageBegin] := by
        refine takes_notified hp (by rw [hstate]; rfl) (by rw [hstate]; rfl) ?_ rfl
          (fun _ => by omega) ?_ hp
        · simp [HttpParser.pending, hstate]
        · unfold switch startReq
          simp only [counted_state, hstate]
          rw [if_neg (by simp [hcr, hlf]), if_neg (by simp [halpha]), hlookup, hcounted]
          rfl
      have hrest := spellMethod_takes (p := HttpParser.inMethod { p with
          flags := .none
          nread := p.nread + 1
          contentLength := ULLONG_MAX } m 1 .reqMethod) hp rfl hspell (by simp) rfl (by
        rw [List.length_append]
        show p.nread + 1 + (rest.length + 1) ≤ _
        omega)
      have hsize : p.nread + (rest.length + 1) + 1 = p.nread + 1 + (rest ++ [32]).length := by
        rw [List.length_append, List.length_singleton]
        omega
      rw [List.length_cons, hsize]
      exact takes_append hbegin hrest

/-! ### The URL -/

/-- The states that a URL may end in. -/
def mayEnd : UrlState → Bool
  | .server | .serverWithAt | .path | .queryStringStart | .queryString | .fragmentStart
  | .fragment => true
  | _ => false

theorem parseUrlChar_dead (data : Text) : data.foldl parseUrlChar .dead = .dead := by
  induction data with
  | nil => rfl
  | cons ch rest ih =>
    have hdead : parseUrlChar .dead ch = .dead := by
      unfold parseUrlChar
      split <;> rfl
    rw [List.foldl_cons, hdead, ih]

/-- A character that does not lead to `s_dead` is no space and no end of a line, and the URL goes
on behind it. -/
theorem parseUrlChar_goes {s : UrlState} (h : parseUrlChar s ch ≠ .dead) :
    ch ≠ 32 ∧ ch ≠ CR ∧ ch ≠ LF ∧ s ≠ .dead ∧ parseUrlChar s ch ≠ .spacesBeforeUrl := by
  unfold parseUrlChar at h ⊢
  by_cases hspace : ch = 32 ∨ ch = 13 ∨ ch = 10 ∨ ch = 9 ∨ ch = 12
  · exact absurd (if_pos hspace) h
  rw [if_neg hspace] at h ⊢
  simp only [not_or] at hspace
  refine ⟨hspace.1, hspace.2.1, hspace.2.2.1, ?_, ?_⟩
  · rintro rfl
    exact h rfl
  · clear h
    cases s with
    | server | serverWithAt | serverStart =>
      simp only [parseServerChar]
      split_ifs <;> nofun
    | dead => nofun
    | _ =>
      simp only
      split_ifs <;> nofun

/-- The parser in a URL. -/
def HttpParser.inUrl (p : HttpParser) (s : UrlState) (n : Nat) : HttpParser :=
  { p with state := .url s, nread := n }

/-- A character of a URL. -/
theorem urlChar_switch {s : UrlState} {n : Nat} (h : parseUrlChar s ch ≠ .dead)
    (hs : s ≠ .spacesBeforeUrl) :
    switch (p.inUrl s n).counted ch = some ((p.inUrl (parseUrlChar s ch) (n + 1)).next []) := by
  obtain ⟨hspace, hcr, hlf, hdead, -⟩ := parseUrlChar_goes h
  have hcounted : (p.inUrl s n).counted = p.inUrl s (n + 1) := rfl
  rw [hcounted]
  unfold switch url
  simp only [HttpParser.inUrl]
  cases s with
  | spacesBeforeUrl => exact absurd rfl hs
  | dead => exact absurd rfl hdead
  | schema | schemaSlash | schemaSlashSlash | serverStart =>
    simp only [urlOpen]
    rw [if_neg (by simp [hspace, hcr, hlf]), urlChar, if_neg h]
  | _ =>
    simp only [urlEnds]
    rw [if_neg hspace, if_neg (by simp [hcr, hlf]), urlChar, if_neg h]

/-- The characters of a URL behind its first one. -/
theorem url_takes {s : UrlState} {n : Nat} (hp : p.Running)
    (hgoes : data.foldl parseUrlChar s ≠ .dead) (hs : s ≠ .spacesBeforeUrl)
    (hroom : n + data.length ≤ HTTP_MAX_HEADER_SIZE) :
    Takes (p.inUrl s n) data (p.inUrl (data.foldl parseUrlChar s) (n + data.length))
      (pieces .url data) := by
  induction data generalizing s n with
  | nil => exact takes_nil _
  | cons ch rest ih =>
    rw [List.foldl_cons] at hgoes
    have hchar : parseUrlChar s ch ≠ .dead := by
      intro hdead
      rw [hdead] at hgoes
      exact hgoes (parseUrlChar_dead rest)
    obtain ⟨-, -, -, hdead, hnext⟩ := parseUrlChar_goes hchar
    rw [List.length_cons] at hroom
    have hresumed : (p.inUrl s n).state.resumed = some .url := by
      unfold HttpParser.inUrl State.resumed
      cases s <;> first | rfl | contradiction
    have hfirst : Takes (p.inUrl s n) [ch] (p.inUrl (parseUrlChar s ch) (n + 1))
        [.data .url [ch]] := by
      refine takes_data hp rfl hresumed rfl rfl (fun _ => ?_) (urlChar_switch hchar hs) hp
      show n + 1 ≤ _
      omega
    have hrest := ih hgoes hnext (by omega : n + 1 + rest.length ≤ HTTP_MAX_HEADER_SIZE)
    have hsize : n + (ch :: rest).length = n + 1 + rest.length := by
      rw [List.length_cons]
      omega
    rw [hsize, List.foldl_cons]
    exact takes_append hfirst hrest

/-- A URL, and the space behind it. -/
theorem target_takes {n : Nat} {target : Text} (hp : p.Running) (hmethod : p.method ≠ HTTP_CONNECT)
    (hends : mayEnd (target.foldl parseUrlChar .spacesBeforeUrl) = true)
    (hroom : n + target.length + 1 ≤ HTTP_MAX_HEADER_SIZE) :
    Takes (p.inUrl .spacesBeforeUrl n) (target ++ [32])
      { p with state := .reqHttpStart, nread := n + target.length + 1 } [.data .url target] := by
  cases target with
  | nil => cases hends
  | cons ch rest =>
    rw [List.foldl_cons] at hends
    have hgoes : rest.foldl parseUrlChar (parseUrlChar .spacesBeforeUrl ch) ≠ .dead := by
      intro hdead
      rw [hdead] at hends
      cases hends
    have hchar : parseUrlChar .spacesBeforeUrl ch ≠ .dead := by
      intro hdead
      rw [hdead] at hgoes
      exact hgoes (parseUrlChar_dead rest)
    obtain ⟨hspace, -, -, -, hnext⟩ := parseUrlChar_goes hchar
    rw [List.length_cons] at hroom
    have hfirst : Takes (p.inUrl .spacesBeforeUrl n) [ch]
        (p.inUrl (parseUrlChar .spacesBeforeUrl ch) (n + 1)) [.data .url [ch]] := by
      refine takes_mark hp rfl rfl rfl rfl (fun _ => ?_) ?_ hp
      · show n + 1 ≤ _
        omega
      · have hcounted : (p.inUrl .spacesBeforeUrl n).counted = p.inUrl .spacesBeforeUrl (n + 1) := rfl
        have hmethod' : (p.inUrl .spacesBeforeUrl (n + 1)).method ≠ HTTP_CONNECT := hmethod
        have hspaces : spacesBeforeUrl (p.inUrl .spacesBeforeUrl (n + 1)) ch =
            (p.inUrl (parseUrlChar .spacesBeforeUrl ch) (n + 1)).next [.mark .url] := by
          unfold spacesBeforeUrl
          rw [if_neg hspace, if_neg hmethod', urlChar, if_neg hchar]
          rfl
        rw [hcounted]
        exact congrArg some hspaces
    have hrest := @url_takes p rest _ (n + 1) hp hgoes hnext (by omega)
    generalize hs : rest.foldl parseUrlChar (parseUrlChar .spacesBeforeUrl ch) = s at *
    have hresumed : (p.inUrl s (n + 1 + rest.length)).state.resumed = some .url := by
      unfold HttpParser.inUrl State.resumed
      cases s <;> first | rfl | cases hends
    have hlast : Takes (p.inUrl s (n + 1 + rest.length)) [32]
        { p with state := .reqHttpStart, nread := n + 1 + rest.length + 1 } [.data .url []] := by
      refine takes_handed hp rfl hresumed rfl rfl (fun _ => ?_) ?_ hp
      · show n + 1 + rest.length + 1 ≤ _
        omega
      · have hcounted : (p.inUrl s (n + 1 + rest.length)).counted =
            p.inUrl s (n + 1 + rest.length + 1) := rfl
        rw [hcounted]
        unfold switch url
        simp only [HttpParser.inUrl]
        cases s <;> first | rfl | cases hends
    have hsize : n + (ch :: rest).length + 1 = n + 1 + rest.length + 1 := by
      rw [List.length_cons]
      omega
    rw [hsize]
    refine (takes_append (takes_append hfirst hrest) hlast).joined ?_
    have hpieces := join_pieces [] .url [ch] rest
    rw [List.nil_append, List.nil_append] at hpieces
    exact (join_append_congr hpieces rfl).trans (join_data_nil [] .url (ch :: rest))

end Bytes

end huasi.http_execute
