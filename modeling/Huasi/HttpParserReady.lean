-- What http_parser_execute (src/src/http/http_parser.c) relies on between two bytes: the
-- conditions of its assertions, the indices into its tables, the mark that goes with each
-- state, and where its callbacks are. Every case of the switch keeps this.
import Huasi.HttpCalls
import Huasi.HttpExecute

open huasi.text huasi.runs huasi.http_parser

namespace huasi.http_execute

/-! ## Between two bytes -/

/-- How far a header name can be when it has come to a state. -/
def FieldOk (index : Nat) : HeaderState → Prop
  | .general | .connection | .contentLength | .transferEncoding | .upgrade => True
  | .c => index = 0
  | .co => index = 1
  | .con => index = 2
  | .matchingConnection => index + 1 < (ascii "connection").length
  | .matchingProxyConnection => index + 1 < (ascii "proxy-connection").length
  | .matchingContentLength => index + 1 < (ascii "content-length").length
  | .matchingTransferEncoding => index + 1 < (ascii "transfer-encoding").length
  | .matchingUpgrade => index + 1 < (ascii "upgrade").length
  | _ => False

/-- How far a token of a header value can be. -/
def ValueOk (index : Nat) : HeaderState → Prop
  | .general | .contentLength | .matchingConnectionToken | .transferEncodingChunked
  | .connectionKeepAlive | .connectionClose | .connectionUpgrade => True
  | .matchingConnectionTokenStart => index = 0
  | .matchingTransferEncodingChunked => index + 1 < (ascii "chunked").length
  | .matchingConnectionKeepAlive => index + 1 < (ascii "keep-alive").length
  | .matchingConnectionClose => index + 1 < (ascii "close").length
  | .matchingConnectionUpgrade => index + 1 < (ascii "upgrade").length
  | _ => False

/-- No error so far, and a length of 64 bits. -/
def HttpParser.Sound (parser : HttpParser) : Prop :=
  parser.httpErrno = .ok ∧ parser.contentLength ≤ ULLONG_MAX

/-- What the parser relies on. `nread` is the number of bytes that are counted of a chunk size.
Three states are only passed through. -/
def ReadyAt (nread : Nat) (parser : HttpParser) : Prop :=
  match parser.state with
  | .reqMethod =>
    ∃ name, methodStrings[parser.method]? = some name ∧ parser.index ≤ name.length
  | .headerField => FieldOk parser.index parser.headerState
  | .headerValue => ValueOk parser.index parser.headerState
  | .chunkSizeStart => parser.nread = nread ∧ parser.flags.chunked = true
  | .chunkSize | .chunkParameters | .chunkSizeAlmostDone =>
    parser.flags.chunked = true ∧ parser.contentLength < ULLONG_MAX
  | .chunkData =>
    parser.flags.chunked = true ∧ parser.contentLength ≠ 0 ∧ parser.contentLength < ULLONG_MAX
  | .chunkDataAlmostDone => parser.flags.chunked = true ∧ parser.contentLength = 0
  | .chunkDataDone => parser.flags.chunked = true
  | .bodyIdentity => parser.contentLength ≠ 0 ∧ parser.contentLength < ULLONG_MAX
  | .url .dead | .headerValueStart | .headersDone | .messageDone => False
  | _ => True

/-- The states that look at more than one byte at a time. -/
def State.bulk : State → Bool
  | .headerField | .headerValue | .chunkData | .bodyIdentity => true
  | _ => false

/-- The states that read a body. A mark is set there with the first byte of a call. -/
def State.inBody : State → Bool
  | .bodyIdentity | .chunkData | .chunkDataAlmostDone => true
  | _ => false

/-- The mark that can be set in a state. -/
def State.Allows (state : State) (mark : Option Kind) : Prop :=
  mark = state.resumed ∨ (state.inBody = true ∧ mark = some .body)

/-- Where the callbacks are in a state, with the data from a mark already handed over. The lines
behind a chunk that is `trailing` are not those of the headers. -/
def State.At (state : State) (trailing : Bool) (place : Place) : Prop :=
  match state with
  | .dead | .startReq => place = .idle
  | .reqMethod | .url .spacesBeforeUrl => trailing = false ∧ place = .begun
  | .url _ | .reqHttpStart | .reqHttpH | .reqHttpHT | .reqHttpHTT | .reqHttpHTTP
  | .reqHttpMajor | .reqHttpDot | .reqHttpMinor | .reqHttpEnd | .reqLineAlmostDone =>
    trailing = false ∧ place = .url
  | .headerFieldStart | .headersAlmostDone =>
    if trailing then place = .chunk ∨ place = .trailerValue else place = .url ∨ place = .value
  | .headerField | .headerValueDiscardWs | .headerValueDiscardWsAlmostDone
  | .headerValueDiscardLws => place = if trailing then .trailerName else .name
  | .headerValueStart =>
    if trailing then place = .trailerName ∨ place = .trailerValue
    else place = .name ∨ place = .value
  | .headerValue | .headerAlmostDone | .headerValueLws =>
    place = if trailing then .trailerValue else .value
  | .headersDone | .chunkSizeStart | .chunkSize | .chunkParameters | .chunkSizeAlmostDone =>
    trailing = false ∧ place = .content
  | .chunkData | .chunkDataAlmostDone | .chunkDataDone => trailing = false ∧ place = .chunk
  | .bodyIdentity => place = .content
  | .messageDone => place = .content ∨ place = .ended

/-- The mark that is set, and where the callbacks are. -/
structure View where
  mark : Option Kind
  place : Place

/-- An action moves the view if it comes in the right order: a notification when no mark is set.
No case of the switch ends a header name. -/
def View.act (v : View) : Action → Option View
  | .mark kind =>
    match v.mark with
    | none => (v.place.enter kind).map fun place => ⟨some kind, place⟩
    | some k => if k = kind then some v else none
  | .callbackData kind =>
    match v.mark with
    | none => some v
    | some k =>
      if k = kind then if kind = .headerField then none else some { v with mark := none }
      else some v
  | .notify call =>
    match v.mark with
    | none => (follow v.place call).map fun place => ⟨none, place⟩
    | some _ => none

def State.Sees (state : State) (trailing : Bool) (v : View) : Prop :=
  state.Allows v.mark ∧ state.At trailing v.place

/-- A state in which no mark can be set. -/
def State.Quiet (state : State) : Prop := state.inBody = false ∧ state.resumed = none

/-- The case of a state keeps what the parser relies on. -/
structure Fine (state : State) (trailing : Bool) (m : Move) : Prop where
  ready : m.ending ≠ .error → m.parser.Sound ∧ ReadyAt 0 m.parser
  failed : m.ending = .error → m.parser.httpErrno ≠ .ok
  leaves : m.ending = .leave → m.parser.upgrade = true ∧ m.parser.state.Quiet
  follows : ∀ v, state.Sees trailing v → ∃ w, m.actions.foldlM View.act v = some w ∧
    (m.ending ≠ .error → m.parser.state.Sees m.parser.flags.trailing w)

theorem newMessage_cases (parser : HttpParser) :
    parser.newMessage = .startReq ∨ parser.newMessage = .dead := by
  unfold HttpParser.newMessage
  split
  · exact Or.inl rfl
  · exact Or.inr rfl

theorem readyAt_newMessage {parser : HttpParser} {n : Nat} {s : State}
    (h : s = .startReq ∨ s = .dead) : ReadyAt n { parser with state := s } := by
  rcases h with rfl | rfl <;> trivial

theorem quiet_newMessage {s : State} (h : s = .startReq ∨ s = .dead) : s.Quiet := by
  rcases h with rfl | rfl <;> exact ⟨rfl, rfl⟩

theorem sees_newMessage {s : State} (h : s = .startReq ∨ s = .dead) (trailing : Bool) :
    s.Sees trailing ⟨none, .idle⟩ := by
  rcases h with rfl | rfl <;> exact ⟨Or.inl rfl, rfl⟩

theorem sees_quiet {state : State} (h : state.Quiet) {trailing : Bool} {v : View}
    (hv : state.Sees trailing v) : v = ⟨none, v.place⟩ ∧ state.At trailing v.place := by
  obtain ⟨hmark, hplace⟩ := hv
  have hnone : v.mark = none := by simpa [State.Allows, h.1, h.2] using hmark
  refine ⟨?_, hplace⟩
  rw [← hnone]

theorem sees_resumed {state : State} {kind : Kind} (hbody : state.inBody = false)
    (hkind : state.resumed = some kind) {trailing : Bool} {v : View}
    (hv : state.Sees trailing v) : v = ⟨some kind, v.place⟩ ∧ state.At trailing v.place := by
  obtain ⟨hmark, hplace⟩ := hv
  have hsome : v.mark = some kind := by simpa [State.Allows, hbody, hkind] using hmark
  refine ⟨?_, hplace⟩
  rw [← hsome]

/-! ## The cases -/

section Cases

variable {parser : HttpParser} {ch : UInt8} {state : State} {trailing : Bool}

theorem fail_fine (e : Errno) (he : e ≠ .ok) : Fine state trailing (parser.fail e) :=
  ⟨fun h => absurd rfl h, fun _ => he, nofun, fun v _ => ⟨v, rfl, fun h => absurd rfl h⟩⟩

theorem failAfter_fine {actions : List Action} {e : Errno} (he : e ≠ .ok)
    (hfollows : ∀ v, state.Sees trailing v → ∃ w, actions.foldlM View.act v = some w) :
    Fine state trailing ((parser.fail e).after actions) := by
  refine ⟨fun h => absurd rfl h, fun _ => he, nofun, fun v hv => ?_⟩
  obtain ⟨w, hw⟩ := hfollows v hv
  refine ⟨w, ?_, fun h => absurd rfl h⟩
  show (actions ++ []).foldlM View.act v = some w
  rw [List.append_nil, hw]

/-- A case without callbacks, between states without marks. -/
theorem next_fine (hquiet : state.Quiet) (hok : parser.Sound)
    (hready : ReadyAt 0 parser) (hresumed : parser.state.resumed = none)
    (hat : ∀ place, state.At trailing place → parser.state.At parser.flags.trailing place) :
    Fine state trailing (parser.next []) := by
  refine ⟨fun _ => ⟨hok, hready⟩, nofun, nofun, fun v hv => ⟨v, rfl, fun _ => ?_⟩⟩
  obtain ⟨heq, hplace⟩ := sees_quiet hquiet hv
  rw [heq]
  exact ⟨Or.inl hresumed.symm, hat _ hplace⟩

/-- A case that does nothing. -/
theorem stay_fine (hstate : parser.state = state) (htrailing : parser.flags.trailing = trailing)
    (hquiet : state.Quiet) (hok : parser.Sound) (hready : ReadyAt 0 parser) :
    Fine state trailing (parser.next []) := by
  subst hstate htrailing
  exact next_fine hquiet hok hready hquiet.2 fun _ h => h

theorem goTo_fine {new : State} (hquiet : state.Quiet) (hok : parser.Sound)
    (hready : ReadyAt 0 { parser with state := new }) (hresumed : new.resumed = none)
    (hat : ∀ place, state.At trailing place → new.At parser.flags.trailing place) :
    Fine state trailing (parser.goTo new) :=
  next_fine hquiet hok hready hresumed hat

/-- A case with a notification. -/
theorem notify_fine {m : Move} {call : Call} (hactions : m.actions = [.notify call])
    (hending : m.ending ≠ .error)
    (hleave : m.ending = .leave → m.parser.upgrade = true ∧ m.parser.state.Quiet)
    (hquiet : state.Quiet) (hok : m.parser.Sound) (hready : ReadyAt 0 m.parser)
    (hat : ∀ place, state.At trailing place → ∃ next, follow place call = some next ∧
      m.parser.state.Sees m.parser.flags.trailing ⟨none, next⟩) : Fine state trailing m := by
  refine ⟨fun _ => ⟨hok, hready⟩, fun h => absurd h hending, hleave, fun v hv => ?_⟩
  obtain ⟨heq, hplace⟩ := sees_quiet hquiet hv
  obtain ⟨next, hfollow, hsees⟩ := hat _ hplace
  refine ⟨⟨none, next⟩, ?_, fun _ => hsees⟩
  rw [hactions, heq]
  simp [View.act, hfollow]

/-- A case that sets a mark. -/
theorem mark_fine {kind : Kind} (hquiet : state.Quiet) (hok : parser.Sound)
    (hready : ReadyAt 0 parser) (hresumed : parser.state.resumed = some kind)
    (hat : ∀ place, state.At trailing place → ∃ next, place.enter kind = some next ∧
      parser.state.At parser.flags.trailing next) :
    Fine state trailing (parser.next [.mark kind]) := by
  refine ⟨fun _ => ⟨hok, hready⟩, nofun, nofun, fun v hv => ?_⟩
  obtain ⟨heq, hplace⟩ := sees_quiet hquiet hv
  obtain ⟨next, henter, hnext⟩ := hat _ hplace
  refine ⟨⟨some kind, next⟩, ?_, fun _ => ⟨Or.inl hresumed.symm, hnext⟩⟩
  show [Action.mark kind].foldlM View.act v = _
  rw [heq]
  simp [View.act, henter]

/-- A case that hands the data from a mark to its callback. -/
theorem data_fine {kind : Kind} (hkind : kind ≠ .headerField) (hbody : state.inBody = false)
    (hstate : state.resumed = some kind) (hok : parser.Sound)
    (hready : ReadyAt 0 parser) (hresumed : parser.state.resumed = none)
    (hat : ∀ place, state.At trailing place → parser.state.At parser.flags.trailing place) :
    Fine state trailing (parser.next [.callbackData kind]) := by
  refine ⟨fun _ => ⟨hok, hready⟩, nofun, nofun, fun v hv => ?_⟩
  obtain ⟨heq, hplace⟩ := sees_resumed hbody hstate hv
  refine ⟨⟨none, v.place⟩, ?_, fun _ => ⟨Or.inl hresumed.symm, hat _ hplace⟩⟩
  show [Action.callbackData kind].foldlM View.act v = _
  rw [heq]
  simp [View.act, hkind]

/-- Actions in front of a case that is executed again. -/
theorem Fine.after {m : Move} {again : State} (h : Fine again trailing m) {actions : List Action}
    (hfollows : ∀ v, state.Sees trailing v →
      ∃ w, actions.foldlM View.act v = some w ∧ again.Sees trailing w) :
    Fine state trailing (m.after actions) := by
  refine ⟨h.ready, h.failed, h.leaves, fun v hv => ?_⟩
  obtain ⟨w, hfold, hagain⟩ := hfollows v hv
  obtain ⟨x, hfold', hnext⟩ := h.follows w hagain
  refine ⟨x, ?_, hnext⟩
  show (actions ++ m.actions).foldlM View.act v = some x
  rw [List.foldlM_append, hfold]
  exact hfold'

/-- The case of another state that is executed again. -/
theorem Fine.again {m : Move} {again : State} (h : Fine again trailing m) (hquiet : state.Quiet)
    (hresumed : again.resumed = none)
    (hat : ∀ place, state.At trailing place → again.At trailing place) :
    Fine state trailing m := by
  refine ⟨h.ready, h.failed, h.leaves, fun v hv => h.follows v ?_⟩
  obtain ⟨heq, hplace⟩ := sees_quiet hquiet hv
  rw [heq]
  exact ⟨Or.inl hresumed.symm, hat _ hplace⟩

/-! ### The request line -/

theorem mem_of_lookup {α β : Type} [BEq α] [LawfulBEq α] {l : List (α × β)} {a : α} {b : β}
    (h : l.lookup a = some b) : (a, b) ∈ l := by
  induction l with
  | nil => cases h
  | cons e l ih =>
    rw [List.lookup_cons] at h
    split at h
    · obtain rfl := Option.some.inj h
      rename_i heq
      rw [eq_of_beq heq]
      exact List.mem_cons_self
    · exact List.mem_cons_of_mem _ (ih h)

/-- The first letter is one of the name. -/
theorem firstMethods_ok : ∀ e ∈ firstMethods, ∃ name, methodStrings[e.2]? = some name ∧
    1 ≤ name.length := by
  decide +kernel

theorem methodChanges_ok : ∀ e ∈ methodChanges, ∃ name, methodStrings[e.2]? = some name ∧
    e.1.2.1 + 1 ≤ name.length := by
  decide +kernel

theorem methodStrings_short : ∀ name ∈ methodStrings, name.length ≤ 11 := by
  decide +kernel

theorem startReq_fine (hok : parser.Sound) (hstate : parser.state = .startReq) :
    Fine .startReq parser.flags.trailing (startReq parser ch) := by
  unfold startReq
  by_cases hends : ch = CR ∨ ch = LF
  · rw [if_pos hends]
    exact stay_fine hstate rfl ⟨rfl, rfl⟩ hok (by simp [ReadyAt, hstate])
  · rw [if_neg hends]
    simp only
    split_ifs
    · exact fail_fine _ (by simp)
    · cases hmethod : firstMethods.lookup ch with
      | none => exact fail_fine _ (by simp)
      | some method =>
        refine notify_fine rfl ?_ ?_ ⟨rfl, rfl⟩ ⟨hok.1, Nat.le_refl _⟩ ?_ ?_
        · simp [HttpParser.next]
        · simp [HttpParser.next]
        · exact firstMethods_ok _ (mem_of_lookup hmethod)
        · rintro place rfl
          exact ⟨.begun, rfl, Or.inl rfl, rfl, rfl⟩

theorem nextIndex_index (h : parser.index < 127) : parser.nextIndex.index = parser.index + 1 := by
  unfold HttpParser.nextIndex
  simp only
  omega

/-- A method name is never left, and it is read up to its zero at most. -/
theorem reqMethod_fine (hok : parser.Sound) (hstate : parser.state = .reqMethod)
    (hready : ReadyAt 0 parser) :
    ∃ m, reqMethod parser ch = some m ∧ Fine .reqMethod parser.flags.trailing m := by
  simp only [ReadyAt, hstate] at hready
  obtain ⟨name, hname, hindex⟩ := hready
  have hshort := methodStrings_short name (List.mem_of_getElem? hname)
  have hnext : parser.nextIndex.index = parser.index + 1 := nextIndex_index (by omega)
  have hstays : ∀ p : HttpParser, p.Sound → p.state = .reqMethod →
      p.flags = parser.flags → ReadyAt 0 p →
      Fine .reqMethod parser.flags.trailing (p.next []) := by
    intro p hpok hp hflags hpready
    exact stay_fine hp (by rw [hflags]) ⟨rfl, rfl⟩ hpok hpready
  unfold reqMethod
  by_cases hzero : ch = 0
  · rw [if_pos hzero]
    exact ⟨_, rfl, fail_fine _ (by simp)⟩
  · rw [if_neg hzero]
    have hlt : parser.index < (name ++ [0]).length := by
      rw [List.length_append, List.length_singleton]
      omega
    simp only [hname, Option.bind_eq_bind, Option.bind_some, List.getElem?_eq_getElem hlt]
    split_ifs with hspace hmatch
    · exact ⟨_, rfl, next_fine ⟨rfl, rfl⟩ hok trivial rfl fun _ h => h⟩
    · refine ⟨_, rfl, hstays _ hok hstate rfl ?_⟩
      have hinside : parser.index < name.length := by
        by_contra hend
        obtain hend : parser.index = name.length := by omega
        simp [hend] at hmatch
        exact hzero hmatch
      have hstate' : parser.nextIndex.state = .reqMethod := hstate
      simp only [ReadyAt, hstate']
      exact ⟨name, hname, by omega⟩
    · cases hchange : methodChanges.lookup (parser.method, parser.index, ch) with
      | none => exact ⟨_, rfl, fail_fine _ (by simp)⟩
      | some method =>
        refine ⟨_, rfl, hstays _ hok hstate rfl ?_⟩
        obtain ⟨name', hname', hlen⟩ := methodChanges_ok _ (mem_of_lookup hchange)
        have hstate' : ({ parser with method }.nextIndex : HttpParser).state = .reqMethod := hstate
        simp only [ReadyAt, hstate']
        refine ⟨name', hname', ?_⟩
        show parser.nextIndex.index ≤ _
        rw [hnext]
        exact hlen
    · exact ⟨_, rfl, fail_fine _ (by simp)⟩

/-- What the URL parser leads to has a mark, if it is not dead. -/
theorem urlChar_sees {s : UrlState} (h : parseUrlChar s ch ≠ .dead) :
    (State.url (parseUrlChar s ch)).Sees false ⟨some .url, .url⟩ := by
  have hspaces : parseUrlChar s ch ≠ .spacesBeforeUrl := by
    unfold parseUrlChar parseServerChar
    cases s <;> simp only <;> split_ifs <;> simp
  cases hs : parseUrlChar s ch <;> simp_all [State.Sees, State.Allows, State.resumed, State.At]

theorem readyAt_url {s : UrlState} {n : Nat} (hstate : parser.state = .url s) (h : s ≠ .dead) :
    ReadyAt n parser := by
  unfold ReadyAt
  rw [hstate]
  cases s <;> trivial

theorem urlChar_fine {s : UrlState} {actions : List Action} (hok : parser.Sound)
    (hfollows : ∀ v, state.Sees parser.flags.trailing v →
      actions.foldlM View.act v = some ⟨some .url, .url⟩ ∧ parser.flags.trailing = false) :
    Fine state parser.flags.trailing (urlChar parser s ch actions) := by
  unfold urlChar
  simp only
  split_ifs with hdead
  · exact failAfter_fine (by simp) fun v hv => ⟨_, (hfollows v hv).1⟩
  · refine ⟨fun _ => ⟨hok, readyAt_url rfl hdead⟩, nofun, nofun, fun v hv => ?_⟩
    obtain ⟨hfold, htrailing⟩ := hfollows v hv
    refine ⟨⟨some .url, .url⟩, hfold, fun _ => ?_⟩
    show (State.url (parseUrlChar s ch)).Sees parser.flags.trailing _
    rw [htrailing]
    exact urlChar_sees hdead

theorem spacesBeforeUrl_fine (hok : parser.Sound)
    (hstate : parser.state = .url .spacesBeforeUrl) :
    Fine (.url .spacesBeforeUrl) parser.flags.trailing (spacesBeforeUrl parser ch) := by
  unfold spacesBeforeUrl
  by_cases hspace : ch = 32
  · rw [if_pos hspace]
    exact stay_fine hstate rfl ⟨rfl, rfl⟩ hok (readyAt_url hstate (by simp))
  · rw [if_neg hspace]
    apply urlChar_fine hok
    intro v hv
    obtain ⟨heq, htrailing, hplace⟩ := sees_quiet ⟨rfl, rfl⟩ hv
    rw [heq, hplace]
    exact ⟨rfl, htrailing⟩

/-- The states of a URL have its mark. -/
theorem sees_url {s : UrlState} (hs : (State.url s).resumed = some .url) {v : View}
    (hv : (State.url s).Sees trailing v) : v = ⟨some .url, .url⟩ ∧ trailing = false := by
  obtain ⟨heq, hplace⟩ := sees_resumed rfl hs hv
  have hurl : trailing = false ∧ v.place = .url := by cases s <;> first | exact hplace | cases hs
  rw [heq, hurl.2]
  exact ⟨rfl, hurl.1⟩

theorem urlOpen_fine {s : UrlState} (hok : parser.Sound)
    (hs : (State.url s).resumed = some .url) :
    Fine (.url s) parser.flags.trailing (urlOpen parser s ch) := by
  unfold urlOpen
  split_ifs
  · exact fail_fine _ (by simp)
  · apply urlChar_fine hok
    intro v hv
    obtain ⟨heq, htrailing⟩ := sees_url hs hv
    rw [heq]
    exact ⟨rfl, htrailing⟩

theorem urlEnds_fine {s : UrlState} (hok : parser.Sound)
    (hs : (State.url s).resumed = some .url) :
    Fine (.url s) parser.flags.trailing (urlEnds parser s ch) := by
  have hat : ∀ place, (State.url s).At parser.flags.trailing place →
      parser.flags.trailing = false ∧ place = .url := by
    intro place hplace
    cases s <;> first | exact hplace | cases hs
  have hfirst : ∀ place, (State.url s).At parser.flags.trailing place →
      State.headerFieldStart.At parser.flags.trailing place := by
    intro place hplace
    simp [State.At, hat place hplace]
  unfold urlEnds
  split_ifs
  · exact data_fine (by simp) rfl hs hok trivial rfl hat
  · exact data_fine (by simp) rfl hs hok trivial rfl hat
  · exact data_fine (by simp) rfl hs hok trivial rfl hfirst
  · apply urlChar_fine hok
    intro v hv
    obtain ⟨heq, htrailing⟩ := sees_url hs hv
    rw [heq]
    exact ⟨rfl, htrailing⟩

theorem url_fine {s : UrlState} (hok : parser.Sound) (hstate : parser.state = .url s)
    (hs : s ≠ .dead) : Fine (.url s) parser.flags.trailing (url parser s ch) := by
  unfold url
  cases s with
  | dead => exact absurd rfl hs
  | spacesBeforeUrl => exact spacesBeforeUrl_fine hok hstate
  | schema | schemaSlash | schemaSlashSlash | serverStart => exact urlOpen_fine hok rfl
  | _ => exact urlEnds_fine hok rfl

theorem strictChar_fine {expected : UInt8} {new : State} (hquiet : state.Quiet)
    (hok : parser.Sound) (hready : ReadyAt 0 { parser with state := new })
    (hresumed : new.resumed = none) (hat : ∀ place, state.At parser.flags.trailing place →
      new.At parser.flags.trailing place) :
    Fine state parser.flags.trailing (strictChar parser expected ch new) := by
  unfold strictChar
  split_ifs
  · exact fail_fine _ (by simp)
  · exact goTo_fine hquiet hok hready hresumed hat

theorem reqHttpStart_fine (hok : parser.Sound) (hstate : parser.state = .reqHttpStart) :
    Fine .reqHttpStart parser.flags.trailing (reqHttpStart parser ch) := by
  unfold reqHttpStart
  split_ifs
  · exact goTo_fine ⟨rfl, rfl⟩ hok trivial rfl fun _ h => h
  · exact stay_fine hstate rfl ⟨rfl, rfl⟩ hok (by simp [ReadyAt, hstate])
  · exact fail_fine _ (by simp)

theorem reqHttpMajor_fine (hok : parser.Sound) :
    Fine .reqHttpMajor parser.flags.trailing (reqHttpMajor parser ch) := by
  unfold reqHttpMajor
  split_ifs
  · exact fail_fine _ (by simp)
  · refine goTo_fine ⟨rfl, rfl⟩ ?_ trivial rfl fun _ h => h
    exact hok

theorem reqHttpDot_fine (hok : parser.Sound) :
    Fine .reqHttpDot parser.flags.trailing (reqHttpDot parser ch) := by
  unfold reqHttpDot
  split_ifs
  · exact fail_fine _ (by simp)
  · exact goTo_fine ⟨rfl, rfl⟩ hok trivial rfl fun _ h => h

theorem reqHttpMinor_fine (hok : parser.Sound) :
    Fine .reqHttpMinor parser.flags.trailing (reqHttpMinor parser ch) := by
  unfold reqHttpMinor
  split_ifs
  · exact fail_fine _ (by simp)
  · refine goTo_fine ⟨rfl, rfl⟩ ?_ trivial rfl fun _ h => h
    exact hok

/-- The lines of the headers begin. -/
theorem at_headerFieldStart {place : Place} (h : trailing = false ∧ place = .url) :
    State.headerFieldStart.At trailing place := by
  simp [State.At, h]

theorem reqHttpEnd_fine (hok : parser.Sound) :
    Fine .reqHttpEnd parser.flags.trailing (reqHttpEnd parser ch) := by
  unfold reqHttpEnd
  split_ifs
  · exact goTo_fine ⟨rfl, rfl⟩ hok trivial rfl fun _ h => h
  · exact goTo_fine ⟨rfl, rfl⟩ hok trivial rfl fun _ h => at_headerFieldStart h
  · exact fail_fine _ (by simp)

theorem reqLineAlmostDone_fine (hok : parser.Sound) :
    Fine .reqLineAlmostDone parser.flags.trailing (reqLineAlmostDone parser ch) := by
  unfold reqLineAlmostDone
  split_ifs
  · exact fail_fine _ (by simp)
  · exact goTo_fine ⟨rfl, rfl⟩ hok trivial rfl fun _ h => at_headerFieldStart h

/-! ### The end of the headers, and of a message -/

theorem messageDone_fine (hok : parser.Sound) :
    Fine .messageDone trailing (messageDone parser) := by
  have hnew := newMessage_cases parser
  unfold messageDone
  apply notify_fine rfl _ _ ⟨rfl, rfl⟩ hok (readyAt_newMessage hnew)
  · rintro place (rfl | rfl) <;> exact ⟨.idle, rfl, sees_newMessage hnew _⟩
  · simp only
    split <;> simp
  · simp only
    split
    · exact fun _ => ⟨‹_›, quiet_newMessage hnew⟩
    · simp

theorem headersDone_fine (hok : parser.Sound) :
    Fine .headersDone parser.flags.trailing (headersDone parser ch) := by
  have hnew := newMessage_cases { parser with nread := 0 }
  have hended : ∀ e, e ≠ .error → (e = .leave → parser.upgrade = true) →
      Fine .headersDone parser.flags.trailing (.mk
        { parser with nread := 0, state := HttpParser.newMessage { parser with nread := 0 } }
        [.notify .onMessageComplete] e) := by
    intro e he hleave
    apply notify_fine rfl he (fun h => ⟨hleave h, quiet_newMessage hnew⟩) ⟨rfl, rfl⟩ hok
    · exact @readyAt_newMessage { parser with nread := 0 } 0 _ hnew
    · rintro place ⟨-, rfl⟩
      exact ⟨.idle, rfl, sees_newMessage hnew _⟩
  unfold headersDone
  simp only
  split_ifs with hch hupgrade hskip hchunked hzero hlength
  · exact fail_fine _ (by simp)
  · exact hended .leave (by simp) fun _ => by simp_all
  · exact hended .next (by simp) nofun
  · exact goTo_fine ⟨rfl, rfl⟩ hok ⟨rfl, hchunked⟩ rfl fun _ h => h
  · exact hended .next (by simp) nofun
  · refine ⟨fun _ => ⟨hok, hzero, Nat.lt_of_le_of_ne hok.2 hlength⟩, nofun, nofun, fun v hv => ⟨v, rfl, fun _ => ?_⟩⟩
    obtain ⟨heq, -, hplace⟩ := sees_quiet ⟨rfl, rfl⟩ hv
    rw [heq, hplace]
    exact ⟨Or.inl rfl, rfl⟩
  · exact hended .next (by simp) nofun

/-- A notification in front of a case that is executed again. -/
theorem Fine.notified {m : Move} {again : State} (h : Fine again trailing m) (call : Call)
    (hquiet : state.Quiet) (hresumed : again.resumed = none)
    (hat : ∀ place, state.At trailing place → ∃ next, follow place call = some next ∧
      again.At trailing next) : Fine state trailing (m.after [.notify call]) := by
  apply h.after
  intro v hv
  obtain ⟨heq, hplace⟩ := sees_quiet hquiet hv
  obtain ⟨next, hfollow, hnext⟩ := hat _ hplace
  refine ⟨⟨none, next⟩, ?_, Or.inl hresumed.symm, hnext⟩
  rw [heq]
  simp [View.act, hfollow]

theorem headersAlmostDone_fine (hok : parser.Sound) :
    Fine .headersAlmostDone parser.flags.trailing (headersAlmostDone parser ch) := by
  unfold headersAlmostDone
  split_ifs with hch htrailing
  · exact fail_fine _ (by simp)
  · have hdone : ∀ p : HttpParser, p.Sound →
        Fine .messageDone parser.flags.trailing (messageDone p) := fun p hp => messageDone_fine hp
    refine Fine.notified (hdone _ ?_) _ ⟨rfl, rfl⟩ rfl ?_
    · exact hok
    · intro place hplace
      simp only [State.At, htrailing, if_true] at hplace
      rcases hplace with rfl | rfl
      · exact ⟨.content, rfl, Or.inl rfl⟩
      · exact ⟨.ended, rfl, Or.inr rfl⟩
  · exact fail_fine _ (by simp)
  · have hdone : ∀ p : HttpParser, p.Sound → p.flags = parser.flags →
        Fine .headersDone parser.flags.trailing (headersDone p ch) := by
      intro p hp hflags
      rw [← hflags]
      exact headersDone_fine hp
    simp only
    refine Fine.notified (hdone _ ?_ ?_) _ ⟨rfl, rfl⟩ rfl ?_
    · exact hok
    · rfl
    · intro place hplace
      simp only [State.At, htrailing] at hplace
      rcases hplace with rfl | rfl <;> exact ⟨.content, rfl, by simpa using htrailing, rfl⟩

/-! ### Header lines -/

theorem fieldOk_first (c : UInt8) : FieldOk 0 (firstHeaderState c) := by
  unfold firstHeaderState
  split_ifs <;> simp only [FieldOk] <;> decide

theorem headerFieldStart_fine (hok : parser.Sound) :
    Fine .headerFieldStart parser.flags.trailing (headerFieldStart parser ch) := by
  unfold headerFieldStart
  split_ifs
  · exact goTo_fine ⟨rfl, rfl⟩ hok trivial rfl fun _ h => h
  · have hdone : ∀ p : HttpParser, p.Sound → p.flags = parser.flags →
        Fine .headersAlmostDone parser.flags.trailing (headersAlmostDone p ch) := by
      intro p hp hflags
      rw [← hflags]
      exact headersAlmostDone_fine hp
    refine Fine.again (hdone _ ?_ rfl) ⟨rfl, rfl⟩ rfl fun _ h => h
    exact hok
  · exact fail_fine _ (by simp)
  · refine mark_fine ⟨rfl, rfl⟩ ?_ (fieldOk_first _) rfl ?_
    · exact hok
    · intro place hplace
      simp only [State.At] at hplace ⊢
      split at hplace <;> rcases hplace with rfl | rfl <;> exact ⟨_, rfl, by simp [*]⟩

theorem headerValueStart_fine (hok : parser.Sound) :
    Fine .headerValueStart parser.flags.trailing (headerValueStart parser ch) := by
  have henter : ∀ place, State.headerValueStart.At parser.flags.trailing place →
      ∃ next, place.enter .headerValue = some next ∧
        State.headerValue.At parser.flags.trailing next := by
    intro place hplace
    simp only [State.At] at hplace ⊢
    split at hplace <;> rcases hplace with rfl | rfl <;> exact ⟨_, rfl, by simp [*]⟩
  have hmark : ∀ p : HttpParser, p.state = .headerValue →
      p.flags.trailing = parser.flags.trailing → p.Sound →
      ValueOk p.index p.headerState →
      Fine .headerValueStart parser.flags.trailing (p.next [.mark .headerValue]) := by
    intro p hp htrailing hpok hvalue
    apply mark_fine ⟨rfl, rfl⟩ hpok
    · unfold ReadyAt
      rw [hp]
      exact hvalue
    · rw [hp]
      rfl
    · rw [hp, htrailing]
      exact henter
  have hfail : ∀ (p : HttpParser) (e : Errno), e ≠ .ok →
      Fine .headerValueStart parser.flags.trailing ((p.fail e).after [.mark .headerValue]) := by
    intro p e he
    apply failAfter_fine he
    intro v hv
    have hquiet : State.headerValueStart.Quiet := ⟨rfl, rfl⟩
    obtain ⟨heq, hplace⟩ := sees_quiet hquiet hv
    obtain ⟨next, hnext, -⟩ := henter _ hplace
    rw [heq]
    exact ⟨⟨some .headerValue, next⟩, by simp [View.act, hnext]⟩
  unfold headerValueStart
  simp only
  cases hh : parser.headerState with
  | upgrade => exact hmark _ rfl rfl hok trivial
  | transferEncoding =>
    simp only
    refine hmark _ rfl rfl hok ?_
    simp only
    split_ifs
    · simp only [ValueOk]
      decide
    · trivial
  | contentLength =>
    simp only
    split_ifs
    · exact hfail _ _ (by simp)
    · exact hfail _ _ (by simp)
    · have hdigit := ch.toNat_lt
      refine hmark _ rfl rfl ⟨hok.1, ?_⟩ (by simp [ValueOk])
      simp only [ULLONG_MAX]
      omega
  | connection =>
    simp only
    refine hmark _ rfl rfl hok ?_
    simp only
    split_ifs <;> simp only [ValueOk] <;> decide
  | matchingConnectionTokenStart =>
    refine hmark _ rfl rfl hok ?_
    simp [ValueOk]
  | _ => exact hmark _ rfl rfl hok trivial

theorem headerValueDiscardWs_fine (hok : parser.Sound)
    (hstate : parser.state = .headerValueDiscardWs) :
    Fine .headerValueDiscardWs parser.flags.trailing (headerValueDiscardWs parser ch) := by
  unfold headerValueDiscardWs
  split_ifs
  · exact stay_fine hstate rfl ⟨rfl, rfl⟩ hok (by simp [ReadyAt, hstate])
  · exact goTo_fine ⟨rfl, rfl⟩ hok trivial rfl fun _ h => h
  · exact goTo_fine ⟨rfl, rfl⟩ hok trivial rfl fun _ h => h
  · refine (headerValueStart_fine hok).again ⟨rfl, rfl⟩ rfl ?_
    intro place hplace
    simp only [State.At] at hplace ⊢
    split <;> simp_all

theorem headerAlmostDone_fine (hok : parser.Sound) :
    Fine .headerAlmostDone parser.flags.trailing (headerAlmostDone parser ch) := by
  unfold headerAlmostDone
  split_ifs
  · exact fail_fine _ (by simp)
  · exact goTo_fine ⟨rfl, rfl⟩ hok trivial rfl fun _ h => h

@[simp] theorem finish_trailing (flags : Flags) (h : HeaderState) :
    (flags.finish h).trailing = flags.trailing := by
  cases h <;> rfl

/-- A line that is finished goes to the next one. -/
theorem headerFieldStart_finish_fine (hok : parser.Sound) :
    Fine .headerFieldStart parser.flags.trailing (headerFieldStart { parser with
      flags := parser.flags.finish parser.headerState
      state := .headerFieldStart } ch) := by
  have hstart : ∀ p : HttpParser, p.Sound → p.flags.trailing = parser.flags.trailing →
      Fine .headerFieldStart parser.flags.trailing (headerFieldStart p ch) := by
    intro p hp htrailing
    rw [← htrailing]
    exact headerFieldStart_fine hp
  exact hstart _ hok (by simp)

theorem headerValueLws_fine (hok : parser.Sound) :
    Fine .headerValueLws parser.flags.trailing (headerValueLws parser ch) := by
  unfold headerValueLws
  split_ifs
  · have hstart : ∀ p : HttpParser, p.Sound → p.flags = parser.flags →
        Fine .headerValueStart parser.flags.trailing (headerValueStart p ch) := by
      intro p hp hflags
      rw [← hflags]
      exact headerValueStart_fine hp
    refine Fine.again (hstart _ ?_ rfl) ⟨rfl, rfl⟩ rfl ?_
    · exact hok
    · intro place hplace
      simp only [State.At] at hplace ⊢
      split <;> simp_all
  · refine (headerFieldStart_finish_fine hok).again ⟨rfl, rfl⟩ rfl ?_
    intro place hplace
    simp only [State.At] at hplace ⊢
    split <;> simp_all

theorem headerValueDiscardLws_fine (hok : parser.Sound) :
    Fine .headerValueDiscardLws parser.flags.trailing (headerValueDiscardLws parser ch) := by
  unfold headerValueDiscardLws
  split_ifs
  · exact goTo_fine ⟨rfl, rfl⟩ hok trivial rfl fun _ h => h
  · apply (headerFieldStart_finish_fine hok).after
    intro v hv
    have hquiet : State.headerValueDiscardLws.Quiet := ⟨rfl, rfl⟩
    obtain ⟨heq, hplace⟩ := sees_quiet hquiet hv
    have hplace : v.place = if parser.flags.trailing then .trailerName else .name := hplace
    rw [heq, hplace]
    refine ⟨⟨none, if parser.flags.trailing then .trailerValue else .value⟩, ?_, Or.inl rfl, ?_⟩
    · split <;> rfl
    · simp only [State.At]
      split <;> simp

/-! ### Chunks -/

theorem unhex_lt {value : Nat} (h : unhex ch = some value) : value < 16 := by
  have hall : ∀ n < 256, ∀ v ∈ unhex (UInt8.ofNat n), v < 16 := by decide +kernel
  have := hall ch.toNat ch.toNat_lt value
  rw [UInt8.ofNat_toNat] at this
  exact this h

theorem chunkSizeStart_fine (hok : parser.Sound)
    (hready : parser.nread = 1 ∧ parser.flags.chunked = true) :
    ∃ m, chunkSizeStart parser ch = some m ∧ Fine .chunkSizeStart parser.flags.trailing m := by
  unfold chunkSizeStart
  rw [if_pos hready]
  cases hvalue : unhex ch with
  | none => exact ⟨_, rfl, fail_fine _ (by simp)⟩
  | some value =>
    have hlt := unhex_lt hvalue
    refine ⟨_, rfl, goTo_fine ⟨rfl, rfl⟩ ⟨hok.1, ?_⟩ ⟨hready.2, ?_⟩ rfl fun _ h => h⟩ <;>
      simp only [ULLONG_MAX] <;> omega

theorem chunkSize_fine (hok : parser.Sound) (hstate : parser.state = .chunkSize)
    (hready : parser.flags.chunked = true ∧ parser.contentLength < ULLONG_MAX) :
    ∃ m, chunkSize parser ch = some m ∧ Fine .chunkSize parser.flags.trailing m := by
  unfold chunkSize
  rw [if_pos hready.1]
  by_cases hcr : ch = CR
  · rw [if_pos hcr]
    exact ⟨_, rfl, goTo_fine ⟨rfl, rfl⟩ hok hready rfl fun _ h => h⟩
  · rw [if_neg hcr]
    cases hvalue : unhex ch with
    | none =>
      simp only
      split_ifs
      · exact ⟨_, rfl, goTo_fine ⟨rfl, rfl⟩ hok hready rfl fun _ h => h⟩
      · exact ⟨_, rfl, fail_fine _ (by simp)⟩
    | some value =>
      have hlt := unhex_lt hvalue
      simp only
      split_ifs with hover
      · exact ⟨_, rfl, fail_fine _ (by simp)⟩
      · refine ⟨_, rfl, stay_fine hstate rfl ⟨rfl, rfl⟩ ⟨hok.1, ?_⟩ ?_⟩
        · simp only [ULLONG_MAX]
          omega
        · simp only [ReadyAt, hstate, hready.1, true_and]
          simp only [ULLONG_MAX] at hover ⊢
          omega

theorem chunkParameters_fine (hok : parser.Sound)
    (hstate : parser.state = .chunkParameters)
    (hready : parser.flags.chunked = true ∧ parser.contentLength < ULLONG_MAX) :
    ∃ m, chunkParameters parser ch = some m ∧ Fine .chunkParameters parser.flags.trailing m := by
  unfold chunkParameters
  rw [if_pos hready.1]
  refine ⟨_, rfl, ?_⟩
  split_ifs
  · exact goTo_fine ⟨rfl, rfl⟩ hok hready rfl fun _ h => h
  · exact stay_fine hstate rfl ⟨rfl, rfl⟩ hok (by simpa [ReadyAt, hstate] using hready)

theorem chunkSizeAlmostDone_fine (hok : parser.Sound)
    (hready : parser.flags.chunked = true ∧ parser.contentLength < ULLONG_MAX) :
    ∃ m, chunkSizeAlmostDone parser ch = some m ∧
      Fine .chunkSizeAlmostDone parser.flags.trailing m := by
  unfold chunkSizeAlmostDone
  rw [if_pos hready.1]
  simp only
  split_ifs with hch hzero
  · exact ⟨_, rfl, fail_fine _ (by simp)⟩
  · refine ⟨_, rfl, notify_fine rfl (by simp [HttpParser.next]) nofun ⟨rfl, rfl⟩ hok trivial ?_⟩
    rintro place ⟨-, rfl⟩
    exact ⟨.chunk, rfl, Or.inl rfl, Or.inl rfl⟩
  · refine ⟨_, rfl, notify_fine rfl (by simp [HttpParser.next]) nofun ⟨rfl, rfl⟩ hok ?_ ?_⟩
    · exact ⟨hready.1, hzero, hready.2⟩
    · rintro place ⟨htrailing, rfl⟩
      exact ⟨.chunk, rfl, Or.inl rfl, htrailing, rfl⟩

theorem chunkDataAlmostDone_fine (hok : parser.Sound)
    (hready : parser.flags.chunked = true ∧ parser.contentLength = 0) :
    ∃ m, chunkDataAlmostDone parser ch = some m ∧
      Fine .chunkDataAlmostDone parser.flags.trailing m := by
  unfold chunkDataAlmostDone
  rw [if_pos hready]
  split_ifs
  · exact ⟨_, rfl, fail_fine _ (by simp)⟩
  · refine ⟨_, rfl, fun _ => ⟨hok, hready.1⟩, nofun, nofun, fun v hv => ?_⟩
    obtain ⟨hmark, hplace⟩ := hv
    refine ⟨⟨none, v.place⟩, ?_, fun _ => ⟨Or.inl rfl, hplace⟩⟩
    show [Action.callbackData .body].foldlM View.act v = _
    have hmark : v.mark = none ∨ v.mark = some .body := by
      simpa [State.Allows, State.resumed, State.inBody] using hmark
    rcases v with ⟨mark, place⟩
    rcases hmark with rfl | rfl <;> rfl

theorem chunkDataDone_fine (hok : parser.Sound) (hready : parser.flags.chunked = true) :
    ∃ m, chunkDataDone parser ch = some m ∧ Fine .chunkDataDone parser.flags.trailing m := by
  unfold chunkDataDone
  rw [if_pos hready]
  split_ifs
  · exact ⟨_, rfl, fail_fine _ (by simp)⟩
  · refine ⟨_, rfl, notify_fine rfl (by simp [HttpParser.next]) nofun ⟨rfl, rfl⟩ hok ?_ ?_⟩
    · exact ⟨rfl, hready⟩
    · rintro place ⟨htrailing, rfl⟩
      exact ⟨.content, rfl, Or.inl rfl, htrailing, rfl⟩

/-- Every case of the switch, for a byte that is counted. -/
theorem switch_fine (hok : parser.Sound) (hready : ReadyAt 1 parser)
    (hbulk : parser.state.bulk = false) :
    ∃ m, switch parser ch = some m ∧ Fine parser.state parser.flags.trailing m := by
  unfold switch
  cases hstate : parser.state with
  | dead =>
    refine ⟨_, rfl, ?_⟩
    split_ifs
    · exact stay_fine hstate rfl ⟨rfl, rfl⟩ hok (by simp [ReadyAt, hstate])
    · exact fail_fine _ (by simp)
  | startReq => exact ⟨_, rfl, startReq_fine hok hstate⟩
  | reqMethod => exact reqMethod_fine hok hstate (by simpa [ReadyAt, hstate] using hready)
  | url s =>
    refine ⟨_, rfl, url_fine hok hstate ?_⟩
    rintro rfl
    simp [ReadyAt, hstate] at hready
  | reqHttpStart => exact ⟨_, rfl, reqHttpStart_fine hok hstate⟩
  | reqHttpH | reqHttpHT | reqHttpHTT | reqHttpHTTP =>
    exact ⟨_, rfl, strictChar_fine ⟨rfl, rfl⟩ hok trivial rfl fun _ h => h⟩
  | reqHttpMajor => exact ⟨_, rfl, reqHttpMajor_fine hok⟩
  | reqHttpDot => exact ⟨_, rfl, reqHttpDot_fine hok⟩
  | reqHttpMinor => exact ⟨_, rfl, reqHttpMinor_fine hok⟩
  | reqHttpEnd => exact ⟨_, rfl, reqHttpEnd_fine hok⟩
  | reqLineAlmostDone => exact ⟨_, rfl, reqLineAlmostDone_fine hok⟩
  | headerFieldStart => exact ⟨_, rfl, headerFieldStart_fine hok⟩
  | headerValueDiscardWs => exact ⟨_, rfl, headerValueDiscardWs_fine hok hstate⟩
  | headerValueDiscardWsAlmostDone =>
    exact ⟨_, rfl, strictChar_fine ⟨rfl, rfl⟩ hok trivial rfl fun _ h => h⟩
  | headerValueDiscardLws => exact ⟨_, rfl, headerValueDiscardLws_fine hok⟩
  | headerValueLws => exact ⟨_, rfl, headerValueLws_fine hok⟩
  | headerAlmostDone => exact ⟨_, rfl, headerAlmostDone_fine hok⟩
  | headersAlmostDone => exact ⟨_, rfl, headersAlmostDone_fine hok⟩
  | chunkSizeStart =>
    simp only [ReadyAt, hstate] at hready
    exact chunkSizeStart_fine hok hready
  | chunkSize =>
    simp only [ReadyAt, hstate] at hready
    exact chunkSize_fine hok hstate hready
  | chunkParameters =>
    simp only [ReadyAt, hstate] at hready
    exact chunkParameters_fine hok hstate hready
  | chunkSizeAlmostDone =>
    simp only [ReadyAt, hstate] at hready
    exact chunkSizeAlmostDone_fine hok hready
  | chunkDataAlmostDone =>
    simp only [ReadyAt, hstate] at hready
    exact chunkDataAlmostDone_fine hok hready
  | chunkDataDone =>
    simp only [ReadyAt, hstate] at hready
    exact chunkDataDone_fine hok hready
  | headerValueStart | headersDone | messageDone => simp [ReadyAt, hstate] at hready
  | headerField | headerValue | chunkData | bodyIdentity => simp [hstate, State.bulk] at hbulk

end Cases

end huasi.http_execute
