-- A connection of the gateway on which something fails (src/src/Channel.cpp,
-- src/src/http/HttpChannel.cpp, src/src/main.cpp): `onError` prints the error and nobody
-- closes the socket, so what is outstanding goes on.
import Huasi.Channel

open huasi.runs huasi.channel

namespace huasi.http_errors

/-! ## A connection -/

/-- `MyGateway::onError` prints the error. -/
def onError : List Call := []

/-- `Channel::onShutdown` and `Channel::onTimeout`. -/
def onShutdown : List Call := [.close onError]

/-- `Gateway::onRequest`: it sends a response, and a body with it if there is one. -/
def onRequest (body : Bool) : List Call := if body then [.sendData, .sendData] else [.sendData]

/-- `HttpChannel::onData`: http_parser calls `onRequest` for each request that it finds, and may
end with an error. -/
def onData (requests : List Bool) (parseError : Bool) : List Call :=
  requests.flatMap onRequest ++ if parseError then onError else []

/-- What the event loop has for a connection. Of the data of a read it says what http_parser makes
of it. -/
inductive Event where
  | waited (error : Bool)
  | written (error : Bool)
  | canceled
  | eof
  | readError
  | data (requests : List Bool) (parseError : Bool)

/-- The handler of the channel that the event runs. -/
def Event.handler : Event → channel.Event
  | .waited error => .waited error onShutdown
  | .written error => .written error onError []
  | .canceled => .received .canceled
  | .eof => .received (.eof onShutdown)
  | .readError => .received (.error onError)
  | .data requests parseError => .received (.data (onData requests parseError))

/-- What the derived class gets to see. Of an error it is noted whether the socket is open when the
caller of `onError` returns. -/
inductive Note where
  | onData
  | onRequest
  | onError (isOpen : Bool)
deriving DecidableEq

/-- The calls in an event, with the socket as it is at the end of the event. -/
def Event.notes (isOpen : Bool) : Event → List Note
  | .written true | .readError => [.onError isOpen]
  | .data requests parseError =>
    .onData :: requests.map (fun _ => .onRequest) ++ if parseError then [.onError isOpen] else []
  | .waited _ | .written false | .canceled | .eof => []

structure Connection where
  channel : Channel
  log : List Note
deriving DecidableEq

/-- A connection that has been accepted: its first read and the wait that goes with it have
started. -/
def Connection.opened : Connection where
  channel :=
    { object := { referenceCount := 3, deletions := 0 }, isOpen := true, txPending := 0,
      handles := 0, waits := 1, reads := 1, writes := 0 }
  log := []

example : accepted 0 [] = some Connection.opened.channel := by decide

def step (s : Connection) (e : Event) : Option Connection :=
  (channel.step s.channel e.handler).map fun c =>
    { channel := c, log := s.log ++ e.notes c.isOpen }

/-! ## The law -/

/-- After every error the socket is closed, and no data and no request come any more. -/
def ClosedAfterErrors : List Note → Prop
  | [] => True
  | .onError isOpen :: rest =>
    isOpen = false ∧ .onData ∉ rest ∧ .onRequest ∉ rest ∧ ClosedAfterErrors rest
  | .onData :: rest | .onRequest :: rest => ClosedAfterErrors rest

def Connection.Lawful (s : Connection) : Prop := ClosedAfterErrors s.log

def decideClosed : ∀ log, Decidable (ClosedAfterErrors log)
  | [] => inferInstanceAs (Decidable True)
  | .onError isOpen :: rest =>
    have := decideClosed rest
    inferInstanceAs (Decidable
      (isOpen = false ∧ .onData ∉ rest ∧ .onRequest ∉ rest ∧ ClosedAfterErrors rest))
  | .onData :: rest => decideClosed rest
  | .onRequest :: rest => decideClosed rest

instance (s : Connection) : Decidable s.Lawful := decideClosed s.log

/-- A failed write, a failed read, or data that does not parse. -/
def Event.Fails : Event → Prop
  | .written error => error = true
  | .readError => True
  | .data _ parseError => parseError = true
  | .waited _ | .canceled | .eof => False

instance (e : Event) : Decidable e.Fails :=
  match e with
  | .written error => inferInstanceAs (Decidable (error = true))
  | .readError => inferInstanceAs (Decidable True)
  | .data _ parseError => inferInstanceAs (Decidable (parseError = true))
  | .waited _ | .canceled | .eof => inferInstanceAs (Decidable False)

/-- A read that has got data. -/
def Event.Delivers : Event → Prop
  | .data _ _ => True
  | .waited _ | .written _ | .canceled | .eof | .readError => False

instance (e : Event) : Decidable e.Delivers :=
  match e with
  | .data _ _ => inferInstanceAs (Decidable True)
  | .waited _ | .written _ | .canceled | .eof | .readError => inferInstanceAs (Decidable False)

def Note.isError : Note → Bool
  | .onError _ => true
  | .onData | .onRequest => false

/-- What fails finds the socket closed already, and after an error no read has data. -/
def Harmless (s : Connection) (e : Event) : Prop :=
  (e.Fails → s.channel.isOpen = false) ∧ (e.Delivers → s.log.any Note.isError = false)

instance (s : Connection) (e : Event) : Decidable (Harmless s e) :=
  inferInstanceAs (Decidable ((_ → _) ∧ (_ → _)))

theorem closedAfterErrors_append (l m : List Note) :
    ClosedAfterErrors (l ++ m) ↔ ClosedAfterErrors l ∧ ClosedAfterErrors m ∧
      (l.any Note.isError = true → .onData ∉ m ∧ .onRequest ∉ m) := by
  induction l with
  | nil => simp [ClosedAfterErrors]
  | cons n l ih =>
    cases n with
    | onData => simp [ClosedAfterErrors, Note.isError, ih]
    | onRequest => simp [ClosedAfterErrors, Note.isError, ih]
    | onError isOpen =>
      simp only [List.cons_append, ClosedAfterErrors, ih, List.mem_append]
      constructor
      · rintro ⟨hclosed, hdata, hrequest, hl, hm, -⟩
        simp only [not_or] at hdata hrequest
        exact ⟨⟨hclosed, hdata.1, hrequest.1, hl⟩, hm, fun _ => ⟨hdata.2, hrequest.2⟩⟩
      · rintro ⟨⟨hclosed, hdata, hrequest, hl⟩, hm, hnone⟩
        obtain ⟨hdata', hrequest'⟩ := hnone rfl
        exact ⟨hclosed, not_or.mpr ⟨hdata, hdata'⟩, not_or.mpr ⟨hrequest, hrequest'⟩, hl, hm,
          fun _ => ⟨hdata', hrequest'⟩⟩

/-- Requests alone break no law. -/
theorem closedAfterErrors_requests (n : Nat) :
    ClosedAfterErrors (List.replicate n .onRequest) := by
  induction n with
  | zero => trivial
  | succ n ih => exact ih

theorem closedAfterErrors_notes (e : Event) (isOpen : Bool) :
    ClosedAfterErrors (e.notes isOpen) ↔ (e.Fails → isOpen = false) := by
  cases e with
  | waited error | canceled | eof => simp [Event.notes, Event.Fails, ClosedAfterErrors]
  | written error => cases error <;> simp [Event.notes, Event.Fails, ClosedAfterErrors]
  | readError => simp [Event.notes, Event.Fails, ClosedAfterErrors]
  | data requests parseError =>
    have hrequests := closedAfterErrors_requests requests.length
    simp only [Event.notes, Event.Fails, List.cons_append, ClosedAfterErrors,
      closedAfterErrors_append, List.map_const']
    cases parseError <;> simp [ClosedAfterErrors, hrequests]

theorem delivers_iff (e : Event) (isOpen : Bool) :
    e.Delivers ↔ ¬ (.onData ∉ e.notes isOpen ∧ .onRequest ∉ e.notes isOpen) := by
  cases e with
  | waited error | canceled | eof | readError => simp [Event.notes, Event.Delivers]
  | written error => cases error <;> simp [Event.notes, Event.Delivers]
  | data requests parseError => simp [Event.notes, Event.Delivers]

/-! ## What fails leaves the socket as it is -/

section Socket

variable {c d : Channel}

theorem removeReference_isOpen (h : c.removeReference = some d) : d.isOpen = c.isOpen := by
  obtain ⟨o, -, rfl⟩ := Option.map_eq_some_iff.mp h
  rfl

theorem addReference_isOpen (h : c.addReference = some d) : d.isOpen = c.isOpen := by
  obtain ⟨o, -, rfl⟩ := Option.map_eq_some_iff.mp h
  rfl

theorem sendData_isOpen (h : sendData c = some d) : d.isOpen = c.isOpen := by
  obtain ⟨c1, h1, h⟩ := Option.bind_eq_some_iff.mp h
  obtain ⟨c2, h2, h⟩ := Option.bind_eq_some_iff.mp h
  obtain ⟨c3, h3, h⟩ := Option.bind_eq_some_iff.mp h
  cases h
  unfold Channel.incrementPending at h3
  split at h3
  · cases h3
    rw [addReference_isOpen h2, addReference_isOpen h1]
  · cases h3

theorem receive_isOpen (h : receive c = some d) : d.isOpen = c.isOpen := by
  obtain ⟨c1, h1, h⟩ := Option.bind_eq_some_iff.mp h
  obtain ⟨c2, h2, h⟩ := Option.bind_eq_some_iff.mp h
  cases h
  have hwait := addReference_isOpen h1
  have hread := addReference_isOpen h2
  exact hread.trans hwait

/-- The answers to requests are sent, nothing else. -/
theorem makeAll_isOpen {calls : List Call} (hcalls : ∀ call ∈ calls, call = .sendData)
    (h : makeAll calls c = some d) : d.isOpen = c.isOpen := by
  induction calls generalizing c with
  | nil =>
    cases h
    rfl
  | cons call calls ih =>
    obtain rfl := hcalls call List.mem_cons_self
    obtain ⟨c1, h1, h⟩ := Option.bind_eq_some_iff.mp h
    rw [ih (fun call hcall => hcalls call (List.mem_cons_of_mem _ hcall)) h, sendData_isOpen h1]

theorem mem_onData {requests : List Bool} {parseError : Bool} :
    ∀ call ∈ onData requests parseError, call = .sendData := by
  intro call hcall
  simp only [onData, onError, ite_self, List.append_nil, List.mem_flatMap] at hcall
  obtain ⟨body, -, hcall⟩ := hcall
  cases body with
  | true => simpa [onRequest] using hcall
  | false => simpa [onRequest] using hcall

theorem makeIf_nil_isOpen {condition : Bool} (h : makeIf condition [] c = some d) :
    d.isOpen = c.isOpen := by
  cases condition with
  | true =>
    cases h
    rfl
  | false =>
    cases h
    rfl

theorem written_isOpen {error : Bool}
    (h : channel.step c (Event.written error).handler = some d) : d.isOpen = c.isOpen := by
  simp only [Event.handler, channel.step] at h
  split at h
  · obtain ⟨c1, h1, h⟩ := Option.bind_eq_some_iff.mp h
    obtain ⟨c2, h2, h⟩ := Option.bind_eq_some_iff.mp h
    obtain ⟨pending, -, h⟩ := Option.bind_eq_some_iff.mp h
    obtain ⟨c3, h3, h⟩ := Option.bind_eq_some_iff.mp h
    have hdecrement : c1.isOpen = c.isOpen := by
      unfold Channel.decrementPending at h1
      split at h1
      · cases h1
        rfl
      · cases h1
    have herror := makeIf_nil_isOpen h2
    have hready := makeIf_nil_isOpen h3
    rw [removeReference_isOpen h, hready, herror, hdecrement]
  · cases h

theorem isOpen_of_fails {e : Event} (he : e.Fails) (h : channel.step c e.handler = some d) :
    d.isOpen = c.isOpen := by
  cases e with
  | waited error | canceled | eof => cases he
  | written error => exact written_isOpen h
  | readError =>
    simp only [Event.handler, channel.step] at h
    split at h
    · obtain ⟨c1, h1, h⟩ := Option.bind_eq_some_iff.mp h
      cases h1
      have hread := removeReference_isOpen h
      exact hread
    · cases h
  | data requests parseError =>
    simp only [Event.handler, channel.step] at h
    split at h
    · obtain ⟨c1, h1, h⟩ := Option.bind_eq_some_iff.mp h
      obtain ⟨c2, h2, h1⟩ := Option.bind_eq_some_iff.mp h1
      have hread := receive_isOpen h2
      have hdata := makeAll_isOpen mem_onData h1
      exact (removeReference_isOpen h).trans (hdata.trans hread)
    · cases h

end Socket

/-! ## Every run of a connection -/

theorem lawful_step {s t : Connection} {e : Event} (h : s.Lawful) (ht : step s e = some t) :
    t.Lawful ↔ Harmless s e := by
  obtain ⟨c, hc, rfl⟩ := Option.map_eq_some_iff.mp ht
  simp only [Connection.Lawful, closedAfterErrors_append, closedAfterErrors_notes]
  unfold Harmless
  constructor
  · rintro ⟨-, hclosed, hquiet⟩
    constructor
    · intro hfails
      rw [← isOpen_of_fails hfails hc]
      exact hclosed hfails
    · intro hdelivers
      rw [← Bool.not_eq_true]
      intro herror
      exact (delivers_iff e c.isOpen).mp hdelivers (hquiet herror)
  · rintro ⟨hclosed, hquiet⟩
    refine ⟨h, ?_, ?_⟩
    · intro hfails
      rw [isOpen_of_fails hfails hc]
      exact hclosed hfails
    · intro herror
      by_contra hno
      have hnone := hquiet ((delivers_iff e c.isOpen).mpr hno)
      rw [herror] at hnone
      cases hnone

theorem closed_after_errors_iff (es : List Event) (t : Connection)
    (hrun : run step .opened es = some t) :
    Always step Connection.Lawful .opened es ↔ Meets step Harmless .opened es :=
  always_iff_meets_of_run (fun _ _ _ h ht => lawful_step h ht) hrun trivial

/-- A request is answered, the peer shuts down, and the write that is under way fails. -/
theorem closed_after_errors_iff_example :
    Always step Connection.Lawful .opened
      [.data [true] false, .written false, .eof, .written true] := by
  obtain ⟨t, ht⟩ : ∃ t, run step .opened [.data [true] false, .written false, .eof,
      .written true] = some t := Option.isSome_iff_exists.mp (by decide +kernel)
  exact (closed_after_errors_iff _ t ht).mpr (by decide +kernel)

/-- Data that does not parse leaves the socket open, and the next data is taken again. -/
theorem open_after_parse_error :
    ¬ ∀ (es : List Event) (t : Connection), run step .opened es = some t →
      Always step Connection.Lawful .opened es := by
  intro h
  obtain ⟨t, ht⟩ : ∃ t, run step .opened [.data [] true, .data [] true] = some t :=
    Option.isSome_iff_exists.mp (by decide +kernel)
  exact absurd (h _ t ht) (by decide +kernel)

end huasi.http_errors
