-- A connection of the gateway, from the bytes that it receives to the bytes that it sends
-- (src/src/http/HttpChannel.cpp and src/src/Gateway.cpp): requests that come one after the other,
-- in any reads, are answered one after the other.
import Huasi.GatewayFraming
import Huasi.HttpRequests
import Huasi.Url

open huasi.text huasi.runs huasi.network huasi.http_framing huasi.http huasi.http_channel
open huasi.http_parser huasi.http_execute

namespace huasi.gateway

/-! ## The connection -/

/-- The methods in the order of their numbers (`HTTP_METHOD_MAP`). -/
def methods : List Method := [
  .DELETE, .GET, .HEAD, .POST, .PUT, .CONNECT, .OPTIONS, .TRACE, .COPY, .LOCK, .MKCOL, .MOVE,
  .PROPFIND, .PROPPATCH, .SEARCH, .UNLOCK, .BIND, .REBIND, .UNBIND, .ACL, .REPORT, .MKACTIVITY,
  .CHECKOUT, .MERGE, .MSEARCH, .NOTIFY, .SUBSCRIBE, .UNSUBSCRIBE, .PATCH, .PURGE, .MKCALENDAR,
  .LINK, .UNLINK]

/-- The channel with the network behind it, the requests for the controller and the calls of
`sendData` so far. -/
structure Served where
  channel : HttpChannel
  network : ZWaveNetwork
  enqueued : List SendData
  sent : List Text

/-- The arguments of `onRequest`, with the parts of the url that it looks at, and whether the
connection is kept. -/
structure Asked where
  method : Method
  path : Text
  query : Text
  keepAlive : Bool
deriving DecidableEq, Repr

def Asked.outcome (a : Asked) (network : ZWaveNetwork) : Outcome :=
  onRequest network a.method a.path a.query a.keepAlive

/-- What `on_headers_complete` asks for. A url that http_parser_parse_url rejects has the path and
the query that it has found by then. -/
def asked (c : HttpChannel) (method : Nat) (keepAlive : Bool) : Option Asked := do
  let method ← methods[method]?
  let u := Url.new c.urlOrStatus
  let path ← u.getPath
  let query ← u.getQuery
  some { method, path, query, keepAlive }

/-- No url stops the gateway. -/
theorem asked_some (c : HttpChannel) {method : Nat} (h : method < methods.length)
    (keepAlive : Bool) : ∃ a, asked c method keepAlive = some a := by
  obtain ⟨path, hpath⟩ := getPath_some c.urlOrStatus
  obtain ⟨query, hquery⟩ := getQuery_some c.urlOrStatus
  have hmethod := List.getElem?_eq_getElem h
  unfold asked
  simp only [hmethod, hpath, hquery, Option.bind_eq_bind, Option.bind_some]
  exact ⟨_, rfl⟩

/-- A port behind 16 bits: the parser rejects the url, and the path is there all the same. -/
example : asked { HttpChannel.new with urlOrStatus := ascii "http://h:99999/node/5" } 1 true =
    some { method := .GET, path := ascii "/node/5", query := [], keepAlive := true } := by
  decide +kernel

/-- `Gateway::onRequest`. -/
def Served.answer (s : Served) (a : Asked) : Served :=
  let outcome := a.outcome s.network
  { s with
    network := outcome.network
    enqueued := s.enqueued ++ outcome.enqueued
    sent := s.sent ++ outcome.sent }

/-- A callback of the parser. `onBody` and `onEnd` do nothing. -/
def Served.call (s : Served) (call : Call) : Option Served := do
  let s' := { s with channel := channelAfter s.channel [call] }
  match call with
  | .onHeadersComplete method keepAlive =>
    let a ← asked s.channel method keepAlive
    some (s'.answer a)
  | _ => some s'

structure Connection where
  parser : HttpParser
  errors : List Errno
  served : Served

/-- A connection after `onConnect`. -/
def Connection.new (network : ZWaveNetwork) : Connection where
  parser := .init
  errors := []
  served := { channel := .new, network, enqueued := [], sent := [] }

/-- `onData`. -/
def onData (c : Connection) (data : Text) : Option Connection := do
  let r ← execute c.parser data
  let served ← r.calls.foldlM Served.call c.served
  some {
    parser := r.parser
    errors := if r.count ≠ data.length then c.errors ++ [r.parser.httpErrno] else c.errors
    served }

/-! ## The requests among the callbacks -/

def Call.asks (c : HttpChannel) : Call → Option (List Asked)
  | .onHeadersComplete method keepAlive => (asked c method keepAlive).map ([·])
  | _ => some []

/-- What the callbacks ask for, one after the other. -/
def asks (c : HttpChannel) : List Call → Option (List Asked)
  | [] => some []
  | call :: calls => do
    let first ← Call.asks c call
    let more ← asks (channelAfter c [call]) calls
    some (first ++ more)

section Calls

variable {s : Served} {c : HttpChannel}

theorem asks_append (calls more : List Call) (c : HttpChannel) :
    asks c (calls ++ more) = (asks c calls).bind fun first =>
      (asks (channelAfter c calls) more).map fun next => first ++ next := by
  induction calls generalizing c with
  | nil =>
    have hnil : channelAfter c [] = c := rfl
    simp [asks, hnil]
  | cons call calls ih =>
    rw [channelAfter_cons c call calls]
    simp only [List.cons_append, asks, ih, Option.bind_eq_bind]
    cases Call.asks c call with
    | none => rfl
    | some first =>
      cases asks (channelAfter c [call]) calls with
      | none => rfl
      | some next =>
        cases asks (channelAfter (channelAfter c [call]) calls) more with
        | none => rfl
        | some last => simp

/-- What is asked for does not depend on how data is cut. -/
theorem asks_joinTo (call : Call) (calls : List Call) (c : HttpChannel) :
    asks c (call.joinTo calls) = asks c (call :: calls) := by
  cases call with
  | data kind a =>
    cases calls with
    | nil => rfl
    | cons next calls =>
      cases next with
      | data kind' b =>
        by_cases hkind : kind = kind'
        · subst hkind
          have hpieces := channelAfter_joinTo c (.data kind a) [.data kind b]
          rw [joinTo_same, channelAfter_cons c (.data kind a)] at hpieces
          rw [joinTo_same]
          simp [asks, Call.asks, hpieces]
        · simp [Call.joinTo, hkind]
      | _ => rfl
  | _ => rfl

theorem asks_join (calls : List Call) (c : HttpChannel) : asks c (join calls) = asks c calls := by
  induction calls generalizing c with
  | nil => rfl
  | cons call calls ih =>
    have hjoin : join (call :: calls) = call.joinTo (join calls) := rfl
    rw [hjoin, asks_joinTo]
    simp [asks, ih]

/-- Answers have nothing to do with the channel. -/
theorem answer_channel (as : List Asked) (s : Served) (d : HttpChannel) :
    as.foldl Served.answer { s with channel := d } =
      { as.foldl Served.answer s with channel := d } := by
  induction as generalizing s with
  | nil => rfl
  | cons a as ih => exact ih (s.answer a)

/-- The callbacks of a connection: the channel goes its way, and the requests are answered. -/
theorem foldlM_asks {calls : List Call} {as : List Asked} (h : asks s.channel calls = some as) :
    calls.foldlM Served.call s =
      some { as.foldl Served.answer s with channel := channelAfter s.channel calls } := by
  induction calls generalizing s as with
  | nil =>
    cases h
    rfl
  | cons call calls ih =>
    obtain ⟨first, hfirst, h⟩ := Option.bind_eq_some_iff.mp h
    obtain ⟨more, hmore, h⟩ := Option.bind_eq_some_iff.mp h
    cases h
    have hcall : s.call call = some { first.foldl Served.answer s with
        channel := channelAfter s.channel [call] } := by
      rw [← answer_channel]
      unfold Served.call
      cases call with
      | onHeadersComplete m k =>
        obtain ⟨a, ha, rfl⟩ := Option.map_eq_some_iff.mp hfirst
        simp [ha]
      | _ =>
        cases hfirst
        rfl
    have hrest := @ih { first.foldl Served.answer s with channel := channelAfter s.channel [call] }
      more hmore
    rw [answer_channel more (first.foldl Served.answer s)] at hrest
    rw [List.foldlM_cons, hcall, channelAfter_cons s.channel call calls, List.foldl_append]
    exact hrest

/-- The callbacks come from the parser alone. -/
theorem run_calls {reads : List Text} {i t : Input}
    (h : run http_execute.onData i reads = some t) :
    ∃ calls, t.calls = i.calls ++ calls ∧ ∀ c : Connection, c.parser = i.parser →
      c.errors = i.errors → run onData c reads =
        (calls.foldlM Served.call c.served).map fun served => ⟨t.parser, t.errors, served⟩ := by
  induction reads generalizing i with
  | nil =>
    cases h
    refine ⟨[], by simp, ?_⟩
    rintro ⟨parser, errors, served⟩ rfl rfl
    rfl
  | cons data reads ih =>
    obtain ⟨j, hj, hrun⟩ := Option.bind_eq_some_iff.mp h
    obtain ⟨r, hr, hset⟩ := Option.bind_eq_some_iff.mp hj
    obtain ⟨calls, hcalls, hrest⟩ := ih hrun
    cases hset
    refine ⟨r.calls ++ calls, by rw [hcalls, List.append_assoc], ?_⟩
    rintro ⟨parser, errors, served⟩ rfl rfl
    have hstep : onData ⟨i.parser, i.errors, served⟩ data =
        (r.calls.foldlM Served.call served).map fun served =>
          ⟨r.parser, if r.count ≠ data.length then i.errors ++ [r.parser.httpErrno] else i.errors,
            served⟩ := by
      unfold onData
      simp only [hr, Option.bind_eq_bind, Option.bind_some]
      exact Option.map_eq_bind.symm
    rw [List.foldlM_append]
    cases hserved : r.calls.foldlM Served.call served with
    | none => simp [run, hstep, hserved]
    | some next =>
      have hnext := hrest ⟨r.parser, _, next⟩ rfl rfl
      simpa [run, hstep, hserved] using hnext

end Calls

/-! ## Requests -/

/-- A request as the gateway understands it. -/
structure WebRequest where
  wire : WireRequest
  method : Method
  path : Text
  query : Text
  named : methods[wire.method]? = some method
  origin : OriginForm wire.target path query

def WebRequest.encode (r : WebRequest) : Text := r.wire.encode

def WebRequest.asked (r : WebRequest) : Asked where
  method := r.method
  path := r.path
  query := r.query
  keepAlive := true

section Requests

variable {s : Served} {c : HttpChannel}

/-- The callbacks that neither add to the url nor take it. -/
def leavesUrl : Call → Bool
  | .data .url _ | .onHeadersComplete .. => false
  | _ => true

theorem channelAfter_url {calls : List Call} (h : ∀ call ∈ calls, leavesUrl call = true) :
    (channelAfter c calls).urlOrStatus = c.urlOrStatus := by
  induction calls generalizing c with
  | nil => rfl
  | cons call calls ih =>
    rw [channelAfter_cons, ih fun x hx => h x (List.mem_cons_of_mem _ hx)]
    have hmoved : c.moveHeader.urlOrStatus = c.urlOrStatus := by
      unfold HttpChannel.moveHeader
      split <;> rfl
    have hcall := h call List.mem_cons_self
    cases call with
    | data kind bytes =>
      cases kind with
      | url => cases hcall
      | headerField => exact hmoved
      | _ => rfl
    | onHeadersComplete m k => cases hcall
    | _ => rfl

theorem asks_nothing {calls : List Call} (h : ∀ call ∈ calls, leavesUrl call = true)
    (c : HttpChannel) : asks c calls = some [] := by
  induction calls generalizing c with
  | nil => rfl
  | cons call calls ih =>
    have hcall := h call List.mem_cons_self
    have hnone : Call.asks c call = some [] := by
      cases call with
      | onHeadersComplete m k => cases hcall
      | _ => rfl
    simp [asks, hnone, ih fun x hx => h x (List.mem_cons_of_mem _ hx)]

theorem lines_leave {headers : List (Text × Text)} :
    ∀ call ∈ headers.flatMap lineCalls, leavesUrl call = true := by
  intro call hcall
  obtain ⟨e, -, he⟩ := List.mem_flatMap.mp hcall
  simp only [lineCalls, List.mem_cons, List.not_mem_nil, or_false] at he
  rcases he with rfl | rfl <;> rfl

theorem body_leaves (body : Body) : ∀ call ∈ body.calls, leavesUrl call = true := by
  cases body with
  | none => simp [Body.calls, leavesUrl]
  | sized s =>
    by_cases hempty : s.data = [] <;> simp [Body.calls, leavesUrl, hempty]
  | chunked c =>
    have hchunks : ∀ call ∈ c.chunks.flatMap Chunk.calls, leavesUrl call = true := by
      intro call hcall
      obtain ⟨chunk, -, he⟩ := List.mem_flatMap.mp hcall
      simp only [Chunk.calls, List.mem_cons, List.not_mem_nil, or_false] at he
      rcases he with rfl | rfl | rfl <;> rfl
    intro call hcall
    simp only [Body.calls, List.mem_append, List.mem_cons, List.not_mem_nil, or_false] at hcall
    rcases hcall with (hcall | rfl) | hcall | rfl | rfl
    · exact hchunks call hcall
    · rfl
    · exact lines_leave call hcall
    · rfl
    · rfl

/-- The calls in front of the end of the headers. -/
def headCalls (r : WireRequest) : List Call :=
  .onMessageBegin :: .data .url r.target :: r.headers.flatMap lineCalls

theorem calls_eq (r : WireRequest) :
    r.calls = headCalls r ++ .onHeadersComplete r.method true :: r.body.calls := by
  simp [WireRequest.calls, headCalls]

theorem headCalls_url (r : WireRequest) (hc : c.urlOrStatus = []) :
    (channelAfter c (headCalls r)).urlOrStatus = r.target := by
  have hurl : channelAfter c (headCalls r) =
      channelAfter { c with urlOrStatus := c.urlOrStatus ++ r.target }
        (r.headers.flatMap lineCalls) := rfl
  rw [hurl, channelAfter_url lines_leave]
  simp [hc]

theorem WebRequest.short (r : WebRequest) (h : r.wire.Fits) : r.wire.target.length < 65536 := by
  have hlength : r.wire.target.length ≤ r.wire.head.length := by
    unfold WireRequest.head WireRequest.line
    simp only [List.length_append]
    omega
  have hhead := h.1
  simp only [HTTP_MAX_HEADER_SIZE] at hhead
  omega

theorem asks_request (r : WebRequest) (hfits : r.wire.Fits) (hc : c.urlOrStatus = []) :
    asks c r.wire.calls = some [r.asked] ∧ (channelAfter c r.wire.calls).urlOrStatus = [] := by
  obtain ⟨-, hpath, hquery⟩ := parse_origin r.origin (r.short hfits)
  have hasked : asked (channelAfter c (headCalls r.wire)) r.wire.method true = some r.asked := by
    unfold asked
    simp only [headCalls_url r.wire hc, r.named, hpath, hquery, Option.bind_eq_bind,
      Option.bind_some]
    rfl
  have hfront : asks c (headCalls r.wire) = some [] := by
    unfold headCalls
    simp [asks, Call.asks, asks_nothing lines_leave]
  have hafter : ∀ d : HttpChannel,
      (channelAfter d [.onHeadersComplete r.wire.method true]).urlOrStatus = [] := fun d => rfl
  constructor
  · rw [calls_eq, asks_append, hfront]
    simp [asks, Call.asks, hasked, asks_nothing (body_leaves r.wire.body)]
  · rw [calls_eq, channelAfter_append, channelAfter_cons, channelAfter_url (body_leaves _), hafter]

/-- The callbacks of requests ask for these requests. -/
theorem asks_requests {requests : List WebRequest} (hfits : ∀ r ∈ requests, r.wire.Fits)
    (hc : c.urlOrStatus = []) :
    asks c (requests.flatMap fun r => r.wire.calls) = some (requests.map WebRequest.asked) := by
  induction requests generalizing c with
  | nil => rfl
  | cons r requests ih =>
    obtain ⟨hfirst, hurl⟩ := asks_request r (hfits r (by simp)) hc
    rw [List.flatMap_cons, asks_append, hfirst, Option.bind_some,
      ih (fun x hx => hfits x (by simp [hx])) hurl]
    rfl

theorem asked_of_reads {requests : List WebRequest} {reads : List Text}
    (hfits : ∀ r ∈ requests, r.wire.Fits) (hreads : ∀ data ∈ reads, data ≠ [])
    (hstream : reads.flatten = requests.flatMap WebRequest.encode) :
    ∃ t, run http_execute.onData .new reads = some t ∧ t.errors = [] ∧
      asks .new t.calls = some (requests.map WebRequest.asked) := by
  have hflat : reads.flatten = (requests.map WebRequest.wire).flatMap WireRequest.encode := by
    rw [hstream, List.flatMap_map]
    rfl
  obtain ⟨t, ht, herrors, -, hjoin⟩ := requests_taken (by simpa using hfits) hreads hflat
  refine ⟨t, ht, herrors, ?_⟩
  rw [← asks_join, hjoin, asks_join, List.flatMap_map]
  exact asks_requests hfits rfl

end Requests

end huasi.gateway
