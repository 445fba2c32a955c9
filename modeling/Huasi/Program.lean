-- The program with the serial line under it (src/src/main.cpp): the network behind the gateways
-- is the ZWaveNetwork that its own protocol calls, and what the gateways ask for goes through the
-- queue of that protocol. Whatever happens on the line, the program does what the hub does.
import Huasi.GatewayHub
import Huasi.ZWaveApplication

open huasi.text huasi.runs huasi.serial huasi.network huasi.gateway huasi.application

namespace huasi.program

/-! ## The program -/

/-- The connections with what each of them has sent, and the protocol with the network on it. -/
structure Program (ι : Type) where
  lines : ι → Line
  sent : ι → List Text
  protocol : zwave.ZWaveProtocol (Option ZWaveNetwork)

/-- A connection delivers data, or something happens on the serial line. `sendRequest` is called by
the network alone. -/
inductive Event (ι : Type) where
  | read (i : ι) (data : Text)
  | line (e : zwave.Event) (h : ∀ r, e ≠ .tx (.sendRequest r))

variable {ι : Type}

/-- The connections in front of a network that has enqueued nothing yet. -/
def Program.hub (p : Program ι) (network : ZWaveNetwork) : Hub ι where
  lines := p.lines
  sent := p.sent
  network := network
  enqueued := []

/-- The program after `main` has created the network, whose constructor asks for the nodes. -/
def Program.start (funcId : UInt8) (cancelsQueued : Bool) (network : ZWaveNetwork)
    (txBuffer rxBuffer : zwave.Buffer) : Option (Program ι) :=
  ((zwave.Tx.init (some network) txBuffer).sendRequestPtr ⟨virtuals funcId, cancelsQueued⟩
    zwave.DiscoverNodesRequest).map fun tx => {
      lines := fun _ => .new
      sent := fun _ => []
      protocol := { zwave.init (some network) txBuffer rxBuffer with tx } }

/-- What a read asks for is enqueued before anything else happens. -/
def Program.step [DecidableEq ι] (funcId : UInt8) (cancelsQueued : Bool) (p : Program ι) :
    Event ι → Option (Program ι)
  | .read i data => do
    let network ← p.protocol.tx.app
    let hub ← (p.hub network).step (.read i data)
    let sent ← requests funcId hub.enqueued
    let tx ← p.protocol.tx.answer ⟨virtuals funcId, cancelsQueued⟩ (some hub.network, sent)
    some { lines := hub.lines, sent := hub.sent, protocol := { p.protocol with tx } }
  | .line e _ =>
    (zwave.step ⟨virtuals funcId, cancelsQueued⟩ p.protocol e).map fun protocol =>
      { p with protocol }

/-- What an event brings to the hub: its read, or the frames that the protocol hands on in it. -/
def delivered (p q : Program ι) : Event ι → List (Delivery ι)
  | .read i data => [.read i data]
  | .line _ _ => (frames (q.protocol.tx.log.drop p.protocol.tx.log.length)).map .frame

def deliveries [DecidableEq ι] (funcId : UInt8) (cancelsQueued : Bool) (p : Program ι) :
    List (Event ι) → Option (List (Delivery ι))
  | [] => some []
  | e :: events => do
    let q ← p.step funcId cancelsQueued e
    let more ← deliveries funcId cancelsQueued q events
    some (delivered p q e ++ more)

/-- The program and its hub: the same connections and the same nodes, and every command that the
hub has enqueued was enqueued by the protocol. -/
structure Follows (funcId : UInt8) (p : Program ι) (h : Hub ι) : Prop where
  lines : p.lines = h.lines
  sent : p.sent = h.sent
  network : p.protocol.tx.app = some h.network
  commands : requests funcId h.enqueued = some (commands p.protocol.tx.log)

/-! ## The hub and what it enqueues -/

section Enqueued

/-- Requests are answered whatever was enqueued before. -/
theorem answers_enqueued (before : List SendData) {calls : List http_execute.Call}
    {s t : Served} (h : calls.foldlM Served.call s = some t) :
    calls.foldlM Served.call { s with enqueued := before ++ s.enqueued } =
      some { t with enqueued := before ++ t.enqueued } := by
  induction calls generalizing s with
  | nil =>
    cases h
    rfl
  | cons call calls ih =>
    rw [List.foldlM_cons] at h ⊢
    obtain ⟨u, hu, h⟩ := Option.bind_eq_some_iff.mp h
    have hcall : Served.call { s with enqueued := before ++ s.enqueued } call =
        some { u with enqueued := before ++ u.enqueued } := by
      unfold Served.call at hu ⊢
      cases call with
      | onHeadersComplete method keepAlive =>
        obtain ⟨a, ha, hu⟩ := Option.bind_eq_some_iff.mp hu
        cases hu
        simp [ha, Served.answer]
      | _ =>
        cases hu
        rfl
    rw [hcall]
    exact ih h

variable [DecidableEq ι]

theorem read_enqueued {h k : Hub ι} {i : ι} {data : Text} (before : List SendData)
    (hk : h.step (.read i data) = some k) :
    Hub.step { h with enqueued := before ++ h.enqueued } (.read i data) =
      some { k with enqueued := before ++ k.enqueued } := by
  obtain ⟨c, hc, rfl⟩ := Option.map_eq_some_iff.mp hk
  obtain ⟨r, hr, hc⟩ := Option.bind_eq_some_iff.mp hc
  obtain ⟨served, hserved, hc⟩ := Option.bind_eq_some_iff.mp hc
  cases hc
  have hbefore := answers_enqueued before hserved
  have hconnection : onData (({ h with enqueued := before ++ h.enqueued } : Hub ι).connection i)
      data = some {
        parser := r.parser
        errors := if r.count ≠ data.length then (h.connection i).errors ++ [r.parser.httpErrno]
          else (h.connection i).errors
        served := { served with enqueued := before ++ served.enqueued } } := by
    have hparser : (({ h with enqueued := before ++ h.enqueued } : Hub ι).connection i).parser =
        (h.connection i).parser := rfl
    unfold onData
    rw [hparser, hr]
    simp only [Option.bind_eq_bind, Option.bind_some]
    rw [show (({ h with enqueued := before ++ h.enqueued } : Hub ι).connection i).served =
      { (h.connection i).served with enqueued := before ++ (h.connection i).served.enqueued }
      from rfl, hbefore]
    rfl
  rw [Hub.step, hconnection]
  rfl

/-- The hub handles frames as the nodes do. -/
theorem run_frames {h : Hub ι} {network : ZWaveNetwork} {data : List (List UInt8)}
    {sends : List SendData} (hdata : handled h.network data = some (network, sends)) :
    run Hub.step h (data.map .frame) =
      some { h with network := network, enqueued := h.enqueued ++ sends } := by
  induction data generalizing h sends with
  | nil =>
    cases hdata
    simp [run]
  | cons first data ih =>
    obtain ⟨⟨u, answers⟩, hfirst, hdata⟩ := Option.bind_eq_some_iff.mp hdata
    obtain ⟨⟨v, more⟩, hrest, hdata⟩ := Option.bind_eq_some_iff.mp hdata
    cases hdata
    have hstep : h.step (.frame first) =
        some { h with network := u, enqueued := h.enqueued ++ answers } := by
      simp [Hub.step, hfirst]
    have hnext := @ih { h with network := u, enqueued := h.enqueued ++ answers } more hrest
    simp [run, hstep, hnext]

end Enqueued

/-! ## The program follows its hub -/

section Follows

variable {funcId : UInt8} {cancelsQueued : Bool} {p q : Program ι} {h : Hub ι}

theorem start_follows {network : ZWaveNetwork} {txBuffer rxBuffer : zwave.Buffer}
    (hp : Program.start funcId cancelsQueued network txBuffer rxBuffer = some p) :
    Follows funcId p (.new network) := by
  obtain ⟨tx, htx, rfl⟩ := Option.map_eq_some_iff.mp hp
  rw [zwave.sendRequestPtr_eq] at htx
  cases htx
  exact ⟨rfl, rfl, rfl, rfl⟩

theorem start_frames {network : ZWaveNetwork} {txBuffer rxBuffer : zwave.Buffer}
    (hp : Program.start funcId cancelsQueued network txBuffer rxBuffer = some p) :
    frames p.protocol.tx.log = [] := by
  obtain ⟨tx, htx, rfl⟩ := Option.map_eq_some_iff.mp hp
  rw [zwave.sendRequestPtr_eq] at htx
  cases htx
  rfl

variable [DecidableEq ι]

/-- From a read behind a payload on, the program stays stuck. -/
theorem intact_before {e : Event ι} {network : ZWaveNetwork}
    (hq : p.step funcId cancelsQueued e = some q) (hintact : q.protocol.tx.app = some network) :
    ∃ before, p.protocol.tx.app = some before := by
  cases e with
  | read i data =>
    obtain ⟨before, hbefore, -⟩ := Option.bind_eq_some_iff.mp hq
    exact ⟨before, hbefore⟩
  | line e he =>
    obtain ⟨protocol, hprotocol, rfl⟩ := Option.map_eq_some_iff.mp hq
    obtain ⟨new, -, hall⟩ := line_handles he hprotocol
    obtain ⟨before, sends, hbefore, -⟩ := hall network hintact
    exact ⟨before, hbefore⟩

theorem intact_at_start {events : List (Event ι)} {network : ZWaveNetwork}
    (hq : run (Program.step funcId cancelsQueued) p events = some q)
    (hintact : q.protocol.tx.app = some network) : ∃ before, p.protocol.tx.app = some before := by
  induction events generalizing p with
  | nil =>
    cases hq
    exact ⟨network, hintact⟩
  | cons e events ih =>
    obtain ⟨r, hr, hq⟩ := Option.bind_eq_some_iff.mp hq
    obtain ⟨between, hbetween⟩ := ih hq
    exact intact_before hr hbetween

theorem step_follows {e : Event ι} {network : ZWaveNetwork} (hf : Follows funcId p h)
    (hq : p.step funcId cancelsQueued e = some q) (hintact : q.protocol.tx.app = some network) :
    ∃ k, run Hub.step h (delivered p q e) = some k ∧ Follows funcId q k := by
  obtain ⟨hlines, hsent, hnetwork, hcommands⟩ := hf
  cases e with
  | read i data =>
    obtain ⟨before, hbefore, hq⟩ := Option.bind_eq_some_iff.mp hq
    obtain ⟨k, hk, hq⟩ := Option.bind_eq_some_iff.mp hq
    obtain ⟨sent, hrequests, hq⟩ := Option.bind_eq_some_iff.mp hq
    obtain ⟨tx, htx, hq⟩ := Option.bind_eq_some_iff.mp hq
    cases hq
    obtain rfl : h.network = before := Option.some.inj (hnetwork.symm.trans hbefore)
    have hhub : ({ p.hub h.network with
        enqueued := h.enqueued ++ (p.hub h.network).enqueued } : Hub ι) = h := by
      simp [Program.hub, hlines, hsent]
    have hstep := read_enqueued h.enqueued hk
    rw [hhub] at hstep
    obtain ⟨happ, more, hlog, -, henqueued⟩ := answer_spec htx
    refine ⟨{ k with enqueued := h.enqueued ++ k.enqueued }, ?_, rfl, rfl, happ, ?_⟩
    · simp [delivered, run, hstep]
    have hmore : requests funcId k.enqueued = some (enqueued more) := by rw [hrequests, henqueued]
    rw [hlog, commands_append, commands_requests hmore]
    exact requests_append hcommands hmore
  | line e he =>
    obtain ⟨protocol, hprotocol, rfl⟩ := Option.map_eq_some_iff.mp hq
    obtain ⟨new, hlog, hall⟩ := line_handles he hprotocol
    obtain ⟨before, sends, hbefore, hhandled, hrequests⟩ := hall network hintact
    obtain rfl : h.network = before := Option.some.inj (hnetwork.symm.trans hbefore)
    refine ⟨{ h with network := network, enqueued := h.enqueued ++ sends }, ?_, hlines, hsent,
      hintact, ?_⟩
    · rw [delivered, hlog, List.drop_left]
      exact run_frames hhandled
    · rw [hlog, commands_append]
      exact requests_append hcommands hrequests

/-- In every run, the hub that gets the reads and the frames that the protocol hands on, event by
event, is where the program is. -/
theorem run_follows_hub {events : List (Event ι)} {network : ZWaveNetwork}
    (hf : Follows funcId p h) (hq : run (Program.step funcId cancelsQueued) p events = some q)
    (hintact : q.protocol.tx.app = some network) :
    ∃ brought k, deliveries funcId cancelsQueued p events = some brought ∧
      run Hub.step h brought = some k ∧ Follows funcId q k := by
  induction events generalizing p h with
  | nil =>
    cases hq
    exact ⟨[], h, rfl, rfl, hf⟩
  | cons e events ih =>
    obtain ⟨r, hr, hq⟩ := Option.bind_eq_some_iff.mp hq
    obtain ⟨between, hbetween⟩ := intact_at_start hq hintact
    obtain ⟨k, hk, hfollows⟩ := step_follows hf hr hbetween
    obtain ⟨brought, l, hbrought, hl, hlast⟩ := ih hfollows hq
    refine ⟨delivered p r e ++ brought, l, by simp [deliveries, hr, hbrought], ?_, hlast⟩
    rw [run_append, hk]
    exact hl

/-- What each connection delivers. -/
def reads (i : ι) (events : List (Event ι)) : List Text :=
  events.filterMap fun
    | .read j data => if j = i then some data else none
    | .line _ _ => none

/-- The hub gets the reads of each connection as they came. -/
theorem received_reads {events : List (Event ι)} {brought : List (Delivery ι)}
    (h : deliveries funcId cancelsQueued p events = some brought) (i : ι) :
    received (some i) brought = reads i events := by
  induction events generalizing p brought with
  | nil =>
    cases h
    rfl
  | cons e events ih =>
    obtain ⟨r, -, h⟩ := Option.bind_eq_some_iff.mp h
    obtain ⟨more, hmore, h⟩ := Option.bind_eq_some_iff.mp h
    cases h
    have hrest := ih hmore
    unfold received at hrest ⊢
    rw [List.map_append, part_append, hrest]
    cases e with
    | read j data =>
      by_cases hji : j = i
      · simp [delivered, Delivery.event, part, reads, hji]
      · simp [delivered, Delivery.event, part, reads, hji]
    | line e he =>
      have hnone : part (some i) ((delivered p r (.line e he)).map Delivery.event) = [] := by
        simp [delivered, Delivery.event, part]
      rw [hnone]
      rfl

theorem step_frames {e : Event ι} (hq : p.step funcId cancelsQueued e = some q) :
    frames q.protocol.tx.log =
      frames p.protocol.tx.log ++ received none (delivered p q e) := by
  cases e with
  | read i data =>
    obtain ⟨network, -, hq⟩ := Option.bind_eq_some_iff.mp hq
    obtain ⟨k, -, hq⟩ := Option.bind_eq_some_iff.mp hq
    obtain ⟨sent, -, hq⟩ := Option.bind_eq_some_iff.mp hq
    obtain ⟨tx, htx, hq⟩ := Option.bind_eq_some_iff.mp hq
    cases hq
    obtain ⟨-, more, hlog, hframes, -⟩ := answer_spec htx
    rw [hlog, frames_append, hframes]
    rfl
  | line e he =>
    obtain ⟨protocol, hprotocol, rfl⟩ := Option.map_eq_some_iff.mp hq
    obtain ⟨new, hlog, -⟩ := line_handles he hprotocol
    rw [delivered, hlog, frames_append, List.drop_left]
    simp [received, part, Delivery.event, Function.comp_def]

/-- The hub gets the frames that the protocol hands on, as it does. -/
theorem received_frames {events : List (Event ι)} {brought : List (Delivery ι)}
    (hq : run (Program.step funcId cancelsQueued) p events = some q)
    (h : deliveries funcId cancelsQueued p events = some brought) :
    frames q.protocol.tx.log = frames p.protocol.tx.log ++ received none brought := by
  induction events generalizing p brought with
  | nil =>
    cases hq
    cases h
    exact (List.append_nil _).symm
  | cons e events ih =>
    obtain ⟨r, hr, h⟩ := Option.bind_eq_some_iff.mp h
    obtain ⟨more, hmore, h⟩ := Option.bind_eq_some_iff.mp h
    cases h
    rw [run, hr, Option.bind_some] at hq
    have hreceived : received none (delivered p r e ++ more) =
        received none (delivered p r e) ++ received none more := by
      unfold received
      rw [List.map_append, part_append]
    rw [ih hq hmore, step_frames hr, hreceived, List.append_assoc]

end Follows

/-! ## Nothing is too long for the controller -/

section Short

theorem outcome_short (a : Asked) (network : ZWaveNetwork) :
    ∀ d ∈ (a.outcome network).enqueued, Short d.data := by
  show ∀ d ∈ (onRequest network a.method a.path a.query a.keepAlive).enqueued, Short d.data
  unfold onRequest
  cases nodeOf a.path with
  | none => simp [notFound]
  | some nodeId =>
    simp only
    split
    · cases hset : network.sendSet nodeId (parseQuery a.query) with
      | none => simp [notFound]
      | some r => exact sendSet_all_short hset
    · split
      · cases network.get nodeId .empty <;> simp [notFound]
      · simp [notFound]

variable [DecidableEq ι] {funcId : UInt8} {cancelsQueued : Bool} {p : Program ι}

theorem read_short {h k : Hub ι} {i : ι} {data : Text} (hshort : ∀ d ∈ h.enqueued, Short d.data)
    (hk : h.step (.read i data) = some k) : ∀ d ∈ k.enqueued, Short d.data := by
  obtain ⟨c, hc, rfl⟩ := Option.map_eq_some_iff.mp hk
  obtain ⟨r, -, hc⟩ := Option.bind_eq_some_iff.mp hc
  obtain ⟨served, hserved, hc⟩ := Option.bind_eq_some_iff.mp hc
  cases hc
  refine foldlM_keeps (P := fun s => ∀ d ∈ s.enqueued, Short d.data) ?_ hserved hshort
  intro s call t hs ht
  unfold Served.call at ht
  cases call with
  | onHeadersComplete method keepAlive =>
    obtain ⟨a, -, ht⟩ := Option.bind_eq_some_iff.mp ht
    cases ht
    intro d hd
    exact (List.mem_append.mp hd).elim (hs d) (outcome_short a s.network d)
  | _ =>
    cases ht
    exact hs

/-- A read that the gateway can handle goes through the protocol. -/
theorem read_goes_on {network : ZWaveNetwork} {i : ι} {data : Text} {k : Hub ι}
    (hintact : p.protocol.tx.app = some network)
    (hk : (p.hub network).step (.read i data) = some k) :
    ∃ q, p.step funcId cancelsQueued (.read i data) = some q ∧
      q.protocol.tx.app = some k.network := by
  obtain ⟨sent, hsent⟩ := requests_some funcId
    (read_short (show ∀ d ∈ (p.hub network).enqueued, Short d.data by simp [Program.hub]) hk)
  obtain ⟨tx, htx⟩ := zwave.answer_some ⟨virtuals funcId, cancelsQueued⟩ p.protocol.tx
    (some k.network, sent)
  exact ⟨_, by simp [Program.step, hintact, hk, hsent, htx]; rfl, (answer_spec htx).1⟩

end Short

/-! ## The whole program -/

/-- Connections on which requests arrive in any reads, with anything on the serial line in between:
as long as no discovery reads behind its payload, the connections and the frames that the protocol
hands on are served one at a time, and every command goes into the queue of the protocol. -/
theorem program_serialized [DecidableEq ι] {funcId : UInt8} {cancelsQueued : Bool}
    {p q : Program ι} {network last : ZWaveNetwork} {txBuffer rxBuffer : zwave.Buffer}
    {requests : ι → List WebRequest} {events : List (Event ι)} (hnetwork : network.Fits)
    (hp : Program.start funcId cancelsQueued network txBuffer rxBuffer = some p)
    (hq : run (Program.step funcId cancelsQueued) p events = some q)
    (hintact : q.protocol.tx.app = some last) (hfits : ∀ i, ∀ r ∈ requests i, r.wire.Fits)
    (hreads : ∀ i, ∀ data ∈ reads i events, data ≠ [])
    (hstream : ∀ i, (reads i events).flatten = (requests i).flatMap WebRequest.encode) :
    ∃ brought h accesses replies,
      deliveries funcId cancelsQueued p events = some brought ∧
      received none brought = frames q.protocol.tx.log ∧ Follows funcId q h ∧
      Serialized network requests brought h accesses replies := by
  obtain ⟨brought, h, hbrought, hh, hfollows⟩ := run_follows_hub (start_follows hp) hq hintact
  have hreads' : ∀ i, ∀ data ∈ received (some i) brought, data ≠ [] := fun i => by
    rw [received_reads hbrought]
    exact hreads i
  have hstream' : ∀ i, (received (some i) brought).flatten =
      (requests i).flatMap WebRequest.encode := fun i => by
    rw [received_reads hbrought]
    exact hstream i
  obtain ⟨k, accesses, replies, hall⟩ := exists_serialized hnetwork hfits hreads' hstream'
  obtain rfl : h = k := Option.some.inj (hh.symm.trans hall.ran)
  refine ⟨brought, h, accesses, replies, hbrought, ?_, hfollows, hall⟩
  rw [received_frames hq hbrought, start_frames hp, List.nil_append]

/-- A report of the dimmer in the middle of a GET. -/
def reportInGet : List (Event Bool) :=
  [.read true (ascii "GET /no"),
    .line (.read [0x01, 0x09, 0x00, 0x04, 0x00, 0x05, 0x03, 0x20, 0x03, 0x0a, 0xdd]) (by simp),
    .read true (ascii "de/5 HTTP/1.1\r\n\r\n")]

example : ((Program.start 0 false dimmers .zeros .zeros).bind fun p =>
      run (Program.step 0 false) p reportInGet).map (fun q => (q.sent true).drop 1) =
    some [ascii "dim=10&node.name="] := by
  decide +kernel

end huasi.program
