-- The whole program (src/src/main.cpp): a gateway for each connection and one network behind all
-- of them, to which the controller brings frames. Whatever order the reads come in, the requests
-- of all connections and the frames have one order in which the network handles them.
import Huasi.GatewayConnection
import Huasi.GatewayEcho
import Huasi.Serial
import Huasi.ZWaveReports

open huasi.text huasi.decimal huasi.runs huasi.serial huasi.sorted_map huasi.network
open huasi.http_channel huasi.http_execute

namespace huasi.gateway

/-! ## The program -/

/-- A connection without the network behind it. -/
structure Line where
  parser : HttpParser
  errors : List Errno
  channel : HttpChannel
deriving DecidableEq

def Line.new : Line where
  parser := .init
  errors := []
  channel := .new

/-- The connections with what each of them has sent, the network, and the requests for the
controller. -/
structure Hub (ι : Type) where
  lines : ι → Line
  sent : ι → List Text
  network : ZWaveNetwork
  enqueued : List SendData

def Hub.new {ι : Type} (network : ZWaveNetwork) : Hub ι where
  lines _ := .new
  sent _ := []
  network := network
  enqueued := []

/-- A connection delivers data, or the controller a frame. -/
inductive Delivery (ι : Type) where
  | read (i : ι) (data : Text)
  | frame (data : List UInt8)

/-! ## The machines of the program -/

section Machines

variable {ι : Type}

/-- What the network is asked to do. -/
inductive Access where
  | asked (a : Asked)
  | frame (data : List UInt8)

/-- The connections are machines, and the serial line of the controller is one more. -/
def Delivery.event : Delivery ι → Option ι × List UInt8
  | .read i data => (some i, data)
  | .frame data => (none, data)

/-- A read of a connection with the requests in it, or a frame. -/
def turn : Option ι → Line → List UInt8 → Option (Line × List Access)
  | some _, l, data => do
    let r ← execute l.parser data
    let as ← asks l.channel r.calls
    some ({
      parser := r.parser
      errors := if r.count ≠ data.length then l.errors ++ [r.parser.httpErrno] else l.errors
      channel := channelAfter l.channel r.calls }, as.map .asked)
  | none, l, data => some (l, [.frame data])

/-- What the controller is asked for, and what is sent in return. -/
abbrev Reply := List SendData × List Text

def Access.act (network : ZWaveNetwork) : Access → Option (ZWaveNetwork × Reply)
  | .asked a =>
    some ((a.outcome network).network, (a.outcome network).enqueued, (a.outcome network).sent)
  | .frame data => (network.onRequest data).map fun r => (r.1, r.2, [])

theorem alone_frames (l : Line) (frames : List (List UInt8)) :
    alone turn (none : Option ι) l frames = some (l, frames.map .frame) := by
  induction frames with
  | nil => rfl
  | cons data frames ih => simp [alone, turn, ih]

/-- A connection whose reads are known. -/
theorem alone_reads {i : ι} {l : Line} {reads : List Text} {calls more : List Call} {t : Input}
    {as : List Asked} (hrun : run http_execute.onData ⟨l.parser, calls, l.errors⟩ reads = some t)
    (hmore : t.calls = calls ++ more) (hasks : asks l.channel more = some as) :
    alone turn (some i) l reads =
      some (⟨t.parser, t.errors, channelAfter l.channel more⟩, as.map .asked) := by
  induction reads generalizing l calls more as with
  | nil =>
    cases hrun
    obtain rfl : more = [] := by simpa using hmore
    cases hasks
    rfl
  | cons data reads ih =>
    obtain ⟨j, hj, hrun⟩ := Option.bind_eq_some_iff.mp hrun
    obtain ⟨r, hr, hset⟩ := Option.bind_eq_some_iff.mp hj
    cases hset
    obtain ⟨rest, hrest, -⟩ := run_calls hrun
    have hsplit : more = r.calls ++ rest := by
      rw [hrest, List.append_assoc] at hmore
      exact (List.append_cancel_left hmore).symm
    rw [hsplit, asks_append] at hasks
    obtain ⟨first, hfirst, hasks⟩ := Option.bind_eq_some_iff.mp hasks
    obtain ⟨next, hnext, rfl⟩ := Option.map_eq_some_iff.mp hasks
    have hlater := @ih ⟨r.parser,
      if r.count ≠ data.length then l.errors ++ [r.parser.httpErrno] else l.errors,
      channelAfter l.channel r.calls⟩ _ _ _ hrun hrest hnext
    have hturn : turn (some i) l data = some (⟨r.parser,
        if r.count ≠ data.length then l.errors ++ [r.parser.httpErrno] else l.errors,
        channelAfter l.channel r.calls⟩, first.map .asked) := by
      simp only [turn, show execute l.parser data = some r from hr, hfirst, Option.bind_eq_bind,
        Option.bind_some]
    rw [hsplit, channelAfter_append]
    simp only [alone, hturn, hlater, Option.bind_eq_bind, Option.bind_some, List.map_append]

/-- What happens to the nodes. -/
def Access.event : Access → Option network.Event
  | .asked a =>
    if a.method = .POST then (nodeOf a.path).map fun nodeId => .post nodeId (parseQuery a.query)
    else none
  | .frame data => some (.request data)

end Machines

/-! ## The steps of the program -/

section Program

variable {ι : Type} [DecidableEq ι]

/-- A connection as its gateway sees it. -/
def Hub.connection (h : Hub ι) (i : ι) : Connection where
  parser := (h.lines i).parser
  errors := (h.lines i).errors
  served := {
    channel := (h.lines i).channel
    network := h.network
    enqueued := h.enqueued
    sent := h.sent i }

def Hub.set (h : Hub ι) (i : ι) (c : Connection) : Hub ι where
  lines := Function.update h.lines i ⟨c.parser, c.errors, c.served.channel⟩
  sent := Function.update h.sent i c.served.sent
  network := c.served.network
  enqueued := c.served.enqueued

def Hub.step (h : Hub ι) : Delivery ι → Option (Hub ι)
  | .read i data => (onData (h.connection i) data).map fun c => h.set i c
  | .frame data => (h.network.onRequest data).map fun r =>
    { h with network := r.1, enqueued := h.enqueued ++ r.2 }

/-- The program and its machines. -/
structure Shows (h : Hub ι) (s : Shared (Option ι) Line ZWaveNetwork Reply) :
    Prop where
  lines : ∀ i, s.locals (some i) = h.lines i
  sent : ∀ i, h.sent i = (part (some i) s.replies).flatMap Prod.snd
  network : s.store = h.network
  enqueued : h.enqueued = s.replies.flatMap fun r => r.2.1

/-- The answers to the requests of a read. -/
theorem serve_answers {as : List Asked} {i : Option ι} {v w : ZWaveNetwork}
    {replies : List (Option ι × Reply)} (c : HttpChannel)
    (enqueued : List SendData) (sent : List Text)
    (h : serve Access.act v (tag i (as.map .asked)) = some (w, replies)) :
    as.foldl Served.answer ⟨c, v, enqueued, sent⟩ =
        ⟨c, w, enqueued ++ replies.flatMap fun r => r.2.1,
          sent ++ (part i replies).flatMap Prod.snd⟩ ∧
      ∀ j ≠ i, part j replies = [] := by
  induction as generalizing v enqueued sent replies with
  | nil =>
    cases h
    simp [part]
  | cons a as ih =>
    obtain ⟨⟨x, more⟩, hrest, h⟩ := Option.bind_eq_some_iff.mp h
    cases h
    obtain ⟨hanswers, hother⟩ := ih (enqueued ++ (a.outcome v).enqueued)
      (sent ++ (a.outcome v).sent) hrest
    refine ⟨?_, fun j hj => ?_⟩
    · rw [part_cons, if_pos rfl]
      simpa [Served.answer] using hanswers
    · rw [part_cons, if_neg (Ne.symm hj)]
      exact hother j hj

/-- The program does what its machines do. -/
theorem hub_step (h : Hub ι)
    (s : Shared (Option ι) Line ZWaveNetwork Reply) (e : Delivery ι)
    (t : Shared (Option ι) Line ZWaveNetwork Reply) (hshows : Shows h s)
    (ht : serial.step turn Access.act s e.event = some t) :
    ∃ h', h.step e = some h' ∧ Shows h' t := by
  obtain ⟨hlines, hsent, hnetwork, henqueued⟩ := hshows
  obtain ⟨⟨l, as⟩, hturn, ht⟩ := Option.bind_eq_some_iff.mp ht
  obtain ⟨⟨v, replies⟩, hserve, ht⟩ := Option.bind_eq_some_iff.mp ht
  cases ht
  cases e with
  | read i data =>
    simp only [Delivery.event] at hturn hserve ⊢
    obtain ⟨r, hr, hturn⟩ := Option.bind_eq_some_iff.mp hturn
    obtain ⟨asked, hasks, hturn⟩ := Option.bind_eq_some_iff.mp hturn
    cases hturn
    rw [hlines] at hr hasks
    rw [hnetwork] at hserve
    obtain ⟨hanswers, hother⟩ := serve_answers (h.lines i).channel h.enqueued (h.sent i) hserve
    have hserved := @foldlM_asks (h.connection i).served r.calls asked hasks
    have hdata : onData (h.connection i) data = some
        { parser := r.parser
          errors := if r.count ≠ data.length then (h.lines i).errors ++ [r.parser.httpErrno]
            else (h.lines i).errors
          served := {
            channel := channelAfter (h.lines i).channel r.calls
            network := v
            enqueued := h.enqueued ++ replies.flatMap fun r => r.2.1
            sent := h.sent i ++ (part (some i) replies).flatMap Prod.snd } } := by
      unfold onData
      rw [show (h.connection i).parser = (h.lines i).parser from rfl, hr]
      simp only [Option.bind_eq_bind, Option.bind_some, hserved]
      rw [show (h.connection i).served =
        ⟨(h.lines i).channel, h.network, h.enqueued, h.sent i⟩ from rfl, hanswers]
      rfl
    refine ⟨_, by rw [Hub.step, hdata]; rfl, fun j => ?_, fun j => ?_, rfl, ?_⟩
    · by_cases hij : j = i
      · subst hij
        simp [Hub.set, hlines]
      · simp [Hub.set, hij, hlines]
    · by_cases hij : j = i
      · subst hij
        simp [Hub.set, hsent]
      · have hnone := hother (some j) (by simpa using hij)
        simp [Hub.set, hij, hsent, hnone]
    · simp [Hub.set, henqueued]
  | frame data =>
    cases hturn
    obtain ⟨⟨u, r⟩, hact, hserve⟩ := Option.bind_eq_some_iff.mp hserve
    cases hserve
    obtain ⟨⟨w, sends⟩, hrequest, heq⟩ := Option.map_eq_some_iff.mp hact
    cases heq
    rw [hnetwork] at hrequest
    have hstep : h.step (.frame data) =
        some { h with network := w, enqueued := h.enqueued ++ sends } := by
      have hrequest : h.network.onRequest data = some (w, sends) := hrequest
      simp [Hub.step, hrequest]
    refine ⟨_, hstep, fun j => ?_, fun j => ?_, rfl, ?_⟩
    · simp [Delivery.event, hlines]
    · simp [Delivery.event, hsent, part]
    · simp [henqueued]

/-! ## The order of the requests -/

theorem act_fits (network : ZWaveNetwork) (a : Access) (h : network.Fits) :
    ∃ r, a.act network = some r ∧ r.1.Fits := by
  cases a with
  | asked a =>
    refine ⟨_, rfl, ?_⟩
    show (onRequest network a.method a.path a.query a.keepAlive).network.Fits
    unfold onRequest
    cases nodeOf a.path with
    | none => exact h
    | some nodeId =>
      simp only
      split
      · cases hset : network.sendSet nodeId (parseQuery a.query) with
        | none => exact h
        | some r =>
          have hpost : huasi.network.step network (.post nodeId (parseQuery a.query)) =
              some r.1 := by
            simp [huasi.network.step, hset]
          exact post_fits h hpost
      · split
        · cases network.get nodeId .empty <;> exact h
        · exact h
  | frame data =>
    obtain ⟨t, sent, ht, hfits, -⟩ := onRequest_fits h data
    exact ⟨(t, sent, []), by simp [Access.act, ht], hfits⟩

/-- The data of a connection, or of the serial line. -/
def received (i : Option ι) (events : List (Delivery ι)) : List (List UInt8) :=
  part i (events.map Delivery.event)

theorem hub_run {network : ZWaveNetwork} (hfits : network.Fits) {events : List (Delivery ι)}
    {ends : Option ι → Line × List Access}
    (halone : ∀ i, alone turn i .new (received i events) = some (ends i)) :
    ∃ h blocks replies, run Hub.step (.new network) events = some h ∧
      blocksOf turn (fun _ => .new) (events.map Delivery.event) = some blocks ∧
      (∀ i, h.lines i = (ends (some i)).1) ∧
      (∀ i, part i (order (events.map Delivery.event) blocks) = (ends i).2) ∧
      serve Access.act network (order (events.map Delivery.event) blocks) =
        some (h.network, replies) ∧
      h.enqueued = (replies.flatMap fun r => r.2.1) ∧
      ∀ i, h.sent i = (part (some i) replies).flatMap Prod.snd := by
  have hstart : Shows (.new network) ⟨fun _ : Option ι => Line.new, network, []⟩ :=
    ⟨fun _ => rfl, fun _ => rfl, rfl, rfl⟩
  obtain ⟨t, blocks, replies, hrun, hblocks, hparts, hserve, hreplies⟩ := run_serial act_fits
    (s := ⟨fun _ : Option ι => Line.new, network, []⟩) hfits halone
  obtain ⟨h, hh, hshows⟩ := run_follows Delivery.event hub_step hstart hrun
  obtain ⟨hlines, hsent, hnetwork, henqueued⟩ := hshows
  rw [List.nil_append] at hreplies
  rw [hreplies] at hsent henqueued
  rw [hnetwork] at hserve
  exact ⟨h, blocks, replies, hh, hblocks, fun i => (hlines i).symm.trans (hparts (some i)).1,
    fun i => (hparts i).2, hserve, henqueued, hsent⟩

/-- What the machines do alone, where each connection receives requests. -/
theorem alone_requests {requests : ι → List WebRequest} {events : List (Delivery ι)}
    (hfits : ∀ i, ∀ r ∈ requests i, r.wire.Fits)
    (hreads : ∀ i, ∀ data ∈ received (some i) events, data ≠ [])
    (hstream : ∀ i, (received (some i) events).flatten = (requests i).flatMap WebRequest.encode) :
    ∃ ends : Option ι → Line × List Access,
      (∀ i, alone turn i .new (received i events) = some (ends i)) ∧
      (∀ i, (ends (some i)).1.errors = [] ∧
        (ends (some i)).2 = (requests i).map fun r => .asked r.asked) ∧
      (ends none).2 = (received none events).map .frame := by
  have hall : ∀ i : Option ι, ∃ e, alone turn i .new (received i events) = some e ∧
      match i with
      | some i => e.1.errors = [] ∧ e.2 = (requests i).map fun r => .asked r.asked
      | none => e.2 = (received none events).map .frame := by
    intro i
    cases i with
    | some i =>
      obtain ⟨t, ht, herrors, hasks⟩ := asked_of_reads (hfits i) (hreads i) (hstream i)
      refine ⟨_, alone_reads (l := .new) ht (List.nil_append _).symm hasks, herrors, ?_⟩
      simp
    | none => exact ⟨_, alone_frames _ _, rfl⟩
  choose ends halone hends using hall
  exact ⟨ends, halone, fun i => hends (some i), hends none⟩

/-- The program has handled the events one at a time. `accesses` are the requests that each event
completes and the frames, event by event, and `replies` are what the network gave for them. -/
structure Serialized (network : ZWaveNetwork) (requests : ι → List WebRequest)
    (events : List (Delivery ι)) (h : Hub ι) (accesses : List (Option ι × Access))
    (replies : List (Option ι × Reply)) : Prop where
  ran : run Hub.step (.new network) events = some h
  /-- Each event makes the accesses that its own turn makes. -/
  turns : ∃ blocks, blocksOf turn (fun _ => .new) (events.map Delivery.event) = some blocks ∧
    accesses = order (events.map Delivery.event) blocks
  /-- The requests of a connection stand as they were sent. -/
  asked : ∀ i, (h.lines i).errors = [] ∧
    part (some i) accesses = (requests i).map fun r => .asked r.asked
  /-- The frames stand as they came. -/
  frames : part none accesses = (received none events).map .frame
  served : serve Access.act network accesses = some (h.network, replies)
  enqueued : h.enqueued = replies.flatMap fun r => r.2.1
  /-- Each connection is sent what its own requests got. -/
  sent : ∀ i, h.sent i = (part (some i) replies).flatMap Prod.snd

theorem exists_serialized {network : ZWaveNetwork} {requests : ι → List WebRequest}
    {events : List (Delivery ι)} (hnetwork : network.Fits)
    (hfits : ∀ i, ∀ r ∈ requests i, r.wire.Fits)
    (hreads : ∀ i, ∀ data ∈ received (some i) events, data ≠ [])
    (hstream : ∀ i, (received (some i) events).flatten = (requests i).flatMap WebRequest.encode) :
    ∃ h accesses replies, Serialized network requests events h accesses replies := by
  obtain ⟨ends, halone, hends, hframes⟩ := alone_requests hfits hreads hstream
  obtain ⟨h, blocks, replies, hh, hblocks, hlines, hparts, hserve, henqueued, hsent⟩ :=
    hub_run hnetwork halone
  refine ⟨h, _, replies, hh, ⟨blocks, hblocks, rfl⟩, fun i => ?_, by rw [hparts, hframes], hserve,
    henqueued, hsent⟩
  rw [hlines, hparts]
  exact hends i

end Program

section Program

variable {ι : Type} [DecidableEq ι]

end Program

end huasi.gateway
