-- ZWaveNetwork as the application of its own protocol (src/src/zwave/ZWaveNetwork.cpp): the
-- virtual functions that it overrides. Whatever happens on the serial line, the nodes see only the
-- frames that the protocol hands on, and every command that answers one is enqueued.
import Huasi.ZWaveCommands
import Huasi.ZWaveDiscovery
import Huasi.ZWaveSteps

open huasi.runs huasi.zwave huasi.network

namespace huasi.application

/-! ## The virtual functions -/

/-- The request object of a command. `funcId` is what a new object happens to hold. -/
def request (funcId : UInt8) (d : SendData) : Option Request :=
  if h : d.data.length ≤ 247 then some (SendDataRequest d.nodeId d.data h funcId) else none

def requests (funcId : UInt8) (sends : List SendData) : Option (List Request) :=
  sends.mapM (request funcId)

/-- The state after a callback, which is `none` from a read behind a payload on. -/
def returned : Option (ZWaveNetwork × List Request) → Option ZWaveNetwork × List Request
  | some (network, sent) => (some network, sent)
  | none => (none, [])

/-- What `ZWaveNetwork` and its requests override. The other functions only print. -/
def virtuals (funcId : UInt8) : Application (Option ZWaveNetwork) where
  onResponse network e data length :=
    -- the function of a `DiscoverNodesRequest`, and of no other request
    if e.request.function = SERIAL_API_GET_INIT_DATA then
      returned do
        let network ← network
        let sent ← DiscoverNodesRequest.onResponse data length
        some (network, sent)
    else (network, [])
  onSendRequest network _ _ _ := (network, [])
  -- `length` is the length of `data`, or it is negative and there is no data
  onRequest network data _ :=
    returned do
      let network ← network
      let (network, sends) ← network.onRequest data
      let sent ← requests funcId sends
      some (network, sent)
  onError network _ := (network, [])

/-! ## What the log tells -/

/-- The frames that were handed to the network. -/
def frames (l : List Effect) : List (List UInt8) :=
  l.filterMap fun
    | .onRequest data _ => some data
    | _ => none

def enqueued (l : List Effect) : List Request :=
  l.filterMap fun
    | .enqueue _ r => some r
    | _ => none

/-- The commands that were enqueued. -/
def commands (l : List Effect) : List Request :=
  (enqueued l).filter fun r => r.function = ZW_SEND_DATA

@[simp] theorem frames_append (l m : List Effect) : frames (l ++ m) = frames l ++ frames m :=
  List.filterMap_append

@[simp] theorem enqueued_append (l m : List Effect) :
    enqueued (l ++ m) = enqueued l ++ enqueued m := List.filterMap_append

@[simp] theorem commands_append (l m : List Effect) :
    commands (l ++ m) = commands l ++ commands m := by
  unfold commands
  rw [enqueued_append, List.filter_append]

/-- A callback that returned: its state, and its requests in the log. -/
theorem answer_spec {σ : Type} {env : Env σ} {s s' : Tx σ} {out : σ × List Request}
    (h : s.answer env out = some s') :
    s'.app = out.1 ∧ ∃ more, s'.log = s.log ++ more ∧ frames more = [] ∧ enqueued more = out.2 := by
  obtain ⟨app, sent⟩ := out
  unfold Tx.answer at h
  suffices ∀ t : Tx σ, sent.foldlM (Tx.sendRequestPtr env) t = some s' →
      s'.app = t.app ∧ ∃ more, s'.log = t.log ++ more ∧ frames more = [] ∧ enqueued more = sent from
    this _ h
  clear h
  induction sent with
  | nil =>
    intro t ht
    cases ht
    exact ⟨rfl, [], (List.append_nil _).symm, rfl, rfl⟩
  | cons r sent ih =>
    intro t ht
    rw [List.foldlM_cons, sendRequestPtr_eq, Option.bind_eq_bind, Option.bind_some] at ht
    obtain ⟨happ, more, hlog, hframes, henqueued⟩ := ih _ ht
    by_cases hr : t.requests = []
    · rw [if_pos hr] at happ hlog
      rw [transmit_log, push_log, List.append_assoc, List.append_assoc] at hlog
      refine ⟨happ, _, hlog, ?_, ?_⟩
      · rw [frames_append, frames_append, hframes]
        rfl
      · rw [enqueued_append, enqueued_append, henqueued]
        rfl
    · rw [if_neg hr] at happ hlog
      rw [push_log, List.append_assoc] at hlog
      refine ⟨happ, _, hlog, ?_, ?_⟩
      · rw [frames_append, hframes]
        rfl
      · rw [enqueued_append, henqueued]
        rfl

/-! ## Every command fits its request -/

/-- A command that `getRequest` has room for. -/
def Short (data : List UInt8) : Prop := data.length ≤ 247

theorem sendGet_short (c : Command) : ∀ data ∈ c.sendGet, Short data := by
  cases c <;> simp [Command.sendGet, Short]

theorem sendSet_short (p : Parameters) (c : Command) : ∀ data ∈ (c.sendSet p).2, Short data := by
  cases c with
  | config | manufacturerSpecific => simp [Command.sendSet]
  | basic | fibaroFgr222 =>
    unfold Command.sendSet
    dsimp only
    split_ifs <;> simp [Short]
  | fibaroFgr222Config =>
    unfold Command.sendSet
    dsimp only
    split
    · simp [Short, sendWord]
    · dsimp only
      split_ifs <;> simp [Short, sendByte]

theorem onCommand_short {c : Command} {k : UInt8} {node node' : Node} {data : List UInt8}
    {sent : List (List UInt8)} (h : c.onCommand k node data = some (node', sent)) :
    ∀ data ∈ sent, Short data := by
  cases c with
  | basic value =>
    obtain ⟨_, hnode, -⟩ := onCommand_basic value k node data
    rw [hnode] at h
    cases h
    simp
  | config =>
    obtain ⟨report, -, heq⟩ := Option.map_eq_some_iff.mp h
    cases heq
    simp
  | fibaroFgr222 blinds slat =>
    obtain ⟨_, hnode, -⟩ := onCommand_fibaroFgr222 blinds slat k node data
    rw [hnode] at h
    cases h
    simp
  | fibaroFgr222Config slatTime =>
    obtain ⟨_, hnode, -⟩ := onCommand_fibaroFgr222Config slatTime node data k
    rw [hnode] at h
    cases h
    simp
  | manufacturerSpecific manufacturer product id =>
    simp only [Command.onCommand] at h
    split at h
    · obtain ⟨b2, -, h⟩ := Option.bind_eq_some_iff.mp h
      obtain ⟨b3, -, h⟩ := Option.bind_eq_some_iff.mp h
      obtain ⟨b4, -, h⟩ := Option.bind_eq_some_iff.mp h
      obtain ⟨b5, -, h⟩ := Option.bind_eq_some_iff.mp h
      obtain ⟨b6, -, h⟩ := Option.bind_eq_some_iff.mp h
      obtain ⟨b7, -, h⟩ := Option.bind_eq_some_iff.mp h
      simp only [Node.identify, Option.pure_def, Option.some.injEq] at h
      split at h
      · cases h
        intro data hdata
        exact (List.mem_append.mp hdata).elim (sendGet_short _ data) (sendGet_short _ data)
      · cases h
        simp
    · cases h
      simp

theorem sender_short {nodeId : UInt8} {sent : List (List UInt8)} (h : ∀ data ∈ sent, Short data) :
    ∀ d ∈ sender nodeId sent, Short d.data := by
  intro d hd
  obtain ⟨data, hdata, rfl⟩ := List.mem_map.mp hd
  exact h data hdata

/-- What answers a frame. -/
theorem onRequest_short {s t : ZWaveNetwork} {data : List UInt8} {sends : List SendData}
    (h : s.onRequest data = some (t, sends)) : ∀ d ∈ sends, Short d.data := by
  rcases onRequest_cases s data with ⟨m, k, command, -, hreq⟩ | ⟨-, m, -, -, hreq⟩ | ⟨-, hreq⟩
  · rw [hreq] at h
    split at h
    · obtain ⟨⟨node, sent⟩, hcommand, heq⟩ := Option.map_eq_some_iff.mp h
      cases heq
      exact sender_short (onCommand_short hcommand)
    · cases h
      simp
  · rw [hreq, ZWaveNetwork.updateNode, if_pos (classList_length_le data)] at h
    cases h
    refine sender_short fun data hdata => ?_
    obtain ⟨e, -, he⟩ := List.mem_flatMap.mp hdata
    exact sendGet_short e.2 data he
  · rw [hreq] at h
    cases h
    simp

/-- What a POST sends. -/
theorem sendSet_all_short {s t : ZWaveNetwork} {nodeId : Nat} {p : Parameters}
    {sends : List SendData} (h : s.sendSet nodeId p = some (t, sends)) :
    ∀ d ∈ sends, Short d.data := by
  unfold ZWaveNetwork.sendSet at h
  simp only at h
  split_ifs at h
  cases h
  refine sender_short fun data hdata => ?_
  obtain ⟨e, -, he⟩ := List.mem_flatMap.mp hdata
  exact sendSet_short p e.2 data he

theorem requests_some (funcId : UInt8) {sends : List SendData} (h : ∀ d ∈ sends, Short d.data) :
    ∃ sent, requests funcId sends = some sent := by
  induction sends with
  | nil => exact ⟨[], rfl⟩
  | cons d sends ih =>
    obtain ⟨sent, hsent⟩ := ih fun x hx => h x (List.mem_cons_of_mem _ hx)
    have hd : request funcId d = some _ := dif_pos (h d List.mem_cons_self)
    unfold requests at hsent ⊢
    rw [List.mapM_cons, hd, hsent]
    exact ⟨_, rfl⟩

theorem requests_append {funcId : UInt8} {sends more : List SendData} {sent rest : List Request}
    (h : requests funcId sends = some sent) (hmore : requests funcId more = some rest) :
    requests funcId (sends ++ more) = some (sent ++ rest) := by
  unfold requests at h hmore ⊢
  rw [List.mapM_append, h, hmore]
  rfl

/-- No frame stops the network, and no answer to one is too long. -/
theorem onRequest_goes_on (funcId : UInt8) {network : ZWaveNetwork} (h : network.Fits)
    (data : List UInt8) (length : Int) :
    ∃ network' sent, (virtuals funcId).onRequest (some network) data length =
      (some network', sent) ∧ network'.Fits := by
  obtain ⟨t, sends, ht, hfits, -⟩ := onRequest_fits h data
  obtain ⟨sent, hsent⟩ := requests_some funcId (onRequest_short ht)
  exact ⟨t, sent, by simp [virtuals, ht, hsent, returned], hfits⟩

/-- A discovery goes on where its bitmap is within the payload, and only there. -/
theorem discovery_goes_on_iff (funcId : UInt8) (network : ZWaveNetwork) {e : Entry}
    {data : List UInt8} {length : Int} (he : e.request.function = SERIAL_API_GET_INIT_DATA)
    (hlength : 4 ≤ length) (hdata : 3 ≤ data.length) :
    ((virtuals funcId).onResponse (some network) e data length).1 = some network ↔
      3 + byteCount data ≤ data.length := by
  simp only [virtuals, he, if_true, onResponse_eq data hlength hdata]
  by_cases hinside : 3 + byteCount data ≤ data.length
  · simp [returned, hinside]
  · simp [returned, hinside]

/-! ## Events that the nodes do not see -/

/-- Nothing happens to the nodes, but for a read behind a payload. -/
structure Quiet (s s' : Tx (Option ZWaveNetwork)) : Prop where
  app : s'.app = s.app ∨ s'.app = none
  log : ∃ more, s'.log = s.log ++ more ∧ frames more = [] ∧ commands more = []

section Quiet

variable {funcId : UInt8} {cancelsQueued : Bool} {s s' u : Tx (Option ZWaveNetwork)}

theorem Quiet.of_log (more : List Effect) (happ : s'.app = s.app)
    (hlog : s'.log = s.log ++ more) (hframes : frames more = [])
    (hcommands : commands more = []) : Quiet s s' :=
  ⟨Or.inl happ, more, hlog, hframes, hcommands⟩

theorem Quiet.of_eq (happ : s'.app = s.app) (hlog : s'.log = s.log) : Quiet s s' :=
  .of_log [] happ (by rw [hlog, List.append_nil]) rfl rfl

theorem Quiet.trans (h : Quiet s u) (h' : Quiet u s') : Quiet s s' := by
  obtain ⟨happ, more, hlog, hframes, hcommands⟩ := h
  obtain ⟨happ', more', hlog', hframes', hcommands'⟩ := h'
  refine ⟨?_, more ++ more', by rw [hlog', hlog, List.append_assoc],
    by rw [frames_append, hframes, hframes']; rfl,
    by rw [commands_append, hcommands, hcommands']; rfl⟩
  rcases happ' with happ' | happ'
  · rw [happ']
    exact happ
  · exact Or.inr happ'

theorem transmit_quiet (env : Env (Option ZWaveNetwork)) (s : Tx (Option ZWaveNetwork))
    (front : Entry) (rest : List Entry) : Quiet s (s.transmit env front rest) :=
  .of_log [_] rfl (transmit_log s front rest) rfl rfl

/-- A callback that asks for no command and leaves the nodes as they are. -/
theorem answer_quiet {env : Env (Option ZWaveNetwork)} {out : Option ZWaveNetwork × List Request}
    (happ : out.1 = s.app ∨ out.1 = none) (hsent : ∀ r ∈ out.2, r.function ≠ ZW_SEND_DATA)
    (h : s.answer env out = some s') : Quiet s s' := by
  obtain ⟨hreturned, more, hlog, hframes, henqueued⟩ := answer_spec h
  refine ⟨hreturned ▸ happ, more, hlog, hframes, ?_⟩
  unfold commands
  rw [henqueued, List.filter_eq_nil_iff]
  simpa using hsent

theorem onError_quiet {error : Error}
    (h : s.onError ⟨virtuals funcId, cancelsQueued⟩ error = some s') : Quiet s s' := by
  have hnote : Quiet s (s.emit (.onError error)) := .of_log [_] rfl rfl rfl rfl
  exact hnote.trans (answer_quiet (Or.inl rfl) (by simp [virtuals]) h)

theorem onSendRequest_quiet {e : Entry} {data : List UInt8} {length : Int}
    (h : s.onSendRequest ⟨virtuals funcId, cancelsQueued⟩ e data length = some s') :
    Quiet s s' := by
  have hnote : Quiet s (s.emit (.onSendRequest e.ticket data length)) := .of_log [_] rfl rfl rfl rfl
  exact hnote.trans (answer_quiet (Or.inl rfl) (by simp [virtuals]) h)

/-- A discovery asks for the information of nodes, and sends no command. -/
theorem onResponse_out (funcId : UInt8) (network : Option ZWaveNetwork) (e : Entry)
    (data : List UInt8) (length : Int) :
    (((virtuals funcId).onResponse network e data length).1 = network ∨
      ((virtuals funcId).onResponse network e data length).1 = none) ∧
    ∀ r ∈ ((virtuals funcId).onResponse network e data length).2, r.function ≠ ZW_SEND_DATA := by
  simp only [virtuals]
  split
  · cases network with
    | none => exact ⟨Or.inl rfl, by simp [returned]⟩
    | some network =>
      cases hsent : DiscoverNodesRequest.onResponse data length with
      | none => exact ⟨Or.inr rfl, by simp [returned]⟩
      | some sent =>
        refine ⟨Or.inl rfl, fun r hr => ?_⟩
        obtain ⟨nodeId, rfl⟩ := asks_for_information hsent r hr
        exact (by decide : ZW_REQUEST_NODE_INFO ≠ ZW_SEND_DATA)
  · exact ⟨Or.inl rfl, by simp⟩

theorem onResponse_quiet {e : Entry} {data : List UInt8} {length : Int}
    (h : s.onResponse ⟨virtuals funcId, cancelsQueued⟩ e data length = some s') :
    Quiet s s' := by
  have hnote : Quiet s (s.emit (.onResponse e.ticket data length)) := .of_log [_] rfl rfl rfl rfl
  obtain ⟨happ, hsent⟩ := onResponse_out funcId s.app e data length
  exact hnote.trans (answer_quiet happ hsent h)

theorem resendRequest_quiet {error : Nat}
    (h : s.resendRequest ⟨virtuals funcId, cancelsQueued⟩ error = some s') : Quiet s s' := by
  obtain ⟨front, rest, hr, ⟨-, rfl⟩ | ⟨-, hcall⟩⟩ := resendRequest_cases h
  · have hretry : Quiet s { s with txRetryCount := s.txRetryCount + 1 } := .of_eq rfl rfl
    exact hretry.trans (transmit_quiet _ _ front rest)
  · have hdrop : Quiet s
        (({ s with txRetryCount := 0 } : Tx (Option ZWaveNetwork)).pop rest (.drop front.ticket)) :=
      .of_log [_] rfl rfl rfl rfl
    exact hdrop.trans (onError_quiet hcall)

theorem receiveNack_quiet (h : s.receiveNack ⟨virtuals funcId, cancelsQueued⟩ = some s') :
    Quiet s s' := by
  have hcancel : Quiet s (s.cancel ⟨virtuals funcId, cancelsQueued⟩ s.txRetryCount) :=
    .of_eq rfl rfl
  rcases receiveNack_cases h with ⟨-, rfl⟩ | ⟨-, hre⟩
  · exact hcancel
  · exact hcancel.trans (resendRequest_quiet hre)

theorem endProcedure_quiet {front : Entry} {rest : List Entry}
    (h : s.endProcedure ⟨virtuals funcId, cancelsQueued⟩ front rest = some s') :
    Quiet s s' := by
  rw [endProcedure_eq, Option.some.injEq] at h
  subst h
  have hpop : Quiet s ((s.cancel ⟨virtuals funcId, cancelsQueued⟩ 0).pop rest
      (.complete front.ticket)) := .of_log [_] rfl rfl rfl rfl
  cases rest with
  | nil => exact hpop
  | cons next rest' => exact hpop.trans (transmit_quiet _ _ next rest')

/-- Only a frame that no request waits for reaches the nodes. -/
theorem receiveFrame_quiet {b : List UInt8} {length : Nat} (hb : b.length = 256)
    (h : s.receiveFrame ⟨virtuals funcId, cancelsQueued⟩ b length = some s') :
    Quiet s s' ∨ ∃ data length,
      s.sendAck.onRequest ⟨virtuals funcId, cancelsQueued⟩ data length = some s' := by
  have hack : Quiet s s.sendAck := .of_log [.ack] rfl rfl rfl rfl
  obtain ⟨_, _, _, -, -, -, hcase⟩ := receiveFrame_reads hb h
  cases hcase with
  | ended hr hf he hcall =>
    have hend := hack.trans (endProcedure_quiet he)
    rcases hcall with ⟨-, -, hcall⟩ | ⟨-, -, hcall⟩
    · exact Or.inl (hend.trans (onResponse_quiet hcall))
    · exact Or.inl (hend.trans (onSendRequest_quiet hcall))
  | response hr hf ht hs hcall => exact Or.inl (hack.trans (onResponse_quiet hcall))
  | ignored => exact Or.inl hack
  | request hno ht hcall => exact Or.inr ⟨_, _, hcall⟩
  | nothing => exact Or.inl hack

/-- The port and the timer never reach the nodes. -/
theorem tx_quiet {e : TxEvent} (he : ∀ r, e ≠ .sendRequest r)
    (h : s.step ⟨virtuals funcId, cancelsQueued⟩ e = some s') : Quiet s s' := by
  cases e with
  | sendRequest r => exact absurd rfl (he r)
  | expire =>
    cases h
    exact .of_eq rfl rfl
  | timer i =>
    simp only [Tx.step] at h
    split at h
    · cases h
      exact .of_eq rfl rfl
    · refine .trans ?_ (resendRequest_quiet h)
      exact .of_eq rfl rfl
  | transfer k =>
    cases h
    exact .of_eq rfl rfl
  | written i =>
    cases h
    exact .of_eq rfl rfl
  | writeError value =>
    simp only [Tx.step] at h
    split at h
    · cases h
      exact .of_eq rfl rfl
    · refine .trans ?_ (onError_quiet h)
      exact .of_eq rfl rfl

end Quiet

/-! ## Events of the serial line -/

/-- Frames that the nodes handle one after the other, with the commands that answer them. -/
def handled (network : ZWaveNetwork) : List (List UInt8) → Option (ZWaveNetwork × List SendData)
  | [] => some (network, [])
  | data :: rest => do
    let (network, sends) ← network.onRequest data
    let (network, more) ← handled network rest
    some (network, sends ++ more)

theorem handled_snoc {network u v : ZWaveNetwork} {l : List (List UInt8)} {data : List UInt8}
    {sends more : List SendData} (h : handled network l = some (u, sends))
    (hdata : u.onRequest data = some (v, more)) :
    handled network (l ++ [data]) = some (v, sends ++ more) := by
  induction l generalizing network sends with
  | nil =>
    cases h
    simp [handled, hdata]
  | cons first l ih =>
    obtain ⟨⟨w, some⟩, hfirst, h⟩ := Option.bind_eq_some_iff.mp h
    obtain ⟨⟨x, others⟩, hrest, h⟩ := Option.bind_eq_some_iff.mp h
    cases h
    simp [handled, hfirst, ih hrest]

theorem request_function {funcId : UInt8} {d : SendData} {r : Request}
    (h : request funcId d = some r) : r.function = ZW_SEND_DATA := by
  unfold request at h
  split at h
  · cases h
    rfl
  · cases h

theorem requests_function {funcId : UInt8} {sends : List SendData} {sent : List Request}
    (h : requests funcId sends = some sent) : ∀ r ∈ sent, r.function = ZW_SEND_DATA := by
  induction sends generalizing sent with
  | nil =>
    cases h
    simp
  | cons d sends ih =>
    rw [requests, List.mapM_cons] at h
    obtain ⟨r, hr, h⟩ := Option.bind_eq_some_iff.mp h
    obtain ⟨rest, hrest, h⟩ := Option.bind_eq_some_iff.mp h
    cases h
    intro x hx
    rcases List.mem_cons.mp hx with rfl | hx
    · exact request_function hr
    · exact ih hrest x hx

/-- Where all that was enqueued are requests of the network, they are commands. -/
theorem commands_requests {funcId : UInt8} {sends : List SendData} {l : List Effect}
    (h : requests funcId sends = some (enqueued l)) : commands l = enqueued l := by
  unfold commands
  rw [List.filter_eq_self]
  simpa using requests_function h

/-- The nodes have handled the frames that were handed on in the meantime, and their answers are
enqueued. -/
def Handles (funcId : UInt8) (s s' : Tx (Option ZWaveNetwork)) : Prop :=
  ∃ new, s'.log = s.log ++ new ∧ ∀ network', s'.app = some network' →
    ∃ network sends, s.app = some network ∧
      handled network (frames new) = some (network', sends) ∧
      requests funcId sends = some (commands new)

section Handles

variable {funcId : UInt8} {cancelsQueued : Bool} {s t u : Tx (Option ZWaveNetwork)}

theorem Handles.refl (funcId : UInt8) (s : Tx (Option ZWaveNetwork)) : Handles funcId s s :=
  ⟨[], (List.append_nil _).symm, fun network h => ⟨network, [], h, rfl, rfl⟩⟩

theorem Handles.quiet (h : Handles funcId s t) (hquiet : Quiet t u) : Handles funcId s u := by
  obtain ⟨new, hlog, hall⟩ := h
  obtain ⟨happ, more, hlog', hframes, hcommands⟩ := hquiet
  refine ⟨new ++ more, by rw [hlog', hlog, List.append_assoc], fun network' hnetwork => ?_⟩
  rcases happ with happ | happ
  · rw [frames_append, commands_append, hframes, hcommands, List.append_nil, List.append_nil]
    exact hall network' (happ ▸ hnetwork)
  · rw [happ] at hnetwork
    cases hnetwork

/-- A frame that reaches the nodes. -/
theorem Handles.request (h : Handles funcId s t) {data : List UInt8} {length : Int}
    (hcall : t.onRequest ⟨virtuals funcId, cancelsQueued⟩ data length = some u) :
    Handles funcId s u := by
  obtain ⟨new, hlog, hall⟩ := h
  obtain ⟨happ, more, hlog', hframes, henqueued⟩ := answer_spec hcall
  refine ⟨new ++ .onRequest data length :: more, ?_, fun network' hnetwork => ?_⟩
  · rw [hlog', emit_log, hlog, List.append_assoc, List.append_assoc]
    rfl
  rw [happ] at hnetwork
  simp only [virtuals] at hnetwork henqueued
  cases hbefore : t.app with
  | none =>
    rw [hbefore] at hnetwork
    cases hnetwork
  | some network₁ =>
    obtain ⟨network, sends, hnetwork₀, hhandled, hsends⟩ := hall network₁ hbefore
    rw [hbefore] at hnetwork henqueued
    cases hdata : network₁.onRequest data with
    | none =>
      simp only [hdata, Option.bind_eq_bind, Option.bind_some, Option.bind_none] at hnetwork
      cases hnetwork
    | some r =>
      obtain ⟨network₂, answers⟩ := r
      cases hsent : requests funcId answers with
      | none =>
        simp only [hdata, Option.bind_eq_bind, Option.bind_some, hsent] at hnetwork
        cases hnetwork
      | some sent =>
        simp only [hdata, Option.bind_eq_bind, Option.bind_some, hsent, returned]
          at hnetwork henqueued
        cases hnetwork
        have hcommands : commands (.onRequest data length :: more) = sent := by
          show commands more = sent
          rw [commands_requests (henqueued ▸ hsent), henqueued]
        have hshown : frames (.onRequest data length :: more) = [data] := by
          show data :: frames more = [data]
          rw [hframes]
        refine ⟨network, sends ++ answers, hnetwork₀, ?_, ?_⟩
        · rw [frames_append, hshown]
          exact handled_snoc hhandled hdata
        · rw [commands_append, hcommands]
          exact requests_append hsends hsent

theorem Handles.reacts (h : Handles funcId s t)
    (hreacts : Reacts ⟨virtuals funcId, cancelsQueued⟩ t u) : Handles funcId s u := by
  cases hreacts with
  | same => exact h
  | frame hb hframe =>
    rcases receiveFrame_quiet hb hframe with hquiet | ⟨data, length, hcall⟩
    · exact h.quiet hquiet
    · have hack : Quiet t t.sendAck := .of_log [.ack] rfl rfl rfl rfl
      exact (h.quiet hack).request hcall
  | sendNack => exact h.quiet (.of_log [.nack] rfl rfl rfl rfl)
  | receiveAck => exact h.quiet (.of_log [.ackReceived] rfl rfl rfl rfl)
  | receiveNack hnack => exact h.quiet (receiveNack_quiet hnack)
  | error herror => exact h.quiet (onError_quiet herror)

/-- Every event of the serial line that is no call of `sendRequest`. -/
theorem line_handles {s t : ZWaveProtocol (Option ZWaveNetwork)} {e : zwave.Event}
    (he : ∀ r, e ≠ .tx (.sendRequest r))
    (h : zwave.step ⟨virtuals funcId, cancelsQueued⟩ s e = some t) :
    Handles funcId s.tx t.tx := by
  have hreceive : (∀ x, e ≠ .tx x) → Handles funcId s.tx t.tx := fun hno =>
    receive_keeps (P := fun u => Handles funcId s.tx u) (fun _ _ hu hreacts => hu.reacts hreacts)
      hno (Handles.refl funcId s.tx) h
  cases e with
  | tx x =>
    obtain ⟨tx, hx, rfl⟩ := Option.map_eq_some_iff.mp h
    exact (Handles.refl funcId s.tx).quiet (tx_quiet (fun r hr => he r (hr ▸ rfl)) hx)
  | read bytes => exact hreceive (by simp)
  | readError value => exact hreceive (by simp)

end Handles

end huasi.application
