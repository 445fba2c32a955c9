-- The timeout: which request has it, and when. It covers the time from a
-- transmission to the ACK or NACK. Where `cancel` cannot reach an expiry
-- that is queued, the expiry may find another request, or none.
import Huasi.ZWaveQueue
import Huasi.ZWaveRequests

open huasi.runs

namespace huasi.zwave

variable {σ : Type}

/-! ## When the timeout runs -/

/-- The effects since the last ACK was received. -/
def sinceAck (l : List Effect) : List Effect :=
  l.foldl (fun m x => match x with | .ackReceived => [] | x => m ++ [x]) []

/-- The wait on `txTimer` that the protocol is to have: one for the front, from its transmission
to the ACK. -/
def expectedWaits (s : Tx σ) : List Nat :=
  match s.requests with
  | [] => []
  | front :: _ =>
    if front.ticket ∈ transmitted (sinceAck s.log) then [front.ticket] else []

/-- The waits are as expected. -/
structure Covered (s : Tx σ) : Prop where
  fifo : Fifo s
  waits : s.txTimer.waits = expectedWaits s

theorem sinceAck_append (l : List Effect) (x : Effect) (hx : x ≠ .ackReceived) :
    sinceAck (l ++ [x]) = sinceAck l ++ [x] := by
  unfold sinceAck
  rw [List.foldl_append]
  cases x <;> first | rfl | exact absurd rfl hx

theorem sinceAck_ack (l : List Effect) : sinceAck (l ++ [.ackReceived]) = [] := by
  unfold sinceAck
  rw [List.foldl_append]
  rfl

theorem transmitted_append (l m : List Effect) :
    transmitted (l ++ m) = transmitted l ++ transmitted m := List.filterMap_append

theorem sinceAck_subset (l : List Effect) : sinceAck l ⊆ l := by
  induction l using List.reverseRecOn with
  | nil => exact List.Subset.refl _
  | append_singleton l x ih =>
    by_cases hx : x = .ackReceived
    · rw [hx, sinceAck_ack]
      exact List.nil_subset _
    · rw [sinceAck_append l x hx]
      exact List.append_subset.mpr
        ⟨fun y hy => List.mem_append_left _ (ih hy), List.subset_append_right _ _⟩

theorem transmitted_subset {l m : List Effect} (h : l ⊆ m) : transmitted l ⊆ transmitted m :=
  List.filterMap_subset _ h

theorem expectedWaits_length (s : Tx σ) : (expectedWaits s).length ≤ 1 := by
  unfold expectedWaits
  split
  · exact Nat.zero_le _
  · split
    · exact Nat.le_refl _
    · exact Nat.zero_le _

/-- Nothing is expected for a front that was never transmitted. -/
theorem expectedWaits_of_new {s : Tx σ}
    (h : ∀ front ∈ s.requests.head?, front.ticket ∉ transmitted s.log) : expectedWaits s = [] := by
  unfold expectedWaits
  split
  · rfl
  · rename_i front rest hr
    rw [if_neg]
    intro hsent
    apply h front (by rw [hr]; rfl)
    exact transmitted_subset (sinceAck_subset _) hsent

/-- An effect that is neither a transmission nor an ACK changes nothing that is expected. -/
theorem expectedWaits_emit {s s' : Tx σ} (x : Effect) (hx : x ≠ .ackReceived)
    (ht : transmitted [x] = []) (hr : s'.requests.head? = s.requests.head?)
    (hl : s'.log = s.log ++ [x]) : expectedWaits s' = expectedWaits s := by
  have hsince : transmitted (sinceAck s'.log) = transmitted (sinceAck s.log) := by
    rw [hl, sinceAck_append _ x hx, transmitted_append, ht, List.append_nil]
  unfold expectedWaits
  rw [hsince]
  cases hs : s.requests with
  | nil =>
    rw [hs, List.head?_nil, List.head?_eq_none_iff] at hr
    rw [hr]
  | cons front rest =>
    rw [hs, List.head?_cons] at hr
    obtain ⟨rest', hr⟩ := List.head?_eq_some_iff.mp hr
    rw [hr]

section Effective

-- In this section `cancel` is effective: it also reaches an expiry that is queued.
variable {env : Env σ} (hcancel : env.cancelsQueued = true)

include hcancel

theorem cancel_waits_nil (s : Tx σ) (n : Nat) : (s.cancel env n).txTimer.waits = [] := by
  simp [Timer.cancel, Timer.waits, hcancel]

/-- A transmission has its own wait, and no other. -/
theorem covered_transmit {s : Tx σ} (h : Fifo s) {front : Entry} {rest : List Entry}
    (hr : s.requests = front :: rest) : Covered (s.transmit env front rest) := by
  refine ⟨h.transmit hr, ?_⟩
  have hwaits : (s.transmit env front rest).txTimer.waits = [front.ticket] := by
    simp [Timer.cancel, Timer.asyncWait, Timer.waits, hcancel]
  have hsent : front.ticket ∈ transmitted (sinceAck (s.transmit env front rest).log) := by
    simp only [transmit_log]
    rw [sinceAck_append _ _ (by simp), transmitted_append]
    exact List.mem_append_right _ List.mem_cons_self
  rw [hwaits]
  exact (if_pos hsent).symm

omit hcancel in
theorem Covered.of_eq {s s' : Tx σ} (h : Covered s) (hsame : s'.books = s.books)
    (hw : s'.txTimer = s.txTimer) : Covered s' := by
  have hfifo := h.fifo.of_eq hsame
  obtain ⟨hr, -, hl⟩ := books_eq hsame
  refine ⟨hfifo, ?_⟩
  unfold expectedWaits
  rw [hw, hr, hl]
  exact h.waits

omit hcancel in
theorem Covered.emit {s : Tx σ} (h : Covered s) {x : Effect} (hop : x.op = none)
    (hx : x ≠ .ackReceived) : Covered (s.emit x) := by
  have hnone : transmitted [x] = [] := by
    cases x <;> first | rfl | cases hop
  have hsame : expectedWaits (s.emit x) = expectedWaits s := expectedWaits_emit x hx hnone rfl rfl
  exact ⟨h.fifo.emit hop, h.waits.trans hsame.symm⟩

omit hcancel in
theorem Covered.push {s : Tx σ} (h : Covered s) (r : Request) (hr : s.requests ≠ []) :
    Covered (s.push r) := by
  refine ⟨h.fifo.push r, ?_⟩
  have hfront : (s.push r).requests.head? = s.requests.head? := List.head?_append_of_ne_nil _ hr
  exact h.waits.trans
    (expectedWaits_emit (.enqueue s.tickets r) (by simp) rfl hfront rfl).symm

theorem answer_covered {s s' : Tx σ} {out : σ × List Request} (h : Covered s)
    (ha : s.answer env out = some s') : Covered s' := by
  apply answer_keeps ha
  · exact h.of_eq rfl rfl
  · intro t r ht hr
    apply covered_transmit hcancel (ht.fifo.push r)
    simp [hr]
  · intro t r ht hr
    exact ht.push r hr

omit hcancel in
/-- After the front left, with no wait there, nothing is expected: nobody behind it was
transmitted. -/
theorem covered_pop {s : Tx σ} (h : Fifo s) {front : Entry} {rest : List Entry} {x : Effect}
    (hr : s.requests = front :: rest) (hop : x.op = some (.leave front.ticket))
    (hwaits : s.txTimer.waits = []) : Covered (s.pop rest x) := by
  refine ⟨h.pop hr hop, ?_⟩
  have ht : transmitted [x] = [] := by
    cases x <;> first | rfl | cases hop
  have hnew : ∀ next ∈ (s.pop rest x).requests.head?,
      next.ticket ∉ transmitted (s.pop rest x).log := by
    intro next hnext
    have hmem : next ∈ rest := List.mem_of_mem_head? hnext
    simp only [pop_log, transmitted_append, ht, List.append_nil]
    exact h.behind_front hr hmem
  rw [expectedWaits_of_new hnew]
  exact hwaits

theorem resendRequest_covered {s s' : Tx σ} {error : Nat} (h : Fifo s)
    (hwaits : s.txTimer.waits = []) (hre : s.resendRequest env error = some s') : Covered s' := by
  obtain ⟨front, rest, hr, ⟨-, rfl⟩ | ⟨-, hcall⟩⟩ := resendRequest_cases hre
  · have hretry : Fifo ({ s with txRetryCount := s.txRetryCount + 1 } : Tx σ) :=
      h.of_eq rfl
    exact covered_transmit hcancel hretry hr
  · have hretry : Fifo ({ s with txRetryCount := 0 } : Tx σ) := h.of_eq rfl
    have hpop := covered_pop (x := .drop front.ticket) hretry hr rfl hwaits
    exact answer_covered hcancel (hpop.emit rfl (by simp)) hcall

theorem receiveNack_covered {s s' : Tx σ} (h : Covered s) (hn : s.receiveNack env = some s') :
    Covered s' := by
  have hfifo : Fifo (s.cancel env s.txRetryCount) := h.fifo.of_eq rfl
  rcases receiveNack_cases hn with ⟨hr, rfl⟩ | ⟨-, hre⟩
  · refine ⟨hfifo, ?_⟩
    rw [cancel_waits_nil hcancel, expectedWaits_of_new]
    intro front hf
    rw [cancel_requests, hr] at hf
    cases hf
  · exact resendRequest_covered hcancel hfifo (cancel_waits_nil hcancel _ _) hre

/-- The ACK ends the time that the timeout covers. -/
theorem receiveAck_covered {s : Tx σ} (h : Covered s) : Covered (s.receiveAck env) := by
  refine ⟨(h.fifo.emit (x := .ackReceived) rfl).of_eq rfl, ?_⟩
  have hnone : expectedWaits (s.receiveAck env) = [] := by
    unfold expectedWaits
    split
    · rfl
    · rw [Tx.receiveAck, Tx.emit, sinceAck_ack]
      rfl
  rw [hnone]
  exact cancel_waits_nil hcancel s 0

theorem endProcedure_covered {s s' : Tx σ} {front : Entry} {rest : List Entry} (h : Fifo s)
    (hr : s.requests = front :: rest) (he : s.endProcedure env front rest = some s') :
    Covered s' := by
  rw [endProcedure_eq, Option.some.injEq] at he
  subst he
  have hfifo : Fifo (s.cancel env 0) := h.of_eq rfl
  have hpop : Covered ((s.cancel env 0).pop rest (.complete front.ticket)) :=
    covered_pop hfifo hr rfl (cancel_waits_nil hcancel s 0)
  cases rest with
  | nil => exact hpop
  | cons next rest' => exact covered_transmit hcancel hpop.fifo rfl

theorem receiveFrame_covered {s s' : Tx σ} {b : List UInt8} {length : Nat} (h : Covered s)
    (hb : b.length = 256) (hf : s.receiveFrame env b length = some s') : Covered s' := by
  have hack : Covered s.sendAck := (h.emit (x := .ack) rfl (by simp)).of_eq rfl rfl
  obtain ⟨_, _, _, -, -, -, hcase⟩ := receiveFrame_reads hb hf
  cases hcase with
  | ended hr hfun he hcall =>
    have hend := endProcedure_covered hcancel hack.fifo hr he
    rcases hcall with ⟨-, -, hcall⟩ | ⟨-, -, hcall⟩
    · exact answer_covered hcancel (hend.emit rfl (by simp)) hcall
    · exact answer_covered hcancel (hend.emit rfl (by simp)) hcall
  | response hr hfun ht hs hcall => exact answer_covered hcancel (hack.emit rfl (by simp)) hcall
  | ignored => exact hack
  | request hno ht hcall => exact answer_covered hcancel (hack.emit rfl (by simp)) hcall
  | nothing => exact hack

theorem reacts_covered (s s' : Tx σ) (h : Covered s) (hre : Reacts env s s') : Covered s' := by
  cases hre with
  | same => exact h
  | frame hb hf => exact receiveFrame_covered hcancel h hb hf
  | sendNack => exact (h.emit (x := .nack) rfl (by simp)).of_eq rfl rfl
  | receiveAck => exact receiveAck_covered hcancel h
  | receiveNack hn => exact receiveNack_covered hcancel h hn
  | error he => exact answer_covered hcancel (h.emit rfl (by simp)) he

theorem step_covered (s : Tx σ) (e : TxEvent) (s' : Tx σ) (h : Covered s)
    (he : s.step env e = some s') : Covered s' := by
  have hone : s.txTimer.waits.length ≤ 1 := by
    rw [h.waits]
    exact expectedWaits_length s
  simp only [Timer.waits, List.length_append] at hone
  cases e with
  | sendRequest r =>
    simp only [Tx.step, sendRequestPtr_eq, Option.some.injEq] at he
    subst he
    split
    · exact covered_transmit hcancel (h.fifo.push r) (by simp [Tx.push, Tx.emit, ‹s.requests = []›])
    · exact h.push r ‹_›
  | expire =>
    cases he
    refine ⟨h.fifo.of_eq rfl, Eq.trans ?_ h.waits⟩
    -- at most one wait: it is the same list, before and after it moves
    cases hp : s.txTimer.pending with
    | nil => simp [Timer.expire, Timer.waits, hp]
    | cons w l =>
      have hnil : s.txTimer.expired = [] := by
        rw [hp, List.length_cons] at hone
        exact List.length_eq_zero_iff.mp (by omega)
      simp [Timer.expire, Timer.waits, hp, hnil]
  | timer i =>
    simp only [Tx.step] at he
    split at he
    · cases he
      exact h
    · rename_i w hw
      obtain ⟨hlt, -⟩ := List.getElem?_eq_some_iff.mp hw
      refine resendRequest_covered hcancel ?_ ?_ he
      · exact h.fifo.of_eq rfl
      · have hp : s.txTimer.pending = [] := List.length_eq_zero_iff.mp (by omega)
        have hx : s.txTimer.expired.eraseIdx i = [] := by
          apply List.length_eq_zero_iff.mp
          rw [List.length_eraseIdx_of_lt hlt]
          omega
        simp [Timer.waits, hp, hx]
  | transfer k =>
    cases he
    exact h.of_eq rfl rfl
  | written i =>
    cases he
    exact h.of_eq rfl rfl
  | writeError value =>
    simp only [Tx.step] at he
    split at he
    · cases he
      exact h
    · rename_i w rest hq
      have hport : Covered ({ s with tty := { s.tty with queue := rest } } : Tx σ) :=
        h.of_eq rfl rfl
      exact answer_covered hcancel (hport.emit rfl (by simp)) he

end Effective

/-- Where `cancel` is effective, a front that was transmitted has a timeout exactly until its
ACK is received: one wait on the timer, and none after it. -/
theorem timeout_runs_until_ack (app : Application σ) (a : σ) (txBuffer rxBuffer : Buffer)
    (es : List Event) :
    Always (step ⟨app, true⟩) (fun s =>
      ∀ front ∈ s.tx.requests.head?, front.ticket ∈ transmitted s.tx.log →
        s.tx.txTimer.waits =
          if front.ticket ∈ transmitted (sinceAck s.tx.log) then [front.ticket] else [])
      (init a txBuffer rxBuffer) es := by
  have hstart : Covered (Tx.init a txBuffer) := ⟨fifo_init a txBuffer, rfl⟩
  refine (always_tx (step_covered rfl) (reacts_covered rfl) hstart es).mono ?_
  intro s h front hf _
  obtain ⟨rest, hr⟩ := List.head?_eq_some_iff.mp hf
  rw [h.waits, expectedWaits, hr]

/-- After the ACK nothing waits for the response. -/
theorem no_timeout_after_ack :
    ¬ Always (step ⟨.quiet, true⟩) (fun s => s.tx.requests ≠ [] → s.tx.txTimer.waits ≠ [])
      fresh [.tx (.sendRequest DiscoverNodesRequest), .read [ACK]] := by
  decide +kernel

/-! ## Whom an expiry hits -/

variable {env : Env σ}

/-- A resend or a drop of request `t`. -/
def Effect.resends (t : Nat) : Effect → Bool
  | .transmit u _ _ => u == t
  | .drop u => u == t
  | _ => false

/-- The handler of the event does not take the front of an empty queue, and what the handler of
an expiry does first is to resend or drop the request whose transmission started the wait. -/
def hitsOwner (env : Env σ) (s : ZWaveProtocol σ) (e : Event) : Bool :=
  (step env s e).any fun s' =>
    match e with
    | .tx (.timer i) => s.tx.txTimer.expired[i]?.all fun owner =>
      (s'.tx.log.drop s.tx.log.length).head?.any (Effect.resends owner)
    | _ => true

/-- The request whose transmission started the wait is still in the queue when the handler of
its expiry runs. -/
def ownerWaits (s : ZWaveProtocol σ) : Event → Bool
  | .tx (.timer i) => s.tx.txTimer.expired[i]?.all fun owner =>
    (s.tx.requests.map Entry.ticket).contains owner
  | _ => true

/-- Every wait was started by a transmission. -/
structure Owned (s : Tx σ) : Prop where
  fifo : Fifo s
  waits : s.txTimer.waits ⊆ transmitted s.log

theorem Owned.of_log {s s' : Tx σ} (h : Owned s) (hf : Fifo s')
    (hw : s'.txTimer.waits ⊆ s.txTimer.waits) (hl : s.log <+: s'.log) : Owned s' :=
  ⟨hf, fun _ hmem => transmitted_subset hl.subset (h.waits (hw hmem))⟩

theorem owned_move (s s' : Tx σ) (h : Owned s) (hm : Move env s s') : Owned s' := by
  have hf := fifo_move s s' h.fifo hm
  have hl := Moves.log_grows (.single hm)
  cases hm with
  | timer ht => exact h.of_log hf ht hl
  | @transmit front rest hr =>
    refine ⟨hf, ?_⟩
    intro w hw
    simp only [transmit_log, transmit_txTimer, transmitted_append] at hw ⊢
    simp only [Timer.asyncWait, Timer.waits, List.append_assoc, List.mem_append] at hw
    rcases hw with hw | hw | hw
    · apply List.mem_append_left
      apply h.waits
      apply cancel_waits
      exact List.mem_append_left _ hw
    · exact List.mem_append_right _ hw
    · apply List.mem_append_left
      apply h.waits
      apply cancel_waits
      exact List.mem_append_right _ hw
  | _ => exact h.of_log hf (List.Subset.refl _) hl

theorem owned_init (a : σ) (txBuffer : Buffer) : Owned (.init a txBuffer) :=
  ⟨fifo_init a txBuffer, List.Subset.refl _⟩

/-- What a resend does first is to resend or drop the front. -/
theorem resend_hits_iff (s : Tx σ) (error owner : Nat) :
    (s.resendRequest env error).any
      (fun s' => (s'.log.drop s.log.length).head?.any (Effect.resends owner)) = true ↔
    (s.requests.map Entry.ticket).head? = some owner := by
  cases hr : s.requests with
  | nil => simp [resendRequest_nil error hr]
  | cons front rest =>
    obtain ⟨s', hs'⟩ := resendRequest_some env error (by simp [hr] : s.requests ≠ [])
    have hfirst : (s'.log.drop s.log.length).head?.any (Effect.resends owner) =
        (front.ticket == owner) := by
      obtain ⟨front', rest', hr', hcase⟩ := resendRequest_cases hs'
      rw [hr, List.cons.injEq] at hr'
      obtain ⟨rfl, rfl⟩ := hr'
      rcases hcase with ⟨-, rfl⟩ | ⟨-, hcall⟩
      · simp [Effect.resends]
      · obtain ⟨m, hm⟩ := (onError_moves hcall).log_grows
        rw [← hm]
        simp [Effect.resends]
    rw [hs', Option.any_some, hfirst]
    simp

/-- The request that a wait belongs to is in the queue only as its front. -/
theorem Owned.owner_is_front {s : Tx σ} (h : Owned s) {owner : Nat}
    (hw : owner ∈ s.txTimer.waits) :
    (s.requests.map Entry.ticket).head? = some owner ↔ owner ∈ s.requests.map Entry.ticket := by
  constructor
  · intro hfront
    exact List.mem_of_mem_head? hfront
  · intro hq
    obtain ⟨e, he, rfl⟩ := List.mem_map.mp hq
    rcases h.fifo.left_or_front (h.waits hw) with hgone | hfront
    · exact absurd hgone (h.fifo.not_gone he)
    · exact hfront

/-- A handler of an expiry hits the right request exactly if that request still waits. -/
theorem hitsOwner_iff (s : ZWaveProtocol σ) (e : Event) (h : Owned s.tx) :
    hitsOwner env s e = true ↔ ownerWaits s e = true := by
  by_cases htimer : ∃ i, e = .tx (.timer i)
  · obtain ⟨i, rfl⟩ := htimer
    cases hw : s.tx.txTimer.expired[i]? with
    | none => simp [hitsOwner, ownerWaits, step, Tx.step, hw]
    | some owner =>
      have hmem : owner ∈ s.tx.txTimer.waits :=
        List.mem_append_right _ (List.mem_of_getElem? hw)
      simp only [hitsOwner, ownerWaits, step, Tx.step, hw, Option.any_map, Option.all_some,
        List.contains_iff_mem]
      rw [← h.owner_is_front hmem]
      exact resend_hits_iff _ 2 owner
  · have hne : ∀ i, e ≠ .tx (.timer i) := fun i he => htimer ⟨i, he⟩
    obtain ⟨s', hs'⟩ := step_some env s hne
    have hwaits : ownerWaits s e = true := by
      unfold ownerWaits
      split
      · exact absurd rfl (hne _)
      · rfl
    rw [hwaits]
    unfold hitsOwner
    rw [hs']
    split <;> simp_all

/-- Every expiry of a run hits the request that started its wait, and no handler finds the queue
empty, exactly if at each expiry that request still waits. -/
theorem expiry_hits_its_request_iff (env : Env σ) (a : σ) (txBuffer rxBuffer : Buffer)
    (es : List Event) :
    Meets (step env) (fun s e => hitsOwner env s e = true) (init a txBuffer rxBuffer) es ↔
      Meets (step env) (fun s e => ownerWaits s e = true) (init a txBuffer rxBuffer) es := by
  apply meets_congr (P := fun s => Owned s.tx)
  · apply step_of_moves owned_move
    intro s tty h
    exact h.of_log (h.fifo.of_eq rfl) (List.Subset.refl _) (List.prefix_refl _)
  · intro s e h
    exact hitsOwner_iff s e h
  · exact owned_init a txBuffer

/-- The response comes after the time is over and before the handler of the expiry runs. Then
the handler finds the queue empty, or it resends the next request. -/
theorem expiry_hits_another :
    ¬ Meets (step quietEnv) (fun s e => hitsOwner quietEnv s e = true) fresh
        [.tx (.sendRequest DiscoverNodesRequest), .tx .expire,
          .read [SOF, 3, RESPONSE, SERIAL_API_GET_INIT_DATA, 0xff], .tx (.timer 0)] ∧
      ¬ Meets (step quietEnv) (fun s e => hitsOwner quietEnv s e = true) fresh
        [.tx (.sendRequest DiscoverNodesRequest), .tx (.sendRequest switchOn), .tx .expire,
          .read [SOF, 3, RESPONSE, SERIAL_API_GET_INIT_DATA, 0xff], .tx (.timer 0)] := by
  decide +kernel

end huasi.zwave
