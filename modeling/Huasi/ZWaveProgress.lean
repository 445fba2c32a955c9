-- Progress of the queue: the request at the front was sent. Every path that
-- changes the front sends the new one, but for one: a request that is given
-- up leaves the next one waiting. Runs without that keep the law.
import Huasi.ZWaveQueue
import Huasi.ZWaveRequests

open huasi.runs

namespace huasi.zwave

variable {σ : Type} {env : Env σ}

/-! ## The law and its exception -/

/-- The request at the front of the queue was transmitted at least once. -/
def FrontSent (s : Tx σ) : Prop :=
  ∀ front ∈ s.requests.head?, front.ticket ∈ transmitted s.log

/-- A failure now gives up the front, with other requests behind it. -/
def GivesUpBacklog (s : Tx σ) : Prop := 2 ≤ s.txRetryCount ∧ 2 ≤ s.requests.length

/-- No failure that the event delivers gives up a request in front of others: no expiry, and no
NACK that the handler of a read comes to. -/
def NoBacklogGivenUp (env : Env σ) (s : ZWaveProtocol σ) : Event → Prop
  | .tx (.timer i) => i < s.tx.txTimer.expired.length → ¬ GivesUpBacklog s.tx
  | .read bytes =>
    ∀ p ∈ readTurns env s bytes, p.2.rx.unread.head? = some NACK → ¬ GivesUpBacklog p.2.tx
  | _ => True

instance (s : Tx σ) : Decidable (FrontSent s) :=
  inferInstanceAs (Decidable (∀ front ∈ s.requests.head?, front.ticket ∈ transmitted s.log))

instance (s : Tx σ) : Decidable (GivesUpBacklog s) :=
  inferInstanceAs (Decidable (_ ∧ _))

instance (s : ZWaveProtocol σ) : ∀ e, Decidable (NoBacklogGivenUp env s e)
  | .tx (.timer i) =>
    inferInstanceAs (Decidable (i < s.tx.txTimer.expired.length → ¬ GivesUpBacklog s.tx))
  | .read bytes =>
    inferInstanceAs (Decidable (∀ p ∈ readTurns env s bytes,
      p.2.rx.unread.head? = some NACK → ¬ GivesUpBacklog p.2.tx))
  | .tx (.sendRequest _) | .tx .expire | .tx (.transfer _) | .tx (.written _)
  | .tx (.writeError _) | .readError _ => inferInstanceAs (Decidable True)

/-! ## What each function keeps -/

/-- The law only looks at the front, and no effect is ever taken back. -/
theorem FrontSent.of_front {s s' : Tx σ} (h : FrontSent s)
    (hfront : s'.requests.head? = s.requests.head?) (hlog : s.log <+: s'.log) :
    FrontSent s' := by
  intro front hf
  rw [hfront] at hf
  obtain ⟨l, hl⟩ := hlog
  unfold transmitted
  rw [← hl, List.filterMap_append]
  exact List.mem_append_left _ (h front hf)

theorem frontSent_emit {s : Tx σ} (h : FrontSent s) (x : Effect) : FrontSent (s.emit x) :=
  h.of_front rfl (List.prefix_append _ _)

/-- A transmission is of the front. -/
theorem frontSent_transmit (s : Tx σ) (front : Entry) (rest : List Entry) :
    FrontSent (s.transmit env front rest) := by
  intro e he
  simp only [transmit_requests, List.head?_cons, Option.mem_def, Option.some.injEq] at he
  subst he
  unfold transmitted Tx.transmit Tx.emit
  rw [List.filterMap_append]
  exact List.mem_append_right _ List.mem_cons_self

/-- A request that waits behind others does not change the front. -/
theorem frontSent_push {s : Tx σ} (h : FrontSent s) (r : Request) (hr : s.requests ≠ []) :
    FrontSent (s.push r) := by
  apply h.of_front
  · simp only [push_requests]
    exact List.head?_append_of_ne_nil _ hr
  · exact List.prefix_append _ _

theorem frontSent_nil {s : Tx σ} (hr : s.requests = []) : FrontSent s := by
  intro front hf
  rw [hr] at hf
  cases hf

theorem answer_frontSent {s s' : Tx σ} {out : σ × List Request} (h : FrontSent s)
    (ha : s.answer env out = some s') : FrontSent s' := by
  apply answer_keeps ha
  · exact h.of_front rfl (List.prefix_refl _)
  · intro t r _ _
    exact frontSent_transmit _ _ _
  · intro t r ht hr
    exact frontSent_push ht r hr

/-- A failure sends the front again, or the queue has nobody behind the front. -/
theorem resendRequest_frontSent {s s' : Tx σ} {error : Nat} (hgive : ¬ GivesUpBacklog s)
    (hre : s.resendRequest env error = some s') : FrontSent s' := by
  obtain ⟨front, rest, hr, ⟨-, rfl⟩ | ⟨hcount, hcall⟩⟩ := resendRequest_cases hre
  · exact frontSent_transmit _ _ _
  · have hrest : rest = [] := by
      by_contra hne
      have hpos := List.length_pos_iff.mpr hne
      apply hgive
      refine ⟨hcount, ?_⟩
      rw [hr, List.length_cons]
      omega
    subst hrest
    apply answer_frontSent _ hcall
    exact frontSent_nil rfl

theorem receiveNack_frontSent {s s' : Tx σ} (h : FrontSent s) (hgive : ¬ GivesUpBacklog s)
    (hn : s.receiveNack env = some s') : FrontSent s' := by
  rcases receiveNack_cases hn with ⟨-, rfl⟩ | ⟨-, hre⟩
  · exact h.of_front rfl (List.prefix_refl _)
  · exact resendRequest_frontSent (s := s.cancel env s.txRetryCount) hgive hre

/-- The end of a procedure leaves an empty queue, or sends the next request. -/
theorem endProcedure_frontSent {s s' : Tx σ} {front : Entry} {rest : List Entry}
    (he : s.endProcedure env front rest = some s') : FrontSent s' := by
  rw [endProcedure_eq, Option.some.injEq] at he
  subst he
  cases rest with
  | nil => exact frontSent_nil rfl
  | cons next rest' => exact frontSent_transmit _ _ _

theorem receiveFrame_frontSent {s s' : Tx σ} {b : List UInt8} {length : Nat} (h : FrontSent s)
    (hb : b.length = 256) (hf : s.receiveFrame env b length = some s') : FrontSent s' := by
  have hack : FrontSent s.sendAck := h.of_front rfl (List.prefix_append _ _)
  obtain ⟨_, _, _, -, -, -, hcase⟩ := receiveFrame_reads hb hf
  cases hcase with
  | ended hr hfun he hcall =>
    have hend := endProcedure_frontSent he
    rcases hcall with ⟨-, -, hcall⟩ | ⟨-, -, hcall⟩
    · exact answer_frontSent (frontSent_emit hend _) hcall
    · exact answer_frontSent (frontSent_emit hend _) hcall
  | response hr hfun ht hs hcall => exact answer_frontSent (frontSent_emit hack _) hcall
  | ignored => exact hack
  | request hno ht hcall => exact answer_frontSent (frontSent_emit hack _) hcall
  | nothing => exact hack

theorem tx_frontSent {s s' : Tx σ} {e : TxEvent} (h : FrontSent s)
    (hgive : ∀ i, e = .timer i → i < s.txTimer.expired.length → ¬ GivesUpBacklog s)
    (he : s.step env e = some s') : FrontSent s' := by
  cases e with
  | sendRequest r =>
    simp only [Tx.step, sendRequestPtr_eq, Option.some.injEq] at he
    subst he
    split
    · exact frontSent_transmit _ _ _
    · exact frontSent_push h r ‹_›
  | expire =>
    cases he
    exact h
  | timer i =>
    simp only [Tx.step] at he
    split at he
    · cases he
      exact h
    · rename_i t ht
      obtain ⟨hlt, -⟩ := List.getElem?_eq_some_iff.mp ht
      refine resendRequest_frontSent ?_ he
      exact hgive i rfl hlt
  | transfer k =>
    cases he
    exact h
  | written i =>
    cases he
    exact h
  | writeError value =>
    simp only [Tx.step] at he
    split at he
    · cases he
      exact h
    · apply answer_frontSent _ he
      exact h.of_front rfl (List.prefix_append _ _)

/-! ## One turn, one event, one run -/

theorem next_frontSent {p q : Bool × ZWaveProtocol σ} (h : FrontSent p.2.tx)
    (hgive : p.2.rx.unread.head? = some NACK → ¬ GivesUpBacklog p.2.tx) (hgo : Next env p q) :
    FrontSent q.2.tx := by
  obtain ⟨frame, s⟩ := p
  obtain ⟨frame', s'⟩ := q
  have hpos : 0 < s.rx.rxPosition := by simpa [unfinished] using hgo.1
  cases next_cases hgo with
  | frame hl hc htx hrx =>
    cases frame with
    | true =>
      simp only [if_true] at htx
      subst htx
      exact h
    | false => exact receiveFrame_frontSent h s.rx.rxBuffer.size_eq htx
  | checksum => exact h.of_front rfl (List.prefix_append _ _)
  | ack => exact h.of_front rfl (List.prefix_append _ _)
  | nack h0 htx hrx =>
    apply receiveNack_frontSent h _ htx
    apply hgive
    rw [Rx.unread_head hpos]
    exact h0
  | can => exact h
  | unknown => exact h

theorem step_frontSent (s : ZWaveProtocol σ) (e : Event) (s' : ZWaveProtocol σ)
    (h : FrontSent s.tx) (hgive : NoBacklogGivenUp env s e) (he : step env s e = some s') :
    FrontSent s'.tx := by
  cases e with
  | tx e =>
    obtain ⟨tx, htx, rfl⟩ := Option.map_eq_some_iff.mp he
    apply tx_frontSent h _ htx
    rintro i rfl
    exact hgive
  | read bytes =>
    rcases read_cases he with rfl | ⟨hfit, frame, hv, -⟩
    · exact h
    · exact hv.keeps (P := fun q => FrontSent q.2.tx) h
        fun p q hp hgo hs => next_frontSent hs (hgive p ((mem_readTurns hfit).mpr hp)) hgo
  | readError value =>
    rcases readError_cases he with rfl | ⟨tx, hcall, rfl⟩
    · exact h
    · exact answer_frontSent (frontSent_emit h _) hcall

/-- In a run in which no failure gives up a request in front of others, the front was sent in
every state between two handlers. -/
theorem front_is_always_sent (env : Env σ) (a : σ) (txBuffer rxBuffer : Buffer)
    (es : List Event)
    (h : Meets (step env) (NoBacklogGivenUp env) (init a txBuffer rxBuffer) es) :
    Always (step env) (fun s => FrontSent s.tx) (init a txBuffer rxBuffer) es :=
  always_of_meets step_frontSent (frontSent_nil rfl) h

/-- Two NACKs and a timeout give up a request with nobody behind it, and the next one is sent. -/
theorem front_is_always_sent_alone :
    Always (step quietEnv) (fun s => FrontSent s.tx) fresh
      [.tx (.sendRequest DiscoverNodesRequest), .read [NACK, NACK], .tx .expire, .tx (.timer 0),
        .tx (.sendRequest switchOn), .tx (.sendRequest DiscoverNodesRequest), .read [NACK]] :=
  front_is_always_sent quietEnv () .zeros .zeros _ (by decide +kernel)

/-- The third NACK gives up the first of two requests, and nothing sends the second one: no
write, no timer. -/
theorem backlog_is_stranded :
    ¬ Always (step quietEnv) (fun s => FrontSent s.tx) fresh
      [.tx (.sendRequest DiscoverNodesRequest), .tx (.sendRequest switchOn),
        .read [NACK, NACK, NACK]] := by
  decide +kernel

end huasi.zwave
