-- Which request a response belongs to. A response of the EnOcean controller has no number: it is
-- taken for the front of the queue. The controller answers each packet that it gets, so the n-th
-- response answers the n-th transmission, and the two are the same as long as no packet is sent
-- again.
import Huasi.EnOceanQueue

open huasi.receive_buffer huasi.runs huasi.fifo_log

namespace huasi.enocean

variable {σ : Type} {env : Env σ} {owed : Option Nat} {s s' : Tx σ}

/-! ## Responses and transmissions -/

/-- The n-th response was taken for the request of the n-th transmission. -/
def Matched (s : Tx σ) : Prop := responded s.log <+: transmitted s.log

/-- A request that got a response was transmitted, and each request before it was transmitted as
often as it got one: once or never. -/
def SentOnce (s : Tx σ) : Prop :=
  ∀ t ∈ responded s.log, t ∈ transmitted s.log ∧
    ∀ u < t, (transmitted s.log).count u = (responded s.log).count u

instance (s : Tx σ) : Decidable (Matched s) := inferInstanceAs (Decidable (_ <+: _))

theorem transmitted_sublist (l : List Effect) : (transmitted l).Sublist (served (ops l)) := by
  unfold served ops
  rw [List.filterMap_filterMap]
  induction l with
  | nil => exact List.Sublist.slnil
  | cons x l ih =>
    cases x with
    | transmit t frame => exact ih.cons_cons t
    | onResponse t data optionalData => exact ih.cons t
    | _ => exact ih

theorem responded_sublist (l : List Effect) : (responded l).Sublist (served (ops l)) := by
  unfold served ops
  rw [List.filterMap_filterMap]
  induction l with
  | nil => exact List.Sublist.slnil
  | cons x l ih =>
    cases x with
    | onResponse t data optionalData => exact ih.cons_cons t
    | transmit t frame => exact ih.cons t
    | _ => exact ih

theorem completed_sublist (l : List Effect) : (completed l).Sublist (gone l) := by
  induction l with
  | nil => exact List.Sublist.slnil
  | cons x l ih =>
    cases x with
    | complete t => exact ih.cons_cons t
    | drop t => exact ih.cons t
    | _ => exact ih

theorem Books.served_sorted (h : Books owed s) :
    (fifo_log.served (ops s.log)).Pairwise (· ≤ ·) := by
  refine (fifo_log.served_sorted h.played (n := s.tickets) ?_).1
  rw [entered_ops, h.tickets]

theorem Books.transmitted_sorted (h : Books owed s) : (transmitted s.log).Pairwise (· ≤ ·) :=
  h.served_sorted.sublist (transmitted_sublist s.log)

/-- No request gets a response twice. -/
theorem Books.responded_sorted (h : Books none s) : (responded s.log).Pairwise (· < ·) := by
  have hsorted := h.served_sorted.sublist (responded_sublist s.log)
  have hanswered : responded s.log = completed s.log := by simpa using h.answered
  have hnodup : (responded s.log).Nodup := by
    have hn := h.nodup
    rw [h.account] at hn
    rw [hanswered]
    exact (List.nodup_append.mp hn).1.sublist (completed_sublist s.log)
  exact (hsorted.and hnodup).imp fun hab => lt_of_le_of_ne hab.1 hab.2

theorem Books.matched_iff (h : Books none s) : Matched s ↔ SentOnce s :=
  prefix_iff_counts h.responded_sorted h.transmitted_sorted

/-! ## Without a timeout -/

/-- Each request was transmitted once: those that were completed, and the front. -/
def InStep (s : Tx σ) : Prop :=
  transmitted s.log = completed s.log ++ (s.requests.map Entry.ticket).take 1

/-- What neither transmits nor completes keeps the front in step. -/
theorem InStep.of_log (h : InStep s) {m : List Effect} (hlog : s'.log = s.log ++ m)
    (htransmitted : transmitted m = []) (hcompleted : completed m = [])
    (hfront : (s'.requests.map Entry.ticket).take 1 = (s.requests.map Entry.ticket).take 1) :
    InStep s' := by
  unfold InStep at h ⊢
  rw [hlog, transmitted_append, completed_append, htransmitted, hcompleted, hfront,
    List.append_nil, List.append_nil, h]

theorem InStep.push (h : InStep s) (r : Request) (hr : s.requests ≠ []) :
    InStep (s.push r) := by
  obtain ⟨front, rest, hcons⟩ := List.exists_cons_of_ne_nil hr
  apply h.of_log (m := [.enqueue s.tickets r]) rfl rfl rfl
  rw [push_requests, hcons]
  rfl

/-- The next request goes out where all that went out before are completed. -/
theorem inStep_transmit {front : Entry} {rest : List Entry}
    (hdone : transmitted s.log = completed s.log) (hr : s.requests = front :: rest) :
    InStep (s.transmit env front) := by
  unfold InStep
  rw [transmit_log, transmitted_append, completed_append, hdone, transmit_requests, hr]
  simp [transmitted, completed]

theorem answer_inStep {out : σ × List Request} (h : InStep s)
    (ha : s.answer env out = some s') : InStep s' := by
  apply answer_keeps ha
  · exact h
  · intro t r ht hr
    have hone : (t.push r).requests = [⟨t.tickets, r⟩] := by simp [hr]
    refine inStep_transmit ?_ hone
    unfold InStep at ht
    rw [hr, List.map_nil, List.take_nil, List.append_nil] at ht
    have hlog : (t.push r).log = t.log ++ [.enqueue t.tickets r] := rfl
    rw [hlog, transmitted_append, completed_append, ht]
    rfl
  · intro t r ht hr
    exact ht.push r hr

theorem onError_inStep {error : Error} (h : InStep s) (he : s.onError env error = some s') :
    InStep s' := by
  have hnote : InStep (s.emit (.onError error)) := h.of_log rfl rfl rfl rfl
  exact answer_inStep hnote he

theorem receivePacket_inStep {packetType : UInt8} {data optionalData : List UInt8}
    (h : InStep s) (hp : s.receivePacket env packetType data optionalData = some s') :
    InStep s' := by
  have hcancel : InStep (s.cancel env) := h
  -- behind the completion all that went out is completed
  have hresponse : ∀ {front s₁ rest}, (s.cancel env).onResponse env front data optionalData =
      some s₁ → s₁.requests = front :: rest →
      transmitted (s₁.pop rest (.complete front.ticket)).log =
        completed (s₁.pop rest (.complete front.ticket)).log := by
    intro front s₁ rest hcall hr
    have hnote : InStep ((s.cancel env).emit (.onResponse front.ticket data optionalData)) :=
      hcancel.of_log rfl rfl rfl rfl
    have hstep : InStep s₁ := answer_inStep hnote hcall
    unfold InStep at hstep
    rw [pop_log, transmitted_append, completed_append, hstep, hr]
    simp [transmitted, completed]
  cases packetCase_of_receive hp with
  | last htype hcall hqueue hr =>
    have hdone := hresponse hcall hr
    unfold InStep
    rw [hdone]
    exact (List.append_nil _).symm
  | next htype hcall hqueue hr => exact inStep_transmit (hresponse hcall hr) rfl
  | request hother hcall =>
    have hnote : InStep ((s.cancel env).emit (.onRequest packetType data optionalData)) :=
      hcancel.of_log rfl rfl rfl rfl
    exact answer_inStep hnote hcall

/-- The events other than the handler of a timeout. -/
def NoTimeout (e : Event) : Prop := ∀ i, e ≠ .tx (.timer i)

theorem tx_inStep {e : TxEvent} (h : InStep s) (hno : ∀ i, e ≠ .timer i)
    (he : s.step env e = some s') : InStep s' := by
  cases tx_cases he with
  | sendRequest hcall => exact answer_inStep h hcall
  | expire => exact h
  | timer hw hresend => exact absurd rfl (hno _)
  | port tty hstarted => exact h
  | error tty hstarted hcall =>
    refine onError_inStep ?_ hcall
    exact h

theorem step_inStep (s : EnOceanProtocol σ) (e : Event) (t : EnOceanProtocol σ)
    (h : InStep s.tx) (hno : NoTimeout e) (ht : step env s e = some t) : InStep t.tx := by
  apply step_keeps ht h
  · intro x tx hx hcall
    exact tx_inStep h (fun i hi => hno i (by rw [hx, hi])) hcall
  · intro u tx packetType data optionalData hu hreceive
    exact receivePacket_inStep hu hreceive
  · intro tx value hcall
    exact onError_inStep h hcall

/-! ## Every run -/

/-- In every state of every run, responses are taken for the requests that they answer exactly if
no request in front of an answered one was sent more often than it was answered; and they are in
every run without a timeout. -/
theorem responses_match_iff (env : Env σ) (a : σ) (txBuffer rxBuffer : Buffer UInt8 BUFFER_SIZE)
    (es : List Event) :
    Always (step env) (fun s => Matched s.tx ↔ SentOnce s.tx) (init a txBuffer rxBuffer) es ∧
      ((∀ e ∈ es, NoTimeout e) →
        Always (step env) (fun s => Matched s.tx) (init a txBuffer rxBuffer) es) := by
  have hbooks : Always (step env) (fun s => Books none s.tx) (init a txBuffer rxBuffer) es :=
    books_always es
  refine ⟨hbooks.mono fun s h => h.matched_iff, fun hno => ?_⟩
  have hstep : Always (step env) (fun s => InStep s.tx) (init a txBuffer rxBuffer) es :=
    always_of_meets (fun s e t hs hc ht => step_inStep s e t hs hc ht) rfl (meets_of_events hno _)
  refine (hbooks.and hstep).mono fun s h => ?_
  obtain ⟨hb, hs⟩ := h
  have hanswered : responded s.tx.log = completed s.tx.log := by simpa using hb.answered
  exact ⟨_, by rw [hanswered, hs]⟩

-- A packet that is sent again is answered again: the second response is taken for the request
-- behind it.
example :
    ¬ Always (step ⟨quietApp, true⟩) (fun s => Matched s.tx) (init () (.filled 0) (.filled 0))
      [.tx (.sendRequest ⟨5, [0x03], [], Nat.le_of_ble_eq_true rfl, Nat.zero_le _⟩),
        .tx (.sendRequest ⟨5, [0x08], [], Nat.le_of_ble_eq_true rfl, Nat.zero_le _⟩),
        .tx .expire, .tx (.timer 0),
        .read [0x55, 0x00, 0x01, 0x00, 0x02, 0x65, 0x00, 0x00],
        .read [0x55, 0x00, 0x01, 0x00, 0x02, 0x65, 0x00, 0x00]] := by
  decide +kernel

end huasi.enocean
