-- Retries: the counter counts the failures of the front of the queue, so no
-- request is transmitted more than three times without an ACK between. After the third
-- failure the front is given up, with one error that says what the failure was.
import Huasi.ZWaveTimeout

open huasi.runs

namespace huasi.zwave

variable {σ : Type} {env : Env σ}

/-! ## Transmissions between two ACKs -/

/-- How often request `t` was transmitted since the last ACK was received. -/
def attempts (l : List Effect) (t : Nat) : Nat := (transmitted (sinceAck l)).count t

/-- In no part of the log without an ACK is a request transmitted more than three times. -/
def ThreeAtMost (l : List Effect) : Prop :=
  ∀ before part after, l = before ++ part ++ after → .ackReceived ∉ part →
    ∀ t, (transmitted part).count t ≤ 3

theorem sinceAck_part (before part : List Effect) (h : .ackReceived ∉ part) :
    sinceAck (before ++ part) = sinceAck before ++ part := by
  induction part using List.reverseRecOn with
  | nil => rw [List.append_nil, List.append_nil]
  | append_singleton part x ih =>
    rw [List.mem_append, List.mem_singleton, not_or] at h
    rw [← List.append_assoc, sinceAck_append _ x fun hx => h.2 hx.symm, ih h.1,
      List.append_assoc]

/-- A part at the end of the log has only transmissions since the last ACK. -/
theorem count_le_attempts (before part : List Effect) (h : .ackReceived ∉ part) (t : Nat) :
    (transmitted part).count t ≤ attempts (before ++ part) t := by
  unfold attempts
  rw [sinceAck_part before part h, transmitted_append, List.count_append]
  exact Nat.le_add_left _ _

theorem attempts_of_new {l : List Effect} {t : Nat} (h : t ∉ transmitted l) :
    attempts l t = 0 := by
  unfold attempts
  rw [List.count_eq_zero]
  intro hmem
  exact h (transmitted_subset (sinceAck_subset l) hmem)

theorem attempts_emit (l : List Effect) {x : Effect} (hx : transmitted [x] = []) (t : Nat) :
    attempts (l ++ [x]) t ≤ attempts l t := by
  unfold attempts
  by_cases hack : x = .ackReceived
  · rw [hack, sinceAck_ack]
    exact Nat.zero_le _
  · rw [sinceAck_append l x hack, transmitted_append, hx, List.append_nil]

/-- What was never transmitted has no attempts behind another effect either. -/
theorem attempts_emit_new {l : List Effect} {t : Nat} {x : Effect} (h : t ∉ transmitted l)
    (hx : transmitted [x] = []) : attempts (l ++ [x]) t = 0 := by
  have hle := attempts_emit l hx t
  rw [attempts_of_new h] at hle
  exact Nat.le_zero.mp hle

theorem ThreeAtMost.append {l : List Effect} (h : ThreeAtMost l) (x : Effect)
    (hx : ∀ t ∈ transmitted [x], attempts l t ≤ 2) : ThreeAtMost (l ++ [x]) := by
  intro before part after hl hno t
  rcases List.eq_nil_or_concat after with rfl | ⟨after, y, rfl⟩
  · rcases List.eq_nil_or_concat part with rfl | ⟨part, y, rfl⟩
    · exact Nat.zero_le _
    · rw [List.append_nil, List.concat_eq_append, ← List.append_assoc] at hl
      obtain ⟨rfl, hxy⟩ := List.append_inj' hl rfl
      obtain rfl : x = y := List.singleton_inj.mp hxy
      rw [List.concat_eq_append, List.mem_append, not_or] at hno
      rw [List.concat_eq_append, transmitted_append, List.count_append]
      by_cases ht : t ∈ transmitted [x]
      · have hone : (transmitted [x]).count t ≤ 1 :=
          Nat.le_trans List.count_le_length (List.length_filterMap_le _ _)
        have hpart := count_le_attempts before part hno.1 t
        have htwo := hx t ht
        omega
      · rw [List.count_eq_zero_of_not_mem ht]
        exact h before part [] (List.append_nil _).symm hno.1 t
  · rw [List.concat_eq_append, ← List.append_assoc] at hl
    obtain ⟨hl, -⟩ := List.append_inj' hl rfl
    exact h before part after hl hno t

theorem ThreeAtMost.append_other {l : List Effect} (h : ThreeAtMost l) {x : Effect}
    (hx : transmitted [x] = []) : ThreeAtMost (l ++ [x]) := by
  apply h.append
  intro t ht
  rw [hx] at ht
  cases ht

/-! ## The counter -/

/-- The counter is there for the front only, and it counts at least the transmissions of the front
since the last ACK, but for one. -/
structure Counted (s : Tx σ) : Prop where
  fifo : Fifo s
  few : s.txRetryCount ≤ 2
  idle : s.requests = [] → s.txRetryCount = 0
  front : ∀ front ∈ s.requests.head?, attempts s.log front.ticket ≤ s.txRetryCount + 1
  three : ThreeAtMost s.log

theorem Counted.of_eq {s s' : Tx σ} (h : Counted s) (hsame : s'.books = s.books)
    (hc : s'.txRetryCount = s.txRetryCount) : Counted s' := by
  have hfifo := h.fifo.of_eq hsame
  obtain ⟨hr, -, hl⟩ := books_eq hsame
  refine ⟨hfifo, ?_, ?_, ?_, ?_⟩
  · rw [hc]
    exact h.few
  · rw [hr, hc]
    exact h.idle
  · rw [hr, hl, hc]
    exact h.front
  · rw [hl]
    exact h.three

/-- An effect that says nothing about the queue. -/
theorem Counted.emit {s : Tx σ} (h : Counted s) {x : Effect} (hop : x.op = none) :
    Counted (s.emit x) := by
  have hnone : transmitted [x] = [] := by
    cases x <;> first | rfl | cases hop
  refine ⟨h.fifo.emit hop, h.few, h.idle, fun front hf => ?_, h.three.append_other hnone⟩
  exact Nat.le_trans (attempts_emit s.log hnone _) (h.front front hf)

/-- A request that waits behind others. -/
theorem Counted.push {s : Tx σ} (h : Counted s) (r : Request) (hr : s.requests ≠ []) :
    Counted (s.push r) := by
  refine ⟨h.fifo.push r, h.few, fun hnil => ?_, fun front hf => ?_, h.three.append_other rfl⟩
  · simp at hnil
  · rw [push_requests, List.head?_append_of_ne_nil _ hr] at hf
    exact Nat.le_trans (attempts_emit s.log rfl _) (h.front front hf)

/-- The front goes out, with the transmissions that the counter leaves for it. -/
theorem counted_transmit {s : Tx σ} (hfifo : Fifo s) {front : Entry} {rest : List Entry}
    (hr : s.requests = front :: rest) (hfew : s.txRetryCount ≤ 2)
    (hsent : attempts s.log front.ticket ≤ s.txRetryCount) (hthree : ThreeAtMost s.log) :
    Counted (s.transmit env front rest) := by
  refine ⟨hfifo.transmit hr, hfew, fun hnil => ?_, fun e he => ?_, ?_⟩
  · simp at hnil
  · rw [transmit_requests, List.head?_cons, Option.mem_some] at he
    subst he
    have hone : attempts (s.transmit env front rest).log front.ticket =
        attempts s.log front.ticket + 1 := by
      unfold attempts
      rw [transmit_log, sinceAck_append _ _ (by simp), transmitted_append, List.count_append]
      simp [transmitted]
    simp only [hone]
    exact Nat.succ_le_succ hsent
  · rw [transmit_log]
    apply hthree.append
    intro t ht
    obtain rfl : t = front.ticket := List.mem_singleton.mp ht
    exact Nat.le_trans hsent hfew

/-- The front left, and the counter starts again for the next one, which was never transmitted. -/
theorem counted_pop {s : Tx σ} (hfifo : Fifo s) {front : Entry} {rest : List Entry} {x : Effect}
    (hr : s.requests = front :: rest) (hop : x.op = some (.leave front.ticket))
    (hcount : s.txRetryCount = 0) (hthree : ThreeAtMost s.log) : Counted (s.pop rest x) := by
  have hnone : transmitted [x] = [] := by
    cases x <;> first | rfl | cases hop
  refine ⟨hfifo.pop hr hop, ?_, fun _ => hcount, fun next hnext => ?_, ?_⟩
  · exact Nat.le_trans (Nat.le_of_eq hcount) (Nat.zero_le _)
  · have hbehind := hfifo.behind_front hr (List.mem_of_mem_head? hnext)
    rw [pop_log, attempts_emit_new hbehind hnone]
    exact Nat.zero_le _
  · rw [pop_log]
    exact hthree.append_other hnone

theorem answer_counted {s s' : Tx σ} {out : σ × List Request} (h : Counted s)
    (ha : s.answer env out = some s') : Counted s' := by
  apply answer_keeps ha
  · exact h.of_eq rfl rfl
  · intro t r ht hr
    have hnew : attempts (t.push r).log t.tickets ≤ t.txRetryCount := by
      rw [push_log, attempts_emit_new ht.fifo.fresh_not_transmitted rfl]
      exact Nat.zero_le _
    exact counted_transmit (ht.fifo.push r) (by simp [hr]) ht.few hnew (ht.three.append_other rfl)
  · intro t r ht hr
    exact ht.push r hr

/-- A failure sends the front once more while the counter allows it, and else it is given up. -/
theorem resendRequest_counted {s s' : Tx σ} {error : Nat} (h : Counted s)
    (hre : s.resendRequest env error = some s') : Counted s' := by
  obtain ⟨front, rest, hr, ⟨hcount, rfl⟩ | ⟨-, hcall⟩⟩ := resendRequest_cases hre
  · have hsent : attempts s.log front.ticket ≤ s.txRetryCount + 1 := by
      apply h.front
      rw [hr]
      rfl
    have hretry : Fifo ({ s with txRetryCount := s.txRetryCount + 1 } : Tx σ) := h.fifo.of_eq rfl
    exact counted_transmit hretry hr hcount hsent h.three
  · have hretry : Fifo ({ s with txRetryCount := 0 } : Tx σ) := h.fifo.of_eq rfl
    have hpop : Counted (({ s with txRetryCount := 0 } : Tx σ).pop rest (.drop front.ticket)) :=
      counted_pop hretry hr rfl rfl h.three
    exact answer_counted (hpop.emit rfl) hcall

theorem receiveNack_counted {s s' : Tx σ} (h : Counted s) (hn : s.receiveNack env = some s') :
    Counted s' := by
  have hcancel : Counted (s.cancel env s.txRetryCount) := h.of_eq rfl rfl
  rcases receiveNack_cases hn with ⟨-, rfl⟩ | ⟨-, hre⟩
  · exact hcancel
  · exact resendRequest_counted hcancel hre

/-- After an ACK both the counter and the transmissions start again. -/
theorem receiveAck_counted {s : Tx σ} (h : Counted s) : Counted (s.receiveAck env) := by
  have hfifo : Fifo (s.receiveAck env) := (h.fifo.emit (x := .ackReceived) rfl).of_eq rfl
  refine ⟨hfifo, Nat.zero_le _, fun _ => rfl, fun front _ => ?_, ?_⟩
  · have hzero : attempts (s.receiveAck env).log front.ticket = 0 := by
      unfold attempts
      rw [Tx.receiveAck, emit_log, sinceAck_ack]
      rfl
    rw [hzero]
    exact Nat.zero_le _
  · exact h.three.append_other rfl

theorem endProcedure_counted {s s' : Tx σ} {front : Entry} {rest : List Entry} (h : Counted s)
    (hr : s.requests = front :: rest) (he : s.endProcedure env front rest = some s') :
    Counted s' := by
  rw [endProcedure_eq, Option.some.injEq] at he
  subst he
  have hfifo : Fifo (s.cancel env 0) := h.fifo.of_eq rfl
  have hpop : Counted ((s.cancel env 0).pop rest (.complete front.ticket)) :=
    counted_pop hfifo hr rfl rfl h.three
  cases rest with
  | nil => exact hpop
  | cons next rest' =>
    apply counted_transmit hpop.fifo rfl hpop.few _ hpop.three
    have hbehind := h.fifo.behind_front hr List.mem_cons_self
    simp only [pop_log, cancel_log]
    rw [attempts_emit_new hbehind rfl]
    exact Nat.zero_le _

theorem receiveFrame_counted {s s' : Tx σ} {b : List UInt8} {length : Nat} (h : Counted s)
    (hb : b.length = 256) (hf : s.receiveFrame env b length = some s') : Counted s' := by
  have hack : Counted s.sendAck := (h.emit (x := .ack) rfl).of_eq rfl rfl
  obtain ⟨_, _, _, -, -, -, hcase⟩ := receiveFrame_reads hb hf
  cases hcase with
  | ended hr hfun he hcall =>
    have hend := endProcedure_counted hack hr he
    rcases hcall with ⟨-, -, hcall⟩ | ⟨-, -, hcall⟩
    · exact answer_counted (hend.emit rfl) hcall
    · exact answer_counted (hend.emit rfl) hcall
  | response hr hfun ht hs hcall => exact answer_counted (hack.emit rfl) hcall
  | ignored => exact hack
  | request hno ht hcall => exact answer_counted (hack.emit rfl) hcall
  | nothing => exact hack

theorem reacts_counted (s s' : Tx σ) (h : Counted s) (hre : Reacts env s s') : Counted s' := by
  cases hre with
  | same => exact h
  | frame hb hf => exact receiveFrame_counted h hb hf
  | sendNack => exact (h.emit (x := .nack) rfl).of_eq rfl rfl
  | receiveAck => exact receiveAck_counted h
  | receiveNack hn => exact receiveNack_counted h hn
  | error he => exact answer_counted (h.emit rfl) he

/-- A call of the application is a callback with one call. -/
theorem answer_one {s s' : Tx σ} {r : Request} (h : s.sendRequestPtr env r = some s') :
    s.answer env (s.app, [r]) = some s' := by
  simp only [Tx.answer, List.foldlM_cons, List.foldlM_nil, bind_pure]
  exact h

theorem step_counted (s : Tx σ) (e : TxEvent) (s' : Tx σ) (h : Counted s)
    (he : s.step env e = some s') : Counted s' := by
  cases e with
  | sendRequest r =>
    exact answer_counted h (answer_one he)
  | expire =>
    cases he
    exact h.of_eq rfl rfl
  | timer i =>
    simp only [Tx.step] at he
    split at he
    · cases he
      exact h
    · refine resendRequest_counted ?_ he
      exact h.of_eq rfl rfl
  | transfer k =>
    cases he
    exact h.of_eq rfl rfl
  | written i =>
    cases he
    exact h.of_eq rfl rfl
  | writeError value =>
    simp only [Tx.step] at he
    split at he
    · cases he
      exact h
    · rename_i w rest hq
      have hport : Counted ({ s with tty := { s.tty with queue := rest } } : Tx σ) :=
        h.of_eq rfl rfl
      exact answer_counted (hport.emit rfl) he

theorem counted_always (env : Env σ) (a : σ) (txBuffer rxBuffer : Buffer) (es : List Event) :
    Always (step env) (fun s => Counted s.tx) (init a txBuffer rxBuffer) es := by
  apply always_tx step_counted reacts_counted
  refine ⟨fifo_init a txBuffer, Nat.zero_le _, fun _ => rfl, ?_, ?_⟩
  · intro front hf
    cases hf
  · intro before part after hl _ t
    obtain ⟨hl, -⟩ := List.append_eq_nil_iff.mp hl.symm
    obtain ⟨-, rfl⟩ := List.append_eq_nil_iff.mp hl
    exact Nat.zero_le _

/-! ## Giving up -/

/-- An effect of a call of `sendRequest`. -/
def Effect.ofCall : Effect → Bool
  | .enqueue _ _ | .transmit _ _ _ => true
  | _ => false

/-- From `s` to `s'` no request is given up, and no error is reported for one. -/
def GivesUpNone (s s' : Tx σ) : Prop :=
  ∃ more, s'.log = s.log ++ more ∧ ∀ x ∈ more, x.drops = false ∧ x.givesUp = false

/-- The front leaves the queue, with one `onError` that carries `error`, and the counter is 0. What
the log says behind are the calls that `onError` makes. -/
def GivesUp (error : Nat) (s s' : Tx σ) : Prop :=
  ∃ front rest calls, s.requests = front :: rest ∧
    s'.log = s.log ++ .drop front.ticket :: .onError (.zWaveCategory error) :: calls ∧
    (∀ x ∈ calls, x.ofCall = true) ∧ rest.map Entry.ticket <+: s'.requests.map Entry.ticket ∧
    front.ticket ∉ s'.requests.map Entry.ticket ∧ s'.txRetryCount = 0

/-- A failure of the front sends it again, or gives it up when it is the third one. -/
def Fails (error : Nat) (s s' : Tx σ) : Prop :=
  (s.txRetryCount < 2 ∧ s'.txRetryCount = s.txRetryCount + 1 ∧ GivesUpNone s s') ∨
    (2 ≤ s.txRetryCount ∧ GivesUp error s s')

/-- A turn of the read handler: a NACK is a failure of the front, if there is one. -/
def TurnGivesUp (env : Env σ) (p q : Bool × ZWaveProtocol σ) : Prop :=
  Next env p q ∧
    if p.2.rx.unread.head? = some NACK ∧ p.2.tx.requests ≠ [] then Fails 1 p.2.tx q.2.tx
    else GivesUpNone p.2.tx q.2.tx

/-- An event: a handler of an expiry is a failure of the front, and a read is a row of turns. -/
def StepGivesUp (env : Env σ) (s : ZWaveProtocol σ) : Event → ZWaveProtocol σ → Prop
  | .tx (.timer i), s' =>
    if i < s.tx.txTimer.expired.length then Fails 2 s.tx s'.tx else s' = s
  | .read bytes, s' =>
    if s.receiving = true ∧ s.rx.rxPosition + bytes.length ≤ 256 then
      ∃ hfit frame, Relation.ReflTransGen (TurnGivesUp env) (false, s.received bytes hfit)
        (frame, s')
    else s' = s
  | _, s' => GivesUpNone s.tx s'.tx

theorem GivesUpNone.refl (s : Tx σ) : GivesUpNone s s :=
  ⟨[], (List.append_nil _).symm, fun x hx => by cases hx⟩

theorem GivesUpNone.trans {s t u : Tx σ} (hst : GivesUpNone s t) (htu : GivesUpNone t u) :
    GivesUpNone s u := by
  obtain ⟨l, hl, hno⟩ := hst
  obtain ⟨m, hm, hno'⟩ := htu
  refine ⟨l ++ m, by rw [hm, hl, List.append_assoc], ?_⟩
  intro x hx
  exact (List.mem_append.mp hx).elim (hno x) (hno' x)

theorem givesUpNone_emit {s s' : Tx σ} (x : Effect) (hx : x.drops = false ∧ x.givesUp = false)
    (hl : s'.log = s.log ++ [x]) : GivesUpNone s s' := by
  refine ⟨[x], hl, ?_⟩
  intro y hy
  obtain rfl := List.mem_singleton.mp hy
  exact hx

/-- From `s` to `s'` there are only calls of `sendRequest`: they leave the counter alone and append
to the queue. -/
structure CallsOnly (s s' : Tx σ) : Prop where
  log : ∃ calls, s'.log = s.log ++ calls ∧ ∀ x ∈ calls, x.ofCall = true
  count : s'.txRetryCount = s.txRetryCount
  queue : s.requests.map Entry.ticket <+: s'.requests.map Entry.ticket

theorem CallsOnly.snoc {s t u : Tx σ} (h : CallsOnly s t) (x : Effect) (hx : x.ofCall = true)
    (hqueue : t.requests.map Entry.ticket <+: u.requests.map Entry.ticket)
    (hl : u.log = t.log ++ [x]) (hc : u.txRetryCount = t.txRetryCount) : CallsOnly s u := by
  obtain ⟨calls, hlog, hcalls⟩ := h.log
  refine ⟨⟨calls ++ [x], by rw [hl, hlog, List.append_assoc], ?_⟩, hc.trans h.count,
    h.queue.trans hqueue⟩
  intro y hy
  rcases List.mem_append.mp hy with hy | hy
  · exact hcalls y hy
  · obtain rfl := List.mem_singleton.mp hy
    exact hx

theorem CallsOnly.push {s t : Tx σ} (h : CallsOnly s t) (r : Request) :
    CallsOnly s (t.push r) := by
  refine h.snoc (.enqueue t.tickets r) rfl ?_ rfl rfl
  rw [push_requests, List.map_append]
  exact List.prefix_append _ _

theorem answer_callsOnly {s s' : Tx σ} {out : σ × List Request}
    (ha : s.answer env out = some s') : CallsOnly s s' := by
  apply answer_keeps (P := fun t => CallsOnly s t) ha
  · refine ⟨⟨[], (List.append_nil _).symm, ?_⟩, rfl, List.prefix_refl _⟩
    intro x hx
    cases hx
  · intro t r ht hr
    refine (ht.push r).snoc (.transmit t.tickets _ _) rfl ?_ rfl rfl
    simp [hr]
  · intro t r ht _
    exact ht.push r

theorem CallsOnly.givesUpNone {s s' : Tx σ} (h : CallsOnly s s') : GivesUpNone s s' := by
  obtain ⟨calls, hlog, hcalls⟩ := h.log
  refine ⟨calls, hlog, ?_⟩
  intro x hx
  have hcall := hcalls x hx
  cases x <;> first | exact ⟨rfl, rfl⟩ | cases hcall

/-- A callback that reports no failed request. -/
theorem callback_givesUpNone {s s' : Tx σ} {x : Effect} {out : σ × List Request}
    (hx : x.drops = false ∧ x.givesUp = false) (ha : (s.emit x).answer env out = some s') :
    GivesUpNone s s' :=
  (givesUpNone_emit x hx rfl).trans (answer_callsOnly ha).givesUpNone

theorem resendRequest_fails {s s' : Tx σ} {error : Nat} (h : Counted s)
    (hre : s.resendRequest env error = some s') : Fails error s s' := by
  have hfifo := (resendRequest_counted h hre).fifo
  obtain ⟨front, rest, hr, ⟨hcount, rfl⟩ | ⟨hcount, hcall⟩⟩ := resendRequest_cases hre
  · left
    refine ⟨hcount, rfl, ?_⟩
    exact givesUpNone_emit (.transmit front.ticket _ _) ⟨rfl, rfl⟩ rfl
  · right
    obtain ⟨⟨calls, hlog, hcalls⟩, hzero, hqueue⟩ := answer_callsOnly hcall
    have hl : s'.log = s.log ++ .drop front.ticket :: .onError (.zWaveCategory error) :: calls := by
      rw [hlog, emit_log, pop_log, List.append_assoc, List.append_assoc]
      rfl
    refine ⟨hcount, front, rest, calls, hr, hl, hcalls, hqueue, ?_, hzero⟩
    intro hmem
    obtain ⟨e, he, heq⟩ := List.mem_map.mp hmem
    apply hfifo.not_gone he
    rw [hl, heq, gone, List.filterMap_append]
    exact List.mem_append_right _ List.mem_cons_self

theorem endProcedure_givesUpNone {s s' : Tx σ} {front : Entry} {rest : List Entry}
    (he : s.endProcedure env front rest = some s') : GivesUpNone s s' := by
  rw [endProcedure_eq, Option.some.injEq] at he
  subst he
  have hpop : GivesUpNone s ((s.cancel env 0).pop rest (.complete front.ticket)) :=
    givesUpNone_emit (.complete front.ticket) ⟨rfl, rfl⟩ rfl
  cases rest with
  | nil => exact hpop
  | cons next rest' =>
    exact hpop.trans (givesUpNone_emit (.transmit next.ticket _ _) ⟨rfl, rfl⟩ rfl)

theorem receiveFrame_givesUpNone {s s' : Tx σ} {b : List UInt8} {length : Nat}
    (hb : b.length = 256) (hf : s.receiveFrame env b length = some s') : GivesUpNone s s' := by
  have hack : GivesUpNone s s.sendAck := givesUpNone_emit .ack ⟨rfl, rfl⟩ rfl
  obtain ⟨_, _, _, -, -, -, hcase⟩ := receiveFrame_reads hb hf
  cases hcase with
  | ended hr hfun he hcall =>
    have hend := hack.trans (endProcedure_givesUpNone he)
    rcases hcall with ⟨-, -, hcall⟩ | ⟨-, -, hcall⟩
    · exact hend.trans (callback_givesUpNone ⟨rfl, rfl⟩ hcall)
    · exact hend.trans (callback_givesUpNone ⟨rfl, rfl⟩ hcall)
  | response hr hfun ht hs hcall => exact hack.trans (callback_givesUpNone ⟨rfl, rfl⟩ hcall)
  | ignored => exact hack
  | request hno ht hcall => exact hack.trans (callback_givesUpNone ⟨rfl, rfl⟩ hcall)
  | nothing => exact hack

theorem next_givesUp {p q : Bool × ZWaveProtocol σ} (h : Counted p.2.tx) (hgo : Next env p q) :
    TurnGivesUp env p q := by
  obtain ⟨frame, s⟩ := p
  obtain ⟨frame', s'⟩ := q
  refine ⟨hgo, ?_⟩
  have hpos : 0 < s.rx.rxPosition := by simpa [unfinished] using hgo.1
  simp only [Rx.unread_head hpos]
  have hother : ∀ b, s.rx.rxBuffer.bytes[0]? = some b → b ≠ NACK → GivesUpNone s.tx s'.tx →
      if s.rx.rxBuffer.bytes[0]? = some NACK ∧ s.tx.requests ≠ [] then Fails 1 s.tx s'.tx
      else GivesUpNone s.tx s'.tx := by
    intro b h0 hb hnone
    rw [if_neg]
    · exact hnone
    · rintro ⟨h0', -⟩
      rw [h0, Option.some.injEq] at h0'
      exact hb h0'
  cases next_cases hgo with
  | frame hl hc htx hrx =>
    apply hother SOF hl.1 (by decide)
    cases frame with
    | true =>
      simp only [if_true] at htx
      subst htx
      exact .refl _
    | false => exact receiveFrame_givesUpNone s.rx.rxBuffer.size_eq htx
  | checksum hl hc =>
    exact hother SOF hl.1 (by decide) (givesUpNone_emit .nack ⟨rfl, rfl⟩ rfl)
  | ack h0 hrx =>
    exact hother ACK h0 (by decide) (givesUpNone_emit .ackReceived ⟨rfl, rfl⟩ rfl)
  | nack h0 htx hrx =>
    rcases receiveNack_cases htx with ⟨hr, rfl⟩ | ⟨hr, hre⟩
    · rw [if_neg fun hc => hc.2 hr]
      exact .refl _
    · rw [if_pos ⟨h0, hr⟩]
      exact resendRequest_fails (s := s.tx.cancel env s.tx.txRetryCount)
        (h.of_eq rfl rfl) hre
  | can h0 hrx => exact hother CAN h0 (by decide) (.refl _)
  | unknown h0 hb => exact hother _ h0 hb.2.2.1 (.refl _)

/-- An event of the sending half that is no handler of an expiry gives nothing up. -/
theorem tx_givesUpNone {s s' : Tx σ} {e : TxEvent} (hno : ∀ i, e ≠ .timer i)
    (he : s.step env e = some s') : GivesUpNone s s' := by
  cases e with
  | sendRequest r =>
    exact (answer_callsOnly (answer_one he)).givesUpNone
  | expire =>
    cases he
    exact .refl _
  | timer i => exact absurd rfl (hno i)
  | transfer k =>
    cases he
    exact .refl _
  | written i =>
    cases he
    exact .refl _
  | writeError value =>
    simp only [Tx.step] at he
    split at he
    · cases he
      exact .refl _
    · rename_i w rest _
      exact callback_givesUpNone (s := { s with tty := { s.tty with queue := rest } })
        (x := .onError (.system value)) ⟨rfl, rfl⟩ he

theorem step_givesUp {s s' : ZWaveProtocol σ} {e : Event} (h : Counted s.tx)
    (he : step env s e = some s') : StepGivesUp env s e s' := by
  cases e with
  | tx e =>
    obtain ⟨tx, htx, rfl⟩ := Option.map_eq_some_iff.mp he
    cases e with
    | timer i =>
      simp only [StepGivesUp]
      simp only [Tx.step] at htx
      split at htx
      · rename_i hi
        cases htx
        rw [if_neg (Nat.not_lt.mpr (List.getElem?_eq_none_iff.mp hi))]
      · rename_i w hi
        rw [if_pos (List.getElem?_eq_some_iff.mp hi).1]
        have hwait : Counted ({ s.tx with
            txTimer := { s.tx.txTimer with expired := s.tx.txTimer.expired.eraseIdx i } } : Tx σ) :=
          h.of_eq rfl rfl
        have hfails := resendRequest_fails hwait htx
        exact hfails
    | _ => exact tx_givesUpNone (fun i hi => by cases hi) htx
  | read bytes =>
    simp only [StepGivesUp]
    by_cases hfit : s.receiving = true ∧ s.rx.rxPosition + bytes.length ≤ 256
    · rw [if_pos hfit]
      obtain ⟨⟨frame, t⟩, hv, -, ht⟩ := read_fits env hfit
      obtain rfl : s' = t := Option.some.inj (he.symm.trans ht)
      refine ⟨hfit.2, frame, ?_⟩
      have hturns := hv.keeps (P := fun q => Counted q.2.tx ∧
        Relation.ReflTransGen (TurnGivesUp env) (false, s.received bytes hfit.2) q) ⟨h, .refl⟩
      refine (hturns ?_).2
      rintro u v - hgo ⟨hu, hrow⟩
      exact ⟨reacts_counted _ _ hu (next_reacts hgo), hrow.tail (next_givesUp hu hgo)⟩
    · rw [if_neg hfit]
      rw [read_unfit hfit] at he
      exact (Option.some.inj he).symm
  | readError value =>
    rcases readError_cases he with rfl | ⟨tx, hcall, rfl⟩
    · exact .refl _
    · exact callback_givesUpNone ⟨rfl, rfl⟩ hcall

/-- In every run the counter is 0, 1 or 2 between two handlers, and no request is transmitted more
than three times without an ACK between. A request is given up by the third failure only, with one
error for what that failure was. -/
theorem retries_are_bounded (env : Env σ) (a : σ) (txBuffer rxBuffer : Buffer)
    (es : List Event) :
    Always (step env) (fun s => s.tx.txRetryCount ≤ 2 ∧ ThreeAtMost s.tx.log)
        (init a txBuffer rxBuffer) es ∧
      Meets (step env) (fun s e => ∀ s', step env s e = some s' → StepGivesUp env s e s')
        (init a txBuffer rxBuffer) es := by
  have halways := counted_always env a txBuffer rxBuffer es
  refine ⟨halways.mono fun s h => ⟨h.few, h.three⟩, ?_⟩
  exact halways.meets.mono fun s e h s' he => step_givesUp h he

end huasi.zwave
