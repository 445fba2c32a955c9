-- Retries of EnOcean packets. The counter counts the timeouts of the front of the queue, so no
-- request is sent more than three times without a packet received between. Where `cancel` is
-- effective, a request is given up exactly when it was sent three times.
import Huasi.EnOceanQueue
import Huasi.Marks

open huasi.receive_buffer huasi.runs huasi.fifo_log huasi.marks
open huasi.zwave (Timer)

namespace huasi.enocean

variable {σ : Type} {env : Env σ}

/-! ## Transmissions between two packets -/

/-- A packet was received. -/
def Effect.received : Effect → Bool
  | .onResponse .. | .onRequest .. => true
  | _ => false

def Effect.transmits : Effect → Option Nat
  | .transmit t _ => some t
  | _ => none

/-- How often request `t` was transmitted since the last packet was received. -/
def attempts (l : List Effect) (t : Nat) : Nat := recent Effect.received Effect.transmits l t

/-- In no part of the log without a packet received is a request transmitted more than three
times. -/
def ThreeAtMost (l : List Effect) : Prop := AtMost Effect.received Effect.transmits 3 l

/-- A request is dropped only when it was transmitted three times since the last packet. -/
def DropsAfterThree (l : List Effect) : Prop :=
  ∀ before t after, l = before ++ .drop t :: after → attempts before t = 3

theorem transmitted_eq (l : List Effect) : transmitted l = l.filterMap Effect.transmits := by
  unfold transmitted
  congr 1

theorem attempts_new {l : List Effect} {t : Nat} (h : t ∉ transmitted l) : attempts l t = 0 :=
  recent_new (transmitted_eq l ▸ h)

theorem DropsAfterThree.append {l : List Effect} (h : DropsAfterThree l) {x : Effect}
    (hx : ∀ t, x = .drop t → attempts l t = 3) : DropsAfterThree (l ++ [x]) := by
  intro before t after hl
  rcases List.eq_nil_or_concat after with rfl | ⟨after, y, rfl⟩
  · obtain ⟨rfl, hxt⟩ := List.append_inj' hl rfl
    exact hx t (List.singleton_inj.mp hxt)
  · rw [List.concat_eq_append, ← List.cons_append, ← List.append_assoc] at hl
    obtain ⟨hl, -⟩ := List.append_inj' hl rfl
    exact h before t after hl

/-! ## The front and the requests behind it -/

section Books

variable {owed : Option Nat} {s : Tx σ}

/-- A request that was transmitted has left, or is the front. -/
theorem Books.left_or_front (h : Books owed s) {t : Nat} (ht : t ∈ transmitted s.log) :
    t ∈ gone s.log ∨ (s.requests.map Entry.ticket).head? = some t := by
  obtain ⟨x, hx, hxt⟩ := List.mem_filterMap.mp ht
  obtain ⟨l, m, hl⟩ := List.append_of_mem hx
  have hops : ops s.log = ops l ++ .serve t :: ops m := by
    rw [hl, ops_append]
    cases x <;> simp only [Option.some.injEq, reduceCtorEq] at hxt
    rw [hxt]
    rfl
  have hp := h.played
  rw [hops] at hp
  refine (served_left_or_front hp).imp (fun hleft => ?_) id
  rwa [← left_ops, hops]

/-- The ticket of the next request was not transmitted. -/
theorem Books.fresh (h : Books owed s) : s.tickets ∉ transmitted s.log := by
  intro ht
  have hmem : s.tickets ∈ accepted s.log := by
    rw [h.account, List.mem_append]
    exact (h.left_or_front ht).imp id List.mem_of_mem_head?
  rw [h.tickets, List.mem_range] at hmem
  exact Nat.lt_irrefl _ hmem

/-- A request behind the front was never transmitted. -/
theorem Books.behind (h : Books owed s) {front e : Entry} {rest : List Entry}
    (hr : s.requests = front :: rest) (he : e ∈ rest) : e.ticket ∉ transmitted s.log := by
  intro ht
  have hn := h.nodup
  rw [h.account, hr, List.map_cons, List.nodup_append, List.nodup_cons] at hn
  obtain ⟨-, ⟨hfront, -⟩, hapart⟩ := hn
  have hmem : e.ticket ∈ rest.map Entry.ticket := List.mem_map_of_mem he
  rcases h.left_or_front ht with hgone | hhead
  · exact hapart _ hgone _ (List.mem_cons_of_mem _ hmem) rfl
  · rw [hr, List.map_cons, List.head?_cons, Option.some.injEq] at hhead
    exact hfront (hhead ▸ hmem)

end Books

/-! ## The counter -/

/-- The counter is there for the front only, and it counts at least the transmissions of the front
since the last packet, but for one. Where `cancel` is effective and a timeout waits, it counts
exactly these. -/
structure Counted (env : Env σ) (owed : Option Nat) (s : Tx σ) : Prop where
  books : Books owed s
  few : s.txRetryCount ≤ 2
  idle : s.requests = [] → s.txRetryCount = 0
  front : ∀ front ∈ s.requests.head?, attempts s.log front.ticket ≤ s.txRetryCount + 1
  three : ThreeAtMost s.log
  paced : env.cancelsQueued = true → s.txTimer.waits ≠ [] → ∀ front ∈ s.requests.head?,
    attempts s.log front.ticket = s.txRetryCount + 1
  drops : env.cancelsQueued = true → DropsAfterThree s.log

variable {owed : Option Nat} {s s' : Tx σ} {front : Entry} {rest : List Entry}

theorem counted_init (a : σ) (txBuffer : Buffer UInt8 BUFFER_SIZE) :
    Counted env none (.init a txBuffer) where
  books := books_init a txBuffer
  few := Nat.zero_le 2
  idle _ := rfl
  front _ hf := by cases hf
  three := atMost_nil
  paced _ _ _ hf := by cases hf
  drops _ before t after hl := by
    have hlen := congrArg List.length hl
    simp [Tx.init] at hlen

theorem Counted.of_eq (h : Counted env owed s) (hsame : s'.books = s.books)
    (hcount : s'.txRetryCount = s.txRetryCount)
    (hwaits : s.txTimer.waits = [] → s'.txTimer.waits = []) : Counted env owed s' := by
  obtain ⟨hr, -, hl⟩ : s'.requests = s.requests ∧ s'.tickets = s.tickets ∧ s'.log = s.log := by
    simpa only [Tx.books, Prod.mk.injEq] using hsame
  refine ⟨h.books.of_eq hsame, ?_, ?_, ?_, ?_, ?_, ?_⟩
  · rw [hcount]
    exact h.few
  · rw [hr, hcount]
    exact h.idle
  · rw [hr, hl, hcount]
    exact h.front
  · rw [hl]
    exact h.three
  · intro hcancel hne
    rw [hr, hl, hcount]
    exact h.paced hcancel fun hnil => hne (hwaits hnil)
  · rw [hl]
    exact h.drops

/-- The front was not sent since the last packet, and the counter starts again. -/
theorem counted_anew (hb : Books owed s) (hcount : s.txRetryCount = 0)
    (hnew : ∀ front ∈ s.requests.head?, attempts s.log front.ticket = 0)
    (hthree : ThreeAtMost s.log) (hwaits : env.cancelsQueued = true → s.txTimer.waits = [])
    (hdrops : env.cancelsQueued = true → DropsAfterThree s.log) : Counted env owed s where
  books := hb
  few := by omega
  idle _ := hcount
  front front hf := by
    rw [hnew front hf]
    exact Nat.zero_le _
  three := hthree
  paced hcancel hne := absurd (hwaits hcancel) hne
  drops := hdrops

/-- The front goes out, with the transmissions that the counter leaves for it. -/
theorem counted_transmit (hb : Books owed s) (hr : s.requests = front :: rest)
    (hfew : s.txRetryCount ≤ 2) (hsent : attempts s.log front.ticket ≤ s.txRetryCount)
    (hthree : ThreeAtMost s.log)
    (hpaced : env.cancelsQueued = true → attempts s.log front.ticket = s.txRetryCount)
    (hdrops : env.cancelsQueued = true → DropsAfterThree s.log) :
    Counted env owed (s.transmit env front) := by
  have hlog := transmit_log env s front
  have hhead : ∀ e ∈ (s.transmit env front).requests.head?, e = front := by
    intro e he
    simpa [transmit_requests, hr, eq_comm] using he
  have hone : attempts (s.transmit env front).log front.ticket =
      attempts s.log front.ticket + 1 := by
    rw [hlog]
    exact recent_found _ rfl rfl
  refine ⟨hb.transmit hr, hfew, fun hnil => ?_, fun e he => ?_, ?_, fun hcancel _ e he => ?_,
    fun hcancel => ?_⟩
  · rw [transmit_requests, hr] at hnil
    cases hnil
  · rw [hhead e he, hone]
    exact Nat.succ_le_succ hsent
  · rw [hlog]
    apply hthree.append
    intro t ht
    obtain rfl : front.ticket = t := Option.some.inj ht
    exact Nat.lt_succ_of_le (Nat.le_trans hsent hfew)
  · rw [hhead e he, hone, hpaced hcancel]
    rfl
  · rw [hlog]
    exact (hdrops hcancel).append fun t ht => by cases ht

/-- A request that waits behind others. -/
theorem Counted.push (h : Counted env owed s) (r : Request) (hr : s.requests ≠ []) :
    Counted env owed (s.push r) := by
  have hlog : (s.push r).log = s.log ++ [.enqueue s.tickets r] := rfl
  have hhead : (s.push r).requests.head? = s.requests.head? := by
    rw [push_requests]
    exact List.head?_append_of_ne_nil _ hr
  have hsame : ∀ t, attempts (s.push r).log t = attempts s.log t := recent_skip _ rfl rfl
  refine ⟨h.books.push r, h.few, fun hnil => ?_, fun e he => ?_, ?_, fun hcancel hne e he => ?_,
    fun hcancel => ?_⟩
  · simp at hnil
  · rw [hsame]
    exact h.front e (hhead ▸ he)
  · exact h.three.append_other rfl
  · rw [hsame]
    exact h.paced hcancel hne e (hhead ▸ he)
  · exact (h.drops hcancel).append fun t ht => by cases ht

/-- A request for an idle protocol goes out at once. -/
theorem Counted.push_transmit (h : Counted env owed s) (r : Request) (hr : s.requests = []) :
    Counted env owed ((s.push r).transmit env ⟨s.tickets, r⟩) := by
  have hcount : s.txRetryCount = 0 := h.idle hr
  have hnew : attempts (s.push r).log s.tickets = 0 :=
    (recent_skip _ rfl rfl _).trans (attempts_new h.books.fresh)
  have hone : (s.push r).requests = [⟨s.tickets, r⟩] := by simp [hr]
  apply counted_transmit (h.books.push r) hone
  · exact h.few
  · exact hnew.trans_le (Nat.zero_le _)
  · exact h.three.append_other rfl
  · exact fun _ => hnew.trans hcount.symm
  · exact fun hcancel => (h.drops hcancel).append fun t ht => by cases ht

/-- `onError` is no packet. -/
theorem Counted.onError (h : Counted env owed s) (error : Error) :
    Counted env owed (s.emit (.onError error)) := by
  have hsame : ∀ t, attempts (s.emit (.onError error)).log t = attempts s.log t :=
    recent_skip _ rfl rfl
  refine ⟨h.books.note rfl, h.few, h.idle, fun e he => ?_, h.three.append_other rfl,
    fun hcancel hne e he => ?_, fun hcancel => ?_⟩
  · rw [hsame]
    exact h.front e he
  · rw [hsame]
    exact h.paced hcancel hne e he
  · exact (h.drops hcancel).append fun t ht => by cases ht

/-! ## What each function keeps -/

theorem answer_counted {out : σ × List Request} (h : Counted env owed s)
    (ha : s.answer env out = some s') : Counted env owed s' := by
  apply answer_keeps ha
  · exact h.of_eq rfl rfl id
  · intro t r ht hr
    exact ht.push_transmit r hr
  · intro t r ht hr
    exact ht.push r hr

/-- A callback does not touch the counter. -/
theorem answer_count {out : σ × List Request} (ha : s.answer env out = some s') :
    s'.txRetryCount = s.txRetryCount := by
  apply answer_keeps (P := fun t => t.txRetryCount = s.txRetryCount) ha
  · rfl
  · exact fun _ _ ht _ => ht
  · exact fun _ _ ht _ => ht

theorem onError_counted {value : Int} (h : Counted env none s)
    (he : s.onError env (.system value) = some s') : Counted env none s' :=
  answer_counted (h.onError _) he

/-- A timeout sends the front once more while the counter allows it, and else it is given up. -/
theorem resendRequest_counted (h : Counted env none s)
    (hwaits : env.cancelsQueued = true → s.txTimer.waits = [] ∧
      ∀ front ∈ s.requests.head?, attempts s.log front.ticket = s.txRetryCount + 1)
    (hre : s.resendRequest env 2 = some s') : Counted env none s' := by
  cases hr : s.requests with
  | nil => simp [Tx.resendRequest, Tx.sendRequest, hr] at hre
  | cons front rest =>
    have hfront : front ∈ s.requests.head? := by simp [hr]
    rcases resendRequest_cases env 2 hr with ⟨hcount, heq⟩ | ⟨hcount, heq⟩
    · rw [heq, Option.some.injEq] at hre
      subst hre
      have hretry : Books none ({ s with txRetryCount := s.txRetryCount + 1 } : Tx σ) :=
        h.books.of_eq rfl
      exact counted_transmit hretry hr (Nat.succ_le_of_lt hcount) (h.front front hfront) h.three
        (fun hcancel => (hwaits hcancel).2 front hfront) h.drops
    · rw [heq] at hre
      have hretry : Books none ({ s with txRetryCount := 0 } : Tx σ) := h.books.of_eq rfl
      have hdrop : ∀ x, Effect.transmits x = none → Effect.received x = false →
          ∀ t, attempts (s.log ++ [.drop front.ticket] ++ [x]) t = attempts s.log t :=
        fun x hx hno t => (recent_skip _ hno hx t).trans (recent_skip _ rfl rfl t)
      refine answer_counted (counted_anew (hretry.drop hr) rfl ?_ ?_ ?_ ?_) hre
      · intro next hnext
        have hbehind := h.books.behind hr (List.mem_of_mem_head? hnext)
        exact (hdrop _ rfl rfl _).trans (attempts_new hbehind)
      · exact (h.three.append_other rfl).append_other rfl
      · exact fun hcancel => (hwaits hcancel).1
      · intro hcancel
        have hexact := (hwaits hcancel).2 front hfront
        have hfew := h.few
        refine ((h.drops hcancel).append fun t ht => ?_).append fun t ht => by cases ht
        obtain rfl : front.ticket = t := by simpa using ht
        omega

/-- The counter and the transmissions start again with each packet. -/
theorem packet_counted {owed' : Option Nat} {x : Effect} (h : Counted env none s)
    (hb : Books owed' ((s.cancel env).emit x)) (hx : x.received = true) :
    Counted env owed' ((s.cancel env).emit x) := by
  have hnone : x.transmits = none := by
    cases x <;> first | rfl | cases hx
  apply counted_anew hb rfl
  · exact fun e _ => recent_mark _ hx _
  · exact h.three.append_other hnone
  · exact fun hcancel => cancel_waits hcancel s
  · exact fun hcancel => (h.drops hcancel).append fun t ht => by
      subst ht
      cases hx

/-- The front is completed, and the next request was not sent yet. -/
theorem complete_counted (h : Counted env front.ticket s) (hr : s.requests = front :: rest)
    (hcount : s.txRetryCount = 0) (hwaits : env.cancelsQueued = true → s.txTimer.waits = []) :
    Counted env none (s.pop rest (.complete front.ticket)) ∧
      ∀ next ∈ rest.head?, attempts (s.log ++ [.complete front.ticket]) next.ticket = 0 := by
  have hnew : ∀ next ∈ rest.head?,
      attempts (s.log ++ [.complete front.ticket]) next.ticket = 0 := by
    intro next hnext
    have hbehind := h.books.behind hr (List.mem_of_mem_head? hnext)
    exact (recent_skip _ rfl rfl _).trans (attempts_new hbehind)
  refine ⟨counted_anew (h.books.complete hr) hcount hnew ?_ hwaits ?_, hnew⟩
  · exact h.three.append_other rfl
  · exact fun hcancel => (h.drops hcancel).append fun t ht => by cases ht

theorem receivePacket_counted {packetType : UInt8} {data optionalData : List UInt8}
    (h : Counted env none s) (hp : s.receivePacket env packetType data optionalData = some s') :
    Counted env none s' := by
  have hcancel : Books none (s.cancel env) := h.books.of_eq rfl
  have hresponse : ∀ {front s₁ rest}, (s.cancel env).onResponse env front data optionalData =
      some s₁ → s.requests ≠ [] → s₁.requests = front :: rest →
      Counted env none (s₁.pop rest (.complete front.ticket)) ∧ s₁.txRetryCount = 0 ∧
        ∀ next ∈ rest.head?, attempts (s₁.log ++ [.complete front.ticket]) next.ticket = 0 := by
    intro front s₁ rest hcall hqueue hr
    have hbooks := hcancel.respond (response_front hcall hqueue hr) data optionalData
    have hcount : s₁.txRetryCount = 0 := answer_count hcall
    obtain ⟨-, -, -, htimer⟩ := answer_waiting hcall hqueue
    obtain ⟨hdone, hnew⟩ := complete_counted
      (answer_counted (packet_counted h hbooks rfl) hcall) hr hcount
      fun hc => (congrArg Timer.waits htimer).trans (cancel_waits hc s)
    exact ⟨hdone, hcount, hnew⟩
  cases packetCase_of_receive hp with
  | last htype hcall hqueue hr => exact (hresponse hcall hqueue hr).1
  | @next front next rest s₁ htype hcall hqueue hr =>
    obtain ⟨hdone, hcount, hnew⟩ := hresponse hcall hqueue hr
    have hzero := hnew next rfl
    apply counted_transmit hdone.books rfl
    · exact hdone.few
    · exact hzero.trans_le (Nat.zero_le _)
    · exact hdone.three
    · exact fun _ => hzero.trans hcount.symm
    · exact hdone.drops
  | request hother hcall =>
    exact answer_counted (packet_counted h (hcancel.note rfl) rfl) hcall

theorem tx_counted {e : TxEvent} (h : Counted env none s)
    (hone : env.cancelsQueued = true → OneWait s) (he : s.step env e = some s') :
    Counted env none s' := by
  cases tx_cases he with
  | sendRequest hcall => exact answer_counted h hcall
  | expire =>
    refine h.of_eq rfl rfl fun hnil => ?_
    obtain ⟨hpending, hexpired⟩ := List.append_eq_nil_iff.mp hnil
    simp [Timer.expire, Timer.waits, hpending, hexpired]
  | @timer i w _ hw hresend =>
    have hkept : Counted env none { s with
        txTimer := { s.txTimer with expired := s.txTimer.expired.eraseIdx i } } := by
      refine h.of_eq rfl rfl fun hnil => ?_
      obtain ⟨-, hexpired⟩ := List.append_eq_nil_iff.mp hnil
      rw [hexpired] at hw
      cases hw
    refine resendRequest_counted hkept (fun hcancel => ?_) hresend
    obtain ⟨hne, hnil⟩ := one_wait (hone hcancel) hw
    exact ⟨hnil, h.paced hcancel hne⟩
  | port tty hstarted => exact h.of_eq rfl rfl id
  | error tty hstarted hcall =>
    refine onError_counted ?_ hcall
    exact h.of_eq rfl rfl id

theorem step_counted (s : EnOceanProtocol σ) (e : Event) (t : EnOceanProtocol σ)
    (h : Counted env none s.tx ∧ (env.cancelsQueued = true → OneWait s.tx))
    (ht : step env s e = some t) :
    Counted env none t.tx ∧ (env.cancelsQueued = true → OneWait t.tx) := by
  obtain ⟨hcounted, hone⟩ := h
  refine ⟨?_, fun hcancel => ?_⟩
  · apply step_keeps ht hcounted
    · intro x tx _ hx
      exact tx_counted hcounted hone hx
    · intro u tx packetType data optionalData hu hreceive
      exact receivePacket_counted hu hreceive
    · intro tx value hcall
      exact onError_counted hcounted hcall
  · obtain ⟨u, hu, hwait, -⟩ := step_inProgress hcancel (hone hcancel) e
    rw [ht, Option.some.injEq] at hu
    exact hu ▸ hwait

/-! ## Every run -/

/-- In every run the counter stays below three, and no request is sent more than three times
without a packet received between; where `cancel` is effective, a request is given up only when
it was sent three times. -/
theorem packets_are_sent_three_times (env : Env σ) (a : σ)
    (txBuffer rxBuffer : Buffer UInt8 BUFFER_SIZE) (es : List Event) :
    Always (step env) (fun s => s.tx.txRetryCount ≤ 2 ∧ ThreeAtMost s.tx.log ∧
        (env.cancelsQueued = true → DropsAfterThree s.tx.log)) (init a txBuffer rxBuffer) es := by
  have hstart : Counted env none (init a txBuffer rxBuffer).tx ∧
      (env.cancelsQueued = true → OneWait (init a txBuffer rxBuffer).tx) :=
    ⟨counted_init a txBuffer, fun _ => oneWait_of_nil rfl⟩
  exact (always_of_step step_counted _ es hstart).mono fun s h =>
    ⟨h.1.few, h.1.three, h.1.drops⟩

end huasi.enocean
