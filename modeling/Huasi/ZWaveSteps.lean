-- What each function of the protocol can do, said once: when it fails, and
-- which cases it has. Every invariant of the later files is derived from the
-- cases here, and no later proof unfolds a function of the protocol.
import Huasi.ZWaveProtocol

open huasi.runs huasi.write_port

namespace huasi.zwave

variable {σ : Type} {env : Env σ}

/-! ## The parts of the state -/

section Parts

variable (s : Tx σ) (r : Request) (front : Entry) (rest : List Entry) (x : Effect) (n : Nat)

@[simp] theorem emit_log : (s.emit x).log = s.log ++ [x] := rfl

@[simp] theorem emit_requests : (s.emit x).requests = s.requests := rfl

@[simp] theorem emit_tickets : (s.emit x).tickets = s.tickets := rfl

@[simp] theorem push_log : (s.push r).log = s.log ++ [.enqueue s.tickets r] := rfl

@[simp] theorem push_requests : (s.push r).requests = s.requests ++ [⟨s.tickets, r⟩] := rfl

@[simp] theorem push_tickets : (s.push r).tickets = s.tickets + 1 := rfl

@[simp] theorem push_tty : (s.push r).tty = s.tty := rfl

@[simp] theorem pop_log : (s.pop rest x).log = s.log ++ [x] := rfl

@[simp] theorem pop_requests : (s.pop rest x).requests = rest := rfl

@[simp] theorem pop_tickets : (s.pop rest x).tickets = s.tickets := rfl

@[simp] theorem sendAck_requests : s.sendAck.requests = s.requests := rfl

@[simp] theorem cancel_log : (s.cancel env n).log = s.log := rfl

@[simp] theorem cancel_requests : (s.cancel env n).requests = s.requests := rfl

@[simp] theorem cancel_txTimer :
    (s.cancel env n).txTimer = s.txTimer.cancel env.cancelsQueued := rfl

@[simp] theorem transmit_log : (s.transmit env front rest).log = s.log ++
    [.transmit front.ticket (front.request.assign s.nextFuncId).funcId
      (((front.request.assign s.nextFuncId).encode s.txBuffer).bytes.take
        ((front.request.assign s.nextFuncId).length + 1))] := rfl

@[simp] theorem transmit_requests : (s.transmit env front rest).requests =
    ⟨front.ticket, front.request.assign s.nextFuncId⟩ :: rest := rfl

@[simp] theorem transmit_tickets : (s.transmit env front rest).tickets = s.tickets := rfl

@[simp] theorem transmit_nextFuncId : (s.transmit env front rest).nextFuncId =
    if (front.request.assign s.nextFuncId).funcId.isSome then advance s.nextFuncId
    else s.nextFuncId := rfl

@[simp] theorem transmit_txTimer : (s.transmit env front rest).txTimer =
    (s.txTimer.cancel env.cancelsQueued).asyncWait front.ticket := rfl

end Parts

/-! ## Calls of `sendRequest` -/

theorem sendRequest_cons {s : Tx σ} {front : Entry} {rest : List Entry}
    (h : s.requests = front :: rest) : s.sendRequest env = some (s.transmit env front rest) := by
  simp [Tx.sendRequest, h]

/-- A request goes out at once where the queue was empty, and else it waits. -/
theorem sendRequestPtr_eq (s : Tx σ) (r : Request) :
    s.sendRequestPtr env r = some (if s.requests = [] then
      (s.push r).transmit env ⟨s.tickets, r⟩ [] else s.push r) := by
  unfold Tx.sendRequestPtr
  by_cases h : s.requests = []
  · have hp : (s.push r).requests = [⟨s.tickets, r⟩] := by simp [h]
    simp only [hp, List.length_singleton, if_true, h]
    exact sendRequest_cons hp
  · have hp : (s.push r).requests.length ≠ 1 := by
      have hpos := List.length_pos_iff.mpr h
      simp only [push_requests, List.length_append, List.length_singleton]
      omega
    simp only [hp, h, if_false]

/-- A callback never fails. -/
theorem answer_some (env : Env σ) (s : Tx σ) (out : σ × List Request) :
    ∃ s', s.answer env out = some s' := by
  unfold Tx.answer
  exact foldlM_total (fun s r => ⟨_, sendRequestPtr_eq s r⟩) _ out.2

/-- What one call of `sendRequest` keeps, a callback keeps. -/
theorem answer_keeps {P : Tx σ → Prop} {s s' : Tx σ} {out : σ × List Request}
    (h : s.answer env out = some s') (happ : P { s with app := out.1 })
    (hcall : ∀ (t : Tx σ) (r : Request), P t → t.requests = [] →
      P ((t.push r).transmit env ⟨t.tickets, r⟩ []))
    (hwait : ∀ (t : Tx σ) (r : Request), P t → t.requests ≠ [] → P (t.push r)) : P s' := by
  unfold Tx.answer at h
  apply foldlM_keeps _ h happ
  intro t r u ht hu
  rw [sendRequestPtr_eq, Option.some.injEq] at hu
  subst hu
  split
  · exact hcall t r ht ‹_›
  · exact hwait t r ht ‹_›

/-! ## Resend and give up -/

/-- `resendRequest` sends the front again, or gives it up after the third failure. It fails on
an empty queue only. -/
theorem resendRequest_cases {s s' : Tx σ} {error : Nat} (h : s.resendRequest env error = some s') :
    ∃ front rest, s.requests = front :: rest ∧
      ((s.txRetryCount < 2 ∧
        s' = ({ s with txRetryCount := s.txRetryCount + 1 } : Tx σ).transmit env front rest) ∨
      (2 ≤ s.txRetryCount ∧
        (({ s with txRetryCount := 0 } : Tx σ).pop rest (.drop front.ticket)).onError env
          (.zWaveCategory error) = some s')) := by
  unfold Tx.resendRequest at h
  by_cases hnil : s.requests = []
  · simp [Tx.sendRequest, hnil] at h
  · obtain ⟨front, rest, hr⟩ := List.exists_cons_of_ne_nil hnil
    refine ⟨front, rest, hr, ?_⟩
    by_cases hc : s.txRetryCount + 1 < 3
    · left
      have hsend : ({ s with txRetryCount := s.txRetryCount + 1 } : Tx σ).sendRequest env =
          some _ := sendRequest_cons hr
      rw [if_pos hc, hsend] at h
      exact ⟨by omega, (Option.some.inj h).symm⟩
    · right
      rw [if_neg hc] at h
      simp only [hr] at h
      exact ⟨by omega, h⟩

theorem resendRequest_some (env : Env σ) {s : Tx σ} (error : Nat) (h : s.requests ≠ []) :
    ∃ s', s.resendRequest env error = some s' := by
  obtain ⟨front, rest, hr⟩ := List.exists_cons_of_ne_nil h
  unfold Tx.resendRequest
  by_cases hc : s.txRetryCount + 1 < 3
  · rw [if_pos hc]
    exact ⟨_, sendRequest_cons hr⟩
  · rw [if_neg hc]
    simp only [hr]
    exact answer_some env _ _

theorem resendRequest_nil {s : Tx σ} (error : Nat) (h : s.requests = []) :
    s.resendRequest env error = none := by
  unfold Tx.resendRequest
  simp [Tx.sendRequest, h]

/-- NACK: nothing but the cancel where no request waits, and else a resend. -/
theorem receiveNack_cases {s s' : Tx σ} (h : s.receiveNack env = some s') :
    (s.requests = [] ∧ s' = s.cancel env s.txRetryCount) ∨
      (s.requests ≠ [] ∧ (s.cancel env s.txRetryCount).resendRequest env 1 = some s') := by
  unfold Tx.receiveNack at h
  by_cases hr : s.requests = []
  · left
    have he : (s.cancel env s.txRetryCount).requests.isEmpty = true := by simp [hr]
    simp only [he, if_true, Option.some.injEq] at h
    exact ⟨hr, h.symm⟩
  · right
    have he : (s.cancel env s.txRetryCount).requests.isEmpty = false := by
      simp [hr]
    simp only [he, Bool.false_eq_true, if_false] at h
    exact ⟨hr, h⟩

theorem receiveNack_some (env : Env σ) (s : Tx σ) : ∃ s', s.receiveNack env = some s' := by
  unfold Tx.receiveNack
  by_cases hr : s.requests = []
  · exact ⟨_, by simp [hr]; rfl⟩
  · have he : (s.cancel env s.txRetryCount).requests.isEmpty = false := by
      simp [hr]
    simp only [he, Bool.false_eq_true, if_false]
    exact resendRequest_some env 1 hr

/-! ## A frame -/

/-- The end of a procedure leaves the queue empty, or sends the next request. -/
theorem endProcedure_eq (s : Tx σ) (front : Entry) (rest : List Entry) :
    s.endProcedure env front rest = some (match rest with
      | [] => (s.cancel env 0).pop [] (.complete front.ticket)
      | next :: rest' =>
        ((s.cancel env 0).pop (next :: rest') (.complete front.ticket)).transmit env next rest') := by
  unfold Tx.endProcedure
  cases rest with
  | nil => rfl
  | cons next rest' =>
    simp only [List.isEmpty_cons, Bool.false_eq_true, if_false]
    exact sendRequest_cons rfl

/-- What a frame of type `frameType` with the byte `id` at offset 4 does. -/
inductive FrameCase (env : Env σ) (s : Tx σ) (frameType function id : UInt8)
    (payload request : List UInt8) (length : Int) : Tx σ → Prop where
  | ended {front rest s₁ s'} (hr : s.requests = front :: rest)
      (hf : front.request.function = function)
      (he : s.sendAck.endProcedure env front rest = some s₁)
      (hcall : (frameType = RESPONSE ∧ front.request.funcId = none ∧
          s₁.onResponse env front payload (length - 3) = some s') ∨
        (frameType = REQUEST ∧ front.request.funcId = some id ∧
          s₁.onSendRequest env front payload (length - 3) = some s')) :
      FrameCase env s frameType function id payload request length s'
  | response {front rest s'} (hr : s.requests = front :: rest)
      (hf : front.request.function = function) (ht : frameType = RESPONSE)
      (hs : front.request.funcId.isSome = true)
      (hcall : s.sendAck.onResponse env front payload (length - 3) = some s') :
      FrameCase env s frameType function id payload request length s'
  | ignored {front rest} (hr : s.requests = front :: rest)
      (hf : front.request.function = function) (ht : frameType ≠ RESPONSE)
      (hid : ¬ (frameType = REQUEST ∧ front.request.funcId = some id)) :
      FrameCase env s frameType function id payload request length s.sendAck
  | request {s'} (hno : ∀ front rest, s.requests = front :: rest →
        front.request.function ≠ function) (ht : frameType = REQUEST)
      (hcall : s.sendAck.onRequest env request (length - 2) = some s') :
      FrameCase env s frameType function id payload request length s'
  | nothing (hno : ∀ front rest, s.requests = front :: rest →
        front.request.function ≠ function) (ht : frameType ≠ REQUEST) :
      FrameCase env s frameType function id payload request length s.sendAck

theorem REQUEST_ne_RESPONSE : REQUEST ≠ RESPONSE := by decide

theorem receiveFrame_cases {s s' : Tx σ} {b : List UInt8} {length : Nat}
    {frameType function id : UInt8} (h2 : b[2]? = some frameType) (h3 : b[3]? = some function)
    (h4 : b[4]? = some id) (h : s.receiveFrame env b length = some s') :
    FrameCase env s frameType function id ((b.drop 4).take (length - 3))
      ((b.drop 3).take (length - 2)) length s' := by
  have hne := REQUEST_ne_RESPONSE
  have hreq : s.sendAck.requests = s.requests := rfl
  simp only [Tx.receiveFrame, h2, h3, h4, Option.bind_eq_bind, Option.bind_some, hreq] at h
  by_cases hmatch : ∃ front rest, s.requests = front :: rest ∧ front.request.function = function
  · obtain ⟨front, rest, hr, hf⟩ := hmatch
    simp only [hr, List.head?_cons, hf, if_true, List.tail_cons] at h
    by_cases ht : frameType = RESPONSE
    · subst ht
      cases hs : front.request.funcId with
      | none =>
        simp only [decide_true, hs, Option.isNone_none, Bool.and_true, Bool.true_or, if_true,
          endProcedure_eq, Option.bind_some] at h
        exact .ended hr hf (endProcedure_eq _ _ _) (Or.inl ⟨rfl, hs, h⟩)
      | some f =>
        simp only [decide_true, hs, Option.isNone_some, Bool.and_false, Bool.false_or,
          hne.symm, decide_false, Bool.false_and, Bool.false_eq_true, if_false, if_true,
          Option.bind_some] at h
        exact .response hr hf rfl (by simp [hs]) h
    · by_cases hid : frameType = REQUEST ∧ front.request.funcId = some id
      · obtain ⟨rfl, hid⟩ := hid
        simp only [hne, decide_false, Bool.false_and, decide_true, hid, Bool.and_true,
          Bool.or_true, if_true, endProcedure_eq, Option.bind_some, Bool.false_eq_true,
          if_false] at h
        exact .ended hr hf (endProcedure_eq _ _ _) (Or.inr ⟨rfl, hid, h⟩)
      · have hno : (decide (frameType = REQUEST) && decide (front.request.funcId = some id)) =
            false := by
          rw [← Bool.not_eq_true, Bool.and_eq_true, decide_eq_true_iff, decide_eq_true_iff]
          exact hid
        simp only [ht, decide_false, Bool.false_and, hno, Bool.or_false, Bool.false_eq_true,
          if_false, Option.bind_some, Option.some.injEq] at h
        subst h
        exact .ignored hr hf ht hid
  · have hno : ∀ front rest, s.requests = front :: rest →
        front.request.function ≠ function :=
      fun front rest hr hf => hmatch ⟨front, rest, hr, hf⟩
    have h' : (if frameType = REQUEST then
        s.sendAck.onRequest env ((b.drop 3).take (length - 2)) ((length : Int) - 2)
        else some s.sendAck) = some s' := by
      cases hr : s.requests with
      | nil => simpa only [hr, List.head?_nil] using h
      | cons front rest =>
        simpa only [hr, List.head?_cons, hno front rest hr, if_false] using h
    by_cases ht : frameType = REQUEST
    · rw [if_pos ht] at h'
      exact .request hno ht h'
    · rw [if_neg ht, Option.some.injEq] at h'
      subst h'
      exact .nothing hno ht

/-- The buffer has a byte at each of the offsets. -/
theorem receiveFrame_reads {s s' : Tx σ} {b : List UInt8} {length : Nat} (hb : b.length = 256)
    (h : s.receiveFrame env b length = some s') :
    ∃ frameType function id, b[2]? = some frameType ∧ b[3]? = some function ∧ b[4]? = some id ∧
      FrameCase env s frameType function id ((b.drop 4).take (length - 3))
        ((b.drop 3).take (length - 2)) length s' := by
  have h2 : b[2]? = some b[2] := List.getElem?_eq_getElem (by omega)
  have h3 : b[3]? = some b[3] := List.getElem?_eq_getElem (by omega)
  have h4 : b[4]? = some b[4] := List.getElem?_eq_getElem (by omega)
  exact ⟨_, _, _, h2, h3, h4, receiveFrame_cases h2 h3 h4 h⟩

theorem endProcedure_some (env : Env σ) (s : Tx σ) (front : Entry) (rest : List Entry) :
    ∃ s', s.endProcedure env front rest = some s' := ⟨_, endProcedure_eq s front rest⟩

/-- The handling of a frame never fails while the buffer has a byte at each fixed offset. -/
theorem receiveFrame_some (env : Env σ) (s : Tx σ) {b : List UInt8} (length : Nat)
    (hb : 5 ≤ b.length) : ∃ s', s.receiveFrame env b length = some s' := by
  simp only [Tx.receiveFrame, Option.bind_eq_bind,
    List.getElem?_eq_getElem (show 2 < b.length by omega),
    List.getElem?_eq_getElem (show 3 < b.length by omega),
    List.getElem?_eq_getElem (show 4 < b.length by omega), Option.bind_some]
  split
  · rename_i front _
    split
    · obtain ⟨s₁, h₁⟩ : ∃ s₁, (if (decide (b[2] = RESPONSE) && front.request.funcId.isNone ||
          decide (b[2] = REQUEST) && decide (front.request.funcId = some b[4])) = true then
          s.sendAck.endProcedure env front s.sendAck.requests.tail else some s.sendAck) =
          some s₁ := by
        split
        · exact endProcedure_some env _ _ _
        · exact ⟨_, rfl⟩
      rw [h₁, Option.bind_some]
      split
      · exact answer_some env _ _
      · split
        · exact answer_some env _ _
        · exact ⟨_, rfl⟩
    · split
      · exact answer_some env _ _
      · exact ⟨_, rfl⟩
  · split
    · exact answer_some env _ _
    · exact ⟨_, rfl⟩

/-! ## One turn of the loop -/

theorem Buffer.getElem?_some (b : Buffer) {i : Nat} (h : i < 256) : ∃ x, b.bytes[i]? = some x :=
  ⟨_, List.getElem?_eq_getElem (by rw [b.size_eq]; exact h)⟩

theorem Rx.remove_some {rx : Rx} {n : Nat} (h : n ≤ rx.rxPosition) :
    ∃ rx', rx.remove n = some rx' := by
  unfold Rx.remove
  rw [if_pos h]
  exact ⟨_, rfl⟩

theorem Rx.remove_position {rx rx' : Rx} {n : Nat} (h : rx.remove n = some rx') :
    n ≤ rx.rxPosition ∧ rx'.rxPosition = rx.rxPosition - n := by
  unfold Rx.remove at h
  split at h
  · cases h
    exact ⟨‹_›, rfl⟩
  · cases h

/-- The buffer starts with a frame that is not complete. -/
def Rx.Incomplete (rx : Rx) : Prop :=
  rx.rxBuffer.bytes[0]? = some SOF ∧
    (rx.rxPosition < 3 ∨ ∃ l, rx.rxBuffer.bytes[1]? = some l ∧ rx.rxPosition < 2 + l.toNat)

/-- The buffer starts with a complete frame with length byte `l`. -/
def Rx.Complete (rx : Rx) (l : UInt8) : Prop :=
  rx.rxBuffer.bytes[0]? = some SOF ∧ rx.rxBuffer.bytes[1]? = some l ∧ 3 ≤ rx.rxPosition ∧
    2 + l.toNat ≤ rx.rxPosition

/-- The checksum of the frame with length byte `l` is ok. -/
def Rx.Checked (rx : Rx) (l : UInt8) : Prop :=
  rx.rxBuffer.bytes[2 + l.toNat - 1]? = some (calcChecksum (rx.rxBuffer.bytes.drop 1) l.toNat)

instance (rx : Rx) (l : UInt8) : Decidable (rx.Complete l) := inferInstanceAs (Decidable (_ ∧ _))

instance (rx : Rx) (l : UInt8) : Decidable (rx.Checked l) := inferInstanceAs (Decidable (_ = _))

theorem Rx.unread_head {rx : Rx} (h : 0 < rx.rxPosition) :
    rx.unread.head? = rx.rxBuffer.bytes[0]? := by
  unfold Rx.unread
  rw [List.head?_take, if_neg (by omega), List.head?_eq_getElem?]

/-- The cases of one turn of the loop. -/
inductive TurnCase (env : Env σ) (frame : Bool) (s : ZWaveProtocol σ) :
    Turn (Bool × ZWaveProtocol σ) → Prop where
  | incomplete (h : s.rx.Incomplete) : TurnCase env frame s .leave
  | frame {l tx rx} (hl : s.rx.Complete l) (hc : s.rx.Checked l)
      (htx : if frame then tx = s.tx else
        s.tx.receiveFrame env s.rx.rxBuffer.bytes l.toNat = some tx)
      (hrx : s.rx.remove (2 + l.toNat) = some rx) :
      TurnCase env frame s (.again (true, { s with tx, rx }))
  | checksum {l} (hl : s.rx.Complete l) (hc : ¬ s.rx.Checked l) :
      TurnCase env frame s (.again (frame, { s with tx := s.tx.sendNack, rx := s.rx.clear }))
  | ack {rx} (h0 : s.rx.rxBuffer.bytes[0]? = some ACK) (hrx : s.rx.remove 1 = some rx) :
      TurnCase env frame s (.again (frame, { s with tx := s.tx.receiveAck env, rx }))
  | nack {tx rx} (h0 : s.rx.rxBuffer.bytes[0]? = some NACK)
      (htx : s.tx.receiveNack env = some tx) (hrx : s.rx.remove 1 = some rx) :
      TurnCase env frame s (.again (frame, { s with tx, rx }))
  | can {rx} (h0 : s.rx.rxBuffer.bytes[0]? = some CAN) (hrx : s.rx.remove 1 = some rx) :
      TurnCase env frame s (.again (frame, { s with rx }))
  | unknown {b} (h0 : s.rx.rxBuffer.bytes[0]? = some b)
      (hb : b ≠ SOF ∧ b ≠ ACK ∧ b ≠ NACK ∧ b ≠ CAN) :
      TurnCase env frame s (.again (frame, { s with rx := s.rx.clear }))

theorem turnFrame_cases {frame : Bool} {s : ZWaveProtocol σ}
    (h0 : s.rx.rxBuffer.bytes[0]? = some SOF) :
    ∃ r, turnFrame env frame s = some r ∧ TurnCase env frame s r := by
  obtain ⟨l, h1⟩ := s.rx.rxBuffer.getElem?_some (i := 1) (by omega)
  have hpos := s.rx.position_le
  unfold turnFrame
  by_cases h3 : 3 ≤ s.rx.rxPosition
  · simp only [h3, if_true, h1, Option.bind_eq_bind, Option.bind_some]
    by_cases hl : 2 + l.toNat ≤ s.rx.rxPosition
    · obtain ⟨c, hc⟩ := s.rx.rxBuffer.getElem?_some (i := 2 + l.toNat - 1) (by omega)
      have hcomplete : s.rx.Complete l := ⟨h0, h1, h3, hl⟩
      simp only [hl, if_true, hc, Option.bind_some]
      by_cases hsum : c = calcChecksum (s.rx.rxBuffer.bytes.drop 1) l.toNat
      · obtain ⟨rx, hrx⟩ := Rx.remove_some hl
        have hchecked : s.rx.Checked l := by
          unfold Rx.Checked
          rw [hc, hsum]
        simp only [hsum, if_true, hrx]
        cases frame with
        | true => exact ⟨_, rfl, .frame hcomplete hchecked rfl hrx⟩
        | false =>
          obtain ⟨tx, htx⟩ := receiveFrame_some env s.tx
            (b := s.rx.rxBuffer.bytes) l.toNat (by rw [s.rx.rxBuffer.size_eq]; omega)
          simp only [htx, Bool.false_eq_true, if_false]
          exact ⟨_, rfl, .frame hcomplete hchecked htx hrx⟩
      · have hchecked : ¬ s.rx.Checked l := by
          unfold Rx.Checked
          rw [hc, Option.some.injEq]
          exact hsum
        simp only [hsum, if_false]
        exact ⟨_, rfl, .checksum hcomplete hchecked⟩
    · simp only [hl, if_false]
      exact ⟨_, rfl, .incomplete ⟨h0, Or.inr ⟨l, h1, by omega⟩⟩⟩
  · simp only [h3, if_false]
    exact ⟨_, rfl, .incomplete ⟨h0, Or.inl (by omega)⟩⟩

/-- A turn never fails, and it is one of the cases. -/
theorem turn_cases (env : Env σ) (frame : Bool) (s : ZWaveProtocol σ)
    (h : unfinished (frame, s) = true) :
    ∃ r, turn env (frame, s) = some r ∧ TurnCase env frame s r := by
  have hpos : 0 < s.rx.rxPosition := by simpa [unfinished] using h
  obtain ⟨b, h0⟩ := s.rx.rxBuffer.getElem?_some (i := 0) (by omega)
  obtain ⟨rx, hrx⟩ := Rx.remove_some hpos
  simp only [turn, h0, Option.bind_eq_bind, Option.bind_some]
  by_cases hsof : b = SOF
  · rw [if_pos hsof]
    exact turnFrame_cases (by rw [h0, hsof])
  · rw [if_neg hsof]
    by_cases hack : b = ACK
    · rw [if_pos hack, hrx, Option.bind_some]
      exact ⟨_, rfl, .ack (by rw [h0, hack]) hrx⟩
    · rw [if_neg hack]
      by_cases hnack : b = NACK
      · obtain ⟨tx, htx⟩ := receiveNack_some env s.tx
        rw [if_pos hnack, hrx, Option.bind_some, htx, Option.bind_some]
        exact ⟨_, rfl, .nack (by rw [h0, hnack]) htx hrx⟩
      · rw [if_neg hnack]
        by_cases hcan : b = CAN
        · rw [if_pos hcan, hrx, Option.bind_some]
          exact ⟨_, rfl, .can (by rw [h0, hcan]) hrx⟩
        · rw [if_neg hcan]
          exact ⟨_, rfl, .unknown h0 ⟨hsof, hack, hnack, hcan⟩⟩

theorem turn_ack {frame : Bool} {s : ZWaveProtocol σ} {rx : Rx}
    (h0 : s.rx.rxBuffer.bytes[0]? = some ACK) (hrx : s.rx.remove 1 = some rx) :
    turn env (frame, s) = some (.again (frame, { s with tx := s.tx.receiveAck env, rx })) := by
  simp [turn, h0, hrx, SOF, ACK]

theorem turn_nack {frame : Bool} {s : ZWaveProtocol σ} {rx : Rx} {tx : Tx σ}
    (h0 : s.rx.rxBuffer.bytes[0]? = some NACK) (hrx : s.rx.remove 1 = some rx)
    (htx : s.tx.receiveNack env = some tx) :
    turn env (frame, s) = some (.again (frame, { s with tx, rx })) := by
  simp [turn, h0, hrx, htx, SOF, ACK, NACK]

theorem turn_can {frame : Bool} {s : ZWaveProtocol σ} {rx : Rx}
    (h0 : s.rx.rxBuffer.bytes[0]? = some CAN) (hrx : s.rx.remove 1 = some rx) :
    turn env (frame, s) = some (.again (frame, { s with rx })) := by
  simp [turn, h0, hrx, SOF, ACK, NACK, CAN]

theorem turn_incomplete {frame : Bool} {s : ZWaveProtocol σ} (h : s.rx.Incomplete) :
    turn env (frame, s) = some .leave := by
  obtain ⟨h0, h⟩ := h
  simp only [turn, h0, Option.bind_eq_bind, Option.bind_some, if_true]
  unfold turnFrame
  by_cases h3 : 3 ≤ s.rx.rxPosition
  · obtain hlt | ⟨l, h1, hl⟩ := h
    · omega
    · have hl' : ¬ 2 + l.toNat ≤ s.rx.rxPosition := by omega
      simp only [h3, if_true, h1, Option.bind_eq_bind, Option.bind_some, hl', if_false]
  · simp only [h3, if_false]

theorem turn_complete (env : Env σ) (frame : Bool) {s : ZWaveProtocol σ} {l : UInt8} {rx : Rx}
    (hl : s.rx.Complete l) (hc : s.rx.Checked l) (hrx : s.rx.remove (2 + l.toNat) = some rx) :
    ∃ tx, turn env (frame, s) = some (.again (true, { s with tx, rx })) ∧
      if frame then tx = s.tx else
        s.tx.receiveFrame env s.rx.rxBuffer.bytes l.toNat = some tx := by
  obtain ⟨h0, h1, h3, hpos⟩ := hl
  unfold Rx.Checked at hc
  simp only [turn, h0, turnFrame, h1, h3, hpos, hc, hrx, if_true, Option.bind_eq_bind,
    Option.bind_some]
  cases frame with
  | true => exact ⟨s.tx, rfl, rfl⟩
  | false =>
    obtain ⟨tx, htx⟩ := receiveFrame_some env s.tx (b := s.rx.rxBuffer.bytes) l.toNat
      (by rw [s.rx.rxBuffer.size_eq]; omega)
    refine ⟨tx, ?_, htx⟩
    simp only [Bool.false_eq_true, if_false, htx, Option.bind_some]

/-! ## The whole handler -/

/-- The loop goes from one turn to the next. -/
abbrev Next (env : Env σ) : Bool × ZWaveProtocol σ → Bool × ZWaveProtocol σ → Prop :=
  Goes unfinished (turn env)

theorem next_cases {frame frame' : Bool} {s s' : ZWaveProtocol σ}
    (h : Next env (frame, s) (frame', s')) : TurnCase env frame s (.again (frame', s')) := by
  obtain ⟨r, hr, hc⟩ := turn_cases env frame s h.1
  rw [h.2, Option.some.injEq] at hr
  exact hr ▸ hc

/-- Each turn that goes on takes a byte away at least. -/
theorem next_decreases {p q : Bool × ZWaveProtocol σ} (h : Next env p q) :
    q.2.rx.rxPosition < p.2.rx.rxPosition := by
  obtain ⟨frame, s⟩ := p
  obtain ⟨frame', s'⟩ := q
  have hpos : 0 < s.rx.rxPosition := by simpa [unfinished] using h.1
  cases next_cases h with
  | frame hl hc htx hrx =>
    have := Rx.remove_position hrx
    simp only
    omega
  | checksum => exact hpos
  | ack h0 hrx =>
    have := Rx.remove_position hrx
    simp only
    omega
  | nack h0 htx hrx =>
    have := Rx.remove_position hrx
    simp only
    omega
  | can h0 hrx =>
    have := Rx.remove_position hrx
    simp only
    omega
  | unknown => exact hpos

/-- The loop comes to its head in a state, in the handler of a read. -/
abbrev Visited (env : Env σ) : Bool × ZWaveProtocol σ → Bool × ZWaveProtocol σ → Prop :=
  Visits unfinished (turn env)

/-- The handler of a read never fails, and its loop ends. -/
theorem handleRead_spec (env : Env σ) (s : ZWaveProtocol σ) :
    ∃ t, Visited env (false, s) t ∧ Ends unfinished (turn env) t ∧
      handleRead env s = some t.2 := by
  rcases loop_spec unfinished (turn env) (fun p => p.2.rx.rxPosition)
      (fun p hp => by simpa [unfinished] using hp) (fun p q hpq => next_decreases hpq)
      (n := s.rx.rxPosition) (s := (false, s)) (Nat.le_refl _) with
    ⟨t, -, hg, hb, -⟩ | ⟨t, hv, he, hl⟩
  · obtain ⟨r, hr, -⟩ := turn_cases env t.1 t.2 hg
    rw [hb] at hr
    cases hr
  · exact ⟨t, hv, he, by simp [handleRead, hl]⟩

theorem ZWaveProtocol.room (s : ZWaveProtocol σ) {bytes : List UInt8}
    (hfit : s.receiving = true ∧ s.rx.rxPosition + bytes.length ≤ 256) :
    s.rx.rxPosition + bytes.length ≤ 256 := hfit.2

/-- The states at the head of the loop in the handler of a read: none for a read that cannot
happen. -/
def readTurns (env : Env σ) (s : ZWaveProtocol σ) (bytes : List UInt8) :
    List (Bool × ZWaveProtocol σ) :=
  if hfit : s.receiving = true ∧ s.rx.rxPosition + bytes.length ≤ 256 then
    heads unfinished (turn env) (s.rx.rxPosition + bytes.length)
      (false, s.received bytes (s.room hfit))
  else []

theorem mem_readTurns {s : ZWaveProtocol σ} {bytes : List UInt8}
    (hfit : s.receiving = true ∧ s.rx.rxPosition + bytes.length ≤ 256)
    {p : Bool × ZWaveProtocol σ} :
    p ∈ readTurns env s bytes ↔ Visited env (false, s.received bytes hfit.2) p := by
  unfold readTurns
  rw [dif_pos hfit]
  exact mem_heads unfinished (turn env) (fun p => p.2.rx.rxPosition)
    (fun _ _ hgo => next_decreases hgo) (Nat.le_refl _)

theorem visited_receiving {p q : Bool × ZWaveProtocol σ} (h : Visited env p q) :
    q.2.receiving = p.2.receiving := by
  apply h.keeps (P := fun q => q.2.receiving = p.2.receiving) rfl
  rintro ⟨frame, s⟩ ⟨frame', s'⟩ - hgo hs
  cases next_cases hgo <;> exact hs

/-- What a turn of the loop or an error of the port does to the sending half. -/
inductive Reacts (env : Env σ) (s : Tx σ) : Tx σ → Prop where
  | same : Reacts env s s
  | frame {b : List UInt8} {length : Nat} {s'} (hb : b.length = 256)
      (h : s.receiveFrame env b length = some s') : Reacts env s s'
  | sendNack : Reacts env s s.sendNack
  | receiveAck : Reacts env s (s.receiveAck env)
  | receiveNack {s'} (h : s.receiveNack env = some s') : Reacts env s s'
  | error {value : Int} {s'} (h : s.onError env (.system value) = some s') : Reacts env s s'

theorem next_reacts {p q : Bool × ZWaveProtocol σ} (h : Next env p q) :
    Reacts env p.2.tx q.2.tx := by
  obtain ⟨frame, s⟩ := p
  obtain ⟨frame', s'⟩ := q
  cases next_cases h with
  | frame hl hc htx hrx =>
    cases frame with
    | true =>
      simp only [if_true] at htx
      subst htx
      exact .same
    | false => exact .frame s.rx.rxBuffer.size_eq htx
  | checksum => exact .sendNack
  | ack => exact .receiveAck
  | nack h0 htx hrx => exact .receiveNack htx
  | can => exact .same
  | unknown => exact .same

/-- A read that fits runs its handler to the end of the loop. -/
theorem read_fits (env : Env σ) {s : ZWaveProtocol σ} {bytes : List UInt8}
    (hfit : s.receiving = true ∧ s.rx.rxPosition + bytes.length ≤ 256) :
    ∃ t, Visited env (false, s.received bytes hfit.2) t ∧ Ends unfinished (turn env) t ∧
      step env s (.read bytes) = some t.2 := by
  obtain ⟨t, hv, he, ht⟩ := handleRead_spec env (s.received bytes hfit.2)
  refine ⟨t, hv, he, ?_⟩
  simp only [step, dif_pos hfit, ht]

theorem read_unfit {s : ZWaveProtocol σ} {bytes : List UInt8}
    (hfit : ¬ (s.receiving = true ∧ s.rx.rxPosition + bytes.length ≤ 256)) :
    step env s (.read bytes) = some s := by
  simp only [step, dif_neg hfit]

theorem read_cases {s s' : ZWaveProtocol σ} {bytes : List UInt8}
    (h : step env s (.read bytes) = some s') :
    s' = s ∨ ∃ (hfit : s.receiving = true ∧ s.rx.rxPosition + bytes.length ≤ 256) (frame : Bool),
      Visited env (false, s.received bytes hfit.2) (frame, s') ∧
        Ends unfinished (turn env) (frame, s') := by
  by_cases hfit : s.receiving = true ∧ s.rx.rxPosition + bytes.length ≤ 256
  · obtain ⟨⟨frame, t⟩, hv, he, ht⟩ := read_fits env hfit
    rw [h, Option.some.injEq] at ht
    subst ht
    exact Or.inr ⟨hfit, frame, hv, he⟩
  · rw [read_unfit hfit, Option.some.injEq] at h
    exact Or.inl h.symm

theorem readError_cases {s s' : ZWaveProtocol σ} {value : Int}
    (h : step env s (.readError value) = some s') :
    s' = s ∨ ∃ tx, s.tx.onError env (.system value) = some tx ∧
      s' = { s with tx, receiving := false } := by
  simp only [step] at h
  split at h
  · obtain ⟨tx, he, rfl⟩ := Option.map_eq_some_iff.mp h
    exact Or.inr ⟨tx, he, rfl⟩
  · cases h
    exact Or.inl rfl

/-- Only a handler of an expiry can fail. -/
theorem step_some (env : Env σ) (s : ZWaveProtocol σ) {e : Event} (he : ∀ i, e ≠ .tx (.timer i)) :
    ∃ s', step env s e = some s' := by
  cases e with
  | tx e =>
    have htx : ∃ tx, s.tx.step env e = some tx := by
      cases e with
      | sendRequest r => exact ⟨_, sendRequestPtr_eq _ _⟩
      | timer i => exact absurd rfl (he i)
      | writeError value =>
        simp only [Tx.step]
        split
        · exact ⟨_, rfl⟩
        · exact answer_some env _ _
      | _ => exact ⟨_, rfl⟩
    obtain ⟨tx, htx⟩ := htx
    exact ⟨{ s with tx }, by simp only [step, htx, Option.map_some]⟩
  | read bytes =>
    by_cases hfit : s.receiving = true ∧ s.rx.rxPosition + bytes.length ≤ 256
    · obtain ⟨t, -, -, ht⟩ := read_fits env hfit
      exact ⟨_, ht⟩
    · exact ⟨_, read_unfit hfit⟩
  | readError value =>
    simp only [step]
    split
    · obtain ⟨tx, htx⟩ : ∃ tx, s.tx.onError env (.system value) = some tx := answer_some env _ _
      rw [htx]
      exact ⟨_, rfl⟩
    · exact ⟨_, rfl⟩

/-- What every reaction keeps holds at each turn of a read. -/
theorem readTurns_keeps {P : Tx σ → Prop} (hreact : ∀ s s', P s → Reacts env s s' → P s')
    {s : ZWaveProtocol σ} {bytes : List UInt8} {p : Bool × ZWaveProtocol σ} (hs : P s.tx)
    (hp : p ∈ readTurns env s bytes) : P p.2.tx := by
  by_cases hfit : s.receiving = true ∧ s.rx.rxPosition + bytes.length ≤ 256
  · rw [mem_readTurns hfit] at hp
    exact hp.keeps (P := fun q => P q.2.tx) hs fun u v _ hgo hu => hreact _ _ hu (next_reacts hgo)
  · rw [readTurns, dif_neg hfit] at hp
    cases hp

/-- What every reaction keeps, an event of the receiving half keeps. -/
theorem receive_keeps {P : Tx σ → Prop} (hreact : ∀ s s', P s → Reacts env s s' → P s')
    {s s' : ZWaveProtocol σ} {e : Event} (he : ∀ x, e ≠ .tx x) (hs : P s.tx)
    (h : step env s e = some s') : P s'.tx := by
  cases e with
  | tx x => exact absurd rfl (he x)
  | read bytes =>
    rcases read_cases h with rfl | ⟨hfit, frame, hv, -⟩
    · exact hs
    · exact hv.keeps (P := fun q => P q.2.tx) hs
        fun u v _ hgo hu => hreact _ _ hu (next_reacts hgo)
  | readError value =>
    rcases readError_cases h with rfl | ⟨tx, he, rfl⟩
    · exact hs
    · exact hreact _ _ hs (.error he)

/-- What every event of the sending half and every reaction keep, every event keeps. -/
theorem step_keeps {P : Tx σ → Prop} (htx : ∀ s e s', P s → s.step env e = some s' → P s')
    (hreact : ∀ s s', P s → Reacts env s s' → P s') (s : ZWaveProtocol σ) (e : Event)
    (s' : ZWaveProtocol σ) (hs : P s.tx) (h : step env s e = some s') : P s'.tx := by
  cases e with
  | tx e =>
    obtain ⟨tx, he, rfl⟩ := Option.map_eq_some_iff.mp h
    exact htx _ _ _ hs he
  | read bytes => exact receive_keeps hreact (by simp) hs h
  | readError value => exact receive_keeps hreact (by simp) hs h

/-- What holds at the start and is kept by every event and reaction always holds. -/
theorem always_tx {P : Tx σ → Prop} (htx : ∀ s e s', P s → s.step env e = some s' → P s')
    (hreact : ∀ s s', P s → Reacts env s s' → P s') {a : σ} {txBuffer rxBuffer : Buffer}
    (hinit : P (.init a txBuffer)) (es : List Event) :
    Always (step env) (fun s => P s.tx) (init a txBuffer rxBuffer) es :=
  always_of_step (step_keeps htx hreact) _ _ hinit

end huasi.zwave
