-- Messages on the serial line. The bytes sent are whole messages as long as
-- no write starts before the last one is complete. The protocol does not wait
-- for that, so here is how many writes each event starts, and from it exactly
-- which runs keep the messages whole.
import Huasi.ZWaveMoves
import Huasi.ZWaveRequests

open huasi.runs huasi.write_port

namespace huasi.zwave

variable {σ : Type} {env : Env σ}

/-! ## Whole messages -/

/-- The messages that were written, in order. -/
def written (log : List Effect) : List (List UInt8) :=
  log.filterMap fun
    | .transmit _ _ frame => some frame
    | .ack => some [ACK]
    | .nack => some [NACK]
    | _ => none

/-- The bytes sent are the first bytes of a row of whole messages. -/
def SentWhole (s : Tx σ) : Prop :=
  ∃ messages : List (List UInt8),
    (∀ m ∈ messages, m ∈ written s.log) ∧ s.tty.sent <+: messages.flatten

/-- Messages are whole on the line, the buffer of a write does not change before the write is
complete, and no two writes are in progress. -/
structure WholeMessages (s : Tx σ) : Prop where
  whole : SentWhole s
  kept : ∀ w ∈ s.tty.incomplete, (s.memory w.source).take w.size = w.message
  alone : s.tty.incomplete.length ≤ 1

/-- The port is in order, and it was given the messages that were written. -/
structure Line (s : Tx σ) : Prop where
  orderly : Orderly s.memory s.tty
  started : s.tty.started = written s.log

/-! ## How many writes an event starts -/

/-- The writes of a callback: where the queue is empty, its first request goes out. -/
def callWrites (requests : List Entry) (out : σ × List Request) : Nat :=
  if requests.isEmpty && !out.2.isEmpty then 1 else 0

/-- The writes at the end of a procedure: the next request, or the one of the callback. -/
def endWrites (rest : List Entry) (out : σ × List Request) : Nat :=
  if rest.isEmpty then callWrites [] out else 1

/-- The writes of a failure: the front again, or the request of the callback. -/
def resendWrites (env : Env σ) (s : Tx σ) (error : Nat) : Nat :=
  match s.requests with
  | [] => 0
  | _ :: rest =>
    if s.txRetryCount < 2 then 1
    else callWrites rest (env.app.onError s.app (.zWaveCategory error))

/-- The writes of a frame: its ACK, and what follows where it ends the procedure of the front or
where the application answers a request. -/
def frameWrites (env : Env σ) (s : Tx σ) (rxBuffer : List UInt8) (length : Nat) : Nat :=
  let payload := (rxBuffer.drop 4).take (length - 3)
  1 + match s.requests with
  | [] =>
    if rxBuffer[2]? = some REQUEST then
      callWrites [] (env.app.onRequest s.app ((rxBuffer.drop 3).take (length - 2))
        ((length : Int) - 2))
    else 0
  | front :: rest =>
    if rxBuffer[3]? = some front.request.function then
      if rxBuffer[2]? = some RESPONSE ∧ front.request.funcId = none then
        endWrites rest (env.app.onResponse s.app front payload ((length : Int) - 3))
      else if rxBuffer[2]? = some REQUEST ∧ front.request.funcId.isSome = true ∧
          rxBuffer[4]? = front.request.funcId then
        endWrites rest (env.app.onSendRequest s.app front payload ((length : Int) - 3))
      else 0
    else 0

/-- The writes of one turn of the read handler. -/
def turnWrites (env : Env σ) : Bool × ZWaveProtocol σ → Nat
  | (frame, s) =>
    if s.rx.unread.head? = some NACK then resendWrites env s.tx 1
    else
      match s.rx.rxBuffer.bytes[1]? with
      | none => 0
      | some l =>
        if s.rx.Complete l then
          if s.rx.Checked l then
            if frame then 0 else frameWrites env s.tx s.rx.rxBuffer.bytes l.toNat
          else 1
        else 0

/-- No write starts, or a single one on an idle port. -/
def StartsAlone (s : Tx σ) (writes : Nat) : Prop :=
  writes = 0 ∨ writes = 1 ∧ s.tty.incomplete.length = 0

/-- Where the event starts writes, it starts one, on an idle port: a call of `sendRequest` with an
empty queue, a failure, a frame or what does not look like one. -/
def WritesAlone (env : Env σ) (s : ZWaveProtocol σ) : Event → Prop
  | .tx (.sendRequest _) => StartsAlone s.tx (if s.tx.requests.isEmpty then 1 else 0)
  | .tx (.timer i) =>
    i < s.tx.txTimer.expired.length → StartsAlone s.tx (resendWrites env s.tx 2)
  | .read bytes => ∀ p ∈ readTurns env s bytes, StartsAlone p.2.tx (turnWrites env p)
  | .readError value =>
    s.receiving = true →
      StartsAlone s.tx (callWrites s.tx.requests (env.app.onError s.tx.app (.system value)))
  | _ => True

instance (s : Tx σ) (writes : Nat) : Decidable (StartsAlone s writes) :=
  inferInstanceAs (Decidable (_ ∨ _ ∧ _))

instance (s : ZWaveProtocol σ) : ∀ e, Decidable (WritesAlone env s e)
  | .tx (.sendRequest _) =>
    inferInstanceAs (Decidable (StartsAlone s.tx (if s.tx.requests.isEmpty then 1 else 0)))
  | .tx (.timer i) =>
    inferInstanceAs (Decidable (i < s.tx.txTimer.expired.length →
      StartsAlone s.tx (resendWrites env s.tx 2)))
  | .read bytes =>
    inferInstanceAs (Decidable (∀ p ∈ readTurns env s bytes,
      StartsAlone p.2.tx (turnWrites env p)))
  | .readError value =>
    inferInstanceAs (Decidable (s.receiving = true → StartsAlone s.tx
      (callWrites s.tx.requests (env.app.onError s.tx.app (.system value)))))
  | .tx .expire | .tx (.transfer _) | .tx (.written _) | .tx (.writeError _) =>
    inferInstanceAs (Decidable True)

/-! ## Each function starts that many -/

/-- The number of writes that are not complete. -/
def Tx.writes (s : Tx σ) : Nat := s.tty.incomplete.length

theorem transmit_writes (s : Tx σ) (front : Entry) (rest : List Entry) :
    (s.transmit env front rest).writes = s.writes + 1 :=
  incomplete_asyncWrite _ _

theorem sendAck_writes (s : Tx σ) : s.sendAck.writes = s.writes + 1 :=
  incomplete_asyncWrite _ _

theorem sendNack_writes (s : Tx σ) : s.sendNack.writes = s.writes + 1 :=
  incomplete_asyncWrite _ _

/-- With a request at the front, a callback starts no write. -/
theorem waiting_answer {s s' : Tx σ} {out : σ × List Request} (hr : s.requests ≠ [])
    (h : s.answer env out = some s') : s'.writes = s.writes := by
  have hkeep : s'.requests ≠ [] ∧ s'.writes = s.writes := by
    apply answer_keeps (P := fun t => t.requests ≠ [] ∧ t.writes = s.writes) h
    · exact ⟨hr, rfl⟩
    · intro t r ht hnil
      exact absurd hnil ht.1
    · intro t r ht _
      exact ⟨by simp, ht.2⟩
  exact hkeep.2

theorem answer_writes {s s' : Tx σ} {out : σ × List Request} (h : s.answer env out = some s') :
    s'.writes = s.writes + callWrites s.requests out := by
  by_cases hr : s.requests = []
  · obtain ⟨a, calls⟩ := out
    cases calls with
    | nil =>
      cases h
      simp [callWrites, Tx.writes]
    | cons r rs =>
      -- the first request goes out, and the others wait behind it
      have hfirst : (((({ s with app := a } : Tx σ).push r).transmit env ⟨s.tickets, r⟩
          []).answer env (a, rs)) = some s' := by
        rw [← h, Tx.answer, Tx.answer, List.foldlM_cons, sendRequestPtr_eq, if_pos hr]
        rfl
      rw [waiting_answer (List.cons_ne_nil _ _) hfirst, transmit_writes]
      simp [callWrites, hr, Tx.writes]
  · rw [waiting_answer hr h]
    simp [callWrites, hr]

theorem resendRequest_writes {s s' : Tx σ} {error : Nat}
    (h : s.resendRequest env error = some s') :
    s'.writes = s.writes + resendWrites env s error := by
  obtain ⟨front, rest, hr, ⟨hlt, rfl⟩ | ⟨hle, hcall⟩⟩ := resendRequest_cases h
  · rw [transmit_writes]
    simp only [resendWrites, hr, if_pos hlt]
    rfl
  · rw [answer_writes hcall]
    have hnot : ¬ s.txRetryCount < 2 := by omega
    simp only [resendWrites, hr, if_neg hnot]
    rfl

theorem receiveNack_writes {s s' : Tx σ} (h : s.receiveNack env = some s') :
    s'.writes = s.writes + resendWrites env s 1 := by
  rcases receiveNack_cases h with ⟨hr, rfl⟩ | ⟨-, hre⟩
  · simp only [resendWrites, hr]
    rfl
  · have hwrites := resendRequest_writes hre
    exact hwrites

/-- The end of a procedure and the callback that follows. -/
theorem ended_writes {s s₁ s' : Tx σ} {front : Entry} {rest : List Entry} {x : Effect}
    {out : σ × List Request} (he : s.endProcedure env front rest = some s₁)
    (hcall : (s₁.emit x).answer env out = some s') :
    s'.writes = s.writes + endWrites rest out := by
  rw [endProcedure_eq, Option.some.injEq] at he
  subst he
  rw [answer_writes hcall]
  cases rest with
  | nil => rfl
  | cons next rest' =>
    change (Tx.transmit env _ next rest').writes + 0 = _
    rw [transmit_writes]
    rfl

theorem endProcedure_app {s s₁ : Tx σ} {front : Entry} {rest : List Entry}
    (h : s.endProcedure env front rest = some s₁) : s₁.app = s.app := by
  rw [endProcedure_eq, Option.some.injEq] at h
  subst h
  cases rest <;> rfl

theorem receiveFrame_writes {s s' : Tx σ} {b : List UInt8} {length : Nat} (hb : b.length = 256)
    (h : s.receiveFrame env b length = some s') :
    s'.writes = s.writes + frameWrites env s b length := by
  obtain ⟨type, function, id, h2, h3, h4, hcase⟩ := receiveFrame_reads hb h
  have hack := sendAck_writes s
  unfold frameWrites
  simp only [h2, h3, h4, Option.some.injEq]
  cases hcase with
  | @ended front rest s₁ _ hr hf he hcall =>
    have happ : s₁.app = s.app := endProcedure_app (s := s.sendAck) he
    rcases hcall with ⟨rfl, hnone, hcall⟩ | ⟨rfl, hid, hcall⟩
    · rw [ended_writes he hcall, hack, happ]
      simp only [hr, hf, hnone, if_true, and_self]
      omega
    · rw [ended_writes he hcall, hack, happ]
      simp only [hr, hf, hid, REQUEST_ne_RESPONSE, false_and, if_false, if_true, and_self,
        Option.isSome_some]
      omega
  | @response front rest _ hr hf ht hs hcall =>
    subst ht
    have hbusy : s.sendAck.requests ≠ [] := by simp [hr]
    have hsome : front.request.funcId ≠ none := Option.isSome_iff_ne_none.mp hs
    rw [waiting_answer (s := s.sendAck.emit _) hbusy hcall]
    simp only [hr, hf, hsome, REQUEST_ne_RESPONSE.symm, and_false, false_and, if_false, if_true]
    exact hack
  | @ignored front rest hr hf ht hid =>
    simp only [hr, hf, ht, false_and, if_false, if_true]
    rw [if_neg]
    · exact hack
    · rintro ⟨hreq, -, hsome⟩
      exact hid ⟨hreq, hsome.symm⟩
  | request hno ht hcall =>
    rw [answer_writes hcall]
    cases hr : s.requests with
    | nil =>
      simp only [ht, if_true]
      change s.sendAck.writes + callWrites s.requests _ = _
      rw [hack, hr, Nat.add_assoc]
      rfl
    | cons front rest =>
      simp only [Ne.symm (hno front rest hr), if_false]
      change s.sendAck.writes + callWrites s.requests _ = _
      rw [hack, hr]
      rfl
  | nothing hno ht =>
    cases hr : s.requests with
    | nil =>
      simp only [ht, if_false]
      exact hack
    | cons front rest =>
      simp only [Ne.symm (hno front rest hr), if_false]
      exact hack

/-- Without a NACK and without a complete frame, a turn starts no write. -/
theorem turnWrites_zero (env : Env σ) (frame : Bool) {s : ZWaveProtocol σ}
    (hnack : s.rx.unread.head? ≠ some NACK) (hl : ∀ l, ¬ s.rx.Complete l) :
    turnWrites env (frame, s) = 0 := by
  simp only [turnWrites, if_neg hnack]
  split
  · rfl
  · rw [if_neg (hl _)]

theorem next_writes {p q : Bool × ZWaveProtocol σ} (h : Next env p q) :
    q.2.tx.writes = p.2.tx.writes + turnWrites env p := by
  obtain ⟨frame, s⟩ := p
  obtain ⟨frame', s'⟩ := q
  have hpos : 0 < s.rx.rxPosition := by simpa [unfinished] using h.1
  have hhead : s.rx.unread.head? = s.rx.rxBuffer.bytes[0]? := Rx.unread_head hpos
  have quiet : ∀ {b : UInt8}, s.rx.rxBuffer.bytes[0]? = some b → b ≠ NACK → b ≠ SOF →
      s.tx.writes = s.tx.writes + turnWrites env (frame, s) := by
    intro b h0 hnack hsof
    rw [turnWrites_zero env frame (by rw [hhead, h0]; simpa using hnack)]
    · rfl
    · rintro l ⟨h0', -⟩
      rw [h0, Option.some.injEq] at h0'
      exact hsof h0'
  cases next_cases h with
  | frame hl hc htx hrx =>
    simp only [turnWrites, hhead]
    rw [hl.1, hl.2.1, if_neg (by decide)]
    cases frame with
    | true =>
      simp only [if_true] at htx ⊢
      rw [htx, if_pos hl, if_pos hc]
      rfl
    | false =>
      simp only [if_pos hl, if_pos hc, Bool.false_eq_true, if_false]
      exact receiveFrame_writes s.rx.rxBuffer.size_eq htx
  | checksum hl hc =>
    simp only [turnWrites, hhead]
    rw [hl.1, hl.2.1, if_neg (by decide)]
    simp only [if_pos hl, if_neg hc]
    exact sendNack_writes s.tx
  | nack h0 htx hrx =>
    simp only [turnWrites, hhead]
    rw [h0, if_pos rfl]
    exact receiveNack_writes htx
  | ack h0 hrx =>
    apply quiet h0
    · decide
    · decide
  | can h0 hrx =>
    apply quiet h0
    · decide
    · decide
  | unknown h0 hb => exact quiet h0 hb.2.2.1 hb.1

/-- The turn that ends the loop starts no write. -/
theorem ends_writes {frame : Bool} {s : ZWaveProtocol σ}
    (h : Ends unfinished (turn env) (frame, s)) : turnWrites env (frame, s) = 0 := by
  cases hg : unfinished (frame, s) with
  | false =>
    have hzero : s.rx.rxPosition = 0 := by simpa [unfinished] using hg
    apply turnWrites_zero
    · simp [Rx.unread, hzero]
    · rintro l ⟨-, -, h3, -⟩
      omega
  | true =>
    have hpos : 0 < s.rx.rxPosition := by simpa [unfinished] using hg
    obtain ⟨r, hr, hcase⟩ := turn_cases env frame s hg
    rcases h with hg' | hleave
    · rw [hg] at hg'
      cases hg'
    · rw [hr, Option.some.injEq] at hleave
      subst hleave
      obtain ⟨h0, hshort⟩ : s.rx.Incomplete := by
        cases hcase
        assumption
      apply turnWrites_zero
      · rw [Rx.unread_head hpos, h0]
        decide
      · rintro l ⟨-, h1, h3, hl⟩
        rcases hshort with hlt | ⟨l', h1', hlt⟩
        · omega
        · rw [h1, Option.some.injEq] at h1'
          subst h1'
          omega

/-! ## What keeps the line in order -/

theorem Line.whole {s : Tx σ} (h : Line s) : WholeMessages s where
  whole := ⟨written s.log, fun _ hm => hm, h.started ▸ h.orderly.sent_whole⟩
  kept w hw := (h.orderly.kept w hw).1
  alone := h.orderly.one

theorem line_init (a : σ) (txBuffer : Buffer) : Line (.init a txBuffer) :=
  ⟨orderly_empty, rfl⟩

theorem StartsAlone.le_one {s : Tx σ} {n : Nat} (h : Line s) :
    StartsAlone s n ↔ s.writes + n ≤ 1 := by
  have hone : s.writes ≤ 1 := h.orderly.one
  unfold StartsAlone Tx.writes at *
  omega

theorem written_append (l : List Effect) (x : Effect) :
    written (l ++ [x]) = written l ++ written [x] :=
  List.filterMap_append

theorem Line.of_emit {s : Tx σ} (h : Line s) {x : Effect} (hx : written [x] = []) :
    Line (s.emit x) := by
  refine ⟨h.orderly, ?_⟩
  rw [Tx.emit, written_append, hx, List.append_nil]
  exact h.started

/-- A write on an idle port, from a buffer that was filled for it. -/
theorem Line.of_write {s s' : Tx σ} (h : Line s) {source : Source} {size : Nat}
    {message : List UInt8} (htty : s'.tty = s.tty.asyncWrite s'.memory source size)
    (hmessage : (s'.memory source).take size = message)
    (hlog : written s'.log = written s.log ++ [message]) (hone : s'.writes ≤ 1) : Line s' := by
  have hidle : s.tty.incomplete = [] := by
    unfold Tx.writes at hone
    rw [htty, incomplete_asyncWrite] at hone
    exact List.length_eq_zero_iff.mp (by omega)
  have hmemory : Orderly s'.memory s.tty := by
    apply h.orderly.of_memory
    rw [hidle]
    intro w hw
    cases hw
  constructor
  · rw [htty]
    exact hmemory.asyncWrite source size hidle
  · rw [htty, hlog, ← hmessage, ← h.started]
    rfl

theorem line_move {s s' : Tx σ} (h : Line s) (hm : Move env s s') (hone : s'.writes ≤ 1) :
    Line s' := by
  cases hm with
  | push r =>
    apply Line.of_emit (s := { s with requests := _, tickets := _ }) (x := .enqueue s.tickets r)
    · exact ⟨h.orderly, h.started⟩
    · rfl
  | transmit hr => exact h.of_write rfl rfl (written_append _ _) hone
  | @complete front rest hr =>
    apply Line.of_emit (s := { s with requests := rest }) (x := .complete front.ticket)
    · exact ⟨h.orderly, h.started⟩
    · rfl
  | @drop front rest hr =>
    apply Line.of_emit (s := { s with requests := rest }) (x := .drop front.ticket)
    · exact ⟨h.orderly, h.started⟩
    · rfl
  | sendAck => exact h.of_write rfl rfl (written_append _ _) hone
  | sendNack => exact h.of_write rfl rfl (written_append _ _) hone
  | note x hx =>
    apply h.of_emit
    cases x <;> first | rfl | cases hx
  | app => exact ⟨h.orderly, h.started⟩
  | retry => exact ⟨h.orderly, h.started⟩
  | timer => exact ⟨h.orderly, h.started⟩

/-- No move completes a write. -/
theorem moves_writes {s s' : Tx σ} (h : Moves env s s') : s.writes ≤ s'.writes := by
  refine h.keeps (P := fun t => s.writes ≤ t.writes) ?_ (Nat.le_refl _)
  intro t t' ht hm
  cases hm with
  | transmit hr =>
    rw [transmit_writes]
    exact Nat.le_succ_of_le ht
  | sendAck =>
    rw [sendAck_writes]
    exact Nat.le_succ_of_le ht
  | sendNack =>
    rw [sendNack_writes]
    exact Nat.le_succ_of_le ht
  | _ => exact ht

theorem line_moves {s s' : Tx σ} (h : Line s) (hm : Moves env s s') (hone : s'.writes ≤ 1) :
    Line s' := by
  induction hm with
  | refl => exact h
  | tail hm hmove ih =>
    have hle := moves_writes (.single hmove)
    exact line_move (ih (hle.trans hone)) hmove hone

/-! ## One event -/

/-- A function that starts `n` writes keeps the messages whole exactly if it starts them alone. -/
theorem moves_whole_iff {s s' : Tx σ} {n : Nat} (h : Line s) (hm : Moves env s s')
    (hn : s'.writes = s.writes + n) : (StartsAlone s n ↔ WholeMessages s') ∧
      (StartsAlone s n → Line s') := by
  rw [StartsAlone.le_one h, ← hn]
  refine ⟨⟨?_, ?_⟩, ?_⟩
  · intro hone
    exact (line_moves h hm hone).whole
  · intro hwhole
    exact hwhole.alone
  · exact line_moves h hm

theorem sendRequestPtr_writes {s s' : Tx σ} {r : Request}
    (h : s.sendRequestPtr env r = some s') :
    s'.writes = s.writes + if s.requests.isEmpty then 1 else 0 := by
  rw [sendRequestPtr_eq, Option.some.injEq] at h
  subst h
  by_cases hr : s.requests = []
  · rw [if_pos hr, transmit_writes]
    simp [hr, Tx.writes]
  · rw [if_neg hr]
    simp [hr, Tx.writes]

/-- What starts no write keeps the line in order, and so it keeps the messages whole. -/
theorem line_whole_iff {s : Tx σ} {c : Prop} (hc : c) (h : Line s) :
    (c ↔ WholeMessages s) ∧ (c → Line s) :=
  ⟨iff_of_true hc h.whole, fun _ => h⟩

theorem tx_whole_iff {s : ZWaveProtocol σ} {e : TxEvent} (hs : Line s.tx)
    (he : ∀ value, e ≠ .writeError value) {tx : Tx σ} (ht : s.tx.step env e = some tx) :
    (WritesAlone env s (.tx e) ↔ WholeMessages tx) ∧ (WritesAlone env s (.tx e) → Line tx) := by
  cases e with
  | sendRequest r => exact moves_whole_iff hs (sendRequestPtr_moves ht) (sendRequestPtr_writes ht)
  | expire =>
    cases ht
    exact line_whole_iff trivial ⟨hs.orderly, hs.started⟩
  | timer i =>
    simp only [Tx.step] at ht
    split at ht
    · rename_i hnone
      cases ht
      have hlt : s.tx.txTimer.expired.length ≤ i := List.getElem?_eq_none_iff.mp hnone
      exact line_whole_iff (fun h => absurd h (Nat.not_lt_of_le hlt)) hs
    · rename_i hsome
      obtain ⟨hlt, -⟩ := List.getElem?_eq_some_iff.mp hsome
      have hline : Line { s.tx with
          txTimer := { s.tx.txTimer with expired := s.tx.txTimer.expired.eraseIdx i } } :=
        ⟨hs.orderly, hs.started⟩
      have hiff := moves_whole_iff hline (resendRequest_moves ht) (resendRequest_writes ht)
      have halone : WritesAlone env s (.tx (.timer i)) ↔
          StartsAlone s.tx (resendWrites env s.tx 2) := imp_iff_right hlt
      rw [halone]
      exact hiff
  | transfer k =>
    cases ht
    exact line_whole_iff trivial
      ⟨hs.orderly.transfer k, (transfer_started _ _ k).trans hs.started⟩
  | written i =>
    cases ht
    exact line_whole_iff trivial
      ⟨hs.orderly.completion i, (completion_started _ i).trans hs.started⟩
  | writeError value => exact absurd rfl (he value)

/-- The turns of a read, each one in the order of the line. -/
theorem read_whole_iff {s : ZWaveProtocol σ} {bytes : List UInt8} (hs : Line s.tx)
    {t : ZWaveProtocol σ} (ht : step env s (.read bytes) = some t) :
    (WritesAlone env s (.read bytes) ↔ WholeMessages t.tx) ∧
      (WritesAlone env s (.read bytes) → Line t.tx) := by
  by_cases hfit : s.receiving = true ∧ s.rx.rxPosition + bytes.length ≤ 256
  · obtain ⟨q, hv, hends, hq⟩ := read_fits env hfit
    rw [ht, Option.some.injEq] at hq
    subst hq
    have hline : WritesAlone env s (.read bytes) → Line q.2.tx := by
      intro halone
      apply hv.keeps (P := fun p => Line p.2.tx) hs
      intro u v hu hgo hline
      have hu' : u ∈ readTurns env s bytes := (mem_readTurns hfit).mpr hu
      exact (moves_whole_iff hline (reacts_moves (next_reacts hgo)) (next_writes hgo)).2
        (halone u hu')
    refine ⟨⟨fun halone => (hline halone).whole, ?_⟩, hline⟩
    intro hwhole p hp
    rw [mem_readTurns hfit] at hp
    -- what starts at this turn is still there at the end of the loop
    have hrest : p.2.tx.writes + turnWrites env p ≤ q.2.tx.writes := by
      rcases (hv.to_end hends hp).cases_head with rfl | ⟨u, hgo, hu⟩
      · rw [ends_writes hends]
        exact Nat.le_refl _
      · rw [← next_writes hgo]
        apply Visits.keeps hu (P := fun v => u.2.tx.writes ≤ v.2.tx.writes) (Nat.le_refl _)
        intro v w _ hgo hle
        apply hle.trans
        apply moves_writes
        exact reacts_moves (next_reacts hgo)
    have hone : q.2.tx.writes ≤ 1 := hwhole.alone
    unfold StartsAlone
    change _ ∨ _ ∧ p.2.tx.writes = 0
    omega
  · rw [read_unfit hfit, Option.some.injEq] at ht
    subst ht
    refine line_whole_iff ?_ hs
    intro p hp
    rw [readTurns, dif_neg hfit] at hp
    cases hp

theorem step_whole_iff {s : ZWaveProtocol σ} {e : Event} (hs : Line s.tx)
    (he : ∀ value, e ≠ .tx (.writeError value)) {t : ZWaveProtocol σ}
    (ht : step env s e = some t) :
    (WritesAlone env s e ↔ WholeMessages t.tx) ∧ (WritesAlone env s e → Line t.tx) := by
  cases e with
  | tx e =>
    obtain ⟨tx, htx, rfl⟩ := Option.map_eq_some_iff.mp ht
    exact tx_whole_iff hs (fun value heq => he value (by rw [heq])) htx
  | read bytes => exact read_whole_iff hs ht
  | readError value =>
    simp only [step] at ht
    split at ht
    · rename_i hrecv
      obtain ⟨tx, hcall, rfl⟩ := Option.map_eq_some_iff.mp ht
      have hiff := moves_whole_iff hs (onError_moves hcall) (answer_writes (s := s.tx.emit _) hcall)
      have halone : WritesAlone env s (.readError value) ↔ StartsAlone s.tx
          (callWrites s.tx.requests (env.app.onError s.tx.app (.system value))) :=
        imp_iff_right hrecv
      rw [halone]
      exact hiff
    · rename_i hrecv
      cases ht
      exact line_whole_iff (fun h => absurd h hrecv) hs

/-- An event that fails has no front to send. -/
theorem fails_alone {s : ZWaveProtocol σ} {e : Event} (h : step env s e = none) :
    WritesAlone env s e := by
  by_cases he : ∃ i, e = .tx (.timer i)
  · obtain ⟨i, rfl⟩ := he
    intro hlt
    left
    have hnil : s.tx.requests = [] := by
      by_contra hne
      obtain ⟨tx, htx⟩ := resendRequest_some env (s := { s.tx with
        txTimer := { s.tx.txTimer with expired := s.tx.txTimer.expired.eraseIdx i } }) 2 hne
      simp only [step, Tx.step, List.getElem?_eq_getElem hlt, htx, Option.map_some] at h
      cases h
    simp only [resendWrites, hnil]
  · obtain ⟨t, ht⟩ := step_some env s (e := e) fun i heq => he ⟨i, heq⟩
    rw [h] at ht
    cases ht

/-! ## Every run -/

/-- In every run in which no write fails, the messages on the line stay whole exactly if no event
starts a write on a port that is busy, or two at once. -/
theorem messages_stay_whole_iff (env : Env σ) (a : σ) (txBuffer rxBuffer : Buffer)
    (es : List Event) (hes : ∀ value, .tx (.writeError value) ∉ es) :
    Always (step env) (fun s => WholeMessages s.tx) (init a txBuffer rxBuffer) es ↔
      Meets (step env) (WritesAlone env) (init a txBuffer rxBuffer) es := by
  have hok : ∀ e ∈ es, ∀ value, e ≠ .tx (.writeError value) := by
    rintro e he value rfl
    exact hes value he
  apply always_iff_meets (P := fun s => Line s.tx)
  · intro s hs
    exact hs.whole
  · intro s e he hs
    constructor
    · intro halone t ht
      exact (step_whole_iff hs (hok e he) ht).1.mp halone
    · intro hwhole
      cases ht : step env s e with
      | none => exact fails_alone ht
      | some t => exact (step_whole_iff hs (hok e he) ht).1.mpr (hwhole t ht)
  · intro s e he t hs halone ht
    exact (step_whole_iff hs (hok e he) ht).2 halone
  · exact line_init a txBuffer

/-- One command, its acknowledgement and its response: each write completes before the next. -/
theorem messages_stay_whole_switchOn :
    Always (step quietEnv) (fun s => WholeMessages s.tx) fresh
      [.tx (.sendRequest switchOn), .tx (.transfer 5), .tx (.written 0), .tx (.transfer 7),
        .tx (.written 0), .read [ACK], .read [SOF, 4, RESPONSE, ZW_SEND_DATA, 1, 0xe8],
        .tx (.transfer 1), .tx (.written 0)] :=
  (messages_stay_whole_iff quietEnv () .zeros .zeros _ (by simp)).mpr (by decide +kernel)

/-- A response comes while the frame of its request is on the way. The ACK goes out between the
bytes of the frame: no row of the two messages starts with what was sent. -/
theorem ack_cuts_frame :
    ¬ Always (step quietEnv) (fun s => SentWhole s.tx) fresh
      [.tx (.sendRequest switchOn), .tx (.transfer 5),
        .read [SOF, 4, RESPONSE, ZW_SEND_DATA, 1, 0xe8], .tx (.transfer 1)] := by
  intro h
  have hrun : (run (step quietEnv) fresh [.tx (.sendRequest switchOn), .tx (.transfer 5),
      .read [SOF, 4, RESPONSE, ZW_SEND_DATA, 1, 0xe8], .tx (.transfer 1)]).any (fun s =>
        decide (s.tx.tty.sent = [SOF, 10, REQUEST, ZW_SEND_DATA, 4, ACK] ∧
          (written s.tx.log).map (List.take 6) =
            [[SOF, 10, REQUEST, ZW_SEND_DATA, 4, 3], [ACK]])) = true := by
    decide +kernel
  obtain ⟨s, hs, hend⟩ := (Option.any_eq_true _ _).mp hrun
  obtain ⟨hsent, hwritten⟩ := of_decide_eq_true hend
  obtain ⟨messages, hmem, hprefix⟩ := h.of_run hs
  rw [hsent] at hprefix
  cases messages with
  | nil => simp at hprefix
  | cons m rest =>
    have hfirst : m.take 6 ∈ (written s.tx.log).map (List.take 6) :=
      List.mem_map_of_mem (hmem m List.mem_cons_self)
    have hm : m.take 6 <+: [SOF, 10, REQUEST, ZW_SEND_DATA, 4, ACK] := by
      rw [List.flatten_cons] at hprefix
      apply List.prefix_of_prefix_length_le _ hprefix
      · exact List.length_take_le 6 m
      · exact (List.take_prefix 6 m).trans (List.prefix_append m _)
    rw [hwritten, List.mem_pair] at hfirst
    rcases hfirst with hframe | hack
    · rw [hframe] at hm
      exact absurd hm (by decide)
    · rw [hack] at hm
      exact absurd hm (by decide)

end huasi.zwave
