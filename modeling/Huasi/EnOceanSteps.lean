-- What each function of the EnOcean protocol can do, said once: the calls of
-- `sendRequest`, the end of a request, and the cases of one turn of the read
-- handler. The later files derive their invariants from the cases here.
import Huasi.EnOceanPackets

open huasi.receive_buffer huasi.runs huasi.write_port

namespace huasi.enocean

variable {σ : Type} {env : Env σ}

/-! ## Calls of `sendRequest` -/

@[simp] theorem push_requests (s : Tx σ) (r : Request) :
    (s.push r).requests = s.requests ++ [⟨s.tickets, r⟩] := rfl

/-- A request goes out at once where the queue was empty, and else it waits. -/
theorem sendRequestPtr_eq (s : Tx σ) (r : Request) :
    s.sendRequestPtr env r = some (if s.requests = [] then
      (s.push r).transmit env ⟨s.tickets, r⟩ else s.push r) := by
  unfold Tx.sendRequestPtr
  by_cases h : s.requests = []
  · have hp : (s.push r).requests = [⟨s.tickets, r⟩] := by simp [h]
    simp only [Tx.sendRequest, hp, List.length_singleton, if_true, h]
  · have hp : (s.push r).requests.length ≠ 1 := by
      have hpos := List.length_pos_iff.mpr h
      simp only [push_requests, List.length_append, List.length_singleton]
      omega
    simp only [hp, h, if_false]

/-- A callback never fails. -/
theorem answer_some (env : Env σ) (s : Tx σ) (out : σ × List Request) :
    ∃ s', s.answer env out = some s' := by
  obtain ⟨t, ht, -⟩ := foldlM_spec env { s with app := out.1 } out.2
  exact ⟨t, ht⟩

/-- What one call of `sendRequest` keeps, a callback keeps. -/
theorem answer_keeps {P : Tx σ → Prop} {s s' : Tx σ} {out : σ × List Request}
    (h : s.answer env out = some s') (happ : P { s with app := out.1 })
    (hcall : ∀ (t : Tx σ) (r : Request), P t → t.requests = [] →
      P ((t.push r).transmit env ⟨t.tickets, r⟩))
    (hwait : ∀ (t : Tx σ) (r : Request), P t → t.requests ≠ [] → P (t.push r)) : P s' := by
  unfold Tx.answer at h
  apply foldlM_keeps _ h happ
  intro t r u ht hu
  rw [sendRequestPtr_eq, Option.some.injEq] at hu
  subst hu
  split
  · exact hcall t r ht ‹_›
  · exact hwait t r ht ‹_›

/-! ## Resend and give up -/

/-- `resendRequest` sends the front again, or gives it up after the third failure. It fails on
an empty queue only. -/
theorem resendRequest_cases (env : Env σ) {s : Tx σ} (error : Nat) {front : Entry}
    {rest : List Entry} (hr : s.requests = front :: rest) :
    (s.txRetryCount < 2 ∧ s.resendRequest env error =
      some (({ s with txRetryCount := s.txRetryCount + 1 } : Tx σ).transmit env front)) ∨
    (2 ≤ s.txRetryCount ∧ s.resendRequest env error =
      (({ s with txRetryCount := 0 } : Tx σ).pop rest (.drop front.ticket)).onError env
        (.enOceanCategory error)) := by
  unfold Tx.resendRequest
  by_cases hc : s.txRetryCount + 1 < 3
  · left
    simp only [if_pos hc, Tx.sendRequest, hr, and_true]
    omega
  · right
    simp only [if_neg hc, hr, and_true]
    omega

/-! ## A packet -/

/-- What a packet of type `packetType` does to the queue. -/
inductive PacketCase (env : Env σ) (s : Tx σ) (packetType : UInt8)
    (data optionalData : List UInt8) : Tx σ → Prop where
  | last {front s₁} (htype : packetType = RESPONSE)
      (hcall : (s.cancel env).onResponse env front data optionalData = some s₁)
      (hqueue : s.requests ≠ []) (hr : s₁.requests = [front]) :
      PacketCase env s packetType data optionalData (s₁.pop [] (.complete front.ticket))
  | next {front next rest s₁} (htype : packetType = RESPONSE)
      (hcall : (s.cancel env).onResponse env front data optionalData = some s₁)
      (hqueue : s.requests ≠ []) (hr : s₁.requests = front :: next :: rest) :
      PacketCase env s packetType data optionalData
        ((s₁.pop (next :: rest) (.complete front.ticket)).transmit env next)
  | request {s'} (hother : packetType ≠ RESPONSE ∨ s.requests = [])
      (hcall : (s.cancel env).onRequest env packetType data optionalData = some s') :
      PacketCase env s packetType data optionalData s'

theorem receivePacket_cases (env : Env σ) (s : Tx σ) (packetType : UInt8)
    (data optionalData : List UInt8) :
    ∃ s', s.receivePacket env packetType data optionalData = some s' ∧
      PacketCase env s packetType data optionalData s' := by
  have hcancel : (s.cancel env).requests = s.requests := rfl
  obtain ⟨t, new, ht, -, -⟩ := onRequest_spec env (s.cancel env) packetType data optionalData
  unfold Tx.receivePacket
  simp only [hcancel]
  cases hs : s.requests with
  | nil => exact ⟨t, ht, .request (Or.inr hs) ht⟩
  | cons front rest =>
    have hne : s.requests ≠ [] := by
      rw [hs]
      exact List.cons_ne_nil _ _
    by_cases htype : packetType = RESPONSE
    · obtain ⟨s₁, new, hcall, hr, -⟩ := onResponse_spec env (s := s.cancel env) front data
        optionalData hne
      rw [hcancel, hs, List.cons_append] at hr
      simp only [if_pos htype, hcall, hr, Option.bind_eq_bind, Option.bind_some]
      cases hnext : rest ++ new with
      | nil =>
        rw [hnext] at hr
        exact ⟨_, rfl, .last htype hcall hne hr⟩
      | cons next others =>
        rw [hnext] at hr
        exact ⟨_, rfl, .next htype hcall hne hr⟩
    · simp only [if_neg htype]
      exact ⟨t, ht, .request (Or.inl htype) ht⟩

theorem packetCase_of_receive {s s' : Tx σ} {packetType : UInt8} {data optionalData : List UInt8}
    (h : s.receivePacket env packetType data optionalData = some s') :
    PacketCase env s packetType data optionalData s' := by
  obtain ⟨t, ht, hcase⟩ := receivePacket_cases env s packetType data optionalData
  rw [h, Option.some.injEq] at ht
  exact ht ▸ hcase

/-! ## An event of the transmitting side -/

/-- What an event of the transmitting side does. -/
inductive TxCase (env : Env σ) (s : Tx σ) : TxEvent → Tx σ → Prop where
  | sendRequest {r s'} (hcall : s.answer env (s.app, [r]) = some s') :
      TxCase env s (.sendRequest r) s'
  | expire : TxCase env s .expire { s with txTimer := s.txTimer.expire }
  | timer {i w s'} (hw : s.txTimer.expired[i]? = some w)
      (hresend : ({ s with txTimer := { s.txTimer with
        expired := s.txTimer.expired.eraseIdx i } } : Tx σ).resendRequest env 2 = some s') :
      TxCase env s (.timer i) s'
  | port {e} (tty : Port Unit UInt8) (hstarted : tty.started = s.tty.started) :
      TxCase env s e { s with tty }
  | error {value s'} (tty : Port Unit UInt8) (hstarted : tty.started = s.tty.started)
      (hcall : ({ s with tty } : Tx σ).onError env (.system value) = some s') :
      TxCase env s (.writeError value) s'

theorem tx_cases {s s' : Tx σ} {e : TxEvent} (h : s.step env e = some s') :
    TxCase env s e s' := by
  cases e with
  | sendRequest r =>
    refine .sendRequest ?_
    simpa [Tx.answer, Tx.step] using h
  | expire =>
    cases h
    exact .expire
  | timer i =>
    simp only [Tx.step] at h
    split at h
    · cases h
      exact .port s.tty rfl
    · exact .timer ‹_› h
  | transfer k =>
    cases h
    exact .port _ (transfer_started _ _ k)
  | written i =>
    cases h
    exact .port _ (completion_started _ i)
  | writeError value =>
    simp only [Tx.step] at h
    split at h
    · cases h
      exact .port s.tty rfl
    · refine .error _ ?_ h
      rfl

/-! ## The header at the front of the buffer -/

/-- The bytes start with a header with the right checksum. -/
def HeaderOk (l : List UInt8) : Prop :=
  l[0]? = some 0x55 ∧ l[5]? = some (calcChecksum (l.drop 1) 4)

/-- The fields of the header. -/
def dataLength (l : List UInt8) : Nat := (l.getD 1 0).toNat <<< 8 ||| (l.getD 2 0).toNat

def optionalLength (l : List UInt8) : Nat := (l.getD 3 0).toNat

def packetType (l : List UInt8) : UInt8 := l.getD 4 0

/-- The local `length` of the read handler. -/
def contentLength (l : List UInt8) : Nat := dataLength l + optionalLength l

/-- The bytes of the whole packet that the header announces. -/
def packetSize (l : List UInt8) : Nat := 6 + contentLength l + 1

/-- The checksum behind the data is right. -/
def DataOk (l : List UInt8) : Prop :=
  l[6 + contentLength l]? = some (calcChecksum (l.drop 6) (contentLength l))

instance (l : List UInt8) : Decidable (HeaderOk l) := inferInstanceAs (Decidable (_ ∧ _))

instance (l : List UInt8) : Decidable (DataOk l) := inferInstanceAs (Decidable (_ = _))

/-! ## One turn of the loop -/

/-- The cases of one turn. -/
inductive TurnCase (env : Env σ) (s : EnOceanProtocol σ) : Turn (EnOceanProtocol σ) → Prop where
  | packet {tx rx} (hheader : HeaderOk s.rx.unread) (hsize : packetSize s.rx.unread ≤ s.rx.position)
      (hdata : DataOk s.rx.unread)
      (htx : s.tx.receivePacket env (packetType s.rx.unread)
        ((s.rx.unread.drop 6).take (dataLength s.rx.unread))
        ((s.rx.unread.drop (6 + dataLength s.rx.unread)).take (optionalLength s.rx.unread)) =
          some tx)
      (hrx : s.rx.remove (packetSize s.rx.unread) = some rx) :
      TurnCase env s (.again { s with tx, rx })
  | corrupt (hheader : HeaderOk s.rx.unread) (hsize : packetSize s.rx.unread ≤ s.rx.position)
      (hdata : ¬ DataOk s.rx.unread) : TurnCase env s (.again { s with rx := s.rx.clear })
  | incomplete (hheader : HeaderOk s.rx.unread)
      (hsize : s.rx.position < packetSize s.rx.unread) : TurnCase env s .leave
  | noise (hheader : ¬ HeaderOk s.rx.unread) : TurnCase env s (.again { s with rx := s.rx.clear })

theorem getD_unread {rx : Rx UInt8 BUFFER_SIZE} {i : Nat} (hi : i < rx.position) :
    rx.buffer.elements[i]? = some (rx.unread.getD i 0) := by
  rw [← rx.unread_get hi, List.getD_eq_getElem?_getD,
    List.getElem?_eq_getElem (by rw [rx.unread_length]; exact hi)]
  rfl

/-- A checksum over bytes that were received. -/
theorem checksum_unread {rx : Rx UInt8 BUFFER_SIZE} {i n : Nat} (hi : i + n ≤ rx.position) :
    calcChecksum (rx.buffer.elements.drop i) n = calcChecksum (rx.unread.drop i) n := by
  have hu : rx.unread = rx.unread ++ [] := (List.append_nil _).symm
  rw [← calcChecksum_take, Rx.part_of_unread hu (by rw [rx.unread_length]; exact hi),
    calcChecksum_take]

section Turn

variable {s : EnOceanProtocol σ} (hpos : 6 < s.rx.position)

include hpos

theorem headerOk_iff : HeaderOk s.rx.unread ↔ s.rx.unread.getD 0 0 = 0x55 ∧
    calcChecksum (s.rx.unread.drop 1) 4 = s.rx.unread.getD 5 0 := by
  unfold HeaderOk
  rw [s.rx.unread_get (by omega), s.rx.unread_get (by omega),
    getD_unread (show 0 < s.rx.position by omega),
    getD_unread (show 5 < s.rx.position by omega), Option.some.injEq, Option.some.injEq,
    eq_comm (a := s.rx.unread.getD 5 0)]

/-- A turn in terms of the bytes that were received. -/
theorem turn_eq (env : Env σ) :
    turn env s =
      if HeaderOk s.rx.unread then
        if packetSize s.rx.unread ≤ s.rx.position then do
          if calcChecksum (s.rx.buffer.elements.drop 6) (contentLength s.rx.unread) =
              (← s.rx.buffer.elements[6 + contentLength s.rx.unread]?) then
            let tx ← s.tx.receivePacket env (packetType s.rx.unread)
              ((s.rx.buffer.elements.drop 6).take (dataLength s.rx.unread))
              ((s.rx.buffer.elements.drop (6 + dataLength s.rx.unread)).take
                (optionalLength s.rx.unread))
            let rx ← s.rx.remove (packetSize s.rx.unread)
            some (.again { s with tx, rx })
          else
            some (.again { s with rx := s.rx.clear })
        else
          some .leave
      else
        some (.again { s with rx := s.rx.clear }) := by
  have hget := fun i (hi : i < s.rx.position) => getD_unread hi
  unfold turn
  simp only [hget 0 (by omega), hget 1 (by omega), hget 2 (by omega), hget 3 (by omega),
    hget 4 (by omega), hget 5 (by omega), checksum_unread (show 1 + 4 ≤ s.rx.position by omega),
    Option.bind_eq_bind, Option.bind_some, ← headerOk_iff hpos]
  rfl

end Turn

/-- A turn never fails, and it is one of the cases. -/
theorem turn_cases (env : Env σ) (s : EnOceanProtocol σ) (h : unfinished s = true) :
    ∃ r, turn env s = some r ∧ TurnCase env s r := by
  have hpos : 6 < s.rx.position := by simpa [unfinished] using h
  have hlen := s.rx.unread_length
  have hu : s.rx.unread = s.rx.unread ++ [] := (List.append_nil _).symm
  rw [turn_eq hpos]
  by_cases hok : HeaderOk s.rx.unread
  · rw [if_pos hok]
    by_cases hsize : packetSize s.rx.unread ≤ s.rx.position
    · have hcontent : 6 + contentLength s.rx.unread < s.rx.position := hsize
      have hdata : DataOk s.rx.unread ↔
          calcChecksum (s.rx.unread.drop 6) (contentLength s.rx.unread) =
            s.rx.unread.getD (6 + contentLength s.rx.unread) 0 := by
        unfold DataOk
        rw [s.rx.unread_get hcontent, getD_unread hcontent, Option.some.injEq, eq_comm]
      rw [if_pos hsize, checksum_unread (Nat.le_of_lt hcontent), getD_unread hcontent]
      simp only [Option.bind_eq_bind, Option.bind_some, ← hdata]
      by_cases hsum : DataOk s.rx.unread
      · have hparts : 6 + dataLength s.rx.unread + optionalLength s.rx.unread ≤
            s.rx.unread.length := by
          rw [hlen, Nat.add_assoc]
          exact Nat.le_of_lt hcontent
        obtain ⟨tx, htx, -⟩ := receivePacket_cases env s.tx (packetType s.rx.unread)
          ((s.rx.unread.drop 6).take (dataLength s.rx.unread))
          ((s.rx.unread.drop (6 + dataLength s.rx.unread)).take (optionalLength s.rx.unread))
        obtain ⟨rx, hrx, -⟩ := s.rx.remove_unread hsize
        rw [if_pos hsum, Rx.part_of_unread hu (by omega), Rx.part_of_unread hu hparts, htx,
          Option.bind_some, hrx, Option.bind_some]
        exact ⟨_, rfl, .packet hok hsize hsum htx hrx⟩
      · rw [if_neg hsum]
        exact ⟨_, rfl, .corrupt hok hsize hsum⟩
    · rw [if_neg hsize]
      exact ⟨_, rfl, .incomplete hok (Nat.not_le.mp hsize)⟩
  · rw [if_neg hok]
    exact ⟨_, rfl, .noise hok⟩

/-! ## The handler of a read -/

/-- The loop goes from one turn to the next. -/
abbrev Next (env : Env σ) : EnOceanProtocol σ → EnOceanProtocol σ → Prop :=
  Goes unfinished (turn env)

theorem next_cases {s t : EnOceanProtocol σ} (h : Next env s t) : TurnCase env s (.again t) := by
  obtain ⟨r, hr, hcase⟩ := turn_cases env s h.1
  rw [h.2, Option.some.injEq] at hr
  exact hr ▸ hcase

/-- Each turn that goes on takes a byte away at least. -/
theorem next_decreases {s t : EnOceanProtocol σ} (h : Next env s t) :
    t.rx.position < s.rx.position := by
  have hpos : 6 < s.rx.position := by simpa [unfinished] using h.1
  cases next_cases h with
  | packet hheader hsize hdata htx hrx =>
    have hrest := Rx.remove_position hrx
    unfold packetSize at hrest
    simp only
    omega
  | corrupt => exact Nat.zero_lt_of_lt hpos
  | noise => exact Nat.zero_lt_of_lt hpos

/-- The loop comes to its head in a state, in the handler of a read. -/
abbrev Visited (env : Env σ) : EnOceanProtocol σ → EnOceanProtocol σ → Prop :=
  Visits unfinished (turn env)

/-- The handler of a read never fails, and its loop ends. -/
theorem handleRead_spec (env : Env σ) (s : EnOceanProtocol σ) :
    ∃ t, Visited env s t ∧ Ends unfinished (turn env) t ∧ handleRead env s = some t := by
  rcases loop_spec unfinished (turn env) (fun s => s.rx.position)
      (fun s hs => Nat.zero_lt_of_lt (show 6 < s.rx.position by simpa [unfinished] using hs))
      (fun s t hst => next_decreases hst) (Nat.le_refl s.rx.position) with
    ⟨t, -, hg, hb, -⟩ | ⟨t, hv, he, hl⟩
  · obtain ⟨r, hr, -⟩ := turn_cases env t hg
    rw [hb] at hr
    cases hr
  · exact ⟨t, hv, he, hl⟩

/-- A read that can happen: one is outstanding, and the bytes fit the free part of the buffer. -/
def Readable (s : EnOceanProtocol σ) (bytes : List UInt8) : Prop :=
  s.receiving = true ∧ s.rx.position + bytes.length ≤ BUFFER_SIZE

instance (s : EnOceanProtocol σ) (bytes : List UInt8) : Decidable (Readable s bytes) :=
  inferInstanceAs (Decidable (_ ∧ _))

/-- The states at the head of the loop in the handler of a read: none for a read that cannot
happen. -/
def readTurns (env : Env σ) (s : EnOceanProtocol σ) (bytes : List UInt8) :
    List (EnOceanProtocol σ) :=
  if hfit : Readable s bytes then
    heads unfinished (turn env) (s.rx.position + bytes.length) (s.received bytes hfit.2)
  else []

theorem mem_readTurns {s p : EnOceanProtocol σ} {bytes : List UInt8} (hfit : Readable s bytes) :
    p ∈ readTurns env s bytes ↔ Visited env (s.received bytes hfit.2) p := by
  unfold readTurns
  rw [dif_pos hfit]
  exact mem_heads unfinished (turn env) (fun s => s.rx.position) (fun _ _ hgo => next_decreases hgo)
    (Nat.le_refl _)

/-- A read that fits runs its handler to the end of the loop. -/
theorem read_fits (env : Env σ) {s : EnOceanProtocol σ} {bytes : List UInt8}
    (hfit : Readable s bytes) :
    ∃ t, Visited env (s.received bytes hfit.2) t ∧ Ends unfinished (turn env) t ∧
      step env s (.read bytes) = some t := by
  obtain ⟨t, hv, he, ht⟩ := handleRead_spec env (s.received bytes hfit.2)
  exact ⟨t, hv, he, (dif_pos hfit).trans ht⟩

theorem read_unfit {s : EnOceanProtocol σ} {bytes : List UInt8} (hfit : ¬ Readable s bytes) :
    step env s (.read bytes) = some s := dif_neg hfit

/-- What an event of the transmitting side, a packet that comes in and an error keep of that side,
a step keeps. -/
theorem step_keeps {P : Tx σ → Prop} {s t : EnOceanProtocol σ} {e : Event}
    (ht : step env s e = some t) (h : P s.tx)
    (htx : ∀ x tx, e = .tx x → s.tx.step env x = some tx → P tx)
    (hpacket : ∀ (u tx : Tx σ) (packetType : UInt8) (data optionalData : List UInt8), P u →
      u.receivePacket env packetType data optionalData = some tx → P tx)
    (herror : ∀ tx value, s.tx.onError env (.system value) = some tx → P tx) : P t.tx := by
  have hturn : ∀ p q, Next env p q → P p.tx → P q.tx := by
    intro p q hgo hp
    cases next_cases hgo with
    | packet hheader hsize hdata hreceive hrx => exact hpacket _ _ _ _ _ hp hreceive
    | corrupt => exact hp
    | noise => exact hp
  cases e with
  | tx x =>
    obtain ⟨tx, hx, rfl⟩ := Option.map_eq_some_iff.mp ht
    exact htx x tx rfl hx
  | read bytes =>
    by_cases hfit : Readable s bytes
    · obtain ⟨u, hv, -, hu⟩ := read_fits env hfit
      rw [ht, Option.some.injEq] at hu
      subst hu
      exact hv.keeps (P := fun p => P p.tx) h fun p q _ hgo hp => hturn p q hgo hp
    · rw [read_unfit hfit, Option.some.injEq] at ht
      exact ht ▸ h
  | readError value =>
    simp only [step] at ht
    split at ht
    · obtain ⟨tx, hx, rfl⟩ := Option.map_eq_some_iff.mp ht
      exact herror tx value hx
    · cases ht
      exact h

/-! ## The port -/

/-- The packets that were written, in order. -/
def written (log : List Effect) : List (List UInt8) :=
  log.filterMap fun
    | .transmit _ packet => some packet
    | _ => none

/-- The port was given exactly the packets that the log tells. -/
def Given (s : Tx σ) : Prop := s.tty.started = written s.log

section Given

variable {s s' : Tx σ}

theorem written_append (l : List Effect) (x : Effect) :
    written (l ++ [x]) = written l ++ written [x] := List.filterMap_append

theorem Given.emit (h : Given s) {x : Effect} (hx : written [x] = []) : Given (s.emit x) := by
  unfold Given Tx.emit
  rw [written_append, hx, List.append_nil]
  exact h

/-- A transmission hands the packet to the port and tells it to the log. -/
theorem Given.transmit (env : Env σ) (h : Given s) (front : Entry) :
    Given (s.transmit env front) := by
  unfold Given Tx.transmit Tx.emit
  rw [written_append, ← h]
  rfl

theorem answer_given {out : σ × List Request} (h : Given s) (ha : s.answer env out = some s') :
    Given s' := by
  apply answer_keeps ha
  · exact h
  · intro t r ht _
    have hpush : Given (t.push r) := ht.emit rfl
    exact hpush.transmit env _
  · intro t r ht _
    exact ht.emit rfl

theorem onError_given {error : Error} (h : Given s) (he : s.onError env error = some s') :
    Given s' := answer_given (h.emit rfl) he

theorem resendRequest_given (h : Given s) (hre : s.resendRequest env 2 = some s') :
    Given s' := by
  cases hr : s.requests with
  | nil => simp [Tx.resendRequest, Tx.sendRequest, hr] at hre
  | cons front rest =>
    rcases resendRequest_cases env 2 hr with ⟨-, heq⟩ | ⟨-, heq⟩
    · rw [heq, Option.some.injEq] at hre
      subst hre
      have hretry : Given { s with txRetryCount := s.txRetryCount + 1 } := h
      exact hretry.transmit env front
    · rw [heq] at hre
      have hdrop : Given (({ s with txRetryCount := 0 } : Tx σ).pop rest (.drop front.ticket)) :=
        h.emit rfl
      exact onError_given hdrop hre

theorem receivePacket_given {packetType : UInt8} {data optionalData : List UInt8} (h : Given s)
    (hp : s.receivePacket env packetType data optionalData = some s') : Given s' := by
  have hcancel : Given (s.cancel env) := h
  cases packetCase_of_receive hp with
  | @last front s₁ htype hcall hqueue hr =>
    have hcalled : Given s₁ := answer_given (hcancel.emit rfl) hcall
    exact hcalled.emit rfl
  | @next front next rest s₁ htype hcall hqueue hr =>
    have hcalled : Given s₁ := answer_given (hcancel.emit rfl) hcall
    have hpop : Given (s₁.pop (next :: rest) (.complete front.ticket)) := hcalled.emit rfl
    exact hpop.transmit env next
  | request hother hcall => exact answer_given (hcancel.emit rfl) hcall

theorem tx_given {e : TxEvent} (h : Given s) (he : s.step env e = some s') : Given s' := by
  cases tx_cases he with
  | sendRequest hcall => exact answer_given h hcall
  | expire => exact h
  | @timer i w _ hw hresend =>
    have hkept : Given { s with
        txTimer := { s.txTimer with expired := s.txTimer.expired.eraseIdx i } } := h
    exact resendRequest_given hkept hresend
  | port tty hstarted => exact hstarted.trans h
  | error tty hstarted hcall =>
    have hport : Given { s with tty } := hstarted.trans h
    exact onError_given hport hcall

end Given

/-- In every run, the port was given exactly the packets of the transmissions in the log, in their
order. -/
theorem given_always {a : σ} {txBuffer rxBuffer : Buffer UInt8 BUFFER_SIZE} (es : List Event) :
    Always (step env) (fun s => Given s.tx) (init a txBuffer rxBuffer) es := by
  refine always_of_step (fun s e t h ht => ?_) _ _ rfl
  apply step_keeps ht h
  · intro x tx _ hx
    exact tx_given h hx
  · intro u tx packetType data optionalData hu hreceive
    exact receivePacket_given hu hreceive
  · intro tx value hcall
    exact onError_given h hcall

/-- An application that never asks by itself. -/
def quietApp : Application Unit where
  onResponse := fun _ _ _ _ => ((), [])
  onRequest := fun _ _ _ _ => ((), [])
  onError := fun _ _ => ((), [])

end huasi.enocean
