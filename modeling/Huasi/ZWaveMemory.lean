-- The read handler of `ZWaveProtocol` as the code has it (src/src/zwave/ZWaveProtocol.cpp):
-- an `int` for `rxPosition`, and `rxBuffer` as bytes in memory, where nothing stops the
-- loop from going behind the end of the array. It never does, and the model of the
-- protocol is what it computes.
import Huasi.Reading
import Huasi.ZWaveSteps

open huasi.reading huasi.runs

namespace huasi.zwave

variable {σ : Type}

/-! ## What a turn reads -/

/-- `calcChecksum`, from the index `i` on. -/
def calcChecksumAt (i : Nat) (checksum : UInt8) : Nat → Reading UInt8 UInt8
  | 0 => return checksum
  | length + 1 => do
    let b ← byteAt i
    -- xor bytes
    calcChecksumAt (i + 1) (checksum ^^^ b) length

/-- The bytes that a handler gets as a pointer and a length. -/
def bytesAt (i : Nat) : Nat → Reading UInt8 (List UInt8)
  | 0 => return []
  | length + 1 => do
    let b ← byteAt i
    let bytes ← bytesAt (i + 1) length
    return b :: bytes

/-- The funcId of a request is compared with the byte at 4 for a `SendRequest` only. -/
def isRequestAt (frameType : UInt8) (funcId : Option UInt8) : Reading UInt8 Bool :=
  if frameType = REQUEST ∧ funcId.isSome then do
    let id ← byteAt 4
    return decide (funcId = some id)
  else return false

/-- `receiveFrame` for the request at the front of the queue. -/
def Tx.receiveFrontAt (env : Env σ) (s : Tx σ) (front : Entry) (frameType : UInt8)
    (length : Nat) : Reading UInt8 (Option (Tx σ)) := do
  let isResponse := decide (frameType = RESPONSE)
  let isRequest ← isRequestAt frameType front.request.funcId
  let tx :=
    if (isResponse && front.request.funcId.isNone) || isRequest then
      s.endProcedure env front s.requests.tail
    else some s
  if isResponse then
    let data ← bytesAt 4 (length - 3)
    return tx.bind fun s => s.onResponse env front data ((length : Int) - 3)
  else if isRequest then
    let data ← bytesAt 4 (length - 3)
    return tx.bind fun s => s.onSendRequest env front data ((length : Int) - 3)
  else return tx

/-- `receiveFrame` for a frame that is not for the request at the front of the queue. -/
def Tx.receiveOtherAt (env : Env σ) (s : Tx σ) (frameType : UInt8) (length : Nat) :
    Reading UInt8 (Option (Tx σ)) :=
  if frameType = REQUEST then do
    let data ← bytesAt 3 (length - 2)
    return s.onRequest env data ((length : Int) - 2)
  else return some s

def Tx.receiveFrameAt (env : Env σ) (s : Tx σ) (length : Nat) : Reading UInt8 (Option (Tx σ)) := do
  let frameType ← byteAt 2
  let function ← byteAt 3
  let s := s.sendAck
  match s.requests.head? with
  | some front =>
    if front.request.function = function then s.receiveFrontAt env front frameType length
    else s.receiveOtherAt env frameType length
  | none => s.receiveOtherAt env frameType length

/-- Only the first frame of a read is handled. -/
def Tx.receiveFirstAt (env : Env σ) (s : Tx σ) (frame : Bool) (length : Nat) :
    Reading UInt8 (Option (Tx σ)) :=
  if frame then return some s else s.receiveFrameAt env length

/-! ## What a turn does -/

/-- `std::copy(rxBuffer + first, rxBuffer + last, rxBuffer)` -/
structure Copy where
  first : Int
  last : Int

/-- What a turn leaves that goes on. -/
structure After (σ : Type) where
  frame : Bool
  tx : Tx σ
  copy : Option Copy
  rxPosition : Int

/-- A turn with SOF at the head of the buffer. -/
def turnFrameAt (env : Env σ) (frame : Bool) (tx : Tx σ) (rxPosition : Int) :
    Reading UInt8 (Option (Turn (After σ))) :=
  if 3 ≤ rxPosition then do
    -- check if frame is complete
    let length := (← byteAt 1).toNat
    if 2 + (length : Int) ≤ rxPosition then
      -- check if checksum is ok
      let checksum ← calcChecksumAt 1 0xff length
      let received ← byteAt (2 + length - 1)
      if received = checksum then
        let tx ← tx.receiveFirstAt env frame length
        return tx.map fun tx => .again {
          frame := true, tx
          copy := some ⟨2 + length, rxPosition⟩
          rxPosition := rxPosition - (2 + length) }
      else
        return some (.again { frame, tx := tx.sendNack, copy := none, rxPosition := 0 })
    else return some .leave
  else return some .leave

/-- One turn of `while (rxPosition > 0)`. -/
def turnAt (env : Env σ) (frame : Bool) (tx : Tx σ) (rxPosition : Int) :
    Reading UInt8 (Option (Turn (After σ))) := do
  let messageType ← byteAt 0
  let copy := some ⟨1, rxPosition⟩
  if messageType = SOF then
    turnFrameAt env frame tx rxPosition
  else if messageType = ACK then
    return some (.again { frame, tx := tx.receiveAck env, copy, rxPosition := rxPosition - 1 })
  else if messageType = NACK then
    return (tx.receiveNack env).map fun tx =>
      .again { frame, tx, copy, rxPosition := rxPosition - 1 }
  else if messageType = CAN then
    return some (.again { frame, tx, copy, rxPosition := rxPosition - 1 })
  else
    -- unknown
    return some (.again { frame, tx, copy := none, rxPosition := 0 })

/-! ## The handler in memory -/

/-- `ZWaveProtocol` in memory. `rxBuffer` goes on behind the 256 bytes of the array. -/
structure Machine (σ : Type) where
  tx : Tx σ
  rxBuffer : Nat → UInt8
  rxPosition : Int
  receiving : Bool

def Machine.unfinished (s : Bool × Machine σ) : Bool := decide (0 < s.2.rxPosition)

/-- The state after a turn. -/
def Machine.after (s : Machine σ) (a : After σ) : Bool × Machine σ :=
  (a.frame, {
    s with
    tx := a.tx
    rxBuffer :=
      match a.copy with
      | some c => copyDown s.rxBuffer c.first.toNat c.last.toNat
      | none => s.rxBuffer
    rxPosition := a.rxPosition })

def Machine.turn (env : Env σ) (s : Bool × Machine σ) : Option (Turn (Bool × Machine σ)) :=
  ((turnAt env s.1 s.2.tx s.2.rxPosition).result s.2.rxBuffer).map fun
    | .leave => .leave
    | .again a => .again (s.2.after a)

/-- The indices of `rxBuffer` that a turn reads. -/
def Machine.indices (env : Env σ) (s : Bool × Machine σ) : List Nat :=
  (turnAt env s.1 s.2.tx s.2.rxPosition).indices s.2.rxBuffer

/-- The range that a turn copies. -/
def Machine.copied (env : Env σ) (s : Bool × Machine σ) : Option Copy :=
  match (turnAt env s.1 s.2.tx s.2.rxPosition).result s.2.rxBuffer with
  | some (.again a) => a.copy
  | _ => none

/-- The read has put `bytes` behind what is there. -/
def Machine.received (s : Machine σ) (bytes : List UInt8) : Machine σ :=
  { s with
    rxBuffer := store s.rxBuffer s.rxPosition.toNat bytes
    rxPosition := s.rxPosition + bytes.length }

/-- The handler of a read, with the bytes already in the buffer and a turn for each of them. -/
def Machine.handleRead (env : Env σ) (s : Machine σ) : Option (Machine σ) :=
  (loop Machine.unfinished (Machine.turn env) s.rxPosition.toNat (false, s)).map (·.2)

def Machine.step (env : Env σ) (s : Machine σ) : Event → Option (Machine σ)
  | .tx e => (s.tx.step env e).map fun tx => { s with tx }
  | .read bytes =>
    if s.receiving = true ∧ s.rxPosition + bytes.length ≤ 256 then
      (s.received bytes).handleRead env
    else some s
  | .readError value =>
    if s.receiving then
      (s.tx.onError env (.system value)).map fun tx => { s with tx, receiving := false }
    else some s

/-- The state after construction, with any bytes in memory. -/
def Machine.init (a : σ) (txBuffer : Buffer) (rxBuffer : Nat → UInt8) : Machine σ where
  tx := .init a txBuffer
  rxBuffer := rxBuffer
  rxPosition := 0
  receiving := true

/-! ## The turns stay inside the array -/

theorem calcChecksumAt_within (i : Nat) (checksum : UInt8) (length : Nat) :
    (calcChecksumAt i checksum length).Within (i + length) := by
  induction length generalizing i checksum with
  | zero => exact within_pure _ _
  | succ length ih =>
    apply within_bind (within_byteAt (by omega))
    intro b
    exact within_mono (by omega) (ih (i + 1) (checksum ^^^ b))

theorem bytesAt_within (i length : Nat) : (bytesAt i length).Within (i + length) := by
  induction length generalizing i with
  | zero => exact within_pure _ _
  | succ length ih =>
    apply within_bind (within_byteAt (by omega))
    intro b
    apply within_bind (within_mono (by omega) (ih (i + 1)))
    exact fun _ => within_pure _ _

theorem isRequestAt_within (frameType : UInt8) (funcId : Option UInt8) :
    (isRequestAt frameType funcId).Within 256 := by
  apply within_ite
  · exact fun _ => within_bind (within_byteAt (by omega)) fun _ => within_pure _ _
  · exact fun _ => within_pure _ _

theorem receiveFrontAt_within (env : Env σ) (s : Tx σ) (front : Entry) (frameType : UInt8)
    {length : Nat} (h : length < 256) :
    (s.receiveFrontAt env front frameType length).Within 256 := by
  have hdata : (bytesAt 4 (length - 3)).Within 256 :=
    within_mono (by omega) (bytesAt_within 4 (length - 3))
  apply within_bind (isRequestAt_within _ _)
  intro isRequest
  apply within_ite
  · exact fun _ => within_bind hdata fun _ => within_pure _ _
  · intro _
    apply within_ite
    · exact fun _ => within_bind hdata fun _ => within_pure _ _
    · exact fun _ => within_pure _ _

theorem receiveOtherAt_within (env : Env σ) (s : Tx σ) (frameType : UInt8) {length : Nat}
    (h : length < 256) : (s.receiveOtherAt env frameType length).Within 256 := by
  have hdata : (bytesAt 3 (length - 2)).Within 256 :=
    within_mono (by omega) (bytesAt_within 3 (length - 2))
  apply within_ite
  · exact fun _ => within_bind hdata fun _ => within_pure _ _
  · exact fun _ => within_pure _ _

theorem receiveFrameAt_within (env : Env σ) (s : Tx σ) {length : Nat} (h : length < 256) :
    (s.receiveFrameAt env length).Within 256 := by
  apply within_bind (within_byteAt (by omega))
  intro frameType
  apply within_bind (within_byteAt (by omega))
  intro function
  dsimp only
  split
  · apply within_ite
    · exact fun _ => receiveFrontAt_within env _ _ frameType h
    · exact fun _ => receiveOtherAt_within env _ frameType h
  · exact receiveOtherAt_within env _ frameType h

theorem turnFrameAt_within (env : Env σ) (frame : Bool) (tx : Tx σ) {rxPosition : Int}
    (h : rxPosition ≤ 256) : (turnFrameAt env frame tx rxPosition).Within 256 := by
  apply within_ite
  · intro _
    apply within_bind (within_byteAt (by omega))
    intro l
    apply within_ite
    · -- a frame that is complete is two bytes shorter than the array at least
      intro hcomplete
      apply within_bind (within_mono (by omega) (calcChecksumAt_within 1 0xff l.toNat))
      intro checksum
      apply within_bind (within_byteAt (by omega))
      intro received
      apply within_ite
      · intro _
        apply within_bind
        · exact within_ite (fun _ => within_pure _ _)
            fun _ => receiveFrameAt_within env tx l.toNat_lt
        · exact fun _ => within_pure _ _
      · exact fun _ => within_pure _ _
    · exact fun _ => within_pure _ _
  · exact fun _ => within_pure _ _

theorem turnAt_within (env : Env σ) (frame : Bool) (tx : Tx σ) {rxPosition : Int}
    (h : rxPosition ≤ 256) : (turnAt env frame tx rxPosition).Within 256 := by
  apply within_bind (within_byteAt (by omega))
  intro messageType
  apply within_ite
  · exact fun _ => turnFrameAt_within env frame tx h
  · intro _
    apply within_ite
    · exact fun _ => within_pure _ _
    · intro _
      apply within_ite
      · exact fun _ => within_pure _ _
      · intro _
        exact within_ite (fun _ => within_pure _ _) fun _ => within_pure _ _

/-! ## What a turn leaves -/

/-- A copy of a range inside the first `n` bytes that is not reversed. -/
def Copy.Inside (c : Copy) (n : Int) : Prop := 0 ≤ c.first ∧ c.first ≤ c.last ∧ c.last ≤ n

/-- A turn that goes on copies what was received, and it takes a byte away at least. -/
def GoesDown (rxPosition : Int) : Option (Turn (After σ)) → Prop
  | none => False
  | some .leave => True
  | some (.again a) =>
    (∀ c, a.copy = some c → c.Inside rxPosition) ∧ 0 ≤ a.rxPosition ∧ a.rxPosition < rxPosition

theorem receiveFrontAt_yields (env : Env σ) (s : Tx σ) (front : Entry) (frameType : UInt8)
    (length : Nat) : (s.receiveFrontAt env front frameType length).Yields
      fun tx => ∃ s', tx = some s' := by
  apply yields_bind (yields_any _)
  intro isRequest _
  obtain ⟨s₁, h₁⟩ : ∃ s₁, (if (decide (frameType = RESPONSE) && front.request.funcId.isNone ||
      isRequest) = true then s.endProcedure env front s.requests.tail else some s) = some s₁ := by
    split
    · exact endProcedure_some env _ _ _
    · exact ⟨_, rfl⟩
  dsimp only
  rw [h₁]
  apply yields_ite
  · intro _
    apply yields_bind (yields_any _)
    exact fun data _ => yields_pure (answer_some env _ _)
  · intro _
    apply yields_ite
    · intro _
      apply yields_bind (yields_any _)
      exact fun data _ => yields_pure (answer_some env _ _)
    · exact fun _ => yields_pure ⟨_, rfl⟩

theorem receiveOtherAt_yields (env : Env σ) (s : Tx σ) (frameType : UInt8) (length : Nat) :
    (s.receiveOtherAt env frameType length).Yields fun tx => ∃ s', tx = some s' := by
  apply yields_ite
  · intro _
    apply yields_bind (yields_any _)
    exact fun data _ => yields_pure (answer_some env _ _)
  · exact fun _ => yields_pure ⟨_, rfl⟩

theorem receiveFrameAt_yields (env : Env σ) (s : Tx σ) (length : Nat) :
    (s.receiveFrameAt env length).Yields fun tx => ∃ s', tx = some s' := by
  intro frameType function
  change Reading.Yields _ (match s.sendAck.requests.head? with
    | some front =>
      if front.request.function = function then
        s.sendAck.receiveFrontAt env front frameType length
      else s.sendAck.receiveOtherAt env frameType length
    | none => s.sendAck.receiveOtherAt env frameType length)
  split
  · apply yields_ite
    · exact fun _ => receiveFrontAt_yields env _ _ frameType length
    · exact fun _ => receiveOtherAt_yields env _ frameType length
  · exact receiveOtherAt_yields env _ frameType length

theorem turnFrameAt_yields (env : Env σ) (frame : Bool) (tx : Tx σ) {rxPosition : Int}
    (hpos : 0 < rxPosition) :
    (turnFrameAt env frame tx rxPosition).Yields (GoesDown rxPosition) := by
  apply yields_ite
  · intro _
    apply yields_bind (yields_any _)
    intro l _
    apply yields_ite
    · intro hcomplete
      apply yields_bind (yields_any _)
      intro checksum _
      apply yields_bind (yields_any _)
      intro received _
      apply yields_ite
      · intro _
        apply yields_bind (P := fun tx => ∃ s', tx = some s')
        · exact yields_ite (fun _ => yields_pure ⟨_, rfl⟩)
            fun _ => receiveFrameAt_yields env tx l.toNat
        · rintro - ⟨s', rfl⟩
          refine yields_pure ⟨?_, ?_, ?_⟩
          · rintro c ⟨⟩
            exact ⟨by dsimp only; omega, hcomplete, Int.le_refl _⟩
          · dsimp only
            omega
          · dsimp only
            omega
      · exact fun _ => yields_pure ⟨fun c => nofun, Int.le_refl 0, hpos⟩
    · exact fun _ => yields_pure trivial
  · exact fun _ => yields_pure trivial

theorem turnAt_yields (env : Env σ) (frame : Bool) (tx : Tx σ) {rxPosition : Int}
    (hpos : 0 < rxPosition) :
    (turnAt env frame tx rxPosition).Yields (GoesDown rxPosition) := by
  have hone (tx : Tx σ) : GoesDown rxPosition (some (.again {
      frame, tx
      copy := some ⟨1, rxPosition⟩
      rxPosition := rxPosition - 1 })) := by
    refine ⟨?_, ?_, ?_⟩
    · rintro c ⟨⟩
      exact ⟨by dsimp only; omega, hpos, Int.le_refl _⟩
    · dsimp only
      omega
    · dsimp only
      omega
  apply yields_bind (yields_any _)
  intro messageType _
  apply yields_ite
  · exact fun _ => turnFrameAt_yields env frame tx hpos
  · intro _
    apply yields_ite
    · exact fun _ => yields_pure (hone _)
    · intro _
      apply yields_ite
      · intro _
        obtain ⟨s', hs'⟩ := receiveNack_some env tx
        rw [hs']
        exact yields_pure (hone s')
      · intro _
        apply yields_ite
        · exact fun _ => yields_pure (hone tx)
        · exact fun _ => yields_pure ⟨fun c => nofun, Int.le_refl 0, hpos⟩

/-! ## The loop -/

section Loop

variable (env : Env σ)

/-- What the turn at the head of the loop comes to: the place of `rxPosition`, the indices that
are read, the range that is copied, and that the turn has an end. -/
def Machine.TurnSafe (s : Bool × Machine σ) : Prop :=
  (0 ≤ s.2.rxPosition ∧ s.2.rxPosition ≤ 256) ∧
    (0 < s.2.rxPosition →
      (∀ i ∈ Machine.indices env s, i < 256) ∧
      (∀ c, Machine.copied env s = some c → c.Inside 256) ∧
      ∃ r, Machine.turn env s = some r ∧ ∀ t, r = .again t → t.2.rxPosition < s.2.rxPosition)

theorem Machine.goesDown {s : Bool × Machine σ} (hpos : 0 < s.2.rxPosition) :
    GoesDown s.2.rxPosition ((turnAt env s.1 s.2.tx s.2.rxPosition).result s.2.rxBuffer) :=
  result_of_yields (turnAt_yields env s.1 s.2.tx hpos) s.2.rxBuffer

theorem Machine.turnSafe {s : Bool × Machine σ} (h0 : 0 ≤ s.2.rxPosition)
    (h : s.2.rxPosition ≤ 256) : Machine.TurnSafe env s := by
  refine ⟨⟨h0, h⟩, fun hpos => ⟨?_, ?_, ?_⟩⟩
  · exact indices_lt (turnAt_within env s.1 s.2.tx h) s.2.rxBuffer
  · have hdown := Machine.goesDown env hpos
    unfold Machine.copied
    intro c hc
    split at hc
    · rename_i a hr
      rw [hr] at hdown
      obtain ⟨hfirst, hle, hlast⟩ := hdown.1 c hc
      exact ⟨hfirst, hle, Int.le_trans hlast h⟩
    · cases hc
  · have hdown := Machine.goesDown env hpos
    unfold Machine.turn
    cases hr : (turnAt env s.1 s.2.tx s.2.rxPosition).result s.2.rxBuffer with
    | none =>
      rw [hr] at hdown
      cases hdown
    | some r =>
      rw [hr] at hdown
      refine ⟨_, rfl, ?_⟩
      cases r with
      | leave => exact fun t => nofun
      | again a =>
        rintro t ⟨⟩
        exact hdown.2.2

variable {env} in
/-- Each turn that goes on makes `rxPosition` smaller. -/
theorem Machine.turn_decreases {s t : Bool × Machine σ}
    (hgo : Goes Machine.unfinished (Machine.turn env) s t) :
    0 ≤ t.2.rxPosition ∧ t.2.rxPosition < s.2.rxPosition := by
  have hdown := Machine.goesDown env (of_decide_eq_true hgo.1)
  obtain ⟨r, hr, hafter⟩ := Option.map_eq_some_iff.mp hgo.2
  rw [hr] at hdown
  cases r with
  | leave => cases hafter
  | again a =>
    cases hafter
    exact hdown.2

variable {env} in
theorem Machine.visited_position {s t : Bool × Machine σ}
    (hv : Visits Machine.unfinished (Machine.turn env) s t)
    (h : 0 ≤ s.2.rxPosition ∧ s.2.rxPosition ≤ 256) :
    0 ≤ t.2.rxPosition ∧ t.2.rxPosition ≤ 256 := by
  apply hv.keeps (P := fun t => 0 ≤ t.2.rxPosition ∧ t.2.rxPosition ≤ 256) h
  intro u v _ hgo hu
  obtain ⟨h0, hlt⟩ := Machine.turn_decreases hgo
  exact ⟨h0, by omega⟩

/-- The handler never fails, and its loop ends. -/
theorem Machine.handleRead_spec (s : Machine σ) :
    ∃ t, Visits Machine.unfinished (Machine.turn env) (false, s) t ∧
      Ends Machine.unfinished (Machine.turn env) t ∧ s.handleRead env = some t.2 := by
  rcases loop_spec Machine.unfinished (Machine.turn env) (fun p => p.2.rxPosition.toNat)
      (fun p hp => by have := of_decide_eq_true hp; omega)
      (fun p q hpq => by have := Machine.turn_decreases hpq; omega)
      (n := s.rxPosition.toNat) (s := (false, s)) (Nat.le_refl _) with
    ⟨t, -, hg, hb, -⟩ | ⟨t, hv, he, hl⟩
  · have hdown := Machine.goesDown env (of_decide_eq_true hg)
    rw [Option.map_eq_none_iff.mp hb] at hdown
    cases hdown
  · refine ⟨t, hv, he, ?_⟩
    unfold Machine.handleRead
    rw [hl]
    rfl

end Loop

/-! ## Every run -/

theorem Machine.step_position {env : Env σ} (s : Machine σ) (e : Event) (t : Machine σ)
    (h : 0 ≤ s.rxPosition ∧ s.rxPosition ≤ 256) (ht : s.step env e = some t) :
    0 ≤ t.rxPosition ∧ t.rxPosition ≤ 256 := by
  unfold Machine.step at ht
  cases e with
  | tx e =>
    obtain ⟨tx, -, rfl⟩ := Option.map_eq_some_iff.mp ht
    exact h
  | read bytes =>
    dsimp only at ht
    split_ifs at ht with hfit
    · obtain ⟨p, hv, -, hp⟩ := Machine.handleRead_spec env (s.received bytes)
      rw [hp] at ht
      cases ht
      apply Machine.visited_position hv
      unfold Machine.received
      dsimp only
      omega
    · cases ht
      exact h
  | readError value =>
    dsimp only at ht
    split_ifs at ht
    · obtain ⟨tx, -, rfl⟩ := Option.map_eq_some_iff.mp ht
      exact h
    · cases ht
      exact h

/-- In every state that a run reaches, every read that fits into the free part of the buffer is
handled inside the array, turn by turn, up to the end of the loop. -/
theorem receive_loop_stays_inside (env : Env σ) (a : σ) (txBuffer : Buffer)
    (rxBuffer : Nat → UInt8) (es : List Event) :
    Always (Machine.step env) (fun s =>
        (0 ≤ s.rxPosition ∧ s.rxPosition ≤ 256) ∧
        ∀ bytes : List UInt8, s.rxPosition + bytes.length ≤ 256 →
          (∀ p, Visits Machine.unfinished (Machine.turn env) (false, s.received bytes) p →
            Machine.TurnSafe env p) ∧
          ∃ t, Visits Machine.unfinished (Machine.turn env) (false, s.received bytes) t ∧
            Ends Machine.unfinished (Machine.turn env) t)
      (Machine.init a txBuffer rxBuffer) es := by
  have hposition : Always (Machine.step env)
      (fun s => 0 ≤ s.rxPosition ∧ s.rxPosition ≤ 256) (Machine.init a txBuffer rxBuffer) es :=
    always_of_step Machine.step_position _ _ ⟨Int.le_refl 0, Int.zero_le_ofNat 256⟩
  apply hposition.mono
  intro s hs
  refine ⟨hs, fun bytes hfit => ⟨?_, ?_⟩⟩
  · intro p hv
    have hp := Machine.visited_position hv (by
      unfold Machine.received
      dsimp only
      omega)
    exact Machine.turnSafe env hp.1 hp.2
  · obtain ⟨t, hv, he, -⟩ := Machine.handleRead_spec env (s.received bytes)
    exact ⟨t, hv, he⟩

/-! ## The model of the protocol -/

theorem calcChecksumAt_onList {l : List UInt8} {i length : Nat} (checksum : UInt8)
    (h : i + length ≤ l.length) :
    (calcChecksumAt i checksum length).onList l =
      some (((l.drop i).take length).foldl (fun checksum b => checksum ^^^ b) checksum) := by
  induction length generalizing i checksum with
  | zero => rfl
  | succ length ih =>
    have hi : i < l.length := by omega
    rw [calcChecksumAt, onList_bind, onList_byteAt, List.getElem?_eq_getElem hi,
      Option.bind_some, ih _ (by omega), List.drop_eq_getElem_cons hi, List.take_succ_cons,
      List.foldl_cons]

theorem bytesAt_onList {l : List UInt8} {i length : Nat} (h : i + length ≤ l.length) :
    (bytesAt i length).onList l = some ((l.drop i).take length) := by
  induction length generalizing i with
  | zero => rfl
  | succ length ih =>
    have hi : i < l.length := by omega
    rw [bytesAt, onList_bind, onList_byteAt, List.getElem?_eq_getElem hi, Option.bind_some,
      onList_bind, ih (by omega), List.drop_eq_getElem_cons hi, List.take_succ_cons]
    rfl

theorem isRequestAt_onList {l : List UInt8} {id : UInt8} (h : l[4]? = some id)
    (frameType : UInt8) (funcId : Option UInt8) :
    (isRequestAt frameType funcId).onList l =
      some (decide (frameType = REQUEST) && decide (funcId = some id)) := by
  unfold isRequestAt
  rw [onList_ite]
  split
  · rename_i hc
    rw [onList_bind, onList_byteAt, h, Option.bind_some, onList_pure, hc.1]
    simp
  · rename_i hc
    rw [onList_pure]
    cases funcId <;> simp_all

theorem receiveOtherAt_onList (env : Env σ) (s : Tx σ) (frameType : UInt8) {l : List UInt8}
    {length : Nat} (h5 : 5 ≤ l.length) (h : length < l.length) :
    (s.receiveOtherAt env frameType length).onList l =
      some (if frameType = REQUEST then
        s.onRequest env ((l.drop 3).take (length - 2)) ((length : Int) - 2)
      else some s) := by
  unfold Tx.receiveOtherAt
  rw [onList_ite]
  split
  · rw [onList_bind, bytesAt_onList (by omega)]
    rfl
  · rfl

theorem receiveFrontAt_onList (env : Env σ) (s : Tx σ) (front : Entry) (frameType : UInt8)
    {l : List UInt8} {length : Nat} {id : UInt8} (h4 : l[4]? = some id) (h5 : 5 ≤ l.length)
    (h : length < l.length) :
    (s.receiveFrontAt env front frameType length).onList l =
      some (let isResponse := decide (frameType = RESPONSE)
        let isRequest := decide (frameType = REQUEST) && decide (front.request.funcId = some id)
        (if (isResponse && front.request.funcId.isNone) || isRequest then
          s.endProcedure env front s.requests.tail
        else some s).bind fun s =>
        if isResponse then
          s.onResponse env front ((l.drop 4).take (length - 3)) ((length : Int) - 3)
        else if isRequest then
          s.onSendRequest env front ((l.drop 4).take (length - 3)) ((length : Int) - 3)
        else some s) := by
  have hdata : (bytesAt 4 (length - 3)).onList l = some ((l.drop 4).take (length - 3)) :=
    bytesAt_onList (by omega)
  unfold Tx.receiveFrontAt
  rw [onList_bind, isRequestAt_onList h4, Option.bind_some]
  dsimp only
  rw [onList_ite, onList_ite, onList_bind, onList_bind, hdata]
  simp only [Option.bind_some, onList_pure]
  split
  · rfl
  · split
    · rfl
    · rw [Option.bind_fun_some]

theorem receiveFrameAt_onList (env : Env σ) (s : Tx σ) {l : List UInt8} {length : Nat}
    (h5 : 5 ≤ l.length) (h : length < l.length) :
    (s.receiveFrameAt env length).onList l = some (s.receiveFrame env l length) := by
  have hget : ∀ i, i < 5 → ∃ b, l[i]? = some b := fun i hi =>
    ⟨_, List.getElem?_eq_getElem (by omega)⟩
  obtain ⟨frameType, h2⟩ := hget 2 (by decide)
  obtain ⟨function, h3⟩ := hget 3 (by decide)
  obtain ⟨id, h4⟩ := hget 4 (by decide)
  unfold Tx.receiveFrameAt Tx.receiveFrame
  simp only [onList_bind, onList_byteAt, h2, h3, h4, Option.bind_some, Option.bind_eq_bind]
  cases s.sendAck.requests.head? with
  | some front =>
    dsimp only
    rw [onList_ite]
    split
    · exact receiveFrontAt_onList env _ front frameType h4 h5 h
    · exact receiveOtherAt_onList env _ frameType h5 h
  | none => exact receiveOtherAt_onList env _ frameType h5 h

/-- What a turn leaves in memory, and what it leaves in the model. -/
inductive Leaves (t : ZWaveProtocol σ) :
    Turn (After σ) → Turn (Bool × ZWaveProtocol σ) → Prop where
  | leave : Leaves t .leave .leave
  | remove {frame tx rx} {n : Nat} (hrx : t.rx.remove n = some rx) :
      Leaves t (.again {
          frame, tx
          copy := some ⟨n, t.rx.rxPosition⟩
          rxPosition := (t.rx.rxPosition : Int) - n })
        (.again (frame, { t with tx, rx }))
  | clear {frame tx} :
      Leaves t (.again { frame, tx, copy := none, rxPosition := 0 })
        (.again (frame, { t with tx, rx := t.rx.clear }))

/-- A complete frame is compared with its checksum. -/
theorem turnFrameAt_complete (env : Env σ) (frame : Bool) {t : ZWaveProtocol σ} {l : UInt8}
    (hl : t.rx.Complete l) :
    (turnFrameAt env frame t.tx t.rx.rxPosition).onList t.rx.rxBuffer.bytes =
      if t.rx.Checked l then
        some ((if frame then some t.tx else
            t.tx.receiveFrame env t.rx.rxBuffer.bytes l.toNat).map fun tx => .again {
          frame := true, tx
          copy := some ⟨2 + l.toNat, t.rx.rxPosition⟩
          rxPosition := t.rx.rxPosition - (2 + l.toNat) })
      else some (some (.again { frame, tx := t.tx.sendNack, copy := none, rxPosition := 0 })) := by
  obtain ⟨-, h1, h3, hlength⟩ := hl
  have hposition := t.rx.position_le
  have hsize := t.rx.rxBuffer.size_eq
  obtain ⟨c, hc⟩ := t.rx.rxBuffer.getElem?_some (i := 2 + l.toNat - 1) (by omega)
  have hchecked :
      t.rx.Checked l ↔ c = calcChecksum (t.rx.rxBuffer.bytes.drop 1) l.toNat := by
    unfold Rx.Checked
    rw [hc, Option.some.injEq]
  have hsum : (calcChecksumAt 1 0xff l.toNat).onList t.rx.rxBuffer.bytes =
      some (calcChecksum (t.rx.rxBuffer.bytes.drop 1) l.toNat) :=
    calcChecksumAt_onList 0xff (by omega)
  unfold turnFrameAt
  rw [if_pos (by omega), onList_bind, onList_byteAt, h1, Option.bind_some]
  dsimp only
  rw [if_pos (by omega), onList_bind, hsum, Option.bind_some, onList_bind, onList_byteAt, hc,
    Option.bind_some, onList_ite]
  by_cases h : t.rx.Checked l
  · rw [if_pos h, if_pos (hchecked.mp h), onList_bind]
    unfold Tx.receiveFirstAt
    rw [onList_ite, receiveFrameAt_onList env _ (by omega) (by omega)]
    cases frame <;> rfl
  · rw [if_neg h, if_neg fun heq => h (hchecked.mpr heq)]
    rfl

theorem turnAt_onList {env : Env σ} {frame : Bool} {t : ZWaveProtocol σ}
    {r : Turn (Bool × ZWaveProtocol σ)} (h : TurnCase env frame t r) :
    ∃ r', (turnAt env frame t.tx t.rx.rxPosition).onList t.rx.rxBuffer.bytes = some (some r') ∧
      Leaves t r' r := by
  unfold turnAt
  rw [onList_bind, onList_byteAt]
  cases h with
  | incomplete h =>
    obtain ⟨h0, hshort | ⟨l, h1, hlength⟩⟩ := h
    · rw [h0, Option.bind_some, if_pos rfl]
      unfold turnFrameAt
      rw [if_neg (by omega)]
      exact ⟨_, rfl, .leave⟩
    · rw [h0, Option.bind_some, if_pos rfl]
      unfold turnFrameAt
      by_cases h3 : 3 ≤ (t.rx.rxPosition : Int)
      · rw [if_pos h3, onList_bind, onList_byteAt, h1, Option.bind_some]
        dsimp only
        rw [if_neg (by omega)]
        exact ⟨_, rfl, .leave⟩
      · rw [if_neg h3]
        exact ⟨_, rfl, .leave⟩
  | @frame l tx rx hl hc htx hrx =>
    rw [hl.1, Option.bind_some, if_pos rfl, turnFrameAt_complete env _ hl, if_pos hc]
    cases frame with
    | true =>
      rw [if_pos rfl] at htx ⊢
      cases htx
      exact ⟨_, rfl, .remove hrx⟩
    | false =>
      rw [if_neg Bool.false_ne_true] at htx ⊢
      rw [htx]
      exact ⟨_, rfl, .remove hrx⟩
  | checksum hl hc =>
    rw [hl.1, Option.bind_some, if_pos rfl, turnFrameAt_complete env _ hl, if_neg hc]
    exact ⟨_, rfl, .clear⟩
  | ack h0 hrx =>
    rw [h0, Option.bind_some]
    exact ⟨_, rfl, .remove hrx⟩
  | nack h0 htx hrx =>
    rw [h0, Option.bind_some, htx]
    exact ⟨_, rfl, .remove hrx⟩
  | can h0 hrx =>
    rw [h0, Option.bind_some]
    exact ⟨_, rfl, .remove hrx⟩
  | unknown h0 hb =>
    obtain ⟨hsof, hack, hnack, hcan⟩ := hb
    rw [h0, Option.bind_some, if_neg hsof, if_neg hack, if_neg hnack, if_neg hcan]
    exact ⟨_, rfl, .clear⟩

/-- The state in memory and the state of the model. -/
structure Machine.Represents (s : Machine σ) (t : ZWaveProtocol σ) : Prop where
  tx : s.tx = t.tx
  rxPosition : s.rxPosition = t.rx.rxPosition
  rxBuffer : frame s.rxBuffer 256 = t.rx.rxBuffer.bytes
  receiving : s.receiving = t.receiving

/-- In the loop. -/
def Machine.RepresentsAt (p : Bool × Machine σ) (q : Bool × ZWaveProtocol σ) : Prop :=
  p.1 = q.1 ∧ p.2.Represents q.2

theorem Machine.Represents.received {s : Machine σ} {t : ZWaveProtocol σ} (h : s.Represents t)
    {bytes : List UInt8} (hfit : t.rx.rxPosition + bytes.length ≤ 256) :
    (s.received bytes).Represents (t.received bytes hfit) where
  tx := h.tx
  rxPosition := by
    change s.rxPosition + bytes.length = ((t.rx.rxPosition + bytes.length : Nat) : Int)
    rw [h.rxPosition, Int.natCast_add]
  rxBuffer := by
    change frame (store s.rxBuffer s.rxPosition.toNat bytes) 256 = _
    rw [h.rxPosition, Int.toNat_natCast, frame_store _ hfit, h.rxBuffer]
    rfl
  receiving := h.receiving

theorem Machine.Represents.removed {s : Machine σ} {t : ZWaveProtocol σ} (h : s.Represents t)
    {n : Nat} {rx : Rx} (hrx : t.rx.remove n = some rx) :
    frame (copyDown s.rxBuffer n t.rx.rxPosition) 256 = rx.rxBuffer.bytes := by
  have hposition := t.rx.position_le
  unfold Rx.remove at hrx
  split at hrx
  · cases hrx
    rw [frame_copyDown _ hposition, frame_store, h.rxBuffer]
    · rfl
    · rw [List.length_drop, List.length_take, length_frame]
      omega
  · cases hrx

theorem Machine.turn_represents (env : Env σ) {p : Bool × Machine σ}
    {q : Bool × ZWaveProtocol σ} (h : Machine.RepresentsAt p q)
    (hpos : Machine.unfinished p = true) :
    Option.Rel (Turn.Rel Machine.RepresentsAt) (Machine.turn env p) (huasi.zwave.turn env q) := by
  obtain ⟨frame, s⟩ := p
  obtain ⟨frame', t⟩ := q
  obtain ⟨hframe, hs⟩ := h
  dsimp only at hframe hs
  subst hframe
  have hposition := hs.rxPosition
  have h256 := t.rx.position_le
  have hunfinished : huasi.zwave.unfinished (frame, t) = true := by
    have := of_decide_eq_true hpos
    apply decide_eq_true
    dsimp only at this ⊢
    omega
  obtain ⟨r, hr, hcase⟩ := turn_cases env frame t hunfinished
  obtain ⟨r', hr', hleaves⟩ := turnAt_onList hcase
  have hwithin := turnAt_within env frame s.tx (show s.rxPosition ≤ 256 by omega)
  rw [← hs.tx, ← hs.rxBuffer, ← hs.rxPosition, onList_frame hwithin] at hr'
  unfold Machine.turn
  rw [hr, Option.some.inj hr']
  cases hleaves with
  | leave => exact .some .leave
  | @remove frame tx rx n hrx =>
    refine .some (.again ⟨rfl, rfl, ?_, ?_, hs.receiving⟩)
    · change (t.rx.rxPosition : Int) - n = rx.rxPosition
      have := Rx.remove_position hrx
      omega
    · exact hs.removed hrx
  | clear => exact .some (.again ⟨rfl, rfl, rfl, hs.rxBuffer, hs.receiving⟩)

theorem Machine.handleRead_represents {env : Env σ} {s : Machine σ} {t : ZWaveProtocol σ}
    (h : s.Represents t) :
    Option.Rel Machine.Represents (s.handleRead env) (huasi.zwave.handleRead env t) := by
  have hguard (p : Bool × Machine σ) (q : Bool × ZWaveProtocol σ)
      (hpq : Machine.RepresentsAt p q) :
      Machine.unfinished p = huasi.zwave.unfinished q := by
    have := hpq.2.rxPosition
    apply decide_eq_decide.mpr
    omega
  have hstart : Machine.RepresentsAt (false, s) (false, t) := ⟨rfl, h⟩
  have hloop := loop_rel hguard (fun p q hpq hg => Machine.turn_represents env hpq hg)
    hstart t.rx.rxPosition
  unfold Machine.handleRead huasi.zwave.handleRead
  rw [h.rxPosition, Int.toNat_natCast]
  generalize loop Machine.unfinished (Machine.turn env) t.rx.rxPosition (false, s) = x at hloop ⊢
  generalize loop huasi.zwave.unfinished (huasi.zwave.turn env) t.rx.rxPosition (false, t) = y
    at hloop ⊢
  cases hloop with
  | none => exact .none
  | some hpq => exact .some hpq.2

theorem Machine.step_represents {env : Env σ} (s : Machine σ) (t : ZWaveProtocol σ) (e : Event)
    (h : s.Represents t) :
    Option.Rel Machine.Represents (s.step env e) (huasi.zwave.step env t e) := by
  unfold Machine.step huasi.zwave.step
  cases e with
  | tx e =>
    dsimp only
    rw [h.tx]
    cases t.tx.step env e with
    | none => exact .none
    | some tx => exact .some ⟨rfl, h.rxPosition, h.rxBuffer, h.receiving⟩
  | read bytes =>
    dsimp only
    by_cases hfit : t.receiving = true ∧ t.rx.rxPosition + bytes.length ≤ 256
    · rw [dif_pos hfit, if_pos]
      · exact Machine.handleRead_represents (h.received hfit.2)
      · rw [h.receiving, h.rxPosition]
        exact ⟨hfit.1, by omega⟩
    · rw [dif_neg hfit, if_neg]
      · exact .some h
      · rw [h.receiving, h.rxPosition]
        intro hfit'
        exact hfit ⟨hfit'.1, by omega⟩
  | readError value =>
    dsimp only
    rw [h.tx, h.receiving]
    split
    · cases t.tx.onError env (.system value) with
      | none => exact .none
      | some tx => exact .some ⟨rfl, h.rxPosition, h.rxBuffer, rfl⟩
    · exact .some h

/-- The model of the protocol is what the machine computes, in every run. -/
theorem machine_represents (env : Env σ) (a : σ) (txBuffer : Buffer) (rxBuffer : Nat → UInt8)
    (es : List Event) :
    Option.Rel Machine.Represents
      (run (Machine.step env) (Machine.init a txBuffer rxBuffer) es)
      (run (huasi.zwave.step env)
        (init a txBuffer ⟨frame rxBuffer 256, length_frame rxBuffer 256⟩) es) :=
  run_related Machine.step_represents ⟨rfl, rfl, rfl, rfl⟩ es

end huasi.zwave
