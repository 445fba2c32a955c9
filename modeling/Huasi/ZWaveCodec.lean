-- The encoder and the decoder agree: what `sendRequest()` writes is one whole
-- frame, the read handler takes it for that frame however it is cut, and the
-- payload of a command to a node has the documented layout.
import Huasi.ZWaveMessages

open huasi.runs huasi.stream huasi.write_port

namespace huasi.zwave

variable {σ : Type} {env : Env σ}

/-! ## The encoder -/

/-- The frame of a request: its data, and its funcId if it has one. -/
def Request.frame (r : Request) : Frame where
  type := REQUEST
  function := r.function
  payload := r.data ++ r.funcId.toList
  payload_le := by
    have := r.length_le
    unfold Request.length at this
    rw [List.length_append]
    omega

theorem Request.frame_length (r : Request) : r.frame.length + 1 = r.length := by
  simp only [Frame.length, Request.frame, Request.length, List.length_append]
  omega

/-- What was written, behind what was there. -/
theorem Buffer.store_take (b : Buffer) (i : Nat) (data : List UInt8) (h : i + data.length ≤ 256) :
    (b.store i data h).bytes.take (i + data.length) = b.bytes.take i ++ data := by
  have hlen : (b.bytes.take i ++ data).length = i + data.length := by
    rw [List.length_append, List.length_take, b.size_eq]
    omega
  unfold Buffer.store
  simp only
  rw [← hlen, List.take_left]

section Encode

variable (r : Request)

/-- The data and the funcId, from offset 4 on. -/
theorem payload_take (b : Buffer) (h : 4 + r.data.length ≤ 256)
    (h' : 4 + r.data.length + r.funcId.toList.length ≤ 256) :
    ((b.store 4 r.data h).store (4 + r.data.length) r.funcId.toList h').bytes.take r.length =
      b.bytes.take 4 ++ r.frame.payload := by
  have hlen : r.length = 4 + r.data.length + r.funcId.toList.length := rfl
  rw [hlen, Buffer.store_take, Buffer.store_take, List.append_assoc]
  rfl

/-- The header in front of it. -/
theorem header_take (b : Buffer) (l : List UInt8)
    (hb : b.bytes.take r.length = l ++ r.frame.payload) (hl : l.length = 4)
    (h : 0 + [SOF, UInt8.ofNat (r.length - 1), REQUEST, r.function].length ≤ 256) :
    (b.store 0 [SOF, UInt8.ofNat (r.length - 1), REQUEST, r.function] h).bytes.take r.length =
      SOF :: r.frame.content := by
  have hlen := r.frame_length
  have hfour : 4 ≤ r.length := by
    unfold Frame.length at hlen
    omega
  have hpayload : (b.bytes.drop 4).take (r.length - 4) = r.frame.payload := by
    rw [← List.drop_take, hb, ← hl, List.drop_left]
  have hheader : [SOF, UInt8.ofNat (r.length - 1), REQUEST, r.function] ++ r.frame.payload =
      SOF :: r.frame.content := by
    rw [← hlen, Nat.add_sub_cancel]
    rfl
  unfold Buffer.store
  simp only [List.take_zero, List.nil_append, List.length_cons, List.length_nil]
  rw [← hheader, ← hpayload, List.take_append]
  rw [List.take_of_length_le (by simpa using hfour)]
  rfl

/-- The checksum behind it. -/
theorem checksum_take (b : Buffer) (hb : b.bytes.take r.length = SOF :: r.frame.content)
    (h : r.length + [calcChecksum (b.bytes.drop 1) (r.length - 1)].length ≤ 256) :
    (b.store r.length [calcChecksum (b.bytes.drop 1) (r.length - 1)] h).bytes.take (r.length + 1) =
      r.frame.bytes := by
  have hlen : r.length - 1 = r.frame.length := by
    rw [← r.frame_length, Nat.add_sub_cancel]
  have hsum : calcChecksum (b.bytes.drop 1) (r.length - 1) = r.frame.checksum := by
    rw [← calcChecksum_take, ← List.drop_take, hb, hlen]
    rfl
  apply (Buffer.store_take b r.length _ h).trans
  rw [hb, hsum]
  rfl

/-- The buffer starts with the whole frame. -/
theorem encode_take (txBuffer : Buffer) :
    (r.encode txBuffer).bytes.take (r.length + 1) = r.frame.bytes := by
  unfold Request.encode
  apply checksum_take
  apply header_take
  · apply payload_take
  · rw [List.length_take, txBuffer.size_eq]
    rfl

end Encode

/-- The frame of the next transmission of `front`. -/
def Tx.nextFrame (s : Tx σ) (front : Entry) : Frame :=
  (front.request.assign s.nextFuncId).frame

/-- `sendRequest()` hands one whole frame to `async_write`. -/
theorem transmit_writes_frame (s : Tx σ) (front : Entry) (rest : List Entry) :
    (s.transmit env front rest).tty.started = s.tty.started ++ [(s.nextFrame front).bytes] := by
  simp only [Tx.nextFrame]
  simp only [Tx.transmit, Tx.emit, Tx.asyncWrite, Port.asyncWrite, Tx.memory, encode_take]

/-! ## The decoder -/

/-- Reads of the rest of a stream that is no longer than the free part of the buffer. -/
theorem meets_fits {s : ZWaveProtocol σ} {m : MessageProtocol σ} (cs : List (List UInt8))
    (h : Shows s m) (hrecv : s.receiving = true) (hcs : cs.flatten <+: m.remaining)
    (hroom : s.rx.rxPosition + m.remaining.length ≤ 256) :
    Meets (step env) Fits s (cs.map .read) := by
  induction cs generalizing s m with
  | nil => trivial
  | cons c cs ih =>
    rw [List.flatten_cons] at hcs
    obtain ⟨hnext, hlater⟩ := prefix_drop hcs
    have hlen := hnext.length_le
    have hfit : Fits s (.read c) := ⟨hrecv, by omega⟩
    refine ⟨hfit, fun t ht => ?_⟩
    obtain ⟨s', m', hs, -, h', hrem⟩ := read_shows env h hnext hfit
    rw [ht, Option.some.injEq] at hs
    subst hs
    have hpos : t.rx.rxPosition ≤ s.rx.rxPosition + c.length ∧ t.receiving = true := by
      rcases read_cases ht with rfl | ⟨hfit, frame, hv, -⟩
      · exact ⟨by omega, hrecv⟩
      · refine ⟨?_, (visited_receiving hv).trans hrecv⟩
        rcases visited_position hv with heq | hlt
        · cases heq
          exact Nat.le_refl _
        · exact Nat.le_of_lt hlt
    apply ih h' hpos.2
    · rwa [hrem]
    · rw [hrem, List.length_drop]
      omega

/-- The machine on messages, while one frame arrives in pieces: nothing before its last byte. -/
theorem run_one_frame (tx : Tx σ) (f : Frame) (k : Nat) (cs : List (List UInt8))
    (hk : k < f.bytes.length) (hlen : k + cs.flatten.length ≤ f.bytes.length) :
    run (stepMessages env) ⟨tx, [.frame f], k, true⟩ (cs.map .read) =
      if k + cs.flatten.length < f.bytes.length then
        some ⟨tx, [.frame f], k + cs.flatten.length, true⟩
      else (tx.handleFrame env f).map fun tx => ⟨tx, [], 0, true⟩ := by
  induction cs generalizing k with
  | nil => simp [run, hk]
  | cons c cs ih =>
    rw [List.flatten_cons, List.length_append] at hlen ⊢
    rw [List.map_cons, run]
    by_cases hc : k + c.length < f.bytes.length
    · have hstep : stepMessages env ⟨tx, [.frame f], k, true⟩ (.read c) =
          some ⟨tx, [.frame f], k + c.length, true⟩ := by
        have hmore : ¬ (Message.frame f).bytes.length ≤ k + c.length := by
          simp only [Message.bytes]
          omega
        simp [stepMessages, arrived, hmore, handleMessages]
      rw [hstep, Option.bind_some, ih (k + c.length) hc (by omega), Nat.add_assoc]
    · have hempty : cs.flatten.length = 0 := by omega
      have hall : k + c.length = f.bytes.length := by omega
      have hstep : stepMessages env ⟨tx, [.frame f], k, true⟩ (.read c) =
          (tx.handleFrame env f).map fun tx => ⟨tx, [], 0, true⟩ := by
        simp only [stepMessages, arrived, Message.bytes, hall, Nat.le_refl, if_true,
          handleMessages, List.flatMap_cons, List.flatMap_nil, List.append_nil, Nat.sub_self]
        cases tx.handleFrame env f <;> rfl
      rw [hstep, hempty, Nat.add_zero, if_neg hc]
      -- what follows are reads of nothing
      have hnil : ∀ c' ∈ cs, c' = [] := by
        intro c' hc'
        exact List.flatten_eq_nil_iff.mp (List.length_eq_zero_iff.mp hempty) c' hc'
      cases tx.handleFrame env f with
      | none => rfl
      | some tx =>
        simp only [Option.map_some, Option.bind_some]
        clear ih hlen hempty
        induction cs with
        | nil => rfl
        | cons c' cs ih' =>
          have hc' := hnil c' List.mem_cons_self
          subst hc'
          exact ih' fun d hd => hnil d (List.mem_cons_of_mem _ hd)

/-- One frame in pieces, into an empty buffer: before its last byte it is only stored, and with
its last byte it is handled, once, and the buffer is empty again. -/
theorem frame_in_pieces (env : Env σ) (f : Frame) {s : ZWaveProtocol σ}
    (hempty : s.rx.rxPosition = 0) (hrecv : s.receiving = true) (cs : List (List UInt8))
    (hcs : cs.flatten <+: f.bytes) :
    ∃ s', run (step env) s (cs.map .read) = some s' ∧
      if cs.flatten = f.bytes then
        s'.rx.unread = [] ∧ s.tx.handleFrame env f = some s'.tx
      else s'.rx.unread = cs.flatten ∧ s'.tx = s.tx := by
  have hstart : Shows s ⟨s.tx, [.frame f], 0, true⟩ := by
    refine ⟨rfl, hrecv, ?_, Message.bytes_pos _⟩
    apply List.length_eq_zero_iff.mp
    rw [Rx.unread_length, hempty]
  have hremaining : (⟨s.tx, [.frame f], 0, true⟩ : MessageProtocol σ).remaining = f.bytes := by
    simp [MessageProtocol.remaining, Message.bytes]
  have hbytes : (cs.map Event.read).flatMap Event.bytes = cs.flatten := by
    rw [List.flatMap_map]
    exact List.flatMap_id
  have hsize : f.bytes.length ≤ 256 := by
    have := f.payload_le
    rw [f.bytes_length]
    unfold Frame.length
    omega
  have hfit : Meets (step env) Fits s (cs.map .read) := by
    apply meets_fits cs hstart hrecv
    · rwa [hremaining]
    · rw [hremaining, hempty]
      omega
  have hrel := run_shows (cs.map .read) hstart (by rwa [hbytes, hremaining]) hfit
  rw [run_one_frame s.tx f 0 cs (Message.bytes_pos (.frame f)) (by
    rw [Nat.zero_add]
    exact hcs.length_le), Nat.zero_add] at hrel
  by_cases hall : cs.flatten = f.bytes
  · obtain ⟨tx, htx⟩ := handleFrame_some env s.tx f
    rw [hall, if_neg (Nat.lt_irrefl _), htx, Option.map_some] at hrel
    obtain ⟨s', hr, h'⟩ := exists_of_rel hrel
    refine ⟨s', hr, ?_⟩
    rw [if_pos hall]
    exact ⟨by simpa using h'.unread, by rw [htx, h'.tx]⟩
  · have hlt : cs.flatten.length < f.bytes.length := by
      apply Nat.lt_of_le_of_ne hcs.length_le
      exact fun hlen => hall (hcs.eq_of_length hlen)
    rw [if_pos hlt] at hrel
    obtain ⟨s', hr, h'⟩ := exists_of_rel hrel
    refine ⟨s', hr, ?_⟩
    rw [if_neg hall]
    refine ⟨?_, h'.tx⟩
    rw [h'.unread, h'.short.take]
    exact (List.prefix_iff_eq_take.mp hcs).symm

/-! ## A command to a node -/

/-- The documented layout of the payload: nodeId COMMAND TX_OPTIONS funcId, where a COMMAND
starts with its length. -/
def parseSendData : List UInt8 → Option (UInt8 × List UInt8 × UInt8 × UInt8)
  | nodeId :: length :: l =>
    match l.drop length.toNat with
    | [txOptions, funcId] => some (nodeId, l.take length.toNat, txOptions, funcId)
    | _ => none
  | _ => none

theorem parse_sendData (nodeId : UInt8) (c : List UInt8) (h : c.length ≤ 247)
    (funcId nextFuncId : UInt8) :
    parseSendData ((SendDataRequest nodeId c h funcId).assign nextFuncId).frame.payload =
      some (nodeId, c, TX_OPTIONS, nextFuncId) := by
  have hlen : (UInt8.ofNat c.length).toNat = c.length := by
    rw [UInt8.toNat_ofNat', Nat.mod_eq_of_lt]
    omega
  have hpayload : ((SendDataRequest nodeId c h funcId).assign nextFuncId).frame.payload =
      nodeId :: UInt8.ofNat c.length :: (c ++ [TX_OPTIONS, nextFuncId]) := by
    simp [Request.frame, Request.assign, SendDataRequest]
  rw [hpayload]
  simp only [parseSendData, hlen, List.drop_left, List.take_left]

/-! ## Agreement -/

/-- What `sendRequest()` writes for a request, whatever the data, the counter and the buffer,
is one frame that fits the buffer, and any receiver with an empty buffer takes it for that frame.
A command to a node can be read back from it. -/
theorem encoder_and_decoder_agree {ρ σ : Type} (env : Env ρ) (env' : Env σ) (sender : Tx ρ)
    (front : Entry) (rest : List Entry) (receiver : ZWaveProtocol σ) (cs : List (List UInt8))
    (hempty : receiver.rx.rxPosition = 0) (hrecv : receiver.receiving = true)
    (hcs : cs.flatten <+: (sender.nextFrame front).bytes) :
    (sender.transmit env front rest).tty.started =
        sender.tty.started ++ [(sender.nextFrame front).bytes] ∧
      (sender.nextFrame front).bytes.length ≤ 256 ∧
      (sender.nextFrame front).type = REQUEST ∧
      (sender.nextFrame front).function = front.request.function ∧
      (sender.nextFrame front).payload = front.request.data ++
        (if front.request.funcId.isSome then [sender.nextFuncId] else []) ∧
      (∃ s', run (step env') receiver (cs.map .read) = some s' ∧
        if cs.flatten = (sender.nextFrame front).bytes then
          s'.rx.unread = [] ∧ receiver.tx.handleFrame env' (sender.nextFrame front) = some s'.tx
        else s'.rx.unread = cs.flatten ∧ s'.tx = receiver.tx) ∧
      ∀ nodeId c h funcId, front.request = SendDataRequest nodeId c h funcId →
        parseSendData (sender.nextFrame front).payload =
          some (nodeId, c, TX_OPTIONS, sender.nextFuncId) := by
  refine ⟨transmit_writes_frame sender front rest, ?_, rfl, rfl, ?_, ?_, ?_⟩
  · have := (front.request.assign sender.nextFuncId).length_le
    have hlen := (front.request.assign sender.nextFuncId).frame_length
    rw [Frame.bytes_length]
    unfold Tx.nextFrame
    omega
  · unfold Tx.nextFrame
    cases hfunc : front.request.funcId <;> simp [Request.frame, Request.assign, hfunc]
  · exact frame_in_pieces env' _ hempty hrecv cs hcs
  · intro nodeId c h funcId hreq
    unfold Tx.nextFrame
    rw [hreq]
    exact parse_sendData nodeId c h funcId sender.nextFuncId

/-- The frame of a command to a node, in three pieces. -/
theorem encoder_and_decoder_agree_switchOn :
    ∃ s', run (step quietEnv) fresh
        [.read [1, 0x0a, 0], .read [0x13, 4, 3, 0x20, 1], .read [0xff, 5, 1, 0x3b]] = some s' ∧
      s'.rx.unread = [] ∧
      fresh.tx.handleFrame quietEnv (fresh.tx.nextFrame ⟨0, switchOn⟩) = some s'.tx ∧
      parseSendData (fresh.tx.nextFrame ⟨0, switchOn⟩).payload =
        some (4, [0x20, 1, 0xff], TX_OPTIONS, 1) := by
  obtain ⟨-, -, -, -, -, ⟨s', hrun, hs'⟩, hparse⟩ := encoder_and_decoder_agree quietEnv quietEnv
    fresh.tx ⟨0, switchOn⟩ [] fresh [[1, 0x0a, 0], [0x13, 4, 3, 0x20, 1], [0xff, 5, 1, 0x3b]]
    rfl rfl (by decide +kernel)
  rw [if_pos (by decide +kernel)] at hs'
  exact ⟨s', hrun, hs'.1, hs'.2, hparse 4 [0x20, 1, 0xff] (by decide) 0 rfl⟩

end huasi.zwave
