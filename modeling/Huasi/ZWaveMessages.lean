-- The protocol on the level of messages: ACK, NACK, CAN and frames, handled
-- one after the other. The read handler refines it, wherever the stream of
-- bytes is cut into reads.
import Huasi.Stream
import Huasi.ZWaveReceiver

open huasi.runs huasi.stream

namespace huasi.zwave

variable {σ : Type} {env : Env σ}

/-! ## Messages -/

/-- A frame of 3 to 254 bytes after the length byte. -/
structure Frame where
  type : UInt8
  function : UInt8
  payload : List UInt8
  payload_le : payload.length ≤ 251

/-- What the length byte says: type, function, payload and checksum. -/
def Frame.length (f : Frame) : Nat := f.payload.length + 3

/-- What the checksum is over. -/
def Frame.content (f : Frame) : List UInt8 :=
  UInt8.ofNat f.length :: f.type :: f.function :: f.payload

def Frame.checksum (f : Frame) : UInt8 := calcChecksum f.content f.length

def Frame.bytes (f : Frame) : List UInt8 := SOF :: f.content ++ [f.checksum]

inductive Message where
  | ack
  | nack
  | can
  | frame (f : Frame)

def Message.bytes : Message → List UInt8
  | .ack => [ACK]
  | .nack => [NACK]
  | .can => [CAN]
  | .frame f => f.bytes

/-! ## The machine -/

/-- What a frame does. It is acknowledged. If it has the function of the front request, it may
end the procedure of that request, and goes to its callback; else only a REQUEST goes to the
application. `reports` says whether the payload carries the funcId of a request. -/
def Tx.dispatch (env : Env σ) (s : Tx σ) (type function : UInt8) (payload : List UInt8)
    (reports : Entry → Bool) : Option (Tx σ) :=
  let toApplication : Option (Tx σ) :=
    if type = REQUEST then
      s.sendAck.onRequest env (function :: payload) (payload.length + 1)
    else some s.sendAck
  match s.requests with
  | front :: rest =>
    if front.request.function = function then
      if type = RESPONSE then
        (if front.request.funcId = none then s.sendAck.endProcedure env front rest
          else some s.sendAck).bind fun s => s.onResponse env front payload payload.length
      else if type = REQUEST ∧ reports front = true then
        (s.sendAck.endProcedure env front rest).bind fun s =>
          s.onSendRequest env front payload payload.length
      else some s.sendAck
    else toApplication
  | [] => toApplication

/-- Where the payload is empty, the byte that is compared with the funcId is the checksum. -/
def Tx.handleFrame (env : Env σ) (s : Tx σ) (f : Frame) : Option (Tx σ) :=
  s.dispatch env f.type f.function f.payload fun front =>
    decide (front.request.funcId = some (f.payload.headD f.checksum))

/-- The messages that one read completes, in order. `frame` says that there was a frame among
them: the frames after the first one are discarded. -/
def handleMessages (env : Env σ) : Bool → Tx σ → List Message → Option (Tx σ)
  | _, s, [] => some s
  | frame, s, .ack :: ms => handleMessages env frame (s.receiveAck env) ms
  | frame, s, .nack :: ms => (s.receiveNack env).bind fun s => handleMessages env frame s ms
  | frame, s, .can :: ms => handleMessages env frame s ms
  | true, s, .frame _ :: ms => handleMessages env true s ms
  | false, s, .frame f :: ms => (s.handleFrame env f).bind fun s => handleMessages env true s ms

/-- The sending half, the messages that are not complete yet, and how many bytes of them there
are. -/
structure MessageProtocol (σ : Type) where
  tx : Tx σ
  messages : List Message
  count : Nat
  receiving : Bool

/-- One event. Of a read, only the number of bytes counts. -/
def stepMessages (env : Env σ) (m : MessageProtocol σ) : Event → Option (MessageProtocol σ)
  | .tx e => (m.tx.step env e).map fun tx => { m with tx }
  | .read bytes =>
    let done := (arrived Message.bytes (m.count + bytes.length) m.messages).1
    let rest := (arrived Message.bytes (m.count + bytes.length) m.messages).2
    (handleMessages env false m.tx done).map fun tx => { m with
      tx
      messages := rest
      count := m.count + bytes.length - (done.flatMap Message.bytes).length }
  | .readError value =>
    if m.receiving then
      (m.tx.onError env (.system value)).map fun tx => { m with tx, receiving := false }
    else some m

def initMessages (a : σ) (txBuffer : Buffer) (messages : List Message) : MessageProtocol σ :=
  ⟨.init a txBuffer, messages, 0, true⟩

/-! ## The bytes of a message -/

theorem Message.bytes_pos (m : Message) : 0 < m.bytes.length := by
  cases m <;> simp [Message.bytes, Frame.bytes]

theorem Frame.bytes_length (f : Frame) : f.bytes.length = 2 + f.length := by
  simp only [Frame.bytes, Frame.content, Frame.length, List.length_append, List.length_cons,
    List.length_nil]
  omega

theorem Frame.length_toNat (f : Frame) : (UInt8.ofNat f.length).toNat = f.length := by
  have := f.payload_le
  rw [UInt8.toNat_ofNat', Nat.mod_eq_of_lt]
  unfold Frame.length
  omega

theorem calcChecksum_take (l : List UInt8) (n : Nat) :
    calcChecksum (l.take n) n = calcChecksum l n := by
  unfold calcChecksum
  rw [List.take_take, Nat.min_self]

section Whole

-- In this section the buffer starts with the whole frame.
variable {f : Frame} {b : List UInt8} (hb : b.take (2 + f.length) = f.bytes)

include hb

theorem frame_get {i : Nat} (hi : i < 2 + f.length) : b[i]? = f.bytes[i]? := by
  rw [← hb, List.getElem?_take, if_pos hi]

theorem frame_part {i k : Nat} (hi : i + k ≤ 2 + f.length) :
    (b.drop i).take k = (f.bytes.drop i).take k := by
  rw [← hb, List.drop_take, List.take_take, Nat.min_eq_left (by omega)]

theorem frame_payload : (b.drop 4).take (f.length - 3) = f.payload := by
  rw [frame_part hb (by unfold Frame.length; omega)]
  have hdrop : f.bytes.drop 4 = f.payload ++ [f.checksum] := rfl
  rw [hdrop]
  exact List.take_left

theorem frame_request : (b.drop 3).take (f.length - 2) = f.function :: f.payload := by
  rw [frame_part hb (by unfold Frame.length; omega)]
  have hdrop : f.bytes.drop 3 = (f.function :: f.payload) ++ [f.checksum] := rfl
  have hlen : f.length - 2 = (f.function :: f.payload).length := rfl
  rw [hdrop, hlen]
  exact List.take_left

theorem frame_checksum : calcChecksum (b.drop 1) f.length = f.checksum := by
  rw [← calcChecksum_take, frame_part hb (by omega), calcChecksum_take]
  have hdrop : f.bytes.drop 1 = f.content ++ [f.checksum] := rfl
  have hlen : f.content.length = f.length := rfl
  rw [hdrop, ← calcChecksum_take, ← hlen, List.take_left]
  rfl

theorem frame_id : b[4]? = some (f.payload.headD f.checksum) := by
  rw [frame_get hb (by unfold Frame.length; omega)]
  have hdrop : f.bytes[4]? = (f.payload ++ [f.checksum])[0]? := rfl
  rw [hdrop]
  cases f.payload <;> rfl

/-- With a whole frame in the buffer, the handler of the bytes is the handler of the frame. -/
theorem receiveFrame_frame (s : Tx σ) : s.receiveFrame env b f.length = s.handleFrame env f := by
  have h2 : b[2]? = some f.type := frame_get hb (by unfold Frame.length; omega)
  have h3 : b[3]? = some f.function := frame_get hb (by unfold Frame.length; omega)
  have hlen3 : (f.length : Int) - 3 = f.payload.length := by
    unfold Frame.length
    omega
  have hlen2 : (f.length : Int) - 2 = f.payload.length + 1 := by
    unfold Frame.length
    omega
  have hreq : s.sendAck.requests = s.requests := rfl
  unfold Tx.receiveFrame Tx.handleFrame Tx.dispatch
  simp only [h2, h3, frame_id hb, frame_payload hb, frame_request hb, hlen3, hlen2, hreq,
    Option.bind_eq_bind, Option.bind_some]
  cases hr : s.requests with
  | nil => rfl
  | cons front rest =>
    simp only [List.head?_cons, List.tail_cons]
    by_cases hf : front.request.function = f.function
    · simp only [hf, if_true]
      by_cases ht : f.type = RESPONSE
      · simp [ht, REQUEST_ne_RESPONSE.symm]
      · by_cases hid : f.type = REQUEST ∧ front.request.funcId = some (f.payload.headD f.checksum)
        · simp [hid, REQUEST_ne_RESPONSE]
        · have hno : (decide (f.type = REQUEST) &&
              decide (front.request.funcId = some (f.payload.headD f.checksum))) = false := by
            rw [← Bool.not_eq_true, Bool.and_eq_true, decide_eq_true_iff, decide_eq_true_iff]
            exact hid
          simp only [ht, decide_false, Bool.false_and, hno, Bool.or_false, Bool.false_eq_true,
            if_false, decide_eq_true_eq, hid, Option.bind_some]
    · simp only [hf, if_false]

end Whole

theorem handleFrame_some (env : Env σ) (s : Tx σ) (f : Frame) :
    ∃ s', s.handleFrame env f = some s' := by
  have hlen := f.bytes_length
  have hwhole : f.bytes.take (2 + f.length) = f.bytes :=
    List.take_of_length_le (Nat.le_of_eq hlen)
  rw [← receiveFrame_frame hwhole]
  apply receiveFrame_some
  unfold Frame.length at hlen
  omega

/-! ## One turn -/

/-- The buffer starts with the bytes that were not read. -/
theorem Rx.get_of_unread {rx : Rx} {l more : List UInt8} (hu : rx.unread = l ++ more) {i : Nat}
    (hi : i < l.length) : rx.rxBuffer.bytes[i]? = l[i]? := by
  have hpos : i < rx.rxPosition := by
    rw [← rx.unread_length, hu, List.length_append]
    omega
  rw [← rx.unread_get hpos, hu, List.getElem?_append_left hi]

theorem Rx.remove_of_unread {rx : Rx} {l more : List UInt8} (hu : rx.unread = l ++ more) :
    ∃ rx', rx.remove l.length = some rx' ∧ rx'.unread = more := by
  have hpos : l.length ≤ rx.rxPosition := by
    rw [← rx.unread_length, hu, List.length_append]
    omega
  obtain ⟨rx', hrx⟩ := Rx.remove_some hpos
  refine ⟨rx', hrx, ?_⟩
  rw [Rx.remove_unread hrx, hu, List.drop_left]

/-- A whole frame in the buffer is complete, and its checksum is ok. -/
theorem turn_frame (env : Env σ) (frame : Bool) {s : ZWaveProtocol σ} {f : Frame}
    {more : List UInt8}
    (hu : s.rx.unread = f.bytes ++ more) :
    ∃ tx rx, turn env (frame, s) = some (.again (true, { s with tx, rx })) ∧ rx.unread = more ∧
      if frame then tx = s.tx else s.tx.handleFrame env f = some tx := by
  have hlen := f.bytes_length
  have hpos : 2 + f.length ≤ s.rx.rxPosition := by
    rw [← s.rx.unread_length, hu, List.length_append]
    omega
  have hwhole : s.rx.rxBuffer.bytes.take (2 + f.length) = f.bytes := by
    have htake := congrArg (List.take (2 + f.length)) hu
    rwa [Rx.unread, List.take_take, Nat.min_eq_left hpos, ← hlen, List.take_left, hlen] at htake
  have h0 : s.rx.rxBuffer.bytes[0]? = some SOF := Rx.get_of_unread hu (by omega)
  have h1 : s.rx.rxBuffer.bytes[1]? = some (UInt8.ofNat f.length) :=
    Rx.get_of_unread hu (by omega)
  have hsum : s.rx.rxBuffer.bytes[2 + f.length - 1]? = some f.checksum := by
    rw [Rx.get_of_unread hu (by omega)]
    have hlast : 2 + f.length - 1 = (SOF :: f.content).length := by
      have : f.content.length = f.length := rfl
      rw [List.length_cons, this]
      omega
    rw [hlast]
    exact List.getElem?_concat_length
  have h3 : 3 ≤ s.rx.rxPosition := by
    unfold Frame.length at hpos
    omega
  have hcomplete : s.rx.Complete (UInt8.ofNat f.length) :=
    ⟨h0, h1, h3, by rw [f.length_toNat]; exact hpos⟩
  have hchecked : s.rx.Checked (UInt8.ofNat f.length) := by
    unfold Rx.Checked
    rw [f.length_toNat, hsum, frame_checksum hwhole]
  obtain ⟨rx, hrx, hrest⟩ := Rx.remove_of_unread hu
  rw [hlen, ← f.length_toNat] at hrx
  obtain ⟨tx, hturn, htx⟩ := turn_complete env frame hcomplete hchecked hrx
  refine ⟨tx, rx, hturn, hrest, ?_⟩
  rw [f.length_toNat, receiveFrame_frame hwhole] at htx
  exact htx

/-- A turn with a whole message at the head of the buffer handles that message. -/
theorem turn_message (env : Env σ) (frame : Bool) {s : ZWaveProtocol σ} (m : Message)
    {more : List UInt8}
    (hu : s.rx.unread = m.bytes ++ more) :
    ∃ frame' tx rx, turn env (frame, s) = some (.again (frame', { s with tx, rx })) ∧
      rx.unread = more ∧
        ∀ ms, handleMessages env frame s.tx (m :: ms) = handleMessages env frame' tx ms := by
  have hremove := Rx.remove_of_unread hu
  cases m with
  | ack =>
    obtain ⟨rx, hrx, hrest⟩ := hremove
    exact ⟨_, _, rx, turn_ack (Rx.get_of_unread hu (i := 0) Nat.zero_lt_one) hrx, hrest,
      fun ms => by cases frame <;> rfl⟩
  | nack =>
    obtain ⟨rx, hrx, hrest⟩ := hremove
    obtain ⟨tx, htx⟩ := receiveNack_some env s.tx
    refine ⟨_, _, rx, turn_nack (Rx.get_of_unread hu (i := 0) Nat.zero_lt_one) hrx htx, hrest, ?_⟩
    intro ms
    cases frame <;> rw [handleMessages, htx, Option.bind_some]
  | can =>
    obtain ⟨rx, hrx, hrest⟩ := hremove
    exact ⟨_, _, rx, turn_can (Rx.get_of_unread hu (i := 0) Nat.zero_lt_one) hrx, hrest,
      fun ms => by cases frame <;> rfl⟩
  | frame f =>
    obtain ⟨tx, rx, hturn, hrest, htx⟩ := turn_frame env frame hu
    refine ⟨true, tx, rx, hturn, hrest, ?_⟩
    intro ms
    cases frame with
    | true =>
      simp only [if_true] at htx
      rw [htx]
      rfl
    | false =>
      simp only [Bool.false_eq_true, if_false] at htx
      rw [handleMessages, htx, Option.bind_some]

/-- A part of a message leaves the loop: it is the start of a frame. -/
theorem turn_short (frame : Bool) {s : ZWaveProtocol σ} {m : Message} {k : Nat}
    (hu : s.rx.unread = m.bytes.take k) (hk : k < m.bytes.length) (hpos : 0 < k) :
    turn env (frame, s) = some .leave := by
  cases m with
  | frame f =>
    have hlen : s.rx.rxPosition = k := by
      rw [← s.rx.unread_length, hu, List.length_take]
      exact Nat.min_eq_left (Nat.le_of_lt hk)
    have hget : ∀ i < k, s.rx.rxBuffer.bytes[i]? = f.bytes[i]? := by
      intro i hi
      rw [← s.rx.unread_get (by omega), hu, List.getElem?_take, if_pos hi]
      rfl
    have h0 : s.rx.rxBuffer.bytes[0]? = some SOF := hget 0 hpos
    have hbytes : (Message.frame f).bytes.length = 2 + f.length := f.bytes_length
    apply turn_incomplete
    refine ⟨h0, ?_⟩
    by_cases h3 : s.rx.rxPosition < 3
    · exact Or.inl h3
    · exact Or.inr ⟨_, hget 1 (by omega), by rw [f.length_toNat]; omega⟩
  | _ =>
    simp only [Message.bytes, List.length_singleton] at hk
    omega

/-! ## One read -/

/-- The loop handles the whole messages in the buffer, and leaves what there is of the next. -/
theorem loop_messages (env : Env σ) (frame : Bool) {done rest : List Message} {k n : Nat}
    {s : ZWaveProtocol σ}
    (hu : s.rx.unread = done.flatMap Message.bytes ++ (rest.flatMap Message.bytes).take k)
    (hk : Short Message.bytes k rest) (hn : s.rx.rxPosition ≤ n) :
    ∃ p, loop unfinished (turn env) n (frame, s) = some p ∧
      handleMessages env frame s.tx done = some p.2.tx ∧
      p.2.rx.unread = (rest.flatMap Message.bytes).take k ∧ p.2.receiving = s.receiving := by
  induction done generalizing frame s n with
  | nil =>
    rw [List.flatMap_nil, List.nil_append] at hu
    refine ⟨(frame, s), loop_ends ?_, by cases frame <;> rfl, hu, rfl⟩
    by_cases hpos : s.rx.rxPosition = 0
    · left
      simp [unfinished, hpos]
    · right
      cases rest with
      | nil =>
        rw [← s.rx.unread_length, hu] at hpos
        exact absurd (by simp) hpos
      | cons m rest =>
        rw [hk.take] at hu
        have hk0 : 0 < k := by
          rcases Nat.eq_zero_or_pos k with rfl | h
          · rw [← s.rx.unread_length, hu] at hpos
            exact absurd (by simp) hpos
          · exact h
        exact turn_short frame hu hk hk0
  | cons m done ih =>
    rw [List.flatMap_cons, List.append_assoc] at hu
    obtain ⟨frame', tx, rx, hturn, hrest, hmsgs⟩ := turn_message env frame m hu
    have hlen := congrArg List.length hu
    rw [s.rx.unread_length, List.length_append, ← hrest, rx.unread_length] at hlen
    have hm := m.bytes_pos
    have hgo : Next env (frame, s) (frame', { s with tx, rx }) := by
      refine ⟨?_, hturn⟩
      simp only [unfinished, decide_eq_true_eq]
      omega
    obtain ⟨n, rfl⟩ : ∃ n', n = n' + 1 := ⟨n - 1, by omega⟩
    obtain ⟨p, hloop, htx, hun, hrecv⟩ := ih (n := n) frame'
      (s := { s with tx, rx }) hrest (by simp only; omega)
    refine ⟨p, ?_, ?_, hun, hrecv⟩
    · rw [loop_goes hgo, hloop]
    · rw [hmsgs, htx]

/-! ## The refinement -/

/-- The bytes that an event delivers. -/
def Event.bytes : Event → List UInt8
  | .read bytes => bytes
  | _ => []

/-- A read fits the free part of the buffer. -/
def Fits (s : ZWaveProtocol σ) : Event → Prop
  | .read bytes => s.receiving = true ∧ s.rx.rxPosition + bytes.length ≤ 256
  | _ => True

instance (s : ZWaveProtocol σ) : ∀ e, Decidable (Fits s e)
  | .read bytes =>
    inferInstanceAs (Decidable (s.receiving = true ∧ s.rx.rxPosition + bytes.length ≤ 256))
  | .tx _ | .readError _ => inferInstanceAs (Decidable True)

/-- The state of the code shows the state of the machine: the same sending half, and in the
buffer exactly what there is of the next message. -/
structure Shows (s : ZWaveProtocol σ) (m : MessageProtocol σ) : Prop where
  tx : s.tx = m.tx
  receiving : s.receiving = m.receiving
  unread : s.rx.unread = (m.messages.flatMap Message.bytes).take m.count
  short : Short Message.bytes m.count m.messages

theorem shows_init (a : σ) (txBuffer rxBuffer : Buffer) (messages : List Message) :
    Shows (init a txBuffer rxBuffer) (initMessages a txBuffer messages) := by
  refine ⟨rfl, rfl, rfl, ?_⟩
  cases messages with
  | nil => rfl
  | cons m messages => exact m.bytes_pos

/-- The bytes that are still to come. -/
def MessageProtocol.remaining (m : MessageProtocol σ) : List UInt8 :=
  (m.messages.flatMap Message.bytes).drop m.count

/-- A read that delivers the next bytes of the stream. -/
theorem read_shows (env : Env σ) {s : ZWaveProtocol σ} {m : MessageProtocol σ} {bytes : List UInt8}
    (h : Shows s m) (hnext : bytes <+: m.remaining) (hfit : Fits s (.read bytes)) :
    ∃ s' m', step env s (.read bytes) = some s' ∧ stepMessages env m (.read bytes) = some m' ∧
      Shows s' m' ∧ m'.remaining = m.remaining.drop bytes.length := by
  obtain ⟨htx, hrecv, hunread, hshort⟩ := h
  have hfit : s.receiving = true ∧ s.rx.rxPosition + bytes.length ≤ 256 := hfit
  have hcount := hshort.le
  have hlen : m.count + bytes.length ≤ (m.messages.flatMap Message.bytes).length := by
    have := hnext.length_le
    rw [MessageProtocol.remaining, List.length_drop] at this
    omega
  obtain ⟨done, rest, harr⟩ : ∃ done rest,
      arrived Message.bytes (m.count + bytes.length) m.messages = (done, rest) := ⟨_, _, rfl⟩
  have hsplit := split_arrived hlen
  rw [harr] at hsplit
  have hnew : (s.received bytes hfit.2).rx.unread =
      (m.messages.flatMap Message.bytes).take (m.count + bytes.length) := by
    rw [List.take_add, ← hunread]
    exact (Rx.received_unread _ _ _).trans
      (congrArg (s.rx.unread ++ ·) (List.prefix_iff_eq_take.mp hnext))
  rw [hsplit.take] at hnew
  obtain ⟨⟨frame, t⟩, hloop, htx', hun', hrecv'⟩ :=
    loop_messages env false hnew hsplit.short (Nat.le_refl _)
  refine ⟨t, { m with
      tx := t.tx
      messages := rest
      count := m.count + bytes.length - (done.flatMap Message.bytes).length }, ?_, ?_,
    ⟨rfl, hrecv'.trans hrecv, hun', hsplit.short⟩, ?_⟩
  · have hread : handleRead env (s.received bytes hfit.2) = some t := by
      unfold handleRead
      rw [hloop]
      rfl
    simp only [step, dif_pos hfit, hread]
  · have hmsgs : handleMessages env false m.tx done = some t.tx := by
      rw [← htx]
      exact htx'
    simp only [stepMessages, harr, hmsgs, Option.map_some]
  · unfold MessageProtocol.remaining
    rw [List.drop_drop]
    exact hsplit.drop.symm

/-- One event on both levels. -/
theorem step_shows (env : Env σ) {s : ZWaveProtocol σ} {m : MessageProtocol σ} {e : Event}
    (h : Shows s m)
    (hnext : e.bytes <+: m.remaining) (hfit : Fits s e) :
    (step env s e = none ∧ stepMessages env m e = none) ∨
      ∃ s' m', step env s e = some s' ∧ stepMessages env m e = some m' ∧ Shows s' m' ∧
        m'.remaining = m.remaining.drop e.bytes.length := by
  cases e with
  | tx e =>
    simp only [step, stepMessages, h.tx]
    cases m.tx.step env e with
    | none => exact Or.inl ⟨rfl, rfl⟩
    | some tx => exact Or.inr ⟨_, _, rfl, rfl, ⟨rfl, h.receiving, h.unread, h.short⟩, rfl⟩
  | read bytes => exact Or.inr (read_shows env h hnext hfit)
  | readError value =>
    simp only [step, stepMessages, h.tx, h.receiving]
    cases hr : m.receiving with
    | false =>
      simp only [Bool.false_eq_true, if_false]
      exact Or.inr ⟨_, _, rfl, rfl, h, rfl⟩
    | true =>
      simp only [if_true]
      cases m.tx.onError env (.system value) with
      | none => exact Or.inl ⟨rfl, rfl⟩
      | some tx => exact Or.inr ⟨_, _, rfl, rfl, ⟨rfl, rfl, h.unread, h.short⟩, rfl⟩

theorem run_shows {s : ZWaveProtocol σ} {m : MessageProtocol σ} (es : List Event) (h : Shows s m)
    (hstream : es.flatMap Event.bytes <+: m.remaining) (hfit : Meets (step env) Fits s es) :
    Option.Rel Shows (run (step env) s es) (run (stepMessages env) m es) := by
  apply run_rel _ es h hstream hfit
  intro s m e h hnext hfit
  exact step_shows env h hnext hfit

/-- Wherever a stream of messages is cut into reads, and whatever else happens between them, the
protocol does what the machine on messages does: the same effects, queue, counters and timer. In
the buffer there is the unfinished part of the next message. -/
theorem receive_refines_messages (env : Env σ) (a : σ) (txBuffer rxBuffer : Buffer)
    (messages : List Message) (es : List Event)
    (hstream : es.flatMap Event.bytes <+: messages.flatMap Message.bytes)
    (hfit : Meets (step env) Fits (init a txBuffer rxBuffer) es) :
    Option.Rel Shows (run (step env) (init a txBuffer rxBuffer) es)
      (run (stepMessages env) (initMessages a txBuffer messages) es) :=
  run_shows es (shows_init a txBuffer rxBuffer messages) hstream hfit

/-- A response cut in the middle, a call of the application in between, and one byte of the next
frame. -/
theorem receive_refines_messages_cut :
    Option.Rel Shows
      (run (step quietEnv) fresh [.tx (.sendRequest DiscoverNodesRequest), .read [ACK, SOF, 4],
        .tx (.sendRequest switchOn), .read [1, 2, 5, 0xfd, NACK, SOF]])
      (run (stepMessages quietEnv)
        (initMessages () .zeros [.ack, .frame ⟨RESPONSE, 2, [5], by decide⟩, .nack,
          .frame ⟨RESPONSE, 0x13, [1], by decide⟩])
        [.tx (.sendRequest DiscoverNodesRequest), .read [ACK, SOF, 4],
          .tx (.sendRequest switchOn), .read [1, 2, 5, 0xfd, NACK, SOF]]) :=
  receive_refines_messages quietEnv () .zeros .zeros _ _ (by decide +kernel) (by decide +kernel)

end huasi.zwave
