-- The protocol on the level of packets: they are dispatched one after the other,
-- wherever the stream of bytes is cut into reads, and whatever else happens between
-- the reads.
import Huasi.EnOceanSteps
import Huasi.Stream

open huasi.receive_buffer huasi.runs huasi.stream

namespace huasi.enocean

variable {σ : Type} {env : Env σ}

/-! ## The machine -/

/-- The packets that one read completes, in order. -/
def handlePackets (env : Env σ) (s : Tx σ) (packets : List Request) : Option (Tx σ) :=
  packets.foldlM (fun s p => s.receivePacket env p.packetType p.data p.optionalData) s

/-- The sending half, the packets that are not complete yet, and how many bytes of them there
are. -/
structure PacketProtocol (σ : Type) where
  tx : Tx σ
  packets : List Request
  count : Nat
  receiving : Bool

/-- One event. Of a read, only the number of bytes counts. -/
def stepPackets (env : Env σ) (m : PacketProtocol σ) : Event → Option (PacketProtocol σ)
  | .tx e => (m.tx.step env e).map fun tx => { m with tx }
  | .read bytes =>
    let done := (arrived Request.bytes (m.count + bytes.length) m.packets).1
    let rest := (arrived Request.bytes (m.count + bytes.length) m.packets).2
    (handlePackets env m.tx done).map fun tx => { m with
      tx
      packets := rest
      count := m.count + bytes.length - (done.flatMap Request.bytes).length }
  | .readError value =>
    if m.receiving then
      (m.tx.onError env (.system value)).map fun tx => { m with tx, receiving := false }
    else some m

/-- The bytes that are still to come. -/
def PacketProtocol.remaining (m : PacketProtocol σ) : List UInt8 :=
  (m.packets.flatMap Request.bytes).drop m.count

/-- One packet after the other is dispatched. -/
inductive DispatchesAll : Tx σ → List Request → Tx σ → Prop
  | nil (s : Tx σ) : DispatchesAll s [] s
  | cons {s t u : Tx σ} {p : Request} {packets : List Request} (first : Dispatches p s t)
      (others : DispatchesAll t packets u) : DispatchesAll s (p :: packets) u

theorem DispatchesAll.append {s t u : Tx σ} {ps qs : List Request} (hp : DispatchesAll s ps t)
    (hq : DispatchesAll t qs u) : DispatchesAll s (ps ++ qs) u := by
  induction hp with
  | nil => exact hq
  | cons first _ ih => exact .cons first (ih hq)

/-- The loop dispatches the whole packets in the buffer, and leaves what there is of the next. -/
theorem loop_packets (env : Env σ) {done rest : List Request} {k n : Nat} {s : EnOceanProtocol σ}
    (hu : s.rx.unread = done.flatMap Request.bytes ++ (rest.flatMap Request.bytes).take k)
    (hk : Short Request.bytes k rest) (hn : s.rx.position ≤ n) :
    ∃ t, loop unfinished (turn env) n s = some t ∧ handlePackets env s.tx done = some t.tx ∧
      t.rx.unread = (rest.flatMap Request.bytes).take k ∧ t.receiving = s.receiving := by
  induction done generalizing s n with
  | nil =>
    rw [List.flatMap_nil, List.nil_append] at hu
    refine ⟨s, loop_ends ?_, rfl, hu, rfl⟩
    cases rest with
    | nil =>
      left
      unfold unfinished
      rw [← s.rx.unread_length, hu, List.flatMap_nil, List.take_nil]
      rfl
    | cons r rest =>
      rw [hk.take] at hu
      exact turn_short env hu hk
  | cons r done ih =>
    rw [List.flatMap_cons, List.append_assoc] at hu
    obtain ⟨tx, rx, hturn, hrest, htx⟩ := turn_packet env hu
    have hlen := congrArg List.length hu
    rw [s.rx.unread_length, List.length_append, r.bytes_length, ← hrest, rx.unread_length] at hlen
    have hgo : Goes unfinished (turn env) s { s with tx, rx } := by
      refine ⟨?_, hturn⟩
      unfold unfinished
      rw [decide_eq_true_iff]
      omega
    obtain ⟨n, rfl⟩ : ∃ n', n = n' + 1 := ⟨n - 1, by omega⟩
    obtain ⟨t, hloop, htx', hun, hrecv⟩ :=
      ih (n := n) (s := { s with tx, rx }) hrest (by simp only; omega)
    refine ⟨t, ?_, ?_, hun, hrecv⟩
    · rw [loop_goes hgo, hloop]
    · unfold handlePackets at htx' ⊢
      rw [List.foldlM_cons, htx]
      exact htx'

/-! ## The refinement -/

/-- The bytes that an event delivers. -/
def Event.bytes : Event → List UInt8
  | .read bytes => bytes
  | _ => []

/-- A read fits the free part of the buffer. -/
def Fits (s : EnOceanProtocol σ) : Event → Prop
  | .read bytes => Readable s bytes
  | _ => True

instance (s : EnOceanProtocol σ) : ∀ e, Decidable (Fits s e)
  | .read bytes => inferInstanceAs (Decidable (Readable s bytes))
  | .tx _ | .readError _ => inferInstanceAs (Decidable True)

/-- The state of the code shows the state of the machine: the same sending half, and in the
buffer exactly what there is of the next packet. -/
structure Shows (s : EnOceanProtocol σ) (m : PacketProtocol σ) : Prop where
  tx : s.tx = m.tx
  receiving : s.receiving = m.receiving
  unread : s.rx.unread = (m.packets.flatMap Request.bytes).take m.count
  short : Short Request.bytes m.count m.packets

/-- A read that delivers the next bytes of the stream. -/
theorem read_shows (env : Env σ) {s : EnOceanProtocol σ} {m : PacketProtocol σ}
    {bytes : List UInt8} (h : Shows s m) (hnext : bytes <+: m.remaining)
    (hfit : Fits s (.read bytes)) :
    ∃ s' m', step env s (.read bytes) = some s' ∧ stepPackets env m (.read bytes) = some m' ∧
      Shows s' m' ∧ m'.remaining = m.remaining.drop bytes.length := by
  obtain ⟨htx, hrecv, hunread, hshort⟩ := h
  have hfit : s.receiving = true ∧ s.rx.position + bytes.length ≤ BUFFER_SIZE := hfit
  have hcount := hshort.le
  have hlen : m.count + bytes.length ≤ (m.packets.flatMap Request.bytes).length := by
    have := hnext.length_le
    unfold PacketProtocol.remaining at this
    rw [List.length_drop] at this
    omega
  obtain ⟨done, rest, harr⟩ : ∃ done rest,
      arrived Request.bytes (m.count + bytes.length) m.packets = (done, rest) := ⟨_, _, rfl⟩
  have hsplit := split_arrived hlen
  rw [harr] at hsplit
  have hnew : (s.received bytes hfit.2).rx.unread =
      (m.packets.flatMap Request.bytes).take (m.count + bytes.length) := by
    rw [List.take_add, ← hunread]
    exact (Rx.received_unread _ _ _).trans
      (congrArg (s.rx.unread ++ ·) (List.prefix_iff_eq_take.mp hnext))
  rw [hsplit.take] at hnew
  obtain ⟨t, hloop, htx', hun', hrecv'⟩ := loop_packets env hnew hsplit.short (Nat.le_refl _)
  refine ⟨t, { m with
      tx := t.tx
      packets := rest
      count := m.count + bytes.length - (done.flatMap Request.bytes).length }, ?_, ?_,
    ⟨rfl, hrecv'.trans hrecv, hun', hsplit.short⟩, ?_⟩
  · simp only [step, dif_pos hfit, handleRead, hloop]
  · have hpackets : handlePackets env m.tx done = some t.tx := by
      rw [← htx]
      exact htx'
    simp only [stepPackets, harr, hpackets, Option.map_some]
  · unfold PacketProtocol.remaining
    rw [List.drop_drop]
    exact hsplit.drop.symm

/-- One event on both levels. -/
theorem step_shows (env : Env σ) {s : EnOceanProtocol σ} {m : PacketProtocol σ} {e : Event}
    (h : Shows s m) (hnext : e.bytes <+: m.remaining) (hfit : Fits s e) :
    (step env s e = none ∧ stepPackets env m e = none) ∨
      ∃ s' m', step env s e = some s' ∧ stepPackets env m e = some m' ∧ Shows s' m' ∧
        m'.remaining = m.remaining.drop e.bytes.length := by
  cases e with
  | tx e =>
    simp only [step, stepPackets, h.tx]
    cases m.tx.step env e with
    | none => exact Or.inl ⟨rfl, rfl⟩
    | some tx => exact Or.inr ⟨_, _, rfl, rfl, ⟨rfl, h.receiving, h.unread, h.short⟩, rfl⟩
  | read bytes => exact Or.inr (read_shows env h hnext hfit)
  | readError value =>
    simp only [step, stepPackets, h.tx, h.receiving]
    cases hr : m.receiving with
    | false =>
      simp only [Bool.false_eq_true, if_false]
      exact Or.inr ⟨_, _, rfl, rfl, h, rfl⟩
    | true =>
      simp only [if_true]
      cases m.tx.onError env (.system value) with
      | none => exact Or.inl ⟨rfl, rfl⟩
      | some tx => exact Or.inr ⟨_, _, rfl, rfl, ⟨rfl, rfl, h.unread, h.short⟩, rfl⟩

/-- Wherever a stream of packets is cut into reads, and whatever else happens between them, the
protocol does what the machine on packets does. -/
theorem receive_refines_packets {s : EnOceanProtocol σ} {m : PacketProtocol σ} (es : List Event)
    (h : Shows s m) (hstream : es.flatMap Event.bytes <+: m.remaining)
    (hfit : Meets (step env) Fits s es) :
    Option.Rel Shows (run (step env) s es) (run (stepPackets env) m es) := by
  apply run_rel _ es h hstream hfit
  intro s m e h hnext hfit
  exact step_shows env h hnext hfit

/-! ## Reads that deliver the whole stream -/

/-- A read of the version of the controller. -/
def readVersion : Request where
  packetType := 5
  data := [0x03]
  optionalData := []
  data_le := Nat.le_of_ble_eq_true rfl
  optional_le := Nat.zero_le _

/-- A response, and a telegram with optional data. -/
def response : Request where
  packetType := RESPONSE
  data := [0x00, 0x02, 0x0b]
  optionalData := []
  data_le := Nat.le_of_ble_eq_true rfl
  optional_le := Nat.zero_le _

/-- An application that asks again after each response. -/
def askingEnv : Env Unit where
  app :=
    { onResponse := fun _ _ _ _ => ((), [readVersion])
      onRequest := fun _ _ _ _ => ((), [])
      onError := fun _ _ => ((), []) }
  cancelsQueued := true

/-- A protocol that waits for its first response. -/
def waiting : EnOceanProtocol Unit where
  tx := ((Tx.init () (.filled 0)).push readVersion).transmit askingEnv ⟨0, readVersion⟩
  rx := ⟨0, .filled 0, Nat.zero_le _⟩
  receiving := true

end huasi.enocean
