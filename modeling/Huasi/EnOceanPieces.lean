-- What the EnOcean receiver makes of a stream of any bytes: it takes the stream in pieces, whole
-- packets and corrupt bytes. Each packet is dispatched, once and in order, and nothing else is.
import Huasi.EnOceanSteps

open huasi.receive_buffer huasi.runs

namespace huasi.enocean

variable {σ : Type} {env : Env σ}

/-! ## Pieces of the stream -/

/-- A packet as the header can announce it. -/
structure Packet where
  packetType : UInt8
  data : List UInt8
  optionalData : List UInt8
  data_lt : data.length < 65536
  optional_lt : optionalData.length < 256

def Packet.header (p : Packet) : List UInt8 :=
  [0x55, UInt8.ofNat (p.data.length >>> 8), UInt8.ofNat p.data.length,
    UInt8.ofNat p.optionalData.length, p.packetType]

/-- The documented layout, as in `Request.bytes`. -/
def Packet.bytes (p : Packet) : List UInt8 :=
  p.header ++ calcChecksum (p.header.drop 1) 4 :: (p.data ++ p.optionalData ++
    [calcChecksum (p.data ++ p.optionalData) (p.data.length + p.optionalData.length)])

/-- Bytes that do not start with a header, or with a whole packet with the wrong checksum. -/
def Corrupt (l : List UInt8) : Prop :=
  6 < l.length ∧ (HeaderOk l → packetSize l ≤ l.length ∧ ¬ DataOk l)

/-- What the receiver takes at a time. -/
inductive Piece where
  | packet (p : Packet)
  | noise (bytes : List UInt8) (h : Corrupt bytes)

def Piece.bytes : Piece → List UInt8
  | .packet p => p.bytes
  | .noise bytes _ => bytes

/-- What a callback gets of a packet. -/
abbrev Content := UInt8 × List UInt8 × List UInt8

def Piece.content : Piece → Option Content
  | .packet p => some (p.packetType, p.data, p.optionalData)
  | .noise .. => none

def Effect.content : Effect → Option Content
  | .onRequest packetType data optionalData => some (packetType, data, optionalData)
  | .onResponse _ data optionalData => some (RESPONSE, data, optionalData)
  | _ => none

/-- The packets that callbacks got, in order. -/
def dispatched (l : List Effect) : List Content := l.filterMap Effect.content

/-- Too few bytes for a header, or for the packet that they announce. -/
def Unfinished (l : List UInt8) : Prop := l.length ≤ 6 ∨ HeaderOk l ∧ l.length < packetSize l

/-- The stream was taken in pieces, but for the bytes in the buffer. -/
def Taken (stream : List UInt8) (s : EnOceanProtocol σ) : Prop :=
  ∃ pieces : List Piece, stream = pieces.flatMap Piece.bytes ++ s.rx.unread ∧
    dispatched s.tx.log = pieces.filterMap Piece.content

/-! ## A whole packet -/

theorem high_byte (b1 b2 : UInt8) :
    UInt8.ofNat ((b1.toNat <<< 8 ||| b2.toNat) >>> 8) = b1 := by
  have h1 := b1.toNat_lt
  have h2 := b2.toNat_lt
  rw [← Nat.shiftLeft_add_eq_or_of_lt h2, Nat.shiftLeft_eq, Nat.shiftRight_eq_div_pow,
    ← UInt8.toNat_inj, UInt8.toNat_ofNat']
  omega

theorem low_byte (b1 b2 : UInt8) : UInt8.ofNat (b1.toNat <<< 8 ||| b2.toNat) = b2 := by
  have h2 := b2.toNat_lt
  rw [← Nat.shiftLeft_add_eq_or_of_lt h2, Nat.shiftLeft_eq, ← UInt8.toNat_inj,
    UInt8.toNat_ofNat']
  omega

theorem dataLength_lt (l : List UInt8) : dataLength l < 65536 := by
  have h1 := (l.getD 1 0).toNat_lt
  have h2 := (l.getD 2 0).toNat_lt
  unfold dataLength
  rw [← Nat.shiftLeft_add_eq_or_of_lt h2, Nat.shiftLeft_eq]
  omega

/-- The packet at the front of the bytes. -/
def frontPacket (l : List UInt8) : Packet where
  packetType := packetType l
  data := (l.drop 6).take (dataLength l)
  optionalData := (l.drop (6 + dataLength l)).take (optionalLength l)
  data_lt := (List.length_take_le _ _).trans_lt (dataLength_lt l)
  optional_lt := (List.length_take_le _ _).trans_lt (UInt8.toNat_lt _)

theorem front_data_length {l : List UInt8} (hsize : packetSize l ≤ l.length) :
    (frontPacket l).data.length = dataLength l := by
  unfold packetSize contentLength at hsize
  apply List.length_take_of_le
  rw [List.length_drop]
  omega

theorem front_optional_length {l : List UInt8} (hsize : packetSize l ≤ l.length) :
    (frontPacket l).optionalData.length = optionalLength l := by
  unfold packetSize contentLength at hsize
  apply List.length_take_of_le
  rw [List.length_drop]
  omega

theorem front_content (l : List UInt8) :
    (frontPacket l).data ++ (frontPacket l).optionalData = (l.drop 6).take (contentLength l) := by
  unfold contentLength
  rw [List.take_add, List.drop_drop]
  rfl

/-- The lengths that the header announces are the lengths of what is taken. -/
theorem front_header {l : List UInt8} (hstart : l[0]? = some 0x55)
    (hsize : packetSize l ≤ l.length) : (frontPacket l).header = l.take 5 := by
  unfold Packet.header
  rw [front_data_length hsize, front_optional_length hsize]
  have hlong : 5 ≤ l.length := by
    unfold packetSize at hsize
    omega
  match l, hlong with
  | b0 :: b1 :: b2 :: b3 :: b4 :: rest, _ =>
    obtain rfl : b0 = 0x55 := by simpa using hstart
    have hhigh : UInt8.ofNat (dataLength (0x55 :: b1 :: b2 :: b3 :: b4 :: rest) >>> 8) = b1 :=
      high_byte b1 b2
    have hlow : UInt8.ofNat (dataLength (0x55 :: b1 :: b2 :: b3 :: b4 :: rest)) = b2 :=
      low_byte b1 b2
    have hoptional : UInt8.ofNat (optionalLength (0x55 :: b1 :: b2 :: b3 :: b4 :: rest)) = b3 :=
      UInt8.ofNat_toNat
    rw [hhigh, hlow, hoptional]
    rfl

/-- Bytes with the right checksums are the bytes of the packet in them. -/
theorem bytes_of_checked {l : List UInt8} (hheader : HeaderOk l)
    (hsize : packetSize l ≤ l.length) (hdata : DataOk l) :
    l = (frontPacket l).bytes ++ l.drop (packetSize l) := by
  obtain ⟨hstart, hsum⟩ := hheader
  have hfields := front_header hstart hsize
  have hheaderSum : calcChecksum ((frontPacket l).header.drop 1) 4 =
      calcChecksum (l.drop 1) 4 := by
    rw [hfields, List.drop_take, calcChecksum_take]
  have hcontentSum : calcChecksum ((frontPacket l).data ++ (frontPacket l).optionalData)
      ((frontPacket l).data.length + (frontPacket l).optionalData.length) =
        calcChecksum (l.drop 6) (contentLength l) := by
    rw [front_content, front_data_length hsize, front_optional_length hsize]
    exact calcChecksum_take (l.drop 6) (contentLength l)
  have hchecksum : l.drop 5 = calcChecksum (l.drop 1) 4 :: l.drop 6 := by
    obtain ⟨hlt, hget⟩ := List.getElem?_eq_some_iff.mp hsum
    rw [List.drop_eq_getElem_cons hlt, hget]
  have hcontent : (l.drop 6).take (contentLength l + 1) =
      (l.drop 6).take (contentLength l) ++ [calcChecksum (l.drop 6) (contentLength l)] := by
    rw [List.take_add_one, List.getElem?_drop, hdata]
    rfl
  have hback : (l.drop 6).drop (contentLength l + 1) = l.drop (packetSize l) := by
    rw [List.drop_drop, ← Nat.add_assoc]
    rfl
  calc l = l.take 5 ++ calcChecksum (l.drop 1) 4 :: l.drop 6 := by
        rw [← hchecksum, List.take_append_drop]
    _ = l.take 5 ++ calcChecksum (l.drop 1) 4 ::
          ((l.drop 6).take (contentLength l + 1) ++ l.drop (packetSize l)) := by
        rw [← hback, List.take_append_drop]
    _ = (frontPacket l).bytes ++ l.drop (packetSize l) := by
        unfold Packet.bytes
        rw [hheaderSum, hcontentSum, front_content, hfields, hcontent,
          List.append_assoc (l.take 5), List.cons_append]

/-! ## What is dispatched -/

theorem dispatched_append (l m : List Effect) :
    dispatched (l ++ m) = dispatched l ++ dispatched m := List.filterMap_append

section Dispatched

variable {s s' : Tx σ}

theorem transmit_dispatched (front : Entry) :
    dispatched (s.transmit env front).log = dispatched s.log := by
  rw [transmit_log, dispatched_append]
  exact List.append_nil _

/-- The requests of a callback are no packets that are received. -/
theorem answer_dispatched {out : σ × List Request} (h : s.answer env out = some s') :
    dispatched s'.log = dispatched s.log := by
  have hpush : ∀ (t : Tx σ) (r : Request), dispatched (t.push r).log = dispatched t.log :=
    fun t r => (dispatched_append t.log [.enqueue t.tickets r]).trans (List.append_nil _)
  apply answer_keeps (P := fun t => dispatched t.log = dispatched s.log) h
  · rfl
  · intro t r ht _
    rw [transmit_dispatched, hpush, ht]
  · intro t r ht _
    rw [hpush, ht]

theorem pop_dispatched (rest : List Entry) (t : Nat) :
    dispatched (s.pop rest (.complete t)).log = dispatched s.log := by
  rw [pop_log, dispatched_append]
  exact List.append_nil _

theorem onError_dispatched {error : Error} (h : s.onError env error = some s') :
    dispatched s'.log = dispatched s.log := by
  rw [answer_dispatched h, Tx.emit, dispatched_append]
  exact List.append_nil _

theorem resendRequest_dispatched {error : Nat} (h : s.resendRequest env error = some s') :
    dispatched s'.log = dispatched s.log := by
  cases hr : s.requests with
  | nil => simp [Tx.resendRequest, Tx.sendRequest, hr] at h
  | cons front rest =>
    rcases resendRequest_cases env error hr with ⟨-, heq⟩ | ⟨-, heq⟩
    · rw [heq, Option.some.injEq] at h
      subst h
      exact transmit_dispatched front
    · rw [heq] at h
      rw [onError_dispatched h, pop_log, dispatched_append]
      exact List.append_nil _

/-- A packet is dispatched once. -/
theorem receivePacket_dispatched {packetType : UInt8} {data optionalData : List UInt8}
    (h : s.receivePacket env packetType data optionalData = some s') :
    dispatched s'.log = dispatched s.log ++ [(packetType, data, optionalData)] := by
  have hresponse : ∀ {front s₁}, packetType = RESPONSE →
      (s.cancel env).onResponse env front data optionalData = some s₁ →
      dispatched s₁.log = dispatched s.log ++ [(packetType, data, optionalData)] := by
    intro front s₁ htype hcall
    subst htype
    exact (answer_dispatched hcall).trans (dispatched_append _ _)
  cases packetCase_of_receive h with
  | last htype hcall hqueue hr => rw [pop_dispatched, hresponse htype hcall]
  | next htype hcall hqueue hr =>
    rw [transmit_dispatched, pop_dispatched, hresponse htype hcall]
  | request hother hcall => exact (answer_dispatched hcall).trans (dispatched_append _ _)

/-- Only reads dispatch packets. -/
theorem tx_dispatched {e : TxEvent} (h : s.step env e = some s') :
    dispatched s'.log = dispatched s.log := by
  cases tx_cases h with
  | sendRequest hcall => exact answer_dispatched hcall
  | expire => rfl
  | timer hw hresend =>
    have hlog := resendRequest_dispatched hresend
    exact hlog
  | port tty hstarted => rfl
  | error tty hstarted hcall =>
    have hlog := onError_dispatched hcall
    exact hlog

end Dispatched

/-! ## One turn, one read -/

/-- A turn that goes on takes a piece from the front of the buffer. -/
theorem next_taken {stream : List UInt8} {s t : EnOceanProtocol σ} (h : Taken stream s)
    (hgo : Next env s t) : Taken stream t := by
  obtain ⟨pieces, hstream, hlog⟩ := h
  have hlong : 6 < s.rx.unread.length := by
    rw [s.rx.unread_length]
    simpa [unfinished] using hgo.1
  have hclear : s.rx.clear.unread = [] := rfl
  have hnoise : ∀ hcorrupt : Corrupt s.rx.unread,
      Taken stream { s with rx := s.rx.clear } := by
    intro hcorrupt
    refine ⟨pieces ++ [.noise s.rx.unread hcorrupt], ?_, ?_⟩
    · simp [hclear, hstream, Piece.bytes]
    · rw [List.filterMap_append, hlog]
      exact (List.append_nil _).symm
  cases next_cases hgo with
  | @packet tx rx hheader hsize hdata htx hrx =>
    have hlen : packetSize s.rx.unread ≤ s.rx.unread.length := by
      rw [s.rx.unread_length]
      exact hsize
    obtain ⟨rx', hrx', hunread⟩ := s.rx.remove_unread hsize
    obtain rfl : rx = rx' := Option.some.inj (hrx.symm.trans hrx')
    have hsplit := bytes_of_checked hheader hlen hdata
    refine ⟨pieces ++ [.packet (frontPacket s.rx.unread)], ?_, ?_⟩
    · rw [hstream, List.flatMap_append, List.append_assoc, hunread]
      congr 1
      simpa [Piece.bytes] using hsplit
    · rw [receivePacket_dispatched htx, hlog, List.filterMap_append]
      rfl
  | corrupt hheader hsize hdata =>
    refine hnoise ⟨hlong, fun _ => ⟨?_, hdata⟩⟩
    rw [s.rx.unread_length]
    exact hsize
  | noise hheader => exact hnoise ⟨hlong, fun hok => absurd hok hheader⟩

/-- The loop ends where the packet at the front is not there yet. -/
theorem ends_unfinished {s : EnOceanProtocol σ} (h : Ends unfinished (turn env) s) :
    Unfinished s.rx.unread := by
  have hlen := s.rx.unread_length
  cases hg : unfinished s with
  | false =>
    have hle : ¬ 6 < s.rx.position := by simpa [unfinished] using hg
    exact Or.inl (by omega)
  | true =>
    obtain ⟨r, hr, hcase⟩ := turn_cases env s hg
    rcases h with hg' | hleave
    · rw [hg] at hg'
      cases hg'
    · rw [hr, Option.some.injEq] at hleave
      subst hleave
      cases hcase with
      | incomplete hheader hsize => exact Or.inr ⟨hheader, by omega⟩

/-! ## Every run -/

/-- The bytes of an event, as far as a read can deliver them. -/
def bytesOf (s : EnOceanProtocol σ) : Event → List UInt8
  | .read bytes => if Readable s bytes then bytes else []
  | _ => []

/-- The bytes that the reads of a run deliver. -/
def bytesRead (env : Env σ) (s : EnOceanProtocol σ) : List Event → List UInt8
  | [] => []
  | e :: es => bytesOf s e ++ (step env s e).elim [] fun t => bytesRead env t es

theorem step_taken {stream : List UInt8} {s t : EnOceanProtocol σ} {e : Event}
    (h : Taken stream s ∧ Unfinished s.rx.unread) (ht : step env s e = some t) :
    Taken (stream ++ bytesOf s e) t ∧ Unfinished t.rx.unread := by
  obtain ⟨htaken, hrest⟩ := h
  have hquiet : ∀ tx : Tx σ, dispatched tx.log = dispatched s.tx.log → ∀ receiving,
      Taken (stream ++ []) ⟨tx, s.rx, receiving⟩ := by
    intro tx htx receiving
    obtain ⟨pieces, hstream, hlog⟩ := htaken
    exact ⟨pieces, by rw [List.append_nil, hstream], htx.trans hlog⟩
  cases e with
  | tx e =>
    obtain ⟨tx, htx, rfl⟩ := Option.map_eq_some_iff.mp ht
    exact ⟨hquiet tx (tx_dispatched htx) _, hrest⟩
  | read bytes =>
    by_cases hfit : Readable s bytes
    · obtain ⟨u, hv, hends, hu⟩ := read_fits env hfit
      rw [ht, Option.some.injEq] at hu
      subst hu
      refine ⟨?_, ends_unfinished hends⟩
      rw [bytesOf, if_pos hfit]
      refine hv.keeps (P := Taken (stream ++ bytes)) ?_ fun p q _ hgo hp => next_taken hp hgo
      obtain ⟨pieces, hstream, hlog⟩ := htaken
      refine ⟨pieces, ?_, hlog⟩
      show _ = _ ++ (s.rx.received bytes hfit.2).unread
      rw [Rx.received_unread, hstream, List.append_assoc]
    · rw [read_unfit hfit, Option.some.injEq] at ht
      subst ht
      rw [bytesOf, if_neg hfit]
      exact ⟨hquiet s.tx rfl _, hrest⟩
  | readError value =>
    simp only [step] at ht
    split at ht
    · obtain ⟨tx, htx, rfl⟩ := Option.map_eq_some_iff.mp ht
      exact ⟨hquiet tx (onError_dispatched htx) _, hrest⟩
    · cases ht
      exact ⟨hquiet s.tx rfl _, hrest⟩

theorem run_taken {stream : List UInt8} {s t : EnOceanProtocol σ} {es : List Event}
    (h : Taken stream s ∧ Unfinished s.rx.unread) (ht : run (step env) s es = some t) :
    Taken (stream ++ bytesRead env s es) t ∧ Unfinished t.rx.unread := by
  induction es generalizing stream s with
  | nil =>
    cases ht
    rwa [bytesRead, List.append_nil]
  | cons e es ih =>
    obtain ⟨u, hu, hrest⟩ := Option.bind_eq_some_iff.mp ht
    have hnext := ih (step_taken h hu) hrest
    rwa [bytesRead, hu, Option.elim_some, ← List.append_assoc]

/-- In every run the bytes that arrived are taken in pieces, whole packets with the right checksums
and corrupt bytes, but for the beginning of a packet in the buffer. The packets are dispatched in
their order, each with its type, data and optional data, and nothing else is dispatched. -/
theorem stream_taken_in_pieces (env : Env σ) (a : σ) (txBuffer rxBuffer : Buffer UInt8 BUFFER_SIZE)
    {es : List Event} {t : EnOceanProtocol σ}
    (h : run (step env) (init a txBuffer rxBuffer) es = some t) :
    ∃ pieces : List Piece,
      bytesRead env (init a txBuffer rxBuffer) es = pieces.flatMap Piece.bytes ++ t.rx.unread ∧
      dispatched t.tx.log = pieces.filterMap Piece.content ∧ Unfinished t.rx.unread := by
  have hstart : Taken [] (init a txBuffer rxBuffer) ∧
      Unfinished (init a txBuffer rxBuffer).rx.unread :=
    ⟨⟨[], rfl, rfl⟩, Or.inl (Nat.zero_le 6)⟩
  obtain ⟨⟨pieces, hstream, hlog⟩, hrest⟩ := run_taken hstart h
  exact ⟨pieces, hstream, hlog, hrest⟩

/-- Seven bytes without a header, and a packet in two parts. -/
def noiseAndPacket : List Event := [
  .read [0x00, 0x55, 0x00, 0x01, 0x00, 0x02, 0x65],
  .read [0x55, 0x00, 0x01],
  .read [0x00, 0x02, 0x65, 0x00, 0x00]]

theorem stream_taken_in_pieces_two :
    ∃ t, run (step ⟨quietApp, true⟩) (init () (.filled 0) (.filled 0)) noiseAndPacket = some t ∧
      ∃ pieces : List Piece,
        bytesRead ⟨quietApp, true⟩ (init () (.filled 0) (.filled 0)) noiseAndPacket =
          pieces.flatMap Piece.bytes ++ t.rx.unread ∧
        dispatched t.tx.log = pieces.filterMap Piece.content ∧ Unfinished t.rx.unread := by
  have hruns : (run (step ⟨quietApp, true⟩) (init () (.filled 0) (.filled 0))
      noiseAndPacket).isSome = true := by decide +kernel
  obtain ⟨t, ht⟩ := Option.isSome_iff_exists.mp hruns
  exact ⟨t, ht, stream_taken_in_pieces ⟨quietApp, true⟩ () (.filled 0) (.filled 0) ht⟩

end huasi.enocean
