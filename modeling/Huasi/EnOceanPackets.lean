-- The packets on the line: `sendRequest()` writes the documented layout, a turn of the
-- read handler takes it for the same packet, and every packet is dispatched.
import Huasi.EnOceanProtocol

open huasi.receive_buffer huasi.runs

namespace huasi.enocean

variable {σ : Type} {env : Env σ}

/-! ## The bytes of a packet -/

/-- The documented layout: header, header checksum, data, optional data, data checksum. -/
def Request.bytes (r : Request) : List UInt8 :=
  r.header ++ calcChecksum (r.header.drop 1) 4 :: (r.data ++ r.optionalData ++
    [calcChecksum (r.data ++ r.optionalData) r.length])

theorem Request.bytes_length (r : Request) : r.bytes.length = 6 + r.length + 1 := by
  unfold Request.bytes Request.header Request.length
  simp only [List.length_append, List.length_cons, List.length_nil]
  omega

theorem calcChecksum_take (l : List UInt8) (n : Nat) :
    calcChecksum (l.take n) n = calcChecksum l n := by
  unfold calcChecksum
  rw [List.take_take, Nat.min_self]

theorem exists_piece {l : List UInt8} {n : Nat} (h : n ≤ l.length) :
    ∃ piece rest, l = piece ++ rest ∧ piece.length = n ∧ rest.length = l.length - n :=
  ⟨l.take n, l.drop n, (List.take_append_drop n l).symm, List.length_take_of_le h,
    List.length_drop⟩

/-- `sendRequest()` writes header and checksums around the data, whatever the buffer held. -/
theorem frame_eq (r : Request) (txBuffer : Buffer UInt8 BUFFER_SIZE) :
    r.frame txBuffer = r.bytes := by
  have hfits := r.length_le
  have hlen := txBuffer.size_eq
  unfold Request.length at hfits
  -- the places of header, header checksum, data, optional data and data checksum
  obtain ⟨h0, l, hl, hh0, hrest⟩ := exists_piece (show 5 ≤ txBuffer.elements.length by omega)
  obtain ⟨h5, l', rfl, hh5, hrest'⟩ := exists_piece (show 1 ≤ l.length by omega)
  obtain ⟨d, l, rfl, hd, hrest⟩ := exists_piece (show r.data.length ≤ l'.length by omega)
  obtain ⟨o, l', rfl, ho, hrest'⟩ := exists_piece (show r.optionalData.length ≤ l.length by omega)
  obtain ⟨c, rest, rfl, hc, -⟩ := exists_piece (show 1 ≤ l'.length by omega)
  unfold Request.frame Request.encode
  extract_lets b1 b2 b3 b4
  have hdata : b1.elements = (h0 ++ h5) ++ r.data ++ (o ++ (c ++ rest)) := by
    apply Buffer.store_piece r.data_fits
    · rw [hl, List.append_assoc, List.append_assoc]
    · rw [List.length_append, hh0, hh5]
    · exact hd
  have hoptional : b2.elements = (h0 ++ h5 ++ r.data) ++ r.optionalData ++ (c ++ rest) := by
    apply Buffer.store_piece r.optional_fits
    · rw [hdata, List.append_assoc _ o]
    · rw [List.length_append, List.length_append, hh0, hh5]
    · exact ho
  have hheader : b3.elements =
      [] ++ r.header ++ (h5 ++ (r.data ++ (r.optionalData ++ (c ++ rest)))) := by
    apply Buffer.store_piece r.header_fits
    · show b2.elements = [] ++ h0 ++ _
      rw [hoptional, List.nil_append, List.append_assoc h0, List.append_assoc h0,
        List.append_assoc h0, List.append_assoc h5, List.append_assoc h5, List.append_assoc r.data]
    · rfl
    · exact hh0
  have hsum : calcChecksum (b3.elements.drop 1) 4 = calcChecksum (r.header.drop 1) 4 := by
    rw [← calcChecksum_take, hheader]
    rfl
  have hheaderSum : b4.elements = r.header ++ [calcChecksum (r.header.drop 1) 4] ++
      (r.data ++ (r.optionalData ++ (c ++ rest))) := by
    rw [← hsum]
    apply Buffer.store_piece (headerChecksum_fits _)
    · rw [hheader, List.nil_append, List.append_assoc]
    · rfl
    · exact hh5
  have hdrop : b4.elements.drop 6 = r.data ++ r.optionalData ++ (c ++ rest) := by
    rw [hheaderSum, List.append_assoc r.data]
    rfl
  have hlength : (r.data ++ r.optionalData).length = r.length := List.length_append
  have hsum : calcChecksum (b4.elements.drop 6) r.length =
      calcChecksum (r.data ++ r.optionalData) r.length := by
    rw [← calcChecksum_take, hdrop, ← hlength, List.take_left]
  have hall : (b4.store (6 + r.length) [calcChecksum (b4.elements.drop 6) r.length]
      (r.checksum_fits _)).elements = r.header ++ [calcChecksum (r.header.drop 1) 4] ++
        (r.data ++ r.optionalData) ++ [calcChecksum (b4.elements.drop 6) r.length] ++ rest := by
    apply Buffer.store_piece (r.checksum_fits _)
    · show b4.elements = _ ++ c ++ rest
      rw [hheaderSum]
      simp only [List.append_assoc]
    · rw [List.length_append, hlength]
      rfl
    · exact hc
  have hbytes : r.header ++ [calcChecksum (r.header.drop 1) 4] ++ (r.data ++ r.optionalData) ++
      [calcChecksum (r.data ++ r.optionalData) r.length] = r.bytes := by
    unfold Request.bytes
    simp only [List.append_assoc, List.cons_append, List.nil_append]
  rw [hall, hsum, hbytes, ← r.bytes_length, List.take_left]

/-! ## One packet -/

/-- The entries that a row of `sendRequest` calls appends. -/
def added (ticket : Nat) : List Request → List Entry
  | [] => []
  | r :: rs => ⟨ticket, r⟩ :: added (ticket + 1) rs

/-- The effects of `sendRequest` calls that only enqueue. -/
def enqueued (es : List Entry) : List Effect := es.map fun e => .enqueue e.ticket e.request

/-- The transmission of the front of a queue. -/
def transmission : List Entry → List Effect
  | [] => []
  | e :: _ => [.transmit e.ticket e.request.bytes]

theorem transmit_log (env : Env σ) (s : Tx σ) (front : Entry) :
    (s.transmit env front).log = s.log ++ [.transmit front.ticket front.request.bytes] := by
  rw [← frame_eq front.request s.txBuffer]
  rfl

theorem transmit_requests (env : Env σ) (s : Tx σ) (front : Entry) :
    (s.transmit env front).requests = s.requests := rfl

theorem pop_log (s : Tx σ) (rest : List Entry) (x : Effect) :
    (s.pop rest x).log = s.log ++ [x] := rfl

/-- Requests to a protocol that waits for a response go to the end of the queue. -/
theorem foldlM_sendRequestPtr (env : Env σ) {s : Tx σ} (rs : List Request)
    (h : s.requests ≠ []) :
    ∃ t, rs.foldlM (Tx.sendRequestPtr env) s = some t ∧
      t.requests = s.requests ++ added s.tickets rs ∧
      t.log = s.log ++ enqueued (added s.tickets rs) := by
  induction rs generalizing s with
  | nil => exact ⟨s, rfl, (List.append_nil _).symm, (List.append_nil _).symm⟩
  | cons r rs ih =>
    have hpush : s.sendRequestPtr env r = some (s.push r) := by
      unfold Tx.sendRequestPtr
      apply if_neg
      have hpos := List.length_pos_of_ne_nil h
      have hlen : (s.push r).requests.length = s.requests.length + 1 := List.length_append
      omega
    obtain ⟨t, ht, hrequests, hlog⟩ := ih (s := s.push r) (by simp [Tx.push, Tx.emit])
    refine ⟨t, ?_, ?_, ?_⟩
    · rw [List.foldlM_cons, hpush]
      exact ht
    · rw [hrequests]
      exact List.append_assoc _ _ _
    · rw [hlog]
      exact List.append_assoc _ _ _

/-- What new requests do: the first one is sent if the queue was empty. -/
def announced : List Entry → List Entry → List Effect
  | [], e :: es => .enqueue e.ticket e.request :: transmission [e] ++ enqueued es
  | _, es => enqueued es

theorem announced_of_ne_nil {queue es : List Entry} (h : queue ≠ []) :
    announced queue es = enqueued es := by
  cases queue with
  | nil => exact absurd rfl h
  | cons front rest => rfl

theorem foldlM_spec (env : Env σ) (s : Tx σ) (rs : List Request) :
    ∃ t, rs.foldlM (Tx.sendRequestPtr env) s = some t ∧
      t.requests = s.requests ++ added s.tickets rs ∧
      t.log = s.log ++ announced s.requests (added s.tickets rs) := by
  by_cases h : s.requests = []
  · rw [h]
    cases rs with
    | nil => exact ⟨s, rfl, h, (List.append_nil _).symm⟩
    | cons r rs =>
      have hone : (s.push r).requests = [⟨s.tickets, r⟩] := by
        show s.requests ++ [⟨s.tickets, r⟩] = _
        rw [h]
        rfl
      have hsend : s.sendRequestPtr env r = some ((s.push r).transmit env ⟨s.tickets, r⟩) := by
        unfold Tx.sendRequestPtr Tx.sendRequest
        simp only [hone, List.length_singleton, if_true]
      have hne : ((s.push r).transmit env ⟨s.tickets, r⟩).requests ≠ [] := by
        rw [transmit_requests, hone]
        exact List.cons_ne_nil _ _
      obtain ⟨t, ht, hrequests, hlog⟩ := foldlM_sendRequestPtr env rs hne
      refine ⟨t, ?_, ?_, ?_⟩
      · rw [List.foldlM_cons, hsend]
        exact ht
      · rw [hrequests, transmit_requests, hone]
        rfl
      · rw [hlog, transmit_log, List.append_assoc]
        exact List.append_assoc _ _ _
  · rw [announced_of_ne_nil h]
    exact foldlM_sendRequestPtr env rs h

/-- What a packet does: a response goes to the front request, which is then removed, and the next
one is sent. Every other packet goes to the application. -/
inductive Dispatches (p : Request) (s t : Tx σ) : Prop where
  | response {front : Entry} {rest new : List Entry} (htype : p.packetType = RESPONSE)
      (hqueue : s.requests = front :: rest) (requests : t.requests = rest ++ new)
      (log : t.log = s.log ++ .onResponse front.ticket p.data p.optionalData :: enqueued new ++
        .complete front.ticket :: transmission (rest ++ new))
  | request {new : List Entry} (hother : p.packetType ≠ RESPONSE ∨ s.requests = [])
      (requests : t.requests = s.requests ++ new)
      (log : t.log = s.log ++ .onRequest p.packetType p.data p.optionalData ::
        announced s.requests new)

theorem onRequest_spec (env : Env σ) (s : Tx σ) (packetType : UInt8)
    (data optionalData : List UInt8) :
    ∃ t new, s.onRequest env packetType data optionalData = some t ∧
      t.requests = s.requests ++ new ∧
      t.log = s.log ++ .onRequest packetType data optionalData :: announced s.requests new := by
  unfold Tx.onRequest Tx.answer
  obtain ⟨t, ht, hrequests, hlog⟩ := foldlM_spec env _ _
  refine ⟨t, _, ht, hrequests, hlog.trans ?_⟩
  exact List.append_assoc _ _ _

theorem onResponse_spec (env : Env σ) {s : Tx σ} (e : Entry) (data optionalData : List UInt8)
    (h : s.requests ≠ []) :
    ∃ t new, s.onResponse env e data optionalData = some t ∧
      t.requests = s.requests ++ new ∧
      t.log = s.log ++ .onResponse e.ticket data optionalData :: enqueued new := by
  unfold Tx.onResponse Tx.answer
  obtain ⟨t, ht, hrequests, hlog⟩ := foldlM_sendRequestPtr env
    (env.app.onResponse s.app e data optionalData).2
    (s := { s.emit (.onResponse e.ticket data optionalData) with
      app := (env.app.onResponse s.app e data optionalData).1 }) h
  refine ⟨t, _, ht, hrequests, hlog.trans ?_⟩
  exact List.append_assoc _ _ _

/-- Every packet is dispatched. -/
theorem receivePacket_dispatches (env : Env σ) (s : Tx σ) (p : Request) :
    ∃ t, s.receivePacket env p.packetType p.data p.optionalData = some t ∧ Dispatches p s t := by
  have hcancel : (s.cancel env).requests = s.requests := rfl
  unfold Tx.receivePacket
  simp only [hcancel]
  cases hs : s.requests with
  | nil =>
    obtain ⟨t, new, ht, hrequests, hlog⟩ :=
      onRequest_spec env (s.cancel env) p.packetType p.data p.optionalData
    exact ⟨t, ht, .request (Or.inr hs) hrequests hlog⟩
  | cons front rest =>
    by_cases htype : p.packetType = RESPONSE
    · obtain ⟨t, new, ht, hrequests, hlog⟩ := onResponse_spec env (s := s.cancel env) front p.data
        p.optionalData (by rw [hcancel, hs]; exact List.cons_ne_nil _ _)
      rw [hcancel, hs, List.cons_append] at hrequests
      simp only [if_pos htype, ht, hrequests, Option.bind_eq_bind, Option.bind_some]
      cases hnext : rest ++ new with
      | nil =>
        refine ⟨_, rfl, .response htype hs hnext.symm ?_⟩
        rw [hnext, pop_log, hlog]
        rfl
      | cons next others =>
        refine ⟨_, rfl, .response htype hs hnext.symm ?_⟩
        rw [hnext, transmit_log, pop_log, hlog]
        exact List.append_assoc _ _ _
    · obtain ⟨t, new, ht, hrequests, hlog⟩ :=
        onRequest_spec env (s.cancel env) p.packetType p.data p.optionalData
      simp only [if_neg htype]
      exact ⟨t, ht, .request (Or.inl htype) hrequests hlog⟩

/-! ## One turn -/

theorem dataLength_eq {n : Nat} (h : n < 65536) :
    (UInt8.ofNat (n >>> 8)).toNat <<< 8 ||| (UInt8.ofNat n).toNat = n := by
  have hhigh : n >>> 8 < 256 := by
    rw [Nat.shiftRight_eq_div_pow]
    omega
  rw [UInt8.toNat_ofNat_of_lt' hhigh, UInt8.toNat_ofNat',
    ← Nat.shiftLeft_add_eq_or_of_lt (Nat.mod_lt _ (by decide)), Nat.shiftLeft_eq,
    Nat.shiftRight_eq_div_pow]
  exact Nat.div_add_mod' n 256

theorem Request.data_lt (r : Request) : r.data.length < 65536 := by
  have := r.data_le
  unfold MAX_DATA_LENGTH at this
  omega

theorem Request.optional_toNat (r : Request) :
    (UInt8.ofNat r.optionalData.length).toNat = r.optionalData.length := by
  have := r.optional_le
  unfold MAX_OPTIONAL_LENGTH at this
  exact UInt8.toNat_ofNat_of_lt' (by show _ < 256; omega)

theorem piece_length {r : Request} {k : Nat} (hlen : k ≤ 6 + r.length + 1) :
    (r.bytes.take k).length = k := by
  rw [List.length_take, r.bytes_length, Nat.min_eq_left hlen]

section Turn

-- In this section the buffer starts with more than a header of the packet.
variable {s : EnOceanProtocol σ} {r : Request} {k : Nat} {more : List UInt8}
  (hu : s.rx.unread = r.bytes.take k ++ more) (hk : 6 < k) (hlen : k ≤ 6 + r.length + 1)

include hu hk hlen

theorem header_get {i : Nat} (hi : i < 6) : s.rx.buffer.elements[i]? = r.bytes[i]? := by
  rw [Rx.get_of_unread hu (by rw [piece_length hlen]; omega), List.getElem?_take,
    if_pos (by omega)]

theorem header_checksum :
    calcChecksum (s.rx.buffer.elements.drop 1) 4 = calcChecksum (r.header.drop 1) 4 := by
  rw [← calcChecksum_take, Rx.part_of_unread hu (by rw [piece_length hlen]; omega),
    List.drop_take, List.take_take, Nat.min_eq_left (by omega)]
  rfl

/-- What a turn does behind the header check. -/
theorem turn_header (env : Env σ) :
    turn env s =
      if 6 + r.length + 1 ≤ s.rx.position then do
        if calcChecksum (s.rx.buffer.elements.drop 6) r.length =
            (← s.rx.buffer.elements[6 + r.length]?) then
          let tx ← s.tx.receivePacket env r.packetType
            ((s.rx.buffer.elements.drop 6).take r.data.length)
            ((s.rx.buffer.elements.drop (6 + r.data.length)).take r.optionalData.length)
          let rx ← s.rx.remove (6 + r.length + 1)
          some (.again { s with tx, rx })
        else
          some (.again { s with rx := s.rx.clear })
      else
        some .leave := by
  have hget := fun i (hi : i < 6) => header_get hu hk hlen hi
  have h0 : s.rx.buffer.elements[0]? = some 0x55 := hget 0 (by decide)
  have h1 : s.rx.buffer.elements[1]? = some (UInt8.ofNat (r.data.length >>> 8)) :=
    hget 1 (by decide)
  have h2 : s.rx.buffer.elements[2]? = some (UInt8.ofNat r.data.length) := hget 2 (by decide)
  have h3 : s.rx.buffer.elements[3]? = some (UInt8.ofNat r.optionalData.length) :=
    hget 3 (by decide)
  have h4 : s.rx.buffer.elements[4]? = some r.packetType := hget 4 (by decide)
  have h5 : s.rx.buffer.elements[5]? = some (calcChecksum (r.header.drop 1) 4) :=
    hget 5 (by decide)
  unfold turn
  simp only [h0, h1, h2, h3, h4, h5, header_checksum hu hk hlen, Option.bind_eq_bind,
    Option.bind_some, and_self, if_true, dataLength_eq r.data_lt, r.optional_toNat]
  rfl

end Turn

/-- A turn with a whole packet at the head of the buffer dispatches that packet. -/
theorem turn_packet (env : Env σ) {s : EnOceanProtocol σ} {r : Request} {more : List UInt8}
    (hu : s.rx.unread = r.bytes ++ more) :
    ∃ tx rx, turn env s = some (.again { s with tx, rx }) ∧ rx.unread = more ∧
      s.tx.receivePacket env r.packetType r.data r.optionalData = some tx := by
  have hlen := r.bytes_length
  have hlength : r.length = (r.data ++ r.optionalData).length := List.length_append.symm
  have hpos : 6 + r.length + 1 ≤ s.rx.position := by
    rw [← s.rx.unread_length, hu, List.length_append]
    omega
  have hall : s.rx.unread = r.bytes.take (6 + r.length + 1) ++ more := by
    rw [← hlen, List.take_length, hu]
  -- the parts behind the header
  have hdrop : r.bytes.drop 6 = r.data ++ r.optionalData ++
      [calcChecksum (r.data ++ r.optionalData) r.length] := rfl
  have hdata : (s.rx.buffer.elements.drop 6).take r.data.length = r.data := by
    rw [Rx.part_of_unread hu (by unfold Request.length at hlen; omega), hdrop, List.append_assoc,
      List.take_left]
  have hoptional : (s.rx.buffer.elements.drop (6 + r.data.length)).take r.optionalData.length =
      r.optionalData := by
    rw [Rx.part_of_unread hu (by unfold Request.length at hlen; omega), ← List.drop_drop, hdrop,
      List.append_assoc, List.drop_left, List.take_left]
  have hsum : calcChecksum (s.rx.buffer.elements.drop 6) r.length =
      calcChecksum (r.data ++ r.optionalData) r.length := by
    rw [← calcChecksum_take, Rx.part_of_unread hu (by omega), hdrop, hlength, List.take_left]
  have hget : s.rx.buffer.elements[6 + r.length]? =
      some (calcChecksum (r.data ++ r.optionalData) r.length) := by
    rw [Rx.get_of_unread hu (by omega), ← List.getElem?_drop, hdrop, hlength]
    exact List.getElem?_concat_length
  obtain ⟨rx, hrx, hrest⟩ := Rx.remove_of_unread hu
  rw [hlen] at hrx
  obtain ⟨tx, htx, -⟩ := receivePacket_dispatches env s.tx r
  refine ⟨tx, rx, ?_, hrest, htx⟩
  rw [turn_header hall (by omega) (Nat.le_refl _), if_pos hpos]
  simp only [hget, hsum, hdata, hoptional, htx, hrx, Option.bind_eq_bind, Option.bind_some,
    if_true]

/-- A part of a packet ends the loop. -/
theorem turn_short (env : Env σ) {s : EnOceanProtocol σ} {r : Request} {k : Nat}
    (hu : s.rx.unread = r.bytes.take k) (hk : k < r.bytes.length) :
    Ends unfinished (turn env) s := by
  have hlen := r.bytes_length
  have hpos : s.rx.position = k := by
    rw [← s.rx.unread_length, hu, List.length_take]
    exact Nat.min_eq_left (Nat.le_of_lt hk)
  by_cases h6 : 6 < k
  · right
    have hu' : s.rx.unread = r.bytes.take k ++ [] := by rw [hu, List.append_nil]
    rw [turn_header hu' h6 (by omega), if_neg (by omega)]
  · left
    unfold unfinished
    rw [decide_eq_false_iff_not, hpos]
    exact h6

end huasi.enocean
