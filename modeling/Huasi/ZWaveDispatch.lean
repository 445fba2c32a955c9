-- Which bytes decide what a frame does. The handler reads the function and
-- the funcId at fixed offsets, so a short frame is taken for more than it
-- says. Here is exactly when that makes a difference.
import Huasi.ZWaveFuncId
import Huasi.ZWaveRequests

open huasi.runs

namespace huasi.zwave

variable {σ : Type} {env : Env σ}

/-! ## What a frame says -/

/-- Type, function and payload of the frame with length byte `l` at the head of the buffer: what
stands between the length byte and the checksum. -/
def Rx.content (rx : Rx) (l : UInt8) : List UInt8 := (rx.rxBuffer.bytes.drop 2).take (l.toNat - 1)

/-- The payload starts with the funcId set at the latest transmission of a `SendRequest`. -/
def Tx.reportsOwn (s : Tx σ) (payload : List UInt8) (front : Entry) : Bool :=
  front.request.funcId.isSome && payload.head?.isSome &&
    decide (payload.head? = latestFuncId s.log front.ticket)

/-- What a frame is to do by its own content. A frame without a function has no request to go
to. -/
def Tx.dispatchOwn (env : Env σ) (s : Tx σ) : List UInt8 → Option (Tx σ)
  | type :: function :: payload => s.dispatch env type function payload (s.reportsOwn payload)
  | [type] => if type = REQUEST then s.sendAck.onRequest env [] 0 else some s.sendAck
  | [] => some s.sendAck

/-- The turn does what the frame says by its own content, or discards the frame because it is not
the first of its read. -/
def OwnContent (env : Env σ) (p : Bool × ZWaveProtocol σ) (l : UInt8) : Prop :=
  ∃ tx rx, turn env p = some (.again (true, { p.2 with tx, rx })) ∧
    if p.1 then tx = p.2.tx else p.2.tx.dispatchOwn env (p.2.rx.content l) = some tx

/-- The byte at offset 3 is the function of the front, and either it is the checksum of a frame
of length 2, or the byte at offset 4 is the funcId in the request, but not by its payload or not
by a transmission: it is the checksum of a frame of length 3, or the request was never sent. -/
def Misled (p : Bool × ZWaveProtocol σ) (l : UInt8) : Prop :=
  p.1 = false ∧ ∃ front ∈ p.2.tx.requests.head?,
    p.2.rx.rxBuffer.bytes[3]? = some front.request.function ∧
      (l = 2 ∧ p.2.rx.rxBuffer.bytes[2]? = some RESPONSE ∨
        l = 2 ∧ p.2.rx.rxBuffer.bytes[2]? = some REQUEST ∨
        p.2.rx.rxBuffer.bytes[2]? = some REQUEST ∧ front.request.funcId.isSome = true ∧
          p.2.rx.rxBuffer.bytes[4]? = front.request.funcId ∧
            (l = 3 ∨ front.ticket ∉ transmitted p.2.tx.log))

instance (p : Bool × ZWaveProtocol σ) (l : UInt8) : Decidable (Misled p l) :=
  inferInstanceAs (Decidable (_ ∧ ∃ front ∈ p.2.tx.requests.head?, _ ∧ (_ ∨ _ ∨ _)))

/-! ## Completing leaves a trace -/

theorem endProcedure_log {s s' : Tx σ} {front : Entry} {rest : List Entry}
    (h : s.endProcedure env front rest = some s') :
    s.log ++ [.complete front.ticket] <+: s'.log := by
  rw [endProcedure_eq, Option.some.injEq] at h
  subst h
  cases rest with
  | nil => exact List.prefix_refl _
  | cons next rest' => exact List.prefix_append _ _

theorem callback_log {s s' : Tx σ} {x : Effect} {out : σ × List Request}
    (h : (s.emit x).answer env out = some s') : s.log ++ [x] <+: s'.log :=
  (answer_moves h).log_grows

/-- A log that says more after the ACK is not that of the ACK alone. -/
theorem ne_sendAck {s s' : Tx σ} {x : Effect} (h : s.sendAck.log ++ [x] <+: s'.log) :
    s' ≠ s.sendAck := by
  rintro rfl
  have := h.length_le
  rw [List.length_append, List.length_singleton] at this
  omega

/-- Two logs that go on differently are different. -/
theorem next_effect {l m : List Effect} {x y : Effect} (hx : l ++ [x] <+: m)
    (hy : l ++ [y] <+: m) : x = y := by
  have heq := (List.prefix_of_prefix_length_le hx hy (by simp)).eq_of_length (by simp)
  simpa using heq

/-! ## Frames with a function -/

section Dispatch

variable {s : Tx σ} {type function : UInt8} {payload : List UInt8} {reports reports' : Entry → Bool}

/-- Only what is said about the front matters, and only for a REQUEST with its function. -/
theorem dispatch_congr (h : ∀ front ∈ s.requests.head?, front.request.function = function →
    type = REQUEST → reports front = reports' front) :
    s.dispatch env type function payload reports =
      s.dispatch env type function payload reports' := by
  unfold Tx.dispatch
  cases hr : s.requests with
  | nil => rfl
  | cons front rest =>
    simp only
    by_cases hf : front.request.function = function
    · by_cases ht : type = REQUEST
      · rw [h front (by rw [hr]; rfl) hf ht]
      · simp only [ht, false_and, if_false]
    · simp only [hf, if_false]

/-- Where the two do not agree, one of them completes the front. -/
theorem dispatch_ne {front : Entry} {rest : List Entry} (hr : s.requests = front :: rest)
    (hf : front.request.function = function) (ht : type = REQUEST) (h : reports front = true)
    (h' : reports' front = false) :
    s.dispatch env type function payload reports ≠
      s.dispatch env type function payload reports' := by
  subst ht
  unfold Tx.dispatch
  simp only [hr, hf, if_true, REQUEST_ne_RESPONSE, if_false, h, h', and_self, Bool.false_eq_true,
    and_false]
  obtain ⟨s₁, hend⟩ := endProcedure_some env s.sendAck front rest
  obtain ⟨s₂, hcall⟩ : ∃ s₂, s₁.onSendRequest env front payload payload.length = some s₂ :=
    answer_some env _ _
  rw [hend, Option.bind_some, hcall]
  intro heq
  refine ne_sendAck (x := .complete front.ticket) ?_ (Option.some.inj heq)
  exact (endProcedure_log hend).trans (onSendRequest_moves hcall).log_grows

end Dispatch

theorem latestFuncId_none {l : List Effect} {t : Nat} (h : t ∉ transmitted l) :
    latestFuncId l t = none := by
  unfold latestFuncId
  rw [Option.map_eq_none_iff, List.find?_eq_none]
  intro a ha heq
  apply h
  rw [List.mem_reverse, assignments, List.mem_filterMap] at ha
  obtain ⟨x, hx, hax⟩ := ha
  apply List.mem_filterMap.mpr
  refine ⟨x, hx, ?_⟩
  cases x with
  | transmit u f b =>
    cases f with
    | none => cases hax
    | some f =>
      cases hax
      obtain rfl : u = t := by simpa using heq
      rfl
  | _ => cases hax

/-- A complete frame of length 3 and more is a frame of a message. -/
theorem frame_of_complete {rx : Rx} {l : UInt8} (hl : rx.Complete l) (hc : rx.Checked l)
    (h3 : 3 ≤ l.toNat) :
    ∃ f : Frame, f.length = l.toNat ∧ rx.rxBuffer.bytes.take (2 + f.length) = f.bytes := by
  obtain ⟨h0, h1, -, hpos⟩ := hl
  have hle := rx.position_le
  unfold Rx.Checked at hc
  generalize rx.rxBuffer.bytes = b at h0 h1 hc
  match b, h0, h1, hc with
  | [], h0, _, _ => cases h0
  | [_], _, h1, _ => cases h1
  | [_, _], _, _, hc =>
    rw [List.getElem?_eq_none (by simp; omega)] at hc
    cases hc
  | [_, _, _], _, _, hc =>
    rw [List.getElem?_eq_none (by simp; omega)] at hc
    cases hc
  | b₀ :: b₁ :: type :: function :: tail, h0, h1, hc =>
    obtain rfl : b₀ = SOF := Option.some.inj h0
    obtain rfl : b₁ = l := Option.some.inj h1
    obtain ⟨n, hn⟩ : ∃ n, b₁.toNat = n + 3 := ⟨b₁.toNat - 3, by omega⟩
    have hget : tail[n]? = some (calcChecksum (b₁ :: type :: function :: tail) (n + 3)) := by
      rw [hn, show 2 + (n + 3) - 1 = n + 4 by omega] at hc
      exact hc
    have hlen : n < tail.length := (List.getElem?_eq_some_iff.mp hget).1
    have hpayload : (tail.take n).length = n := by
      rw [List.length_take]
      omega
    refine ⟨⟨type, function, tail.take n, by omega⟩, ?_, ?_⟩
    · simp only [Frame.length, hpayload, hn]
    · have hcontent : (⟨type, function, tail.take n, by omega⟩ : Frame).content =
          b₁ :: type :: function :: tail.take n := by
        simp only [Frame.content, Frame.length, hpayload, ← hn, UInt8.ofNat_toNat]
      have hsum : (⟨type, function, tail.take n, by omega⟩ : Frame).checksum =
          calcChecksum (b₁ :: type :: function :: tail) (n + 3) := by
        unfold Frame.checksum
        rw [hcontent, ← calcChecksum_take (b₁ :: type :: function :: tail)]
        simp only [Frame.length, hpayload]
        rfl
      simp only [Frame.bytes, hcontent, hsum, Frame.length, hpayload]
      rw [show 2 + (n + 3) = n + 1 + 4 by omega]
      simp only [List.take_succ_cons, List.cons_append]
      rw [List.take_add_one, hget]
      rfl

section Long

/-! ## Frames of length 3 and more -/

variable {s : ZWaveProtocol σ} {l : UInt8} {f : Frame} (h : Assigned s.tx)
  (hlen : f.length = l.toNat) (hb : s.rx.rxBuffer.bytes.take (2 + f.length) = f.bytes)

include hlen hb

theorem content_of_frame : s.rx.content l = f.type :: f.function :: f.payload := by
  unfold Rx.content
  rw [← hlen, frame_part hb (by unfold Frame.length; omega)]
  have hdrop : f.bytes.drop 2 = (f.type :: f.function :: f.payload) ++ [f.checksum] := rfl
  have hsize : f.length - 1 = (f.type :: f.function :: f.payload).length := rfl
  rw [hdrop, hsize]
  exact List.take_left

omit hb in
theorem payload_nil_iff : f.payload = [] ↔ l = 3 := by
  rw [← List.length_eq_zero_iff, ← UInt8.toNat_inj, ← hlen]
  have h3 : (3 : UInt8).toNat = 3 := rfl
  unfold Frame.length
  omega

include h

/-- The code and the content agree about the front where the frame does not mislead. -/
theorem reports_agree (hno : ¬ Misled (false, s) l) {front : Entry}
    (hfront : front ∈ s.tx.requests.head?) (hf : front.request.function = f.function)
    (ht : f.type = REQUEST) :
    decide (front.request.funcId = some (f.payload.headD f.checksum)) =
      s.tx.reportsOwn f.payload front := by
  have h2 : s.rx.rxBuffer.bytes[2]? = some REQUEST := by
    rw [← ht]
    exact frame_get hb (by unfold Frame.length; omega)
  have h3 : s.rx.rxBuffer.bytes[3]? = some front.request.function := by
    rw [hf]
    exact frame_get hb (by unfold Frame.length; omega)
  unfold Tx.reportsOwn
  cases hfunc : front.request.funcId with
  | none => simp
  | some g =>
    by_cases hmatch : g = f.payload.headD f.checksum
    · have hgood : l ≠ 3 ∧ front.ticket ∈ transmitted s.tx.log := by
        by_contra hbad
        apply hno
        refine ⟨rfl, front, hfront, h3, Or.inr (Or.inr ⟨h2, by rw [hfunc]; rfl, ?_, by tauto⟩)⟩
        rw [hfunc, hmatch]
        exact frame_id hb
      have hstored := h.stored front (List.mem_of_mem_head? hfront) hgood.2 g hfunc
      obtain ⟨x, tl, hpayload⟩ := List.exists_cons_of_ne_nil
        (mt (payload_nil_iff hlen).mp hgood.1)
      rw [hpayload, List.headD_cons] at hmatch
      simp [hpayload, hstored, hmatch]
    · have hcode : decide (some g = some (f.payload.headD f.checksum)) = false := by
        simpa using hmatch
      rw [hcode, eq_comm, Bool.eq_false_iff]
      intro hown
      simp only [Option.isSome_some, Bool.true_and, Bool.and_eq_true, decide_eq_true_eq] at hown
      obtain ⟨hsome, hlatest⟩ := hown
      by_cases hsent : front.ticket ∈ transmitted s.tx.log
      · rw [h.stored front (List.mem_of_mem_head? hfront) hsent g hfunc] at hlatest
        obtain ⟨tl, hpayload⟩ := List.head?_eq_some_iff.mp hlatest
        rw [hpayload] at hmatch
        exact hmatch rfl
      · rw [hlatest, latestFuncId_none hsent] at hsome
        cases hsome

theorem long_frame_iff :
    s.tx.receiveFrame env s.rx.rxBuffer.bytes l.toNat =
      s.tx.dispatchOwn env (s.rx.content l) ↔ ¬ Misled (false, s) l := by
  rw [content_of_frame hlen hb, ← hlen, receiveFrame_frame hb]
  unfold Tx.handleFrame Tx.dispatchOwn
  constructor
  · rintro heq ⟨-, front, hfront, h3, hcase⟩
    obtain ⟨rest, hr⟩ := List.head?_eq_some_iff.mp hfront
    have hl3 : 3 ≤ l.toNat := by
      rw [← hlen]
      unfold Frame.length
      omega
    have hl2 : l ≠ 2 := by
      rintro rfl
      exact absurd hl3 (by decide)
    rcases hcase with ⟨hl, -⟩ | ⟨hl, -⟩ | ⟨h2, -, h4, hbad⟩
    · exact hl2 hl
    · exact hl2 hl
    · rw [frame_get hb (by unfold Frame.length; omega)] at h2 h3
      rw [frame_id hb] at h4
      refine dispatch_ne hr (Option.some.inj h3).symm (Option.some.inj h2) ?_ ?_ heq
      · exact decide_eq_true h4.symm
      · unfold Tx.reportsOwn
        rcases hbad with hl | hsent
        · simp [(payload_nil_iff hlen).mpr hl]
        · rw [latestFuncId_none hsent]
          cases f.payload <;> simp
  · intro hno
    apply dispatch_congr
    intro front hfront hf ht
    exact reports_agree h hlen hb hno hfront hf ht

end Long

/-! ## Shorter frames -/

/-- A frame of length 2 has a type and a checksum. The code takes the checksum for a function. -/
theorem short_frame_iff (s : ZWaveProtocol σ) :
    s.tx.receiveFrame env s.rx.rxBuffer.bytes 2 = s.tx.dispatchOwn env (s.rx.content 2) ↔
      ¬ Misled (false, s) 2 := by
  obtain ⟨type, h2⟩ := s.rx.rxBuffer.getElem?_some (i := 2) (by omega)
  obtain ⟨function, h3⟩ := s.rx.rxBuffer.getElem?_some (i := 3) (by omega)
  obtain ⟨id, h4⟩ := s.rx.rxBuffer.getElem?_some (i := 4) (by omega)
  obtain ⟨tx, htx⟩ := receiveFrame_some env s.tx (b := s.rx.rxBuffer.bytes) 2
    (by rw [s.rx.rxBuffer.size_eq]; omega)
  have hcontent : s.rx.content 2 = [type] := by
    obtain ⟨hlt, hget⟩ := List.getElem?_eq_some_iff.mp h2
    unfold Rx.content
    rw [List.drop_eq_getElem_cons hlt, hget]
    rfl
  have hmisled : Misled (false, s) 2 ↔ (type = RESPONSE ∨ type = REQUEST) ∧
      ∃ front ∈ s.tx.requests.head?, front.request.function = function := by
    simp only [Misled, h2, h3, h4, true_and, Option.some.injEq]
    constructor
    · rintro ⟨front, hfront, hf, hcase⟩
      exact ⟨by tauto, front, hfront, hf.symm⟩
    · rintro ⟨ht, front, hfront, hf⟩
      exact ⟨front, hfront, hf.symm, by tauto⟩
  have hno : (∀ front rest, s.tx.requests = front :: rest → front.request.function ≠ function) →
      ¬ ∃ front ∈ s.tx.requests.head?, front.request.function = function := by
    rintro hno ⟨front, hfront, hf⟩
    obtain ⟨rest, hr⟩ := List.head?_eq_some_iff.mp hfront
    exact hno front rest hr hf
  rw [htx, hcontent, hmisled]
  simp only [Tx.dispatchOwn]
  cases receiveFrame_cases h2 h3 h4 htx with
  | @ended front rest s₁ _ hr hf he hcall =>
    have hfront : ∃ front ∈ s.tx.requests.head?, front.request.function = function :=
      ⟨front, by rw [hr]; rfl, hf⟩
    have htrace : s.tx.sendAck.log ++ [.complete front.ticket] <+: tx.log := by
      apply (endProcedure_log he).trans
      rcases hcall with ⟨-, -, hcall⟩ | ⟨-, -, hcall⟩
      · exact (onResponse_moves hcall).log_grows
      · exact (onSendRequest_moves hcall).log_grows
    rcases hcall with ⟨rfl, -, -⟩ | ⟨rfl, -, -⟩
    · simp only [REQUEST_ne_RESPONSE.symm, if_false, Option.some.injEq, true_or, hfront, and_self,
        not_true_eq_false, iff_false]
      exact ne_sendAck htrace
    · simp only [if_true, or_true, hfront, and_self, not_true_eq_false, iff_false]
      intro heq
      cases next_effect htrace (callback_log heq.symm)
  | @response front rest _ hr hf ht hs hcall =>
    have hfront : ∃ front ∈ s.tx.requests.head?, front.request.function = function :=
      ⟨front, by rw [hr]; rfl, hf⟩
    subst ht
    simp only [REQUEST_ne_RESPONSE.symm, if_false, Option.some.injEq, true_or, hfront, and_self,
      not_true_eq_false, iff_false]
    exact ne_sendAck (callback_log hcall)
  | @ignored front rest hr hf ht hid =>
    have hfront : ∃ front ∈ s.tx.requests.head?, front.request.function = function :=
      ⟨front, by rw [hr]; rfl, hf⟩
    by_cases hreq : type = REQUEST
    · simp only [hreq, if_true, or_true, hfront, and_self, not_true_eq_false, iff_false]
      intro heq
      exact ne_sendAck (callback_log heq.symm) rfl
    · simp only [hreq, ht, if_false, or_self, false_and, not_false_eq_true]
  | request hfront ht hcall =>
    simp only [ht, if_true, hno hfront, and_false, not_false_eq_true, iff_true]
    exact hcall.symm
  | nothing hfront ht =>
    simp only [ht, if_false, hno hfront, and_false, not_false_eq_true]

/-- A frame of length 1 is only a checksum, and that is no type. -/
theorem empty_frame (env : Env σ) (s : ZWaveProtocol σ) (h1 : s.rx.rxBuffer.bytes[1]? = some 1)
    (hc : s.rx.Checked 1) :
    s.tx.receiveFrame env s.rx.rxBuffer.bytes 1 = s.tx.dispatchOwn env (s.rx.content 1) ∧
      ¬ Misled (false, s) 1 := by
  have hsum : calcChecksum (s.rx.rxBuffer.bytes.drop 1) 1 = 0xfe := by
    obtain ⟨hlt, hget⟩ := List.getElem?_eq_some_iff.mp h1
    unfold calcChecksum
    rw [List.drop_eq_getElem_cons hlt, hget]
    rfl
  have h2 : s.rx.rxBuffer.bytes[2]? = some 0xfe := by
    rw [← hsum]
    exact hc
  obtain ⟨function, h3⟩ := s.rx.rxBuffer.getElem?_some (i := 3) (by omega)
  obtain ⟨id, h4⟩ := s.rx.rxBuffer.getElem?_some (i := 4) (by omega)
  obtain ⟨tx, htx⟩ := receiveFrame_some env s.tx (b := s.rx.rxBuffer.bytes) 1
    (by rw [s.rx.rxBuffer.size_eq]; omega)
  have hreq : (0xfe : UInt8) ≠ REQUEST := by decide
  have hresp : (0xfe : UInt8) ≠ RESPONSE := by decide
  constructor
  · have hcontent : s.rx.content 1 = [] := rfl
    rw [htx, hcontent]
    cases receiveFrame_cases h2 h3 h4 htx with
    | ended hr hf he hcall =>
      rcases hcall with ⟨ht, -⟩ | ⟨ht, -⟩
      · exact absurd ht hresp
      · exact absurd ht hreq
    | response hr hf ht => exact absurd ht hresp
    | ignored => rfl
    | request hno ht => exact absurd ht hreq
    | nothing => rfl
  · rintro ⟨-, front, -, -, ⟨hl, -⟩ | ⟨hl, -⟩ | ⟨ht, -⟩⟩
    · exact absurd hl (by decide)
    · exact absurd hl (by decide)
    · rw [h2, Option.some.injEq] at ht
      exact hreq ht

/-! ## Every frame -/

theorem handler_iff {s : ZWaveProtocol σ} {l : UInt8} (h : Assigned s.tx) (hl : s.rx.Complete l)
    (hc : s.rx.Checked l) :
    s.tx.receiveFrame env s.rx.rxBuffer.bytes l.toNat = s.tx.dispatchOwn env (s.rx.content l) ↔
      ¬ Misled (false, s) l := by
  have hnat : ∀ n < 256, l.toNat = n → l = UInt8.ofNat n := by
    rintro n - rfl
    exact UInt8.ofNat_toNat.symm
  by_cases h3 : 3 ≤ l.toNat
  · obtain ⟨f, hlen, hb⟩ := frame_of_complete hl hc h3
    exact long_frame_iff h hlen hb
  · obtain h0 | h1 | h2 : l.toNat = 0 ∨ l.toNat = 1 ∨ l.toNat = 2 := by omega
    · -- the checksum of nothing is not the length byte 0
      obtain rfl := hnat 0 (by omega) h0
      have hsum : s.rx.rxBuffer.bytes[1]? = some 0xff := hc
      rw [hl.2.1] at hsum
      exact absurd hsum (by decide)
    · obtain rfl := hnat 1 (by omega) h1
      have hempty := empty_frame env s hl.2.1 hc
      exact iff_of_true hempty.1 hempty.2
    · obtain rfl := hnat 2 (by omega) h2
      exact short_frame_iff s

/-- Wherever the read handler of a run comes to a frame with the right checksum, it does what the
frame says by its own content exactly if the frame does not mislead it. -/
theorem own_content_decides_iff (env : Env σ) (a : σ) (txBuffer rxBuffer : Buffer)
    (es : List Event) (s : ZWaveProtocol σ)
    (hrun : run (step env) (init a txBuffer rxBuffer) es = some s) (bytes : List UInt8)
    (p : Bool × ZWaveProtocol σ) (hp : p ∈ readTurns env s bytes) (l : UInt8)
    (hl : p.2.rx.Complete l) (hc : p.2.rx.Checked l) :
    OwnContent env p l ↔ ¬ Misled p l := by
  have h : Assigned p.2.tx :=
    turn_of_moves assigned_move assigned_port (assigned_init a txBuffer) hrun hp
  obtain ⟨frame, s₁⟩ := p
  obtain ⟨rx, hrx⟩ := Rx.remove_some hl.2.2.2
  obtain ⟨tx, hturn, htx⟩ := turn_complete env frame hl hc hrx
  have hown : OwnContent env (frame, s₁) l ↔
      if frame then tx = s₁.tx else s₁.tx.dispatchOwn env (s₁.rx.content l) = some tx := by
    constructor
    · rintro ⟨tx', rx', hturn', h'⟩
      rw [hturn] at hturn'
      cases hturn'
      exact h'
    · intro h'
      exact ⟨tx, rx, hturn, h'⟩
  rw [hown]
  cases frame with
  | true =>
    simp only [if_true] at htx ⊢
    exact iff_of_true htx fun hmis => Bool.noConfusion hmis.1
  | false =>
    simp only [Bool.false_eq_true, if_false] at htx ⊢
    rw [← handler_iff h hl hc, htx, eq_comm]

/-- The response to a command that was sent. -/
theorem own_content_decides_response :
    ∃ s p, run (step quietEnv) fresh [.tx (.sendRequest switchOn), .read [ACK]] = some s ∧
      p ∈ readTurns quietEnv s [SOF, 4, RESPONSE, ZW_SEND_DATA, 1, 0xe8] ∧
        OwnContent quietEnv p 4 := by
  have hrun : (run (step quietEnv) fresh [.tx (.sendRequest switchOn), .read [ACK]]).any
      (fun s => (readTurns quietEnv s [SOF, 4, RESPONSE, ZW_SEND_DATA, 1, 0xe8]).any fun p =>
        decide (p.2.rx.Complete 4 ∧ p.2.rx.Checked 4 ∧ ¬ Misled p 4)) = true := by
    decide +kernel
  obtain ⟨s, hs, hturns⟩ := (Option.any_eq_true _ _).mp hrun
  obtain ⟨p, hp, hframe⟩ := List.any_eq_true.mp hturns
  obtain ⟨hl, hc, hno⟩ := of_decide_eq_true hframe
  refine ⟨s, p, hs, hp, ?_⟩
  exact (own_content_decides_iff quietEnv () .zeros .zeros _ s hs _ p hp 4 hl hc).mpr hno

/-- How many requests are left after a turn that goes on. -/
def Turn.requestsLeft : Turn (Bool × ZWaveProtocol σ) → Option Nat
  | .again (_, s) => some s.tx.requests.length
  | .leave => none

/-- 238 refusals in two reads, each followed by an ACK that resets the retry count: the request
has the funcId 0xef. -/
def refusals : List UInt8 := (List.replicate 119 [NACK, ACK]).flatten

/-- A frame without a payload completes the request, because its checksum is the funcId. -/
theorem checksum_completes_request :
    ∃ s p, run (step quietEnv) fresh
        [.tx (.sendRequest switchOn), .read refusals, .read refusals] = some s ∧
      p ∈ readTurns quietEnv s [SOF, 3, REQUEST, ZW_SEND_DATA, 0xef] ∧
        p.2.rx.Complete 3 ∧ p.2.rx.Checked 3 ∧ ¬ OwnContent quietEnv p 3 := by
  have hrun : (run (step quietEnv) fresh
      [.tx (.sendRequest switchOn), .read refusals, .read refusals]).any
      (fun s => (readTurns quietEnv s [SOF, 3, REQUEST, ZW_SEND_DATA, 0xef]).any fun p =>
        decide (p.1 = false ∧ p.2.rx.Complete 3 ∧ p.2.rx.Checked 3 ∧
          (turn quietEnv p).bind Turn.requestsLeft = some 0 ∧
          (p.2.tx.dispatchOwn quietEnv (p.2.rx.content 3)).map (·.requests.length) = some 1)) =
        true := by
    decide +kernel
  obtain ⟨s, hs, hturns⟩ := (Option.any_eq_true _ _).mp hrun
  obtain ⟨p, hp, hframe⟩ := List.any_eq_true.mp hturns
  obtain ⟨hfirst, hl, hc, hcode, hown⟩ := of_decide_eq_true hframe
  refine ⟨s, p, hs, hp, hl, hc, ?_⟩
  rintro ⟨tx, rx, hturn, htx⟩
  rw [hturn] at hcode
  rw [hfirst, if_neg Bool.false_ne_true] at htx
  rw [htx] at hown
  have hzero : tx.requests.length = 0 := Option.some.inj hcode
  have hone : tx.requests.length = 1 := Option.some.inj hown
  omega

end huasi.zwave
