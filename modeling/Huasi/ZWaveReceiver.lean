-- The receive buffer as a list of bytes, and when it has room: a read handler
-- leaves a full buffer exactly if the buffer starts with a frame that is one
-- byte too long for it.
import Huasi.ZWaveRequests
import Huasi.ZWaveSteps

open huasi.runs

namespace huasi.zwave

variable {σ : Type} {env : Env σ}

/-! ## The buffer as a list -/

@[simp] theorem Rx.unread_length (rx : Rx) : rx.unread.length = rx.rxPosition := by
  have := rx.position_le
  simp only [Rx.unread, List.length_take, rx.rxBuffer.size_eq]
  omega

theorem Rx.unread_get (rx : Rx) {i : Nat} (h : i < rx.rxPosition) :
    rx.unread[i]? = rx.rxBuffer.bytes[i]? := by
  unfold Rx.unread
  rw [List.getElem?_take, if_pos h]

/-- A read goes behind what is there. -/
theorem Rx.received_unread (rx : Rx) (bytes : List UInt8)
    (h : rx.rxPosition + bytes.length ≤ 256) :
    (rx.received bytes h).unread = rx.unread ++ bytes := by
  have hlen : (rx.rxBuffer.bytes.take rx.rxPosition ++ bytes).length =
      rx.rxPosition + bytes.length := by
    rw [List.length_append, List.length_take, rx.rxBuffer.size_eq]
    omega
  simp only [Rx.unread, Rx.received, Buffer.store]
  rw [← hlen, List.take_left]

/-- The copy shifts the rest to the front. -/
theorem Rx.remove_unread {rx rx' : Rx} {n : Nat} (h : rx.remove n = some rx') :
    rx'.unread = rx.unread.drop n := by
  unfold Rx.remove at h
  split at h
  · cases h
    have hlen : (rx.unread.drop n).length = rx.rxPosition - n := by
      rw [List.length_drop, Rx.unread_length]
    simp only [Rx.unread, Buffer.store, List.take_zero, List.nil_append]
    rw [← hlen]
    exact List.take_left
  · cases h

/-! ## Room for the next read -/

/-- The read fills the whole buffer with the first 256 bytes of a frame of 257. -/
def FillsBuffer (s : ZWaveProtocol σ) : Event → Prop
  | .read bytes => s.receiving = true ∧ (s.rx.unread ++ bytes).length = 256 ∧
    (s.rx.unread ++ bytes).take 2 = [SOF, 0xff]
  | _ => False

theorem take_two {l : List UInt8} {a b : UInt8} (h : 2 ≤ l.length) :
    l.take 2 = [a, b] ↔ l[0]? = some a ∧ l[1]? = some b := by
  match l, h with
  | x :: y :: l, _ => simp

/-- A turn leaves a full buffer alone exactly if its frame is too long. -/
theorem leaves_full_iff (env : Env σ) (frame : Bool) (s : ZWaveProtocol σ)
    (hfull : s.rx.rxPosition = 256) :
    Ends unfinished (turn env) (frame, s) ↔ s.rx.unread.take 2 = [SOF, 0xff] := by
  have hguard : unfinished (frame, s) = true := by simp [unfinished, hfull]
  have hlen : 2 ≤ s.rx.unread.length := by
    rw [Rx.unread_length]
    omega
  rw [take_two hlen, s.rx.unread_get (by omega), s.rx.unread_get (by omega)]
  obtain ⟨r, hr, hcase⟩ := turn_cases env frame s hguard
  constructor
  · rintro (hg | hb)
    · rw [hg] at hguard
      cases hguard
    · rw [hr, Option.some.injEq] at hb
      subst hb
      obtain ⟨h0, hshort | ⟨l, h1, hl⟩⟩ : s.rx.Incomplete := by
        cases hcase
        assumption
      · omega
      · have hl255 : l = 0xff := by
          have := l.toNat_lt
          apply UInt8.toNat.inj
          change l.toNat = 255
          omega
        exact ⟨h0, by rw [h1, hl255]⟩
  · rintro ⟨h0, h1⟩
    right
    rw [hr]
    have hnot : ∀ l, ¬ s.rx.Complete l := by
      rintro l ⟨-, h1', -, hl⟩
      rw [h1, Option.some.injEq] at h1'
      subst h1'
      have : (0xff : UInt8).toNat = 255 := rfl
      omega
    cases hcase with
    | incomplete => rfl
    | frame hl => exact absurd hl (hnot _)
    | checksum hl => exact absurd hl (hnot _)
    | ack hb => simp [h0, SOF, ACK] at hb
    | nack hb => simp [h0, SOF, NACK] at hb
    | can hb => simp [h0, SOF, CAN] at hb
    | unknown hb hne =>
      rw [h0, Option.some.injEq] at hb
      exact absurd hb.symm hne.1

/-- The loop only stays at its first state, or comes to one with less in the buffer. -/
theorem visited_position {p q : Bool × ZWaveProtocol σ} (h : Visited env p q) :
    q = p ∨ q.2.rx.rxPosition < p.2.rx.rxPosition := by
  apply h.keeps (P := fun q => q = p ∨ q.2.rx.rxPosition < p.2.rx.rxPosition) (Or.inl rfl)
  intro u v _ hgo hu
  have hdec := next_decreases hgo
  rcases hu with rfl | hlt
  · exact Or.inr hdec
  · exact Or.inr (by omega)

theorem step_room_iff (s : ZWaveProtocol σ) (e : Event) (hs : s.rx.rxPosition < 256) :
    ¬ FillsBuffer s e ↔ ∀ t, step env s e = some t → t.rx.rxPosition < 256 := by
  cases e with
  | tx e =>
    refine ⟨fun _ t ht => ?_, fun _ => id⟩
    obtain ⟨tx, -, rfl⟩ := Option.map_eq_some_iff.mp ht
    exact hs
  | readError value =>
    refine ⟨fun _ t ht => ?_, fun _ => id⟩
    rcases readError_cases ht with rfl | ⟨tx, -, rfl⟩
    · exact hs
    · exact hs
  | read bytes =>
    by_cases hfit : s.receiving = true ∧ s.rx.rxPosition + bytes.length ≤ 256
    · obtain ⟨⟨frame, t⟩, hv, hends, ht⟩ := read_fits env hfit
      have hunread : (s.received bytes hfit.2).rx.unread = s.rx.unread ++ bytes :=
        Rx.received_unread _ _ _
      have hlen : (s.rx.unread ++ bytes).length = s.rx.rxPosition + bytes.length := by
        rw [List.length_append, Rx.unread_length]
      have hpos : (s.received bytes hfit.2).rx.rxPosition = s.rx.rxPosition + bytes.length := rfl
      rw [ht]
      simp only [FillsBuffer, hfit.1, true_and, hlen, Option.some.injEq, forall_eq']
      rcases visited_position hv with heq | hless
      · cases heq
        by_cases hfull : s.rx.rxPosition + bytes.length = 256
        · have h2 := (leaves_full_iff env false (s.received bytes hfit.2) hfull).mp hends
          rw [hunread] at h2
          simp [hfull, h2, hpos]
        · simp only [hfull, false_and, not_false_eq_true, hpos, true_iff]
          omega
      · refine ⟨fun _ => ?_, ?_⟩
        · simp only [hpos] at hless
          exact lt_of_lt_of_le hless hfit.2
        · rintro - ⟨hfull, h2⟩
          -- a frame that is too long would have ended the loop at once
          rw [← hunread] at h2
          have hstay := (leaves_full_iff env false (s.received bytes hfit.2) hfull).mpr h2
          rcases hv.cases_head with heq | ⟨u, hgo, -⟩
          · cases heq
            exact absurd hless (Nat.lt_irrefl _)
          · rcases hstay with hg | hb
            · rw [hgo.1] at hg
              cases hg
            · rw [hgo.2] at hb
              cases hb
    · rw [read_unfit hfit]
      refine ⟨?_, ?_⟩
      · rintro - t ht
        cases ht
        exact hs
      · rintro - ⟨hrecv, hlen, -⟩
        rw [List.length_append, Rx.unread_length] at hlen
        exact hfit ⟨hrecv, by omega⟩

/-- Every read of a run finds room in the buffer exactly if no read fills it with a frame of 257
bytes. -/
theorem receiver_has_room_iff (env : Env σ) (a : σ) (txBuffer rxBuffer : Buffer)
    (es : List Event) :
    Always (step env) (fun s => s.rx.rxPosition < 256) (init a txBuffer rxBuffer) es ↔
      Meets (step env) (fun s e => ¬ FillsBuffer s e) (init a txBuffer rxBuffer) es :=
  always_iff_meets (fun _ => id) (fun s e _ => step_room_iff s e)
    (fun s e _ t hs hno ht => (step_room_iff s e hs).mp hno t ht) (by simp [init])

/-- One read of such a frame, or of noise that looks like it, and the buffer stays full. -/
theorem receiver_gets_stuck :
    ¬ Always (step quietEnv) (fun s => s.rx.rxPosition < 256) fresh
      [.read (SOF :: 0xff :: List.replicate 254 0)] := by
  decide +kernel

end huasi.zwave
