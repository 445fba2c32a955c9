-- Room in the receive buffer: a header with the right checksum can announce more
-- than the buffer holds, and the receiver then waits for bytes that it has no place
-- for. Where no read brings such a header, the buffer never stays full.
import Huasi.EnOceanSteps

open huasi.receive_buffer huasi.runs

namespace huasi.enocean

variable {σ : Type} {env : Env σ}

/-! ## Headers that announce too much -/

/-- The bytes start with a header with the right checksum, for a packet that does not fit the
buffer. -/
def TooLong (l : List UInt8) : Prop := HeaderOk l ∧ BUFFER_SIZE < packetSize l

instance (l : List UInt8) : Decidable (TooLong l) := inferInstanceAs (Decidable (_ ∧ _))

/-- The bytes start with whole packets with the right checksums, and `m` is what follows. -/
inductive PacketsThen : List UInt8 → List UInt8 → Prop where
  | done (l : List UInt8) : PacketsThen l l
  | packet {l m : List UInt8} (hheader : HeaderOk l) (hsize : packetSize l ≤ l.length)
      (hdata : DataOk l) (hrest : PacketsThen (l.drop (packetSize l)) m) : PacketsThen l m

theorem PacketsThen.trans {l m k : List UInt8} (h : PacketsThen l m) (hk : PacketsThen m k) :
    PacketsThen l k := by
  induction h with
  | done => exact hk
  | packet hheader hsize hdata _ ih => exact .packet hheader hsize hdata (ih hk)

theorem not_tooLong_nil : ¬ TooLong [] := by
  rintro ⟨⟨h0, -⟩, -⟩
  cases h0

/-! ## The loop -/

/-- The loop only stays at its first state, or comes to one with less in the buffer. -/
theorem visited_position {p q : EnOceanProtocol σ} (h : Visited env p q) :
    q = p ∨ q.rx.position < p.rx.position := by
  apply h.keeps (P := fun q => q = p ∨ q.rx.position < p.rx.position) (Or.inl rfl)
  intro u v _ hgo hu
  have hdec := next_decreases hgo
  rcases hu with rfl | hlt
  · exact Or.inr hdec
  · exact Or.inr (Nat.lt_trans hdec hlt)

/-- What the loop comes to follows on whole packets, unless the buffer was cleared. -/
theorem visited_unread {p q : EnOceanProtocol σ} (h : Visited env p q) :
    PacketsThen p.rx.unread q.rx.unread ∨ q.rx.unread = [] := by
  apply h.keeps (P := fun q => PacketsThen p.rx.unread q.rx.unread ∨ q.rx.unread = [])
    (Or.inl (.done _))
  intro u v _ hgo hu
  cases next_cases hgo with
  | packet hheader hsize hdata _ hrx =>
    obtain ⟨rx, hrx', hunread⟩ := u.rx.remove_unread hsize
    rw [hrx, Option.some.injEq] at hrx'
    subst hrx'
    rcases hu with hu | hu
    · left
      rw [← u.rx.unread_length] at hsize
      apply hu.trans
      rw [hunread]
      exact .packet hheader hsize hdata (.done _)
    · rw [hu] at hheader
      cases hheader.1
  | corrupt => exact Or.inr rfl
  | noise => exact Or.inr rfl

/-- The loop comes to everything that follows on whole packets. -/
theorem PacketsThen.visited (env : Env σ) {l m : List UInt8} (h : PacketsThen l m)
    {p : EnOceanProtocol σ} (hp : p.rx.unread = l) : ∃ q, Visited env p q ∧ q.rx.unread = m := by
  induction h generalizing p with
  | done => exact ⟨p, .refl, hp⟩
  | packet hheader hsize hdata _ ih =>
    subst hp
    rw [p.rx.unread_length] at hsize
    have hguard : unfinished p = true := by
      unfold unfinished packetSize at *
      rw [decide_eq_true_iff]
      omega
    obtain ⟨r, hr, hcase⟩ := turn_cases env p hguard
    cases hcase with
    | packet _ _ _ _ hrx =>
      obtain ⟨rx, hrx', hunread⟩ := p.rx.remove_unread hsize
      rw [hrx, Option.some.injEq] at hrx'
      subst hrx'
      obtain ⟨q, hq, hm⟩ := ih (p := { p with tx := _, rx := _ }) hunread
      exact ⟨q, .head ⟨hguard, hr⟩ hq, hm⟩
    | corrupt _ _ hbad => exact absurd hdata hbad
    | incomplete _ hshort => exact absurd hsize (Nat.not_le.mpr hshort)
    | noise hbad => exact absurd hheader hbad

/-- The loop ends before a header that announces too much. -/
theorem TooLong.ends {p : EnOceanProtocol σ} (h : TooLong p.rx.unread) :
    Ends unfinished (turn env) p := by
  have hsize : p.rx.position < packetSize p.rx.unread :=
    Nat.lt_of_le_of_lt p.rx.position_le h.2
  cases hg : unfinished p with
  | false => exact Or.inl hg
  | true =>
    obtain ⟨r, hr, hcase⟩ := turn_cases env p hg
    cases hcase with
    | packet _ hle => exact absurd hle (Nat.not_le.mpr hsize)
    | corrupt _ hle => exact absurd hle (Nat.not_le.mpr hsize)
    | incomplete => exact Or.inr hr
    | noise hbad => exact absurd h.1 hbad

/-- The loop leaves a full buffer alone only before such a header. -/
theorem tooLong_of_full {p : EnOceanProtocol σ} (hfull : p.rx.position = BUFFER_SIZE)
    (h : Ends unfinished (turn env) p) : TooLong p.rx.unread := by
  have hguard : unfinished p = true := by
    unfold unfinished
    rw [hfull]
    rfl
  obtain ⟨r, hr, hcase⟩ := turn_cases env p hguard
  rcases h with hg | hb
  · rw [hguard] at hg
    cases hg
  · rw [hr, Option.some.injEq] at hb
    subst hb
    cases hcase with
    | incomplete hheader hsize =>
      exact ⟨hheader, Nat.lt_of_le_of_lt (Nat.le_of_eq hfull.symm) hsize⟩

theorem ends_visits {p q : EnOceanProtocol σ} (hp : Ends unfinished (turn env) p)
    (h : Visited env p q) : q = p := by
  rcases h.cases_head with rfl | ⟨u, ⟨hg, hb⟩, -⟩
  · rfl
  · rcases hp with hg' | hb'
    · rw [hg] at hg'
      cases hg'
    · rw [hb] at hb'
      cases hb'

/-! ## One read -/

section Read

variable {s t : EnOceanProtocol σ} {bytes : List UInt8} (hfit : Readable s bytes)
  (hv : Visited env (s.received bytes hfit.2) t) (he : Ends unfinished (turn env) t)

include hfit hv he

/-- A read ends before a header that announces too much exactly if one follows on the whole packets
that are there. -/
theorem read_tooLong_iff :
    TooLong t.rx.unread ↔ ∃ m, PacketsThen (s.rx.unread ++ bytes) m ∧ TooLong m := by
  have hunread : (s.received bytes hfit.2).rx.unread = s.rx.unread ++ bytes :=
    Rx.received_unread _ _ _
  constructor
  · intro hlong
    refine ⟨t.rx.unread, ?_, hlong⟩
    rcases visited_unread hv with hthen | hnil
    · rw [← hunread]
      exact hthen
    · rw [hnil] at hlong
      exact absurd hlong not_tooLong_nil
  · rintro ⟨m, hthen, hlong⟩
    obtain ⟨q, hq, rfl⟩ := hthen.visited env hunread
    obtain rfl := ends_visits hlong.ends (hv.to_end he hq)
    exact hlong

/-- A read leaves the buffer full exactly if it fills it with the front of such a packet. -/
theorem read_full_iff :
    t.rx.position = BUFFER_SIZE ↔
      (s.rx.unread ++ bytes).length = BUFFER_SIZE ∧ TooLong (s.rx.unread ++ bytes) := by
  have hunread : (s.received bytes hfit.2).rx.unread = s.rx.unread ++ bytes :=
    Rx.received_unread _ _ _
  have hlen : (s.received bytes hfit.2).rx.position = (s.rx.unread ++ bytes).length := by
    rw [← hunread, Rx.unread_length]
  rw [← hunread] at *
  constructor
  · intro hfull
    rcases visited_position hv with rfl | hlt
    · exact ⟨hlen ▸ hfull, tooLong_of_full hfull he⟩
    · have := (s.received bytes hfit.2).rx.position_le
      omega
  · rintro ⟨hfull, hlong⟩
    obtain rfl := ends_visits hlong.ends hv
    exact hlen.trans hfull

end Read

/-! ## Runs -/

/-- The read fills the buffer with the front of a packet that does not fit it. -/
def FillsBuffer (s : EnOceanProtocol σ) : Event → Prop
  | .read bytes => Readable s bytes ∧ (s.rx.unread ++ bytes).length = BUFFER_SIZE ∧
    TooLong (s.rx.unread ++ bytes)
  | _ => False

/-- The read brings the header of a packet that does not fit the buffer, behind whole packets. -/
def BringsTooLong (s : EnOceanProtocol σ) : Event → Prop
  | .read bytes => Readable s bytes ∧ ∃ m, PacketsThen (s.rx.unread ++ bytes) m ∧ TooLong m
  | _ => False

theorem step_rx {s t : EnOceanProtocol σ} {e : Event} (he : ∀ bytes, e ≠ .read bytes)
    (h : step env s e = some t) : t.rx = s.rx := by
  cases e with
  | tx e =>
    obtain ⟨tx, -, rfl⟩ := Option.map_eq_some_iff.mp h
    rfl
  | read bytes => exact absurd rfl (he bytes)
  | readError value =>
    simp only [step] at h
    split at h
    · obtain ⟨tx, -, rfl⟩ := Option.map_eq_some_iff.mp h
      rfl
    · cases h
      rfl

theorem step_room_iff (s : EnOceanProtocol σ) (e : Event) (hs : s.rx.position < BUFFER_SIZE) :
    ¬ FillsBuffer s e ↔ ∀ t, step env s e = some t → t.rx.position < BUFFER_SIZE := by
  have hkeeps : (∀ bytes, e ≠ .read bytes) →
      ∀ t, step env s e = some t → t.rx.position < BUFFER_SIZE := by
    intro he t ht
    rw [step_rx he ht]
    exact hs
  cases e with
  | tx e => exact iff_of_true id (hkeeps fun _ he => by cases he)
  | readError value => exact iff_of_true id (hkeeps fun _ he => by cases he)
  | read bytes =>
    by_cases hfit : Readable s bytes
    · obtain ⟨t, hv, he, ht⟩ := read_fits env hfit
      have hle := t.rx.position_le
      rw [ht]
      simp only [FillsBuffer, hfit, true_and, ← read_full_iff hfit hv he, Option.some.injEq,
        forall_eq']
      omega
    · rw [read_unfit hfit]
      simp [FillsBuffer, hfit, hs]

theorem step_tooLong_iff (s : EnOceanProtocol σ) (e : Event)
    (hs : s.rx.position < BUFFER_SIZE ∧ ¬ TooLong s.rx.unread) :
    ¬ BringsTooLong s e ↔ ∀ t, step env s e = some t →
      t.rx.position < BUFFER_SIZE ∧ ¬ TooLong t.rx.unread := by
  have hkeeps : (∀ bytes, e ≠ .read bytes) → ∀ t, step env s e = some t →
      t.rx.position < BUFFER_SIZE ∧ ¬ TooLong t.rx.unread := by
    intro he t ht
    rw [step_rx he ht]
    exact hs
  cases e with
  | tx e => exact iff_of_true id (hkeeps fun _ he => by cases he)
  | readError value => exact iff_of_true id (hkeeps fun _ he => by cases he)
  | read bytes =>
    by_cases hfit : Readable s bytes
    · obtain ⟨t, hv, he, ht⟩ := read_fits env hfit
      have hroom : ¬ TooLong t.rx.unread → t.rx.position < BUFFER_SIZE := by
        intro hshort
        apply Nat.lt_of_le_of_ne t.rx.position_le
        intro hfull
        exact hshort (tooLong_of_full hfull he)
      rw [ht]
      simp only [BringsTooLong, hfit, true_and, ← read_tooLong_iff hfit hv he, Option.some.injEq,
        forall_eq']
      exact ⟨fun hshort => ⟨hroom hshort, hshort⟩, fun h => h.2⟩
    · rw [read_unfit hfit]
      simp [BringsTooLong, hfit, hs]

/-- Every read of a run finds room in the buffer exactly if no read fills it with the front of a
packet that does not fit, and the receiver never waits for such a packet exactly if no read brings
its header. -/
theorem receiver_room_iff (env : Env σ) (a : σ) (txBuffer rxBuffer : Buffer UInt8 BUFFER_SIZE)
    (es : List Event) :
    (Always (step env) (fun s => s.rx.position < BUFFER_SIZE) (init a txBuffer rxBuffer) es ↔
      Meets (step env) (fun s e => ¬ FillsBuffer s e) (init a txBuffer rxBuffer) es) ∧
    (Always (step env) (fun s => s.rx.position < BUFFER_SIZE ∧ ¬ TooLong s.rx.unread)
        (init a txBuffer rxBuffer) es ↔
      Meets (step env) (fun s e => ¬ BringsTooLong s e) (init a txBuffer rxBuffer) es) := by
  have hroom : (init a txBuffer rxBuffer).rx.position < BUFFER_SIZE := Nat.zero_lt_succ _
  have hshort : ¬ TooLong (init a txBuffer rxBuffer).rx.unread := not_tooLong_nil
  refine ⟨?_, ?_⟩
  · exact always_iff_meets (fun _ => id) (fun s e _ => step_room_iff s e)
      (fun s e _ t hs hno ht => (step_room_iff s e hs).mp hno t ht) hroom
  · exact always_iff_meets (fun _ => id) (fun s e _ => step_tooLong_iff s e)
      (fun s e _ t hs hno ht => (step_tooLong_iff s e hs).mp hno t ht) ⟨hroom, hshort⟩

/-- One header for 65535 bytes of data, with the right checksum, and anything behind it: the buffer
stays full. -/
theorem receiver_stays_full :
    ¬ Always (step ⟨⟨fun _ _ _ _ => ((), []), fun _ _ _ _ => ((), []), fun _ _ => ((), [])⟩, true⟩)
      (fun s => s.rx.position < BUFFER_SIZE ∧ ¬ TooLong s.rx.unread)
      (init () (.filled 0) (.filled 0))
      [.read ([0x55, 0xff, 0xff, 0x00, 0x01, calcChecksum [0xff, 0xff, 0x00, 0x01] 4] ++
        List.replicate 273 0)] := by
  decide +kernel

end huasi.enocean
