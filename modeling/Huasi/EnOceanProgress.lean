-- Progress of the EnOcean queue: the front was sent, and a timeout waits for its
-- response. Two paths lose the timeout: a packet that answers nothing cancels it, and a
-- request that is given up leaves the next one waiting. Runs without these keep the law,
-- and no others.
import Huasi.EnOceanSteps

open huasi.receive_buffer huasi.runs
open huasi.zwave (Timer)

namespace huasi.enocean

variable {σ : Type}

/-! ## The law and its exceptions -/

/-- The requests that were transmitted, once for each transmission. -/
def transmitted (l : List Effect) : List Nat :=
  l.filterMap fun | .transmit t _ => some t | _ => none

/-- The request at the front was transmitted at least once, and a wait on `txTimer` is pending. -/
def InProgress (s : Tx σ) : Prop :=
  ∀ front ∈ s.requests.head?, front.ticket ∈ transmitted s.log ∧ s.txTimer.waits ≠ []

/-- A failure now gives up the front, with other requests behind it. -/
def GivesUpBacklog (s : Tx σ) : Prop := 2 ≤ s.txRetryCount ∧ 2 ≤ s.requests.length

/-- The buffer starts with a whole packet with the right checksums. -/
def WholePacket (s : EnOceanProtocol σ) : Prop :=
  6 < s.rx.position ∧ HeaderOk s.rx.unread ∧ packetSize s.rx.unread ≤ s.rx.position ∧
    DataOk s.rx.unread

/-- A request waits for its response, and the packet is none. -/
def Unrelated (s : EnOceanProtocol σ) : Prop :=
  packetType s.rx.unread ≠ RESPONSE ∧ s.tx.requests ≠ []

instance (s : Tx σ) : Decidable (InProgress s) :=
  inferInstanceAs (Decidable (∀ front ∈ s.requests.head?, _ ∧ _))

instance (s : Tx σ) : Decidable (GivesUpBacklog s) := inferInstanceAs (Decidable (_ ∧ _))

instance (s : EnOceanProtocol σ) : Decidable (WholePacket s) := inferInstanceAs (Decidable (_ ∧ _))

instance (s : EnOceanProtocol σ) : Decidable (Unrelated s) :=
  decidable_of_iff (packetType s.rx.unread ≠ RESPONSE ∧ s.tx.requests.isEmpty = false) (by
    simp [Unrelated])

/-- The last of the whole packets among the heads of the loop. -/
def lastPacket (heads : List (EnOceanProtocol σ)) : Option (EnOceanProtocol σ) :=
  (heads.filter fun p => WholePacket p).getLast?

/-- No expiry gives up a request in front of others, and the last packet of a read does not come
unrelated while a request waits. -/
def KeepsTimeout (env : Env σ) (s : EnOceanProtocol σ) : Event → Prop
  | .tx (.timer i) => i < s.tx.txTimer.expired.length → ¬ GivesUpBacklog s.tx
  | .read bytes => ∀ p ∈ lastPacket (readTurns env s bytes), ¬ Unrelated p
  | _ => True

instance (env : Env σ) (s : EnOceanProtocol σ) : ∀ e, Decidable (KeepsTimeout env s e)
  | .tx (.timer i) =>
    inferInstanceAs (Decidable (i < s.tx.txTimer.expired.length → ¬ GivesUpBacklog s.tx))
  | .read bytes =>
    inferInstanceAs (Decidable (∀ p ∈ lastPacket (readTurns env s bytes), ¬ Unrelated p))
  | .tx (.sendRequest _) | .tx .expire | .tx (.transfer _) | .tx (.written _)
  | .tx (.writeError _) | .readError _ => inferInstanceAs (Decidable True)

/-- There is at most one wait, and it has a request. -/
structure OneWait (s : Tx σ) : Prop where
  one : s.txTimer.waits.length ≤ 1
  busy : s.requests = [] → s.txTimer.waits = []

/-! ## What each function keeps -/

theorem InProgress.of_front {s s' : Tx σ} (h : InProgress s)
    (hfront : s'.requests.head? = s.requests.head?) (hlog : s.log <+: s'.log)
    (htimer : s'.txTimer.waits = s.txTimer.waits) : InProgress s' := by
  intro front hf
  rw [hfront] at hf
  obtain ⟨hsent, hwaits⟩ := h front hf
  obtain ⟨l, hl⟩ := hlog
  rw [htimer]
  refine ⟨?_, hwaits⟩
  unfold transmitted
  rw [← hl, List.filterMap_append]
  exact List.mem_append_left _ hsent

theorem inProgress_nil {s : Tx σ} (h : s.requests = []) : InProgress s := by
  intro front hf
  rw [h] at hf
  cases hf

/-- Without a wait, nothing is in progress. -/
theorem not_inProgress {s : Tx σ} (hr : s.requests ≠ []) (hw : s.txTimer.waits = []) :
    ¬ InProgress s := by
  intro h
  obtain ⟨front, rest, hcons⟩ := List.exists_cons_of_ne_nil hr
  obtain ⟨-, hne⟩ := h front (by simp [hcons])
  exact hne hw

theorem OneWait.of_eq {s s' : Tx σ} (h : OneWait s) (hr : s'.requests = s.requests)
    (ht : s'.txTimer = s.txTimer) : OneWait s' :=
  ⟨by rw [ht]; exact h.one, by rw [hr, ht]; exact h.busy⟩

theorem OneWait.push {s : Tx σ} (h : OneWait s) (r : Request) : OneWait (s.push r) :=
  ⟨h.one, fun hr => by simp at hr⟩

theorem oneWait_of_nil {s : Tx σ} (h : s.txTimer.waits = []) : OneWait s :=
  ⟨by rw [h]; exact Nat.zero_le 1, fun _ => h⟩

/-- A callback while a request waits only appends requests. -/
theorem answer_waiting {env : Env σ} {s s' : Tx σ} {out : σ × List Request}
    (h : s.answer env out = some s') (hr : s.requests ≠ []) :
    s'.requests ≠ [] ∧ s'.requests.head? = s.requests.head? ∧ s.log <+: s'.log ∧
      s'.txTimer = s.txTimer := by
  apply answer_keeps (P := fun t => t.requests ≠ [] ∧ t.requests.head? = s.requests.head? ∧
    s.log <+: t.log ∧ t.txTimer = s.txTimer) h
  · exact ⟨hr, rfl, List.prefix_refl _, rfl⟩
  · intro t r ht hnil
    exact absurd hnil ht.1
  · rintro t r ⟨hne, hhead, hlog, htimer⟩ -
    refine ⟨by simp, ?_, hlog.trans (List.prefix_append _ _), htimer⟩
    rw [push_requests, List.head?_append_of_ne_nil _ hne, hhead]

/-- The handler of an expiry takes the one wait that there is. -/
theorem one_wait {s : Tx σ} {i w : Nat} (hone : OneWait s) (hi : s.txTimer.expired[i]? = some w) :
    s.txTimer.waits ≠ [] ∧
      ({ s.txTimer with expired := s.txTimer.expired.eraseIdx i } : Timer).waits = [] := by
  have hle := hone.one
  obtain ⟨hlt, -⟩ := List.getElem?_eq_some_iff.mp hi
  unfold Timer.waits at hle ⊢
  rw [List.length_append] at hle
  constructor
  · intro hnil
    have hlen := congrArg List.length hnil
    rw [List.length_append, List.length_nil] at hlen
    omega
  · rw [← List.length_eq_zero_iff, List.length_append, List.length_eraseIdx, if_pos hlt]
    dsimp only
    omega

section Effective

-- In this section `cancel` is effective: it also reaches an expiry that is queued.
variable {env : Env σ} (hcancel : env.cancelsQueued = true)

include hcancel

theorem cancel_waits (s : Tx σ) : (s.cancel env).txTimer.waits = [] := by
  simp [Tx.cancel, Timer.cancel, Timer.waits, hcancel]

theorem transmit_waits (s : Tx σ) (front : Entry) :
    (s.transmit env front).txTimer.waits = [front.ticket] := by
  simp [Tx.transmit, Tx.emit, Timer.cancel, Timer.asyncWait, Timer.waits, hcancel]

/-- A transmission of the front has its own wait. -/
theorem transmit_inProgress {s : Tx σ} {front : Entry} (hr : s.requests.head? = some front) :
    OneWait (s.transmit env front) ∧ InProgress (s.transmit env front) := by
  have hwaits := transmit_waits hcancel s front
  refine ⟨⟨by simp [hwaits], ?_⟩, ?_⟩
  · intro hnil
    rw [transmit_requests] at hnil
    simp [hnil] at hr
  · intro e he
    rw [transmit_requests, hr, Option.mem_some] at he
    subst he
    rw [hwaits]
    refine ⟨?_, List.cons_ne_nil _ _⟩
    unfold transmitted
    rw [transmit_log, List.filterMap_append]
    exact List.mem_append_right _ List.mem_cons_self

/-- A callback keeps the law. -/
theorem answer_inProgress {s s' : Tx σ} {out : σ × List Request}
    (h : s.answer env out = some s') (hs : OneWait s ∧ InProgress s) :
    OneWait s' ∧ InProgress s' := by
  apply answer_keeps (P := fun t => OneWait t ∧ InProgress t) h
  · exact ⟨hs.1.of_eq rfl rfl, hs.2.of_front rfl (List.prefix_refl _) rfl⟩
  · intro t r _ hr
    exact transmit_inProgress hcancel (by simp [hr])
  · intro t r ht hr
    refine ⟨ht.1.push r, ht.2.of_front ?_ (List.prefix_append _ _) rfl⟩
    rw [push_requests]
    exact List.head?_append_of_ne_nil _ hr

theorem answer_oneWait {s s' : Tx σ} {out : σ × List Request} (h : s.answer env out = some s')
    (hs : OneWait s) : OneWait s' := by
  apply answer_keeps (P := OneWait) h (hs.of_eq rfl rfl)
  · intro t r _ hr
    exact (transmit_inProgress hcancel (by simp [hr])).1
  · intro t r ht _
    exact ht.push r

/-- Whatever went before, a packet ends with the law, except for an unrelated one. -/
theorem receivePacket_inProgress {s s' : Tx σ} {packetType : UInt8} {data optionalData : List UInt8}
    (h : s.receivePacket env packetType data optionalData = some s') :
    OneWait s' ∧ (InProgress s' ↔ ¬ (packetType ≠ RESPONSE ∧ s.requests ≠ [])) := by
  have hwaits := cancel_waits hcancel s
  cases packetCase_of_receive h with
  | @last front s₁ htype hcall hqueue hr =>
    obtain ⟨-, -, -, htimer⟩ := answer_waiting hcall hqueue
    have hnone : (s₁.pop [] (.complete front.ticket)).txTimer.waits = [] :=
      (congrArg Timer.waits htimer).trans hwaits
    refine ⟨oneWait_of_nil hnone, ?_⟩
    exact iff_of_true (inProgress_nil rfl) fun hc => hc.1 htype
  | next htype hcall hqueue hr =>
    obtain ⟨hone, hlaw⟩ := transmit_inProgress hcancel (s := Tx.pop _ (_ :: _) _) rfl
    exact ⟨hone, iff_of_true hlaw fun hc => hc.1 htype⟩
  | request hother hcall =>
    by_cases hqueue : s.requests = []
    · have hstart : OneWait (s.cancel env) ∧ InProgress (s.cancel env) :=
        ⟨oneWait_of_nil hwaits, inProgress_nil hqueue⟩
      obtain ⟨hone, hlaw⟩ := answer_inProgress hcancel hcall
        ⟨hstart.1.of_eq rfl rfl, hstart.2.of_front rfl (List.prefix_append _ _) rfl⟩
      exact ⟨hone, iff_of_true hlaw fun hc => hc.2 hqueue⟩
    · obtain ⟨hne, -, -, htimer⟩ := answer_waiting hcall hqueue
      have hnone : s'.txTimer.waits = [] := (congrArg Timer.waits htimer).trans hwaits
      refine ⟨oneWait_of_nil hnone, iff_of_false (not_inProgress hne hnone) ?_⟩
      exact not_not.mpr ⟨hother.resolve_right hqueue, hqueue⟩

/-- A failure keeps the law exactly if it does not give up a request in front of others. -/
theorem resendRequest_inProgress {s : Tx σ} (error : Nat) (hr : s.requests ≠ [])
    (hw : s.txTimer.waits = []) :
    ∃ s', s.resendRequest env error = some s' ∧ OneWait s' ∧
      (InProgress s' ↔ ¬ GivesUpBacklog s) := by
  obtain ⟨front, rest, hcons⟩ := List.exists_cons_of_ne_nil hr
  rcases resendRequest_cases env error hcons with ⟨hcount, heq⟩ | ⟨hcount, heq⟩
  · rw [heq]
    have hfront : ({ s with txRetryCount := s.txRetryCount + 1 } : Tx σ).requests.head? =
        some front := by simp [hcons]
    obtain ⟨hone, hlaw⟩ := transmit_inProgress hcancel hfront
    refine ⟨_, rfl, hone, iff_of_true hlaw ?_⟩
    rintro ⟨htwo, -⟩
    omega
  · rw [heq]
    obtain ⟨s', hs'⟩ : ∃ s', (({ s with txRetryCount := 0 } : Tx σ).pop rest
        (.drop front.ticket)).onError env (.enOceanCategory error) = some s' := answer_some env _ _
    refine ⟨s', hs', ?_⟩
    cases rest with
    | nil =>
      obtain ⟨hone, hlaw⟩ := answer_inProgress hcancel hs' ⟨oneWait_of_nil hw, inProgress_nil rfl⟩
      refine ⟨hone, iff_of_true hlaw ?_⟩
      rintro ⟨-, hlen⟩
      rw [hcons, List.length_singleton] at hlen
      omega
    | cons next others =>
      obtain ⟨hne, -, -, htimer⟩ := answer_waiting hs' (List.cons_ne_nil next others)
      have hnone : s'.txTimer.waits = [] := (congrArg Timer.waits htimer).trans hw
      refine ⟨oneWait_of_nil hnone, iff_of_false (not_inProgress hne hnone) ?_⟩
      refine not_not.mpr ⟨hcount, ?_⟩
      rw [hcons, List.length_cons, List.length_cons]
      omega

/-- An event of the sending half. -/
theorem tx_inProgress {s : Tx σ} (h : OneWait s) (e : TxEvent) :
    ∃ s', s.step env e = some s' ∧ OneWait s' ∧ (InProgress s → (InProgress s' ↔
      ∀ i, e = .timer i → i < s.txTimer.expired.length → ¬ GivesUpBacklog s)) := by
  cases e with
  | sendRequest r =>
    refine ⟨_, sendRequestPtr_eq s r, ?_⟩
    by_cases hr : s.requests = []
    · rw [if_pos hr]
      have hfront : (s.push r).requests.head? = some ⟨s.tickets, r⟩ := by simp [hr]
      obtain ⟨hone, hlaw⟩ := transmit_inProgress hcancel hfront
      exact ⟨hone, fun _ => iff_of_true hlaw fun _ hi => by cases hi⟩
    · rw [if_neg hr]
      refine ⟨h.push r, fun hlaw => iff_of_true ?_ fun _ hi => by cases hi⟩
      refine hlaw.of_front ?_ (List.prefix_append _ _) rfl
      rw [push_requests]
      exact List.head?_append_of_ne_nil _ hr
  | expire =>
    have hperm : s.txTimer.expire.waits.length = s.txTimer.waits.length := by
      simp [Timer.expire, Timer.waits, Nat.add_comm]
    have hnil : s.txTimer.expire.waits = [] ↔ s.txTimer.waits = [] := by
      rw [← List.length_eq_zero_iff, hperm, List.length_eq_zero_iff]
    refine ⟨_, rfl, ⟨hperm ▸ h.one, fun hr => hnil.mpr (h.busy hr)⟩, fun hlaw => ?_⟩
    refine iff_of_true (fun front hf => ?_) fun _ hi => by cases hi
    obtain ⟨hsent, hwaits⟩ := hlaw front hf
    exact ⟨hsent, fun hw => hwaits (hnil.mp hw)⟩
  | timer i =>
    cases hi : s.txTimer.expired[i]? with
    | none =>
      have hlen := List.getElem?_eq_none_iff.mp hi
      refine ⟨s, by simp [Tx.step, hi], h, fun hlaw => iff_of_true hlaw ?_⟩
      rintro j hj hlt
      cases hj
      omega
    | some w =>
      obtain ⟨hlt, -⟩ := List.getElem?_eq_some_iff.mp hi
      obtain ⟨hne, hnone⟩ := one_wait h hi
      have hbusy : s.requests ≠ [] := fun hr => hne (h.busy hr)
      obtain ⟨s', hs', hone', hiff⟩ := resendRequest_inProgress hcancel
        (s := { s with txTimer := { s.txTimer with expired := s.txTimer.expired.eraseIdx i } })
        2 hbusy hnone
      refine ⟨s', by simp only [Tx.step, hi]; exact hs', hone', fun _ => hiff.trans ?_⟩
      constructor
      · rintro hno j - -
        exact hno
      · intro hall
        exact hall i rfl hlt
  | transfer k =>
    refine ⟨_, rfl, h.of_eq rfl rfl, fun hlaw => iff_of_true ?_ fun _ hi => by cases hi⟩
    exact hlaw.of_front rfl (List.prefix_refl _) rfl
  | written i =>
    refine ⟨_, rfl, h.of_eq rfl rfl, fun hlaw => iff_of_true ?_ fun _ hi => by cases hi⟩
    exact hlaw.of_front rfl (List.prefix_refl _) rfl
  | writeError value =>
    cases hq : s.tty.queue with
    | nil =>
      refine ⟨s, by simp [Tx.step, hq], h, fun hlaw => iff_of_true hlaw fun _ hi => by cases hi⟩
    | cons w rest =>
      obtain ⟨s', hs'⟩ : ∃ s', ({ s with tty := { s.tty with queue := rest } } : Tx σ).onError env
          (.system value) = some s' := answer_some env _ _
      refine ⟨s', by simp only [Tx.step, hq]; exact hs', ?_, ?_⟩
      · exact answer_oneWait hcancel hs' (h.of_eq rfl rfl)
      · intro hlaw
        refine iff_of_true ?_ fun _ hi => by cases hi
        exact (answer_inProgress hcancel hs' ⟨h.of_eq rfl rfl,
          hlaw.of_front rfl (List.prefix_append _ _) rfl⟩).2

/-! ## One read -/

omit hcancel in
theorem lastPacket_whole {s : EnOceanProtocol σ} (h : WholePacket s)
    (l : List (EnOceanProtocol σ)) :
    lastPacket (s :: l) = some ((lastPacket l).getD s) := by
  unfold lastPacket
  rw [List.filter_cons_of_pos (by simpa using h), List.getLast?_cons]

omit hcancel in
theorem lastPacket_other {s : EnOceanProtocol σ} (h : ¬ WholePacket s)
    (l : List (EnOceanProtocol σ)) : lastPacket (s :: l) = lastPacket l := by
  unfold lastPacket
  rw [List.filter_cons_of_neg (by simpa using h)]

omit hcancel in
theorem stay_inProgress {s : EnOceanProtocol σ} (hs : OneWait s.tx) (h : ¬ WholePacket s) :
    OneWait s.tx ∧ (∀ p ∈ lastPacket [s], InProgress s.tx ↔ ¬ Unrelated p) ∧
      (lastPacket [s] = none → (InProgress s.tx ↔ InProgress s.tx)) := by
  have hnone : lastPacket [s] = none := lastPacket_other h []
  refine ⟨hs, fun p hp => ?_, fun _ => Iff.rfl⟩
  rw [hnone] at hp
  cases hp

/-- Only whole packets change the sending half, and the last one decides. -/
theorem loop_inProgress {n : Nat} {s t : EnOceanProtocol σ} (hn : s.rx.position ≤ n)
    (hs : OneWait s.tx) (ht : loop unfinished (turn env) n s = some t) :
    OneWait t.tx ∧
      (∀ p ∈ lastPacket (heads unfinished (turn env) n s), InProgress t.tx ↔ ¬ Unrelated p) ∧
      (lastPacket (heads unfinished (turn env) n s) = none →
        (InProgress t.tx ↔ InProgress s.tx)) := by
  induction n generalizing s with
  | zero =>
    obtain rfl := Option.some.inj ht
    exact stay_inProgress hs fun hw => by
      have := hw.1
      omega
  | succ n ih =>
    cases hg : unfinished s with
    | false =>
      rw [loop_ends (Or.inl hg), Option.some.injEq] at ht
      subst ht
      rw [heads, hg]
      exact stay_inProgress hs fun hw => by simp [unfinished, hw.1] at hg
    | true =>
      obtain ⟨r, hr, hcase⟩ := turn_cases env s hg
      cases r with
      | leave =>
        rw [loop_ends (Or.inr hr), Option.some.injEq] at ht
        subst ht
        have hheads : heads unfinished (turn env) (n + 1) s = [s] := by
          simp only [heads, hg, hr, if_true]
        rw [hheads]
        refine stay_inProgress hs fun hw => ?_
        cases hcase with
        | incomplete _ hsize => exact absurd hw.2.2.1 (Nat.not_le.mpr hsize)
      | again u =>
        have hgo : Next env s u := ⟨hg, hr⟩
        have hdec := next_decreases hgo
        rw [loop_goes hgo] at ht
        have hheads : heads unfinished (turn env) (n + 1) s =
            s :: heads unfinished (turn env) n u := by
          simp only [heads, hg, hr, if_true]
        have hpos : 6 < s.rx.position := by simpa [unfinished] using hg
        rw [hheads]
        by_cases hw : WholePacket s
        · rw [lastPacket_whole hw]
          have hpacket : OneWait u.tx ∧ (InProgress u.tx ↔ ¬ Unrelated s) := by
            cases hcase with
            | packet _ _ _ htx => exact receivePacket_inProgress hcancel htx
            | corrupt _ _ hdata => exact absurd hw.2.2.2 hdata
            | noise hheader => exact absurd hw.2.1 hheader
          obtain ⟨hone, hlast, hnone⟩ := ih (by omega) hpacket.1 ht
          refine ⟨hone, fun p hp => ?_, fun h => by cases h⟩
          obtain rfl := Option.mem_some.mp hp
          cases hl : lastPacket (heads unfinished (turn env) n u) with
          | none => exact (hnone hl).trans hpacket.2
          | some q => exact hlast q hl
        · rw [lastPacket_other hw]
          have htx : u.tx = s.tx := by
            cases hcase with
            | packet hheader hsize hdata => exact absurd ⟨hpos, hheader, hsize, hdata⟩ hw
            | corrupt => rfl
            | noise => rfl
          obtain ⟨hone, hlast, hnone⟩ := ih (by omega) (htx ▸ hs) ht
          exact ⟨hone, hlast, fun h => htx ▸ hnone h⟩

theorem read_inProgress {s : EnOceanProtocol σ} (hs : OneWait s.tx) (bytes : List UInt8) :
    ∃ t, step env s (.read bytes) = some t ∧ OneWait t.tx ∧ (InProgress s.tx →
      (InProgress t.tx ↔ ∀ p ∈ lastPacket (readTurns env s bytes), ¬ Unrelated p)) := by
  by_cases hfit : Readable s bytes
  · obtain ⟨t, -, -, ht⟩ := read_fits env hfit
    obtain ⟨hone, hlast, hnone⟩ := loop_inProgress hcancel (s := s.received bytes hfit.2)
      (Nat.le_refl _) hs ((dif_pos hfit).symm.trans ht)
    refine ⟨t, ht, hone, fun hlaw => ?_⟩
    unfold readTurns
    rw [dif_pos hfit]
    cases hl : lastPacket _ with
    | none => exact iff_of_true ((hnone hl).mpr hlaw) fun p hp => by cases hp
    | some p =>
      rw [hlast p hl]
      simp
  · refine ⟨s, read_unfit hfit, hs, fun hlaw => iff_of_true hlaw fun p hp => ?_⟩
    rw [readTurns, dif_neg hfit] at hp
    cases hp

/-- No event fails, and an event keeps the law exactly if it keeps the timeout. -/
theorem step_inProgress {s : EnOceanProtocol σ} (hs : OneWait s.tx) (e : Event) :
    ∃ t, step env s e = some t ∧ OneWait t.tx ∧
      (InProgress s.tx → (InProgress t.tx ↔ KeepsTimeout env s e)) := by
  cases e with
  | tx e =>
    obtain ⟨tx, htx, hone, hiff⟩ := tx_inProgress hcancel hs e
    refine ⟨{ s with tx }, by simp only [step, htx, Option.map_some], hone, fun hlaw => ?_⟩
    rw [hiff hlaw]
    cases e with
    | timer i => simp [KeepsTimeout]
    | _ => simp [KeepsTimeout]
  | read bytes => exact read_inProgress hcancel hs bytes
  | readError value =>
    by_cases hrecv : s.receiving = true
    · obtain ⟨tx, htx⟩ : ∃ tx, s.tx.onError env (.system value) = some tx := answer_some env _ _
      refine ⟨{ s with tx, receiving := false }, by simp [step, hrecv, htx],
        answer_oneWait hcancel htx (hs.of_eq rfl rfl), fun hlaw => iff_of_true ?_ trivial⟩
      exact (answer_inProgress hcancel htx ⟨hs.of_eq rfl rfl,
        hlaw.of_front rfl (List.prefix_append _ _) rfl⟩).2
    · exact ⟨s, by simp [step, hrecv], hs, fun hlaw => iff_of_true hlaw trivial⟩

end Effective

/-! ## Runs -/

/-- With an effective `cancel` every run goes to its end, and the front of the queue is in progress
in all of its states exactly if each event keeps the timeout. -/
theorem front_in_progress_iff (app : Application σ) (a : σ)
    (txBuffer rxBuffer : Buffer UInt8 BUFFER_SIZE) (es : List Event) :
    (∃ t, run (step ⟨app, true⟩) (init a txBuffer rxBuffer) es = some t) ∧
      (Always (step ⟨app, true⟩) (fun s => InProgress s.tx) (init a txBuffer rxBuffer) es ↔
        Meets (step ⟨app, true⟩) (KeepsTimeout ⟨app, true⟩) (init a txBuffer rxBuffer) es) := by
  have hcancel : (⟨app, true⟩ : Env σ).cancelsQueued = true := rfl
  have hstart : OneWait (init a txBuffer rxBuffer).tx := oneWait_of_nil rfl
  refine ⟨?_, ?_⟩
  · generalize init a txBuffer rxBuffer = s at hstart
    induction es generalizing s with
    | nil => exact ⟨s, rfl⟩
    | cons e es ih =>
      obtain ⟨t, ht, hone, -⟩ := step_inProgress hcancel hstart e
      obtain ⟨u, hu⟩ := ih t hone
      exact ⟨u, by rw [run, ht]; exact hu⟩
  · apply always_iff_meets (P := fun s => OneWait s.tx ∧ InProgress s.tx)
    · intro s hs
      exact hs.2
    · rintro s e - ⟨hone, hlaw⟩
      obtain ⟨t, ht, -, hiff⟩ := step_inProgress hcancel hone e
      rw [← hiff hlaw, ht]
      simp
    · rintro s e - t ⟨hone, hlaw⟩ hc ht
      obtain ⟨t', ht', hone', hiff⟩ := step_inProgress hcancel hone e
      obtain rfl : t = t' := Option.some.inj (ht.symm.trans ht')
      exact ⟨hone', (hiff hlaw).mpr hc⟩
    · exact ⟨hstart, inProgress_nil rfl⟩

/-- A telegram of a switch, not related to the request, cancels the timeout of the request. -/
theorem telegram_cancels_timeout :
    ¬ Always (step ⟨quietApp, true⟩) (fun s => InProgress s.tx)
      (init () (.filled 0) (.filled 0))
      [.tx (.sendRequest ⟨5, [0x03], [], Nat.le_of_ble_eq_true rfl, Nat.zero_le _⟩),
        .read [0x55, 0x00, 0x07, 0x07, 0x01, 0x7a,
          0xf6, 0x30, 0x00, 0x25, 0x86, 0x71, 0x20,
          0x01, 0xff, 0xff, 0xff, 0xff, 0x44, 0x00, 0x21]] := by
  decide +kernel

end huasi.enocean
