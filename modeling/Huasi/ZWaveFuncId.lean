-- The funcIds: how the wrapping counter, the request object and the frames
-- agree over a whole run, and why a late report of an earlier transmission
-- completes nothing.
import Huasi.Cyclic
import Huasi.ZWaveMessages
import Huasi.ZWaveQueue
import Huasi.ZWaveRequests
import Mathlib.Data.List.TakeWhile

open huasi.runs huasi.cyclic

namespace huasi.zwave

variable {σ : Type} {env : Env σ}

/-! ## The history of the assignments -/

/-- The assignments of a funcId to a request, one for each transmission of a `SendRequest`. -/
def assignments (l : List Effect) : List (Nat × UInt8) :=
  l.filterMap fun | .transmit t (some f) _ => some (t, f) | _ => none

def funcIds (l : List Effect) : List UInt8 := (assignments l).map Prod.snd

/-- The funcId set at the latest transmission of request `t`. -/
def latestFuncId (l : List Effect) (t : Nat) : Option UInt8 :=
  ((assignments l).reverse.find? (·.1 == t)).map Prod.snd

/-- The funcIds of the 254 assignments before the latest one of request `t`. -/
def earlierFuncIds (l : List Effect) (t : Nat) : List UInt8 :=
  (((assignments l).reverse.dropWhile (·.1 != t)).tail.take 254).map Prod.snd

/-- The funcId of assignment `k`, from 0 on: 1 to 255, and 1 again. -/
def funcIdAt (k : Nat) : UInt8 := UInt8.ofNat (k % 255 + 1)

theorem funcIdAt_toNat (k : Nat) : (funcIdAt k).toNat = k % 255 + 1 := by
  unfold funcIdAt
  rw [UInt8.toNat_ofNat', Nat.mod_eq_of_lt]
  omega

theorem funcIdAt_ne_zero (k : Nat) : funcIdAt k ≠ 0 := by
  intro h
  have hk := funcIdAt_toNat k
  rw [h] at hk
  exact absurd hk.symm (Nat.succ_ne_zero _)

theorem funcIdAt_ne {j k : Nat} (hjk : j < k) (hk : k < j + 255) : funcIdAt j ≠ funcIdAt k := by
  intro h
  have heq := congrArg UInt8.toNat h
  rw [funcIdAt_toNat, funcIdAt_toNat] at heq
  omega

/-- The counter skips 0 when it wraps around. -/
theorem advance_funcIdAt (k : Nat) : advance (funcIdAt k) = funcIdAt (k + 1) := by
  have hk := funcIdAt_toNat k
  have hlt : funcIdAt k < 0xff ↔ k % 255 + 1 < 255 := by
    rw [UInt8.lt_iff_toNat_lt, hk]
    rfl
  apply UInt8.toNat.inj
  rw [funcIdAt_toNat]
  unfold advance
  split
  · rename_i h
    rw [hlt] at h
    rw [UInt8.toNat_add, hk]
    have h1 : (1 : UInt8).toNat = 1 := rfl
    omega
  · rename_i h
    rw [hlt] at h
    have h1 : (1 : UInt8).toNat = 1 := rfl
    omega

theorem assignments_append (l m : List Effect) :
    assignments (l ++ m) = assignments l ++ assignments m := List.filterMap_append

/-! ## The invariants -/

/-- The counter counts the assignments. The stored funcId of a request that was transmitted is
that of its latest transmission. -/
structure Assigned (s : Tx σ) : Prop where
  fifo : Fifo s
  counts : Counts funcIdAt (funcIds s.log)
  next : s.nextFuncId = funcIdAt (funcIds s.log).length
  stored : ∀ e ∈ s.requests, e.ticket ∈ transmitted s.log →
    ∀ f, e.request.funcId = some f → latestFuncId s.log e.ticket = some f

theorem assigned_init (a : σ) (txBuffer : Buffer) : Assigned (.init a txBuffer) :=
  ⟨fifo_init a txBuffer, rfl, rfl, fun _ he => by cases he⟩

/-- An effect that is not a transmission keeps the history. -/
theorem assignments_silent {x : Effect} (hx : transmitted [x] = []) : assignments [x] = [] := by
  cases x <;> first | rfl | simp [transmitted] at hx

theorem Assigned.of_emit {s s' : Tx σ} (h : Assigned s) {x : Effect} (hx : transmitted [x] = [])
    (hf : Fifo s') (hr : ∀ e ∈ s'.requests, e ∈ s.requests ∨ e.ticket ∉ transmitted s.log)
    (hn : s'.nextFuncId = s.nextFuncId) (hl : s'.log = s.log ++ [x]) : Assigned s' := by
  have hassign : assignments s'.log = assignments s.log := by
    rw [hl, assignments_append, assignments_silent hx, List.append_nil]
  have hsent : transmitted s'.log = transmitted s.log := by
    have happend : transmitted (s.log ++ [x]) = transmitted s.log ++ transmitted [x] :=
      List.filterMap_append
    rw [hl, happend, hx, List.append_nil]
  refine ⟨hf, ?_, ?_, ?_⟩
  · unfold funcIds
    rw [hassign]
    exact h.counts
  · unfold funcIds
    rw [hassign, hn]
    exact h.next
  · intro e he ht f hfunc
    rw [hsent] at ht
    unfold latestFuncId
    rw [hassign]
    rcases hr e he with hmem | hnew
    · exact h.stored e hmem ht f hfunc
    · exact absurd ht hnew

theorem Assigned.of_eq {s s' : Tx σ} (h : Assigned s) (hsame : s'.books = s.books)
    (hn : s'.nextFuncId = s.nextFuncId) : Assigned s' := by
  have hfifo := h.fifo.of_eq hsame
  obtain ⟨hr, -, hl⟩ := books_eq hsame
  refine ⟨hfifo, ?_, ?_, ?_⟩
  · rw [hl]
    exact h.counts
  · rw [hl, hn]
    exact h.next
  · rw [hl, hr]
    exact h.stored

theorem Assigned.transmit {s : Tx σ} (h : Assigned s) {front : Entry} {rest : List Entry}
    (hr : s.requests = front :: rest) : Assigned (s.transmit env front rest) := by
  have hf : Fifo (s.transmit env front rest) := h.fifo.transmit hr
  have hbehind : ∀ e ∈ rest, e.ticket ∉ transmitted (s.transmit env front rest).log := by
    intro e he
    exact hf.behind_front rfl he
  cases hfunc : front.request.funcId with
  | none =>
    have hassign : assignments (s.transmit env front rest).log = assignments s.log := by
      simp [Request.assign, hfunc, assignments]
    refine ⟨hf, ?_, ?_, ?_⟩
    · unfold funcIds
      rw [hassign]
      exact h.counts
    · unfold funcIds
      rw [hassign]
      simp only [transmit_nextFuncId, Request.assign, hfunc, Option.map_none,
        Option.isSome_none, Bool.false_eq_true, if_false]
      exact h.next
    · intro e he ht f hfe
      rcases List.mem_cons.mp he with rfl | hrest
      · simp [Request.assign, hfunc] at hfe
      · exact absurd ht (hbehind e hrest)
  | some f₀ =>
    have hassign : assignments (s.transmit env front rest).log =
        assignments s.log ++ [(front.ticket, s.nextFuncId)] := by
      simp [Request.assign, hfunc, assignments]
    have hids : funcIds (s.transmit env front rest).log = funcIds s.log ++ [s.nextFuncId] := by
      unfold funcIds
      rw [hassign, List.map_append]
      rfl
    refine ⟨hf, ?_, ?_, ?_⟩
    · rw [hids, h.next]
      exact h.counts.append
    · rw [hids, List.length_append, List.length_singleton, ← advance_funcIdAt, ← h.next]
      simp [Request.assign, hfunc]
    · intro e he ht f hfe
      rcases List.mem_cons.mp he with rfl | hrest
      · simp only [Request.assign, hfunc, Option.map_some, Option.some.injEq] at hfe
        subst hfe
        unfold latestFuncId
        rw [hassign, List.reverse_append]
        simp
      · exact absurd ht (hbehind e hrest)

theorem assigned_move (s s' : Tx σ) (h : Assigned s) (hm : Move env s s') : Assigned s' := by
  have hf := fifo_move s s' h.fifo hm
  cases hm with
  | push r =>
    refine h.of_emit (x := .enqueue s.tickets r) rfl hf ?_ rfl rfl
    intro e he
    rcases List.mem_append.mp he with hmem | hnew
    · exact Or.inl hmem
    · right
      rw [List.mem_singleton.mp hnew]
      exact h.fifo.fresh_not_transmitted
  | transmit hr => exact h.transmit hr
  | complete hr =>
    refine h.of_emit rfl hf (fun e he => Or.inl ?_) rfl rfl
    rw [hr]
    exact List.mem_cons_of_mem _ he
  | drop hr =>
    refine h.of_emit rfl hf (fun e he => Or.inl ?_) rfl rfl
    rw [hr]
    exact List.mem_cons_of_mem _ he
  | sendAck => exact h.of_emit (x := .ack) rfl hf (fun e he => Or.inl he) rfl rfl
  | sendNack => exact h.of_emit (x := .nack) rfl hf (fun e he => Or.inl he) rfl rfl
  | note x hx =>
    refine h.of_emit (x := x) ?_ hf (fun e he => Or.inl he) rfl rfl
    cases x <;> first | rfl | exact hx.elim
  | app a => exact h.of_eq rfl rfl
  | retry n => exact h.of_eq rfl rfl
  | timer ht => exact h.of_eq rfl rfl

theorem assigned_port (s : Tx σ) (tty : write_port.Port Source UInt8) (h : Assigned s) :
    Assigned { s with tty } := h.of_eq rfl rfl

/-! ## Late reports -/

/-- The funcId of an earlier assignment is not the one that the request has now. -/
theorem earlier_ne_latest {l : List Effect} (h : Counts funcIdAt (funcIds l)) {t : Nat}
    {id f : UInt8} (hid : id ∈ earlierFuncIds l t) (hf : latestFuncId l t = some f) : id ≠ f := by
  obtain ⟨i, hi⟩ : ∃ i, (assignments l).reverse.dropWhile (·.1 != t) =
      (assignments l).reverse.drop i := by
    obtain ⟨r, hr⟩ := List.dropWhile_suffix (l := (assignments l).reverse) (·.1 != t)
    exact ⟨r.length, by rw [← hr, List.drop_left, hr]⟩
  have hwindow := ((h.apart fun j k hjk hk => funcIdAt_ne hjk hk).reverse.window i)
  have hfind : ((assignments l).reverse.dropWhile (·.1 != t)).head? =
      (assignments l).reverse.find? (·.1 == t) :=
    (List.find?_eq_head?_dropWhile_not _ _).symm
  unfold latestFuncId at hf
  rw [← hfind] at hf
  obtain ⟨⟨u, g⟩, hhead, rfl⟩ := Option.map_eq_some_iff.mp hf
  obtain ⟨tl, htl⟩ := List.head?_eq_some_iff.mp hhead
  unfold earlierFuncIds at hid
  rw [htl, List.tail_cons] at hid
  -- the window of 255 that ends with the latest assignment
  rw [funcIds, ← List.map_reverse, ← List.map_drop, ← hi, htl, List.map_cons, List.take_succ_cons,
    ← List.map_take] at hwindow
  rintro rfl
  exact (List.nodup_cons.mp hwindow).1 hid

/-- A REQUEST with the function of the front, a `SendRequest` that was transmitted. Its payload
starts with one of the 254 funcIds before that of the latest transmission. -/
def LateReport (s : Tx σ) (f : Frame) : Prop :=
  f.type = REQUEST ∧ ∃ front ∈ s.requests.head?, front.request.funcId.isSome = true ∧
    front.ticket ∈ transmitted s.log ∧ f.function = front.request.function ∧
      ∃ id ∈ f.payload.head?, id ∈ earlierFuncIds s.log front.ticket

instance (s : Tx σ) (f : Frame) : Decidable (LateReport s f) :=
  inferInstanceAs (Decidable (_ ∧ ∃ front ∈ s.requests.head?, _ ∧ _ ∧ _ ∧
    ∃ id ∈ f.payload.head?, id ∈ earlierFuncIds s.log front.ticket))

theorem handleFrame_late {s : Tx σ} (h : Assigned s) {f : Frame} (hf : LateReport s f) :
    s.handleFrame env f = some s.sendAck := by
  obtain ⟨htype, front, hfront, hsend, hsent, hfunction, id, hid, hlate⟩ := hf
  obtain ⟨rest, hr⟩ := List.head?_eq_some_iff.mp hfront
  have hne : front.request.funcId ≠ some (f.payload.headD f.checksum) := by
    intro heq
    have hlatest := h.stored front (by rw [hr]; exact List.mem_cons_self) hsent _ heq
    obtain ⟨tl, hpayload⟩ := List.head?_eq_some_iff.mp hid
    rw [hpayload] at hlatest
    exact earlier_ne_latest h.counts hlate hlatest rfl
  have htype' : f.type ≠ RESPONSE := by
    rw [htype]
    exact REQUEST_ne_RESPONSE
  unfold Tx.handleFrame Tx.dispatch
  simp only [hr, hfunction, if_true, htype', if_false, decide_eq_true_eq, hne, and_false]

/-- No funcId is 0, and in 255 assignments in a row no funcId comes twice. -/
def DistinctFuncIds (l : List Effect) : Prop :=
  (∀ f ∈ funcIds l, f ≠ 0) ∧ ∀ i, (((funcIds l).drop i).take 255).Nodup

theorem Assigned.distinct {s : Tx σ} (h : Assigned s) : DistinctFuncIds s.log := by
  refine ⟨?_, (h.counts.apart fun j k hjk hk => funcIdAt_ne hjk hk).window⟩
  intro f hf
  have hcounts := h.counts
  unfold Counts at hcounts
  rw [hcounts] at hf
  obtain ⟨k, -, rfl⟩ := List.mem_map.mp hf
  exact funcIdAt_ne_zero k

/-- In every run the funcIds are distinct, and a late report of an earlier transmission, wherever
the read handler comes to it, removes no request and calls no callback: it is acknowledged, or it
is not the first frame of its read and discarded. -/
theorem late_reports_complete_nothing (env : Env σ) (a : σ) (txBuffer rxBuffer : Buffer)
    (es : List Event) :
    Always (step env) (fun s => DistinctFuncIds s.tx.log) (init a txBuffer rxBuffer) es ∧
      ∀ s bytes p f more, run (step env) (init a txBuffer rxBuffer) es = some s →
        p ∈ readTurns env s bytes → p.2.rx.unread = f.bytes ++ more → LateReport p.2.tx f →
          ∃ s', turn env p = some (.again (true, s')) ∧ s'.rx.unread = more ∧
            s'.tx.requests = p.2.tx.requests ∧
              (s'.tx.log = p.2.tx.log ∨ s'.tx.log = p.2.tx.log ++ [.ack]) := by
  constructor
  · exact (always_of_moves assigned_move assigned_port (assigned_init a txBuffer) es).mono
      fun _ h => h.distinct
  · rintro s bytes ⟨frame, s₁⟩ f more hrun hp hu hlate
    have hassigned : Assigned s₁.tx :=
      turn_of_moves assigned_move assigned_port (assigned_init a txBuffer) hrun hp
    obtain ⟨tx, rx, hturn, hmore, htx⟩ := turn_frame env frame hu
    refine ⟨_, hturn, hmore, ?_⟩
    cases frame with
    | true =>
      simp only [if_true] at htx
      subst htx
      exact ⟨rfl, Or.inl rfl⟩
    | false =>
      simp only [Bool.false_eq_true, if_false, handleFrame_late hassigned hlate,
        Option.some.injEq] at htx
      subst htx
      exact ⟨rfl, Or.inr rfl⟩

/-- The request was refused and sent again, and then the report of its first transmission comes. -/
theorem late_reports_complete_nothing_retry :
    ∃ s p s', run (step quietEnv) fresh [.tx (.sendRequest switchOn), .read [NACK]] = some s ∧
      p ∈ readTurns quietEnv s [SOF, 4, REQUEST, ZW_SEND_DATA, 1, 0xe9] ∧
        turn quietEnv p = some (.again (true, s')) ∧ s'.tx.requests = p.2.tx.requests := by
  have hrun : (run (step quietEnv) fresh [.tx (.sendRequest switchOn), .read [NACK]]).any
      (fun s => (readTurns quietEnv s [SOF, 4, REQUEST, ZW_SEND_DATA, 1, 0xe9]).any fun p =>
        decide (p.2.rx.unread = (⟨REQUEST, ZW_SEND_DATA, [1], by decide⟩ : Frame).bytes ++ [] ∧
          LateReport p.2.tx ⟨REQUEST, ZW_SEND_DATA, [1], by decide⟩)) = true := by
    decide +kernel
  obtain ⟨s, hs, hturns⟩ := (Option.any_eq_true _ _).mp hrun
  obtain ⟨p, hp, hframe⟩ := List.any_eq_true.mp hturns
  obtain ⟨hu, hlate⟩ := of_decide_eq_true hframe
  obtain ⟨s', hturn, -, hreq, -⟩ :=
    (late_reports_complete_nothing quietEnv () .zeros .zeros _).2 s _ p _ [] hs hp hu hlate
  exact ⟨s, p, s', hs, hp, hturn, hreq⟩

end huasi.zwave
