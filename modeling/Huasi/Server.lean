-- Server (src/src/Server.cpp): the handler of an accept listens for the next connection,
-- whatever it got and whether the acceptor is still open. So a server that ever
-- listened keeps a reference to itself.
import Huasi.Object
import Huasi.Runs

open huasi.runs huasi.object

namespace huasi.server

/-! ## The server -/

/-- A server. `handles` are the `ptr` handles to it. Of the accepts that have started and whose
handlers have not run yet, `awaited` were outstanding when the acceptor closed, and `accepts` are
the others. -/
structure Server where
  object : Object
  isOpen : Bool
  handles : Nat
  accepts : Nat
  awaited : Nat
deriving DecidableEq, Repr

/-- A new server in its first handle. The constructor opens the acceptor. -/
def Server.new : Server where
  object := { referenceCount := 1, deletions := 0 }
  isOpen := true
  handles := 1
  accepts := 0
  awaited := 0

def Server.addReference (s : Server) : Option Server :=
  s.object.addReference.map fun o => { s with object := o }

def Server.removeReference (s : Server) : Option Server :=
  s.object.removeReference.map fun o => { s with object := o }

/-- `listen`, when it has created the channel: a reference for the accept. -/
def listen (s : Server) : Option Server :=
  s.addReference.map fun s => { s with accepts := s.accepts + 1 }

/-- The acceptor closes. The accepts that it cancels complete later. -/
def Server.closeAcceptor (s : Server) : Server :=
  if s.isOpen then
    { s with isOpen := false, accepts := 0, awaited := s.awaited + s.accepts }
  else s

/-- What code does with a server: calls, with what the derived class does in its callbacks, and
handles that come and go. -/
inductive Call where
  | listen (createChannel : List Call)
  | close (onError : List Call)
  | copyHandle
  | dropHandle

/-- A handle goes, if there is one. -/
def dropHandle (s : Server) : Option Server :=
  if 0 < s.handles then { s with handles := s.handles - 1 }.removeReference else some s

mutual

def Call.make : Call → Server → Option Server
  | .listen createChannel, s =>
    if s.object.deletions = 0 then (makeAll createChannel s).bind server.listen else none
  | .close onError, s =>
    if s.object.deletions = 0 then makeAll onError s.closeAcceptor else none
  | .copyHandle, s => s.addReference.map fun s => { s with handles := s.handles + 1 }
  | .dropHandle, s => server.dropHandle s

/-- The calls of a callback, one after the other. -/
def makeAll : List Call → Server → Option Server
  | [], s => some s
  | call :: calls, s => (call.make s).bind (makeAll calls)

end

/-- How an accept completes, with what the callback does then: `Server::onError`, or
`Channel::onConnect` of the new channel. -/
inductive AcceptResult where
  | error (onError : List Call)
  | connection (onConnect : List Call)

def AcceptResult.callback : AcceptResult → List Call
  | .error onError => onError
  | .connection onConnect => onConnect

/-- The handler of `async_accept`. -/
def handleAccept (result : AcceptResult) (createChannel : List Call) (s : Server) :
    Option Server := do
  let s ← makeAll result.callback s
  -- listen for the next incoming connection
  let s ← (Call.listen createChannel).make s
  s.removeReference

/-- What happens to a server between two steps of the event loop. An accept that completes was
outstanding when the acceptor closed, or it was not. -/
inductive Event where
  | call (call : Call)
  | accepted (awaited : Bool) (result : AcceptResult) (createChannel : List Call)

def step (s : Server) : Event → Option Server
  | .call call => if s.object.deletions = 0 then call.make s else none
  | .accepted true result createChannel =>
    if 0 < s.awaited then handleAccept result createChannel { s with awaited := s.awaited - 1 }
    else none
  | .accepted false result createChannel =>
    if 0 < s.accepts then handleAccept result createChannel { s with accepts := s.accepts - 1 }
    else none

/-! ## Accepts -/

/-- The accepts that are outstanding. -/
def Server.outstanding (s : Server) : Nat := s.accepts + s.awaited

mutual

/-- The number of calls of `listen` in a call, those of the callbacks included. -/
def Call.listens : Call → Nat
  | .listen createChannel => listensAll createChannel + 1
  | .close onError => listensAll onError
  | .copyHandle | .dropHandle => 0

def listensAll : List Call → Nat
  | [] => 0
  | call :: calls => call.listens + listensAll calls

end

/-- The number of calls of `listen` by others than the handler of the accepts. -/
def Event.listens : Event → Nat
  | .call c => c.listens
  | .accepted _ result createChannel => listensAll result.callback + listensAll createChannel

theorem closeAcceptor_outstanding (s : Server) : s.closeAcceptor.outstanding = s.outstanding := by
  unfold Server.closeAcceptor
  split
  · simp only [Server.outstanding]
    omega
  · rfl

theorem removeReference_outstanding {s t : Server} (h : s.removeReference = some t) :
    t.outstanding = s.outstanding := by
  obtain ⟨o, -, rfl⟩ := Option.map_eq_some_iff.mp h
  rfl

theorem listen_outstanding {s t : Server} (h : listen s = some t) :
    t.outstanding = s.outstanding + 1 := by
  obtain ⟨u, hu, rfl⟩ := Option.map_eq_some_iff.mp h
  obtain ⟨o, -, rfl⟩ := Option.map_eq_some_iff.mp hu
  simp only [Server.outstanding]
  omega

mutual

/-- Each call of `listen` starts an accept, and no call ends one. -/
theorem make_outstanding : ∀ (call : Call) {s t : Server}, call.make s = some t →
    t.outstanding = s.outstanding + call.listens
  | .listen createChannel, s, t, h => by
    simp only [Call.make] at h
    split at h
    · obtain ⟨u, hu, h⟩ := Option.bind_eq_some_iff.mp h
      rw [listen_outstanding h, makeAll_outstanding createChannel hu, Call.listens, Nat.add_assoc]
    · cases h
  | .close onError, s, t, h => by
    simp only [Call.make] at h
    split at h
    · rw [makeAll_outstanding onError h, closeAcceptor_outstanding, Call.listens]
    · cases h
  | .copyHandle, s, t, h => by
    simp only [Call.make] at h
    obtain ⟨u, hu, rfl⟩ := Option.map_eq_some_iff.mp h
    obtain ⟨o, -, rfl⟩ := Option.map_eq_some_iff.mp hu
    rfl
  | .dropHandle, s, t, h => by
    simp only [Call.make, dropHandle] at h
    split at h
    · have hdrop := removeReference_outstanding h
      exact hdrop
    · cases h
      rfl

theorem makeAll_outstanding : ∀ (calls : List Call) {s t : Server}, makeAll calls s = some t →
    t.outstanding = s.outstanding + listensAll calls
  | [], s, t, h => by
    cases h
    rfl
  | call :: calls, s, t, h => by
    obtain ⟨u, hu, h⟩ := Option.bind_eq_some_iff.mp h
    rw [makeAll_outstanding calls h, make_outstanding call hu, listensAll, Nat.add_assoc]

end

theorem handleAccept_outstanding {result : AcceptResult} {createChannel : List Call}
    {s t : Server} (h : handleAccept result createChannel s = some t) :
    t.outstanding = s.outstanding + 1 +
      (listensAll result.callback + listensAll createChannel) := by
  obtain ⟨u, hu, h⟩ := Option.bind_eq_some_iff.mp h
  obtain ⟨v, hv, h⟩ := Option.bind_eq_some_iff.mp h
  rw [removeReference_outstanding h, make_outstanding _ hv, makeAll_outstanding _ hu, Call.listens]
  omega

/-- The handler starts a new accept for the one that has completed. -/
theorem step_outstanding {s t : Server} {e : Event} (h : step s e = some t) :
    t.outstanding = s.outstanding + e.listens := by
  cases e with
  | call call =>
    simp only [step] at h
    split at h
    · exact make_outstanding call h
    · cases h
  | accepted awaited result createChannel =>
    cases awaited with
    | true =>
      simp only [step] at h
      split at h
      · rw [handleAccept_outstanding h, Event.listens]
        simp only [Server.outstanding]
        omega
      · cases h
    | false =>
      simp only [step] at h
      split at h
      · rw [handleAccept_outstanding h, Event.listens]
        simp only [Server.outstanding]
        omega
      · cases h

theorem run_outstanding {s t : Server} {es : List Event} (h : run step s es = some t) :
    t.outstanding = 0 ↔ s.outstanding = 0 ∧ ∀ e ∈ es, e.listens = 0 := by
  induction es generalizing s with
  | nil =>
    cases h
    simp
  | cons e es ih =>
    obtain ⟨u, hu, h⟩ := Option.bind_eq_some_iff.mp h
    rw [ih h, step_outstanding hu, Nat.add_eq_zero_iff, List.forall_mem_cons, and_assoc]

/-! ## References -/

/-- The references that a server should know of. -/
def Server.references (s : Server) : Nat := s.handles + s.outstanding

/-- In the middle of a step: the server knows of its references and of `k` more, in the arithmetic
of the counter. -/
structure Counted (k : Nat) (s : Server) : Prop where
  count : s.object.referenceCount = BitVec.ofNat 32 (s.references + k)
  once : s.object.deletions ≤ 1
  gone : s.object.deletions = 1 → 2 ^ 32 ∣ s.references + k
  deleted : s.references + k = 0 → s.object.deletions = 1

theorem new_counted : Counted 0 Server.new where
  count := rfl
  once := Nat.zero_le 1
  gone h := by cases h
  deleted h := by cases h

/-- Bookkeeping: what a reference is for does not matter to the count. -/
theorem Counted.recount {k l : Nat} {s t : Server} (h : Counted k s) (hobj : t.object = s.object)
    (hrefs : t.references + l = s.references + k) : Counted l t where
  count := by rw [hobj, hrefs]; exact h.count
  once := by rw [hobj]; exact h.once
  gone := by rw [hobj, hrefs]; exact h.gone
  deleted := by rw [hobj, hrefs]; exact h.deleted

theorem addReference_counted {k : Nat} {s t : Server} (h : Counted k s)
    (ht : s.addReference = some t) : Counted (k + 1) t ∧ t.references = s.references := by
  obtain ⟨o, ho, rfl⟩ := Option.map_eq_some_iff.mp ht
  unfold Object.addReference at ho
  split at ho
  · rename_i halive
    cases ho
    refine ⟨⟨?_, ?_, ?_, ?_⟩, rfl⟩
    · change s.object.referenceCount + 1 = BitVec.ofNat 32 (s.references + k + 1)
      rw [h.count]
      exact (BitVec.ofNat_add (s.references + k) 1).symm
    · exact h.once
    · intro hgone
      exact absurd (halive.symm.trans hgone) (by decide)
    · intro hzero
      exact absurd hzero (Nat.succ_ne_zero _)
  · cases ho

theorem removeReference_counted {k : Nat} {s t : Server} (h : Counted (k + 1) s)
    (ht : s.removeReference = some t) : Counted k t ∧ t.references = s.references := by
  obtain ⟨o, ho, rfl⟩ := Option.map_eq_some_iff.mp ht
  have hsub : s.object.referenceCount - 1 = BitVec.ofNat 32 (s.references + k) := by
    rw [h.count, ← Nat.add_assoc, BitVec.ofNat_add]
    exact BitVec.add_sub_cancel _ _
  unfold Object.removeReference at ho
  split at ho
  · rename_i halive
    split at ho
    · rename_i hone
      cases ho
      have hzero : (s.references + k) % 2 ^ 32 = 0 := by
        have hnat := congrArg BitVec.toNat hsub
        rw [hone, BitVec.sub_self, BitVec.toNat_ofNat] at hnat
        simpa using hnat.symm
      refine ⟨⟨hsub, ?_, ?_, ?_⟩, rfl⟩
      · simp [halive]
      · intro _
        change 2 ^ 32 ∣ s.references + k
        omega
      · intro _
        simp [halive]
    · rename_i hmany
      cases ho
      refine ⟨⟨hsub, h.once, ?_, ?_⟩, rfl⟩
      · intro hgone
        exact absurd (halive.symm.trans hgone) (by decide)
      · intro hnone
        have hone : s.references + (k + 1) = 1 := by
          have hnone' : s.references + k = 0 := hnone
          omega
        rw [h.count, hone] at hmany
        exact absurd rfl hmany
  · cases ho

theorem listen_counted {k : Nat} {s t : Server} (h : Counted k s) (ht : listen s = some t) :
    Counted k t := by
  obtain ⟨u, hu, rfl⟩ := Option.map_eq_some_iff.mp ht
  obtain ⟨hcounted, hrefs⟩ := addReference_counted h hu
  refine hcounted.recount rfl ?_
  simp only [Server.references, Server.outstanding]
  omega

theorem closeAcceptor_counted {k : Nat} {s : Server} (h : Counted k s) :
    Counted k s.closeAcceptor := by
  have hout := closeAcceptor_outstanding s
  unfold Server.closeAcceptor at hout ⊢
  split
  · rename_i hopen
    rw [if_pos hopen] at hout
    refine h.recount rfl ?_
    rw [Server.references, Server.references, hout]
  · exact h

theorem dropHandle_counted {k : Nat} {s t : Server} (h : Counted k s)
    (ht : dropHandle s = some t) : Counted k t := by
  unfold dropHandle at ht
  split at ht
  · have hdrop : Counted (k + 1) { s with handles := s.handles - 1 } := by
      refine h.recount rfl ?_
      simp only [Server.references, Server.outstanding]
      omega
    exact (removeReference_counted hdrop ht).1
  · cases ht
    exact h

mutual

theorem make_counted : ∀ (call : Call) {k : Nat} {s t : Server}, Counted k s →
    call.make s = some t → Counted k t
  | .listen createChannel, k, s, t, h, ht => by
    simp only [Call.make] at ht
    split at ht
    · obtain ⟨u, hu, ht⟩ := Option.bind_eq_some_iff.mp ht
      exact listen_counted (makeAll_counted createChannel h hu) ht
    · cases ht
  | .close onError, k, s, t, h, ht => by
    simp only [Call.make] at ht
    split at ht
    · exact makeAll_counted onError (closeAcceptor_counted h) ht
    · cases ht
  | .copyHandle, k, s, t, h, ht => by
    simp only [Call.make] at ht
    obtain ⟨u, hu, rfl⟩ := Option.map_eq_some_iff.mp ht
    obtain ⟨hcounted, -⟩ := addReference_counted h hu
    refine hcounted.recount rfl ?_
    simp only [Server.references, Server.outstanding]
    omega
  | .dropHandle, k, s, t, h, ht => dropHandle_counted h (by simpa only [Call.make] using ht)

theorem makeAll_counted : ∀ (calls : List Call) {k : Nat} {s t : Server}, Counted k s →
    makeAll calls s = some t → Counted k t
  | [], k, s, t, h, ht => by
    cases ht
    exact h
  | call :: calls, k, s, t, h, ht => by
    obtain ⟨u, hu, ht⟩ := Option.bind_eq_some_iff.mp ht
    exact makeAll_counted calls (make_counted call h hu) ht

end

/-- The handler gives the reference of its accept back when all else is done. -/
theorem handleAccept_counted {result : AcceptResult} {createChannel : List Call} {s t : Server}
    (h : Counted 1 s) (ht : handleAccept result createChannel s = some t) : Counted 0 t := by
  obtain ⟨u, hu, ht⟩ := Option.bind_eq_some_iff.mp ht
  obtain ⟨v, hv, ht⟩ := Option.bind_eq_some_iff.mp ht
  have hcallback := makeAll_counted _ h hu
  have hlisten := make_counted _ hcallback hv
  exact (removeReference_counted hlisten ht).1

theorem step_counted {s t : Server} {e : Event} (h : Counted 0 s) (ht : step s e = some t) :
    Counted 0 t := by
  cases e with
  | call call =>
    simp only [step] at ht
    split at ht
    · exact make_counted call h ht
    · cases ht
  | accepted awaited result createChannel =>
    cases awaited with
    | true =>
      simp only [step] at ht
      split at ht
      · have hone : Counted 1 { s with awaited := s.awaited - 1 } := by
          refine h.recount rfl ?_
          simp only [Server.references, Server.outstanding]
          omega
        exact handleAccept_counted hone ht
      · cases ht
    | false =>
      simp only [step] at ht
      split at ht
      · have hone : Counted 1 { s with accepts := s.accepts - 1 } := by
          refine h.recount rfl ?_
          simp only [Server.references, Server.outstanding]
          omega
        exact handleAccept_counted hone ht
      · cases ht

theorem run_counted {s : Server} {es : List Event} (h : run step .new es = some s) :
    Counted 0 s :=
  (always_of_step (fun _ _ _ h ht => step_counted h ht) Server.new es new_counted).of_run h

/-! ## The end of a server -/

/-- `close` has been called, and the accepts that were outstanding have completed. -/
def Server.Settled (s : Server) : Prop := s.isOpen = false ∧ s.awaited = 0

/-- No accept is outstanding, the counter is the number of handles, and the last one deletes the
server when it goes. -/
structure Server.Ended (s : Server) : Prop where
  accepts : s.outstanding = 0
  count : s.object.referenceCount.toInt = s.handles
  deletes : s.handles = 1 → ∃ t, step s (.call .dropHandle) = some t ∧ t.object.deletions = 1

theorem toInt_ofNat_eq_iff (n : Nat) : (BitVec.ofNat 32 n).toInt = n ↔ n < 2 ^ 31 := by
  rw [BitVec.toInt_ofNat', Int.bmod_def]
  omega

theorem deletes_last {s : Server} (h : Counted 0 s) (hnone : s.outstanding = 0)
    (hlast : s.handles = 1) :
    ∃ t, step s (.call .dropHandle) = some t ∧ t.object.deletions = 1 := by
  have hrefs : s.references = 1 := by rw [Server.references, hlast, hnone]
  have halive : s.object.deletions = 0 := by
    have honce := h.once
    have hgone := h.gone
    rw [hrefs] at hgone
    by_contra hno
    have := hgone (by omega)
    omega
  have hcount : s.object.referenceCount = 1 := by
    rw [h.count, hrefs]
    rfl
  have hremove : s.object.removeReference = some { referenceCount := 0, deletions := 1 } := by
    simp only [Object.removeReference, hcount, if_true, halive]
    rfl
  refine ⟨{ s with handles := s.handles - 1, object := { referenceCount := 0, deletions := 1 } },
    ?_, rfl⟩
  have hpos : 0 < s.handles := by omega
  simp only [step, if_pos halive, Call.make, dropHandle, if_pos hpos, Server.removeReference,
    hremove, Option.map_some]

theorem ended_iff {es : List Event} {s : Server} (hrun : run step .new es = some s) :
    s.Ended ↔ (∀ e ∈ es, e.listens = 0) ∧ s.handles < 2 ^ 31 := by
  have hcounted := run_counted hrun
  have hlistens : s.outstanding = 0 ↔ ∀ e ∈ es, e.listens = 0 := by
    have hnew : Server.new.outstanding = 0 := rfl
    rw [run_outstanding hrun, and_iff_right hnew]
  have hint : s.outstanding = 0 →
      (s.object.referenceCount.toInt = s.handles ↔ s.handles < 2 ^ 31) := by
    intro hnone
    rw [hcounted.count, Server.references, hnone]
    exact toInt_ofNat_eq_iff s.handles
  constructor
  · intro hended
    exact ⟨hlistens.mp hended.accepts, (hint hended.accepts).mp hended.count⟩
  · rintro ⟨hquiet, hfew⟩
    have hnone := hlistens.mpr hquiet
    exact ⟨hnone, (hint hnone).mpr hfew, deletes_last hcounted hnone⟩

theorem closed_server_ends_iff (es : List Event) (s : Server)
    (hrun : run step .new es = some s) :
    (s.Settled → s.Ended) ↔
      (s.Settled → (∀ e ∈ es, e.listens = 0) ∧ s.handles < 2 ^ 31) :=
  imp_congr_right fun _ => ended_iff hrun

/-- A server that is closed before it listens. -/
theorem closed_server_ends_iff_example :
    ∃ s, run step .new [.call .copyHandle, .call (.close []), .call .dropHandle] = some s ∧
      s.Settled ∧ s.Ended := by
  have hrun : run step .new [.call .copyHandle, .call (.close []), .call .dropHandle] =
      some { object := { referenceCount := 1, deletions := 0 }, isOpen := false, handles := 1,
             accepts := 0, awaited := 0 } := by decide +kernel
  have hended := (closed_server_ends_iff _ _ hrun).mpr fun _ =>
    ⟨by simp [Event.listens, Call.listens, listensAll], by decide⟩
  exact ⟨_, hrun, ⟨rfl, rfl⟩, hended ⟨rfl, rfl⟩⟩

/-- The accept that `close` cancels starts the next one. -/
theorem closed_server_listens :
    ¬ ∀ (es : List Event) (s : Server), run step .new es = some s → s.Settled → s.Ended := by
  intro h
  have hrun : run step .new [.call (.listen []), .call (.close []), .accepted true (.error []) []] =
      some { object := { referenceCount := 2, deletions := 0 }, isOpen := false, handles := 1,
             accepts := 1, awaited := 0 } := by decide +kernel
  have hended := h _ _ hrun ⟨rfl, rfl⟩
  exact absurd hended.accepts (by decide)

end huasi.server
