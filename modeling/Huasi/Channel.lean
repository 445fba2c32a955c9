-- Channel and Server (src/src/Channel.cpp, src/src/Server.cpp): the references that an
-- accepted channel keeps to itself. A reference stands for the open socket, and
-- one for each timer wait, read and write that has not completed yet.
import Huasi.Object
import Huasi.Runs

open huasi.runs huasi.object

namespace huasi.channel

/-! ## The channel -/

/-- A channel. `handles` are the `ptr` handles to it, `waits`, `reads` and `writes` the operations
that have started and whose handlers have not run yet. -/
structure Channel where
  object : Object
  isOpen : Bool
  txPending : Int
  handles : Nat
  waits : Nat
  reads : Nat
  writes : Nat
deriving DecidableEq, Repr

def Channel.addReference (c : Channel) : Option Channel :=
  c.object.addReference.map fun o => { c with object := o }

def Channel.removeReference (c : Channel) : Option Channel :=
  c.object.removeReference.map fun o => { c with object := o }

/-- `++this->txPending`, undefined where the int overflows. -/
def Channel.incrementPending (c : Channel) : Option Channel :=
  if c.object.deletions = 0 ∧ c.txPending + 1 < 2 ^ 31 then
    some { c with txPending := c.txPending + 1 }
  else none

/-- `--this->txPending`. -/
def Channel.decrementPending (c : Channel) : Option Channel :=
  if c.object.deletions = 0 ∧ -2 ^ 31 ≤ c.txPending - 1 then
    some { c with txPending := c.txPending - 1 }
  else none

/-- `this->txPending`, which a deleted channel does not have any more. -/
def Channel.pending (c : Channel) : Option Int :=
  if c.object.deletions = 0 then some c.txPending else none

/-- `sendData`: a reference for the wait on the timer, and one for the write. -/
def sendData (c : Channel) : Option Channel := do
  let c ← c.addReference
  let c := { c with waits := c.waits + 1 }
  let c ← c.addReference
  let c ← c.incrementPending
  return { c with writes := c.writes + 1 }

/-- `receive`: a reference for the wait on the timer, and one for the read. -/
def receive (c : Channel) : Option Channel := do
  let c ← c.addReference
  let c := { c with waits := c.waits + 1 }
  let c ← c.addReference
  return { c with reads := c.reads + 1 }

/-- `close`. The waits, reads and writes that it cancels complete later. `onError` is what the
callback does, nothing where the socket closes without an error. -/
def close (onError : Channel → Option Channel) (c : Channel) : Option Channel :=
  if c.object.deletions = 0 then
    if c.isOpen then
      (onError { c with isOpen := false }).bind Channel.removeReference
    else some c
  else none

/-- What code does with a channel: calls, and handles that come and go. -/
inductive Call where
  | sendData
  | receive
  | close (onError : List Call)
  | copyHandle
  | dropHandle

/-- A handle goes, if there is one. -/
def dropHandle (c : Channel) : Option Channel :=
  if 0 < c.handles then { c with handles := c.handles - 1 }.removeReference else some c

mutual

def Call.make : Call → Channel → Option Channel
  | .sendData, c => channel.sendData c
  | .receive, c => channel.receive c
  | .close onError, c => channel.close (makeAll onError) c
  | .copyHandle, c => c.addReference.map fun c => { c with handles := c.handles + 1 }
  | .dropHandle, c => channel.dropHandle c

/-- The calls of a callback, one after the other. -/
def makeAll : List Call → Channel → Option Channel
  | [], c => some c
  | call :: calls, c => (call.make c).bind (makeAll calls)

end

/-- How a read completes, with what the callback does then. -/
inductive ReadResult where
  | canceled
  | eof (onShutdown : List Call)
  | error (onError : List Call)
  | data (onData : List Call)

/-- What happens to a channel between two steps of the event loop. -/
inductive Event where
  | call (call : Call)
  | waited (error : Bool) (onTimeout : List Call)
  | written (error : Bool) (onError onReadyToSend : List Call)
  | received (result : ReadResult)

/-- `if (condition) callback()`. -/
def makeIf (condition : Bool) (callback : List Call) (c : Channel) : Option Channel :=
  if condition then makeAll callback c else some c

/-- The handler of `async_wait`. -/
def handleWait (error : Bool) (onTimeout : List Call) (c : Channel) : Option Channel :=
  (makeIf (!error) onTimeout c).bind Channel.removeReference

/-- The handler of `async_write`. -/
def handleWrite (error : Bool) (onError onReadyToSend : List Call) (c : Channel) :
    Option Channel := do
  let c ← c.decrementPending
  let c ← makeIf error onError c
  let pending ← c.pending
  let c ← makeIf (pending == 0) onReadyToSend c
  c.removeReference

/-- The handler of `async_read_some`. -/
def handleRead (result : ReadResult) (c : Channel) : Option Channel :=
  (match result with
    | .canceled => some c
    | .eof onShutdown => makeAll onShutdown c
    | .error onError => makeAll onError c
    | .data onData => (receive c).bind (makeAll onData)).bind Channel.removeReference

/-- One event. Nobody calls a deleted channel, and an operation completes only if it is
outstanding. -/
def step (c : Channel) : Event → Option Channel
  | .call call => if c.object.deletions = 0 then call.make c else none
  | .waited error onTimeout =>
    if 0 < c.waits then handleWait error onTimeout { c with waits := c.waits - 1 } else none
  | .written error onError onReadyToSend =>
    if 0 < c.writes then handleWrite error onError onReadyToSend { c with writes := c.writes - 1 }
    else none
  | .received result =>
    if 0 < c.reads then handleRead result { c with reads := c.reads - 1 } else none

/-- The handler of `async_accept` in `Server::listen`, for a channel with `handles` handles beside
the one that the handler holds: the socket is open, the channel gets a reference for it and starts
to receive. The handler goes last, with its handle. -/
def accepted (handles : Nat) (onConnect : List Call) : Option Channel := do
  let c : Channel :=
    { object := { referenceCount := BitVec.ofNat 32 (handles + 1), deletions := 0 }
      isOpen := true
      txPending := 0
      handles, waits := 0, reads := 0, writes := 0 }
  let c ← c.addReference
  let c ← makeAll onConnect c
  let c ← receive c
  c.removeReference

/-! ## The count of references -/

/-- The references that a channel should know of. -/
def Channel.references (c : Channel) : Nat :=
  c.handles + (if c.isOpen then 1 else 0) + c.waits + c.reads + c.writes

/-- In the middle of a step: the channel knows of its references and of `k` more. -/
structure Counted (k : Nat) (c : Channel) : Prop where
  counts : c.object.Counts (c.references + k)
  deleted : c.references + k = 0 → c.object.deletions = 1
  pending : c.txPending = c.writes

theorem Counted.alive {k : Nat} {c : Channel} (h : Counted k c) (hpos : 0 < c.references + k) :
    c.object.deletions = 0 :=
  h.counts.alive hpos

/-- Bookkeeping: what a reference is for does not matter to the count. -/
theorem Counted.recount {k l : Nat} {c d : Channel} (h : Counted k c) (hobj : d.object = c.object)
    (hrefs : d.references + l = c.references + k) (hpending : d.txPending = d.writes) :
    Counted l d := by
  refine ⟨?_, ?_, hpending⟩
  · rw [hobj, hrefs]
    exact h.counts
  · rw [hobj, hrefs]
    exact h.deleted

theorem addReference_spec {k : Nat} {c : Channel} (h : Counted k c)
    (hpos : 0 < c.references + k) :
    ∃ o, c.addReference = some { c with object := o } ∧
      Counted (k + 1) { c with object := o } := by
  obtain ⟨o, ho, hcounts, -⟩ := h.counts.add (h.alive hpos)
  refine ⟨o, by simp [Channel.addReference, ho], hcounts, ?_, h.pending⟩
  intro h0
  omega

theorem removeReference_spec {k : Nat} {c : Channel} (h : Counted (k + 1) c)
    (hfew : c.references + k < 2 ^ 32) :
    ∃ o, c.removeReference = some { c with object := o } ∧ Counted k { c with object := o } := by
  obtain ⟨o, ho, hcounts, hdel⟩ := Object.Counts.remove h.counts hfew
  refine ⟨o, by simp [Channel.removeReference, ho], hcounts, ?_, h.pending⟩
  intro h0
  rw [hdel]
  exact if_pos h0

/-! ## The calls -/

section Calls

variable {k : Nat} {c : Channel}

theorem sendData_spec (h : Counted k c) (hpos : 0 < c.references + k)
    (hfew : c.references + k + 2 < 2 ^ 31) :
    ∃ d, sendData c = some d ∧ Counted k d ∧ d.references = c.references + 2 := by
  obtain ⟨o, ho, h1⟩ := addReference_spec h hpos
  have h2 : Counted k { c with object := o, waits := c.waits + 1 } :=
    h1.recount rfl (by simp only [Channel.references]; omega) h.pending
  obtain ⟨o', ho', h3⟩ := addReference_spec h2 (by simp only [Channel.references]; omega)
  have hdel := h3.alive (by simp only [Channel.references]; omega)
  have hroom : c.txPending + 1 < 2 ^ 31 := by
    rw [h.pending]
    unfold Channel.references at hfew
    omega
  refine ⟨{ c with
      object := o', waits := c.waits + 1, txPending := c.txPending + 1, writes := c.writes + 1 },
    ?_, h3.recount rfl ?_ ?_, ?_⟩
  · simp only at hdel
    simp only [sendData, Option.bind_eq_bind, ho, ho', Option.bind_some,
      Channel.incrementPending, if_pos (And.intro hdel hroom)]
    rfl
  · simp only [Channel.references]
    omega
  · simp [h.pending]
  · simp only [Channel.references]
    omega

theorem receive_spec (h : Counted k c) (hpos : 0 < c.references + k) :
    ∃ d, receive c = some d ∧ Counted k d ∧ d.references = c.references + 2 := by
  obtain ⟨o, ho, h1⟩ := addReference_spec h hpos
  have h2 : Counted k { c with object := o, waits := c.waits + 1 } :=
    h1.recount rfl (by simp only [Channel.references]; omega) h.pending
  obtain ⟨o', ho', h3⟩ := addReference_spec h2 (by simp only [Channel.references]; omega)
  refine ⟨{ c with object := o', waits := c.waits + 1, reads := c.reads + 1 }, ?_,
    h3.recount rfl ?_ h.pending, ?_⟩
  · simp [receive, ho, ho']
  · simp only [Channel.references]
    omega
  · simp only [Channel.references]
    omega

theorem dropHandle_spec (h : Counted k c) (hfew : c.references + k < 2 ^ 31) :
    ∃ d, dropHandle c = some d ∧ Counted k d ∧ d.references ≤ c.references := by
  unfold dropHandle
  split
  · have hrefs : { c with handles := c.handles - 1 }.references + 1 = c.references := by
      simp only [Channel.references]
      omega
    have h1 : Counted (k + 1) { c with handles := c.handles - 1 } :=
      h.recount rfl (by omega) h.pending
    obtain ⟨o, ho, h2⟩ := removeReference_spec h1 (by omega)
    exact ⟨_, ho, h2, by simp only [Channel.references] at hrefs ⊢; omega⟩
  · exact ⟨c, rfl, h, Nat.le_refl _⟩

theorem copyHandle_spec (h : Counted k c) (hpos : 0 < c.references + k) :
    ∃ d, Call.copyHandle.make c = some d ∧ Counted k d ∧ d.references = c.references + 1 := by
  obtain ⟨o, ho, h1⟩ := addReference_spec h hpos
  refine ⟨{ c with object := o, handles := c.handles + 1 }, ?_, h1.recount rfl ?_ h.pending, ?_⟩
  · simp [Call.make, ho]
  · simp only [Channel.references]
    omega
  · simp only [Channel.references]
    omega

/-- `close`, where the callback keeps the count of a channel with one more reference. -/
theorem close_spec {onError : Channel → Option Channel} {n : Nat} (h : Counted k c)
    (hpos : 0 < c.references + k) (hfew : c.references + k + n < 2 ^ 31)
    (hcallback : ∀ c, Counted (k + 1) c → c.references + (k + 1) + n < 2 ^ 31 →
      ∃ d, onError c = some d ∧ Counted (k + 1) d ∧ d.references ≤ c.references + n) :
    ∃ d, close onError c = some d ∧ Counted k d ∧ d.references ≤ c.references + n := by
  unfold close
  rw [if_pos (h.alive hpos)]
  split
  · rename_i hopen
    have hrefs : { c with isOpen := false }.references + 1 = c.references := by
      simp [Channel.references, hopen]
      omega
    have h1 : Counted (k + 1) { c with isOpen := false } := h.recount rfl (by omega) h.pending
    obtain ⟨d, hd, h2, hle⟩ := hcallback _ h1 (by omega)
    obtain ⟨o, ho, h3⟩ := removeReference_spec h2 (by omega)
    refine ⟨{ d with object := o }, by simp [hd, ho], h3, ?_⟩
    simp only [Channel.references] at hle hrefs ⊢
    omega
  · exact ⟨c, rfl, h, Nat.le_add_right _ _⟩

end Calls

mutual

/-- The number of calls, those of the callbacks included. -/
def Call.size : Call → Nat
  | .sendData | .receive | .copyHandle | .dropHandle => 1
  | .close onError => 1 + sizeAll onError

def sizeAll : List Call → Nat
  | [] => 0
  | call :: calls => call.size + sizeAll calls

end

mutual

/-- A call keeps the count, and adds at most two references. -/
theorem make_spec : ∀ (call : Call) {k : Nat} {c : Channel}, Counted k c →
    0 < c.references + k → c.references + k + 2 * call.size < 2 ^ 31 →
    ∃ d, call.make c = some d ∧ Counted k d ∧ d.references ≤ c.references + 2 * call.size
  | .sendData, k, c, h, hpos, hfew => by
    obtain ⟨d, hd, h1, hrefs⟩ := sendData_spec h hpos (by simpa [Call.size] using hfew)
    exact ⟨d, hd, h1, by simp [Call.size, hrefs]⟩
  | .receive, k, c, h, hpos, hfew => by
    obtain ⟨d, hd, h1, hrefs⟩ := receive_spec h hpos
    exact ⟨d, hd, h1, by simp [Call.size, hrefs]⟩
  | .copyHandle, k, c, h, hpos, hfew => by
    obtain ⟨d, hd, h1, hrefs⟩ := copyHandle_spec h hpos
    exact ⟨d, hd, h1, by simp [Call.size, hrefs]⟩
  | .dropHandle, k, c, h, hpos, hfew => by
    obtain ⟨d, hd, h1, hrefs⟩ := dropHandle_spec h (by omega)
    exact ⟨d, hd, h1, by omega⟩
  | .close onError, k, c, h, hpos, hfew => by
    simp only [Call.size] at hfew ⊢
    obtain ⟨d, hd, h1, hrefs⟩ := close_spec (n := 2 * sizeAll onError) h hpos (by omega)
      (fun c h hfew => makeAll_spec onError h (Nat.succ_pos k) hfew)
    exact ⟨d, hd, h1, by omega⟩

theorem makeAll_spec : ∀ (calls : List Call) {k : Nat} {c : Channel}, Counted k c →
    0 < k → c.references + k + 2 * sizeAll calls < 2 ^ 31 →
    ∃ d, makeAll calls c = some d ∧ Counted k d ∧ d.references ≤ c.references + 2 * sizeAll calls
  | [], k, c, h, hk, hfew => ⟨c, rfl, h, Nat.le_add_right _ _⟩
  | call :: calls, k, c, h, hk, hfew => by
    simp only [sizeAll] at hfew ⊢
    obtain ⟨d, hd, h1, hle⟩ := make_spec call h (by omega) (by omega)
    obtain ⟨e, he, h2, hle'⟩ := makeAll_spec calls h1 hk (by omega)
    exact ⟨e, by simp [makeAll, hd, he], h2, by omega⟩

end

/-! ## The handlers -/

/-- The number of calls that the code makes in an event. -/
def Event.calls : Event → Nat
  | .call c => c.size
  | .waited _ onTimeout => sizeAll onTimeout
  | .written _ onError onReadyToSend => sizeAll onError + sizeAll onReadyToSend
  | .received .canceled => 0
  | .received (.eof onShutdown) => sizeAll onShutdown
  | .received (.error onError) => sizeAll onError
  | .received (.data onData) => 1 + sizeAll onData

/-- The event can happen now. -/
def Possible (c : Channel) : Event → Prop
  | .call _ => c.object.deletions = 0
  | .waited _ _ => 0 < c.waits
  | .written _ _ _ => 0 < c.writes
  | .received _ => 0 < c.reads

/-- The counter of the channel has room for what the calls of an event can add. -/
def Few (c : Channel) (e : Event) : Prop := c.references + 2 * e.calls < 2 ^ 31

instance (c : Channel) (e : Event) : Decidable (Few c e) := inferInstanceAs (Decidable (_ < _))

section Handlers

variable {c : Channel}

/-- A handler gives the reference of its operation back when all else is done. -/
theorem finish_spec {x : Option Channel} {n : Nat} (hn : n < 2 ^ 31)
    (h : ∃ d, x = some d ∧ Counted 1 d ∧ d.references ≤ n) :
    ∃ d, x.bind Channel.removeReference = some d ∧ Counted 0 d ∧ d.references ≤ n := by
  obtain ⟨d, rfl, h1, hle⟩ := h
  obtain ⟨o, ho, h2⟩ := removeReference_spec h1 (by omega)
  exact ⟨{ d with object := o }, by simp [ho], h2, hle⟩

theorem makeIf_spec (condition : Bool) (callback : List Call) (h : Counted 1 c)
    (hfew : c.references + 1 + 2 * sizeAll callback < 2 ^ 31) :
    ∃ d, makeIf condition callback c = some d ∧ Counted 1 d ∧
      d.references ≤ c.references + 2 * sizeAll callback := by
  cases condition with
  | true => exact makeAll_spec callback h Nat.one_pos hfew
  | false => exact ⟨c, rfl, h, Nat.le_add_right _ _⟩

theorem handleWait_spec (error : Bool) (onTimeout : List Call) (h : Counted 1 c)
    (hfew : c.references + 1 + 2 * sizeAll onTimeout < 2 ^ 31) :
    ∃ d, handleWait error onTimeout c = some d ∧ Counted 0 d ∧
      d.references ≤ c.references + 2 * sizeAll onTimeout :=
  finish_spec (by omega) (makeIf_spec (!error) onTimeout h hfew)

theorem handleRead_spec (result : ReadResult) (h : Counted 1 c)
    (hfew : c.references + 1 + 2 * (Event.received result).calls < 2 ^ 31) :
    ∃ d, handleRead result c = some d ∧ Counted 0 d ∧
      d.references ≤ c.references + 2 * (Event.received result).calls := by
  refine finish_spec (by omega) ?_
  cases result with
  | canceled => exact ⟨c, rfl, h, Nat.le_add_right _ _⟩
  | eof calls | error calls =>
    simp only [Event.calls] at hfew ⊢
    exact makeAll_spec calls h Nat.one_pos hfew
  | data onData =>
    simp only [Event.calls] at hfew ⊢
    obtain ⟨d, hd, h1, hrefs⟩ := receive_spec h (Nat.succ_pos _)
    obtain ⟨e, he, h2, hle⟩ := makeAll_spec onData h1 Nat.one_pos (by omega)
    exact ⟨e, by simp [hd, he], h2, by omega⟩

theorem decrementPending_spec {k : Nat} (h : Counted k c) (hwrites : 0 < c.writes) :
    ∃ d, { c with writes := c.writes - 1 }.decrementPending = some d ∧ Counted (k + 1) d ∧
      d.references + 1 = c.references := by
  have hdel := h.alive (by simp only [Channel.references]; omega)
  have hroom : (-2 ^ 31 : Int) ≤ c.txPending - 1 := by
    rw [h.pending]
    omega
  have hrefs : { c with writes := c.writes - 1, txPending := c.txPending - 1 }.references + 1 =
      c.references := by
    simp only [Channel.references]
    omega
  refine ⟨{ c with writes := c.writes - 1, txPending := c.txPending - 1 },
    if_pos ⟨hdel, hroom⟩, h.recount rfl (by omega) ?_, hrefs⟩
  simp only [h.pending]
  omega

theorem handleWrite_spec (error : Bool) {onError onReadyToSend : List Call} (h : Counted 0 c)
    (hwrites : 0 < c.writes)
    (hfew : c.references + 2 * (sizeAll onError + sizeAll onReadyToSend) < 2 ^ 31) :
    ∃ d, handleWrite error onError onReadyToSend { c with writes := c.writes - 1 } = some d ∧
      Counted 0 d ∧
      d.references ≤ c.references + 2 * (sizeAll onError + sizeAll onReadyToSend) := by
  obtain ⟨c1, hc1, h1, hrefs⟩ := decrementPending_spec h hwrites
  obtain ⟨c2, hc2, h2, hle2⟩ :=
    makeIf_spec error onError h1 (by omega)
  obtain ⟨c3, hc3, h3, hle3⟩ :=
    makeIf_spec (c2.txPending == 0) onReadyToSend h2 (by omega)
  obtain ⟨d, hd, h4, hle4⟩ := finish_spec (n := c3.references) (by omega) ⟨c3, rfl, h3, le_rfl⟩
  refine ⟨d, ?_, h4, by omega⟩
  have hpending : c2.pending = some c2.txPending := if_pos (h2.alive (Nat.succ_pos _))
  simp only [handleWrite, Option.bind_eq_bind, hc1, hc2, hc3, hpending, Option.bind_some]
  exact hd

/-- Every event that can happen works, and keeps the count. -/
theorem step_spec {e : Event} (h : Counted 0 c) (hpos : Possible c e) (hfew : Few c e) :
    ∃ d, step c e = some d ∧ Counted 0 d ∧ d.references < 2 ^ 31 := by
  unfold Few at hfew
  cases e with
  | call call =>
    have hlive : 0 < c.references + 0 := by
      by_contra h0
      have := h.deleted (by omega)
      simp only [Possible] at hpos
      omega
    obtain ⟨d, hd, h1, hle⟩ := make_spec call h hlive (by simpa [Event.calls] using hfew)
    exact ⟨d, (if_pos hpos).trans hd, h1, by simp only [Event.calls] at hfew; omega⟩
  | waited error onTimeout =>
    have hw : 0 < c.waits := hpos
    have hrefs : { c with waits := c.waits - 1 }.references + 1 = c.references := by
      simp only [Channel.references]
      omega
    have h1 : Counted 1 { c with waits := c.waits - 1 } := h.recount rfl hrefs h.pending
    simp only [Event.calls] at hfew
    obtain ⟨d, hd, h2, hle⟩ := handleWait_spec error onTimeout h1 (by omega)
    exact ⟨d, (if_pos hw).trans hd, h2, by omega⟩
  | written error onError onReadyToSend =>
    simp only [Event.calls] at hfew
    obtain ⟨d, hd, h1, hle⟩ := handleWrite_spec error h hpos hfew
    exact ⟨d, (if_pos hpos).trans hd, h1, Nat.lt_of_le_of_lt hle hfew⟩
  | received result =>
    have hr : 0 < c.reads := hpos
    have hrefs : { c with reads := c.reads - 1 }.references + 1 = c.references := by
      simp only [Channel.references]
      omega
    have h1 : Counted 1 { c with reads := c.reads - 1 } := h.recount rfl hrefs h.pending
    obtain ⟨d, hd, h2, hle⟩ := handleRead_spec result h1 (by omega)
    exact ⟨d, (if_pos hr).trans hd, h2, by omega⟩

theorem possible_of_step {e : Event} {d : Channel} (h : step c e = some d) : Possible c e := by
  by_contra hno
  cases e with
  | call call => exact absurd ((if_neg hno).symm.trans h) (by simp)
  | waited error onTimeout => exact absurd ((if_neg hno).symm.trans h) (by simp)
  | written error onError onReadyToSend => exact absurd ((if_neg hno).symm.trans h) (by simp)
  | received result => exact absurd ((if_neg hno).symm.trans h) (by simp)

end Handlers

/-! ## Every run of an accepted channel -/

/-- The counter of the channel shows its references. -/
def CountsReferences (c : Channel) : Prop := c.object.referenceCount.toInt = c.references

/-- What holds of a channel between two steps of the event loop. -/
structure Lifetime (c : Channel) : Prop where
  counts : CountsReferences c
  pending : c.txPending = c.writes
  /-- no operation that is outstanding finds the channel deleted, -/
  kept : 0 < c.waits + c.reads + c.writes → c.object.deletions = 0
  /-- and the channel is deleted once nothing refers to it -/
  deleted : c.object.deletions = 1 ↔
    c.isOpen = false ∧ c.waits = 0 ∧ c.reads = 0 ∧ c.writes = 0 ∧ c.handles = 0
  once : c.object.deletions ≤ 1
  /-- no handler and no call touches a deleted channel -/
  works : ∀ e, Possible c e → Few c e → ∃ d, step c e = some d

theorem lifetime_of_counted {c : Channel} (h : Counted 0 c) (hfew : c.references < 2 ^ 31) :
    Lifetime c where
  counts := h.counts.toInt hfew
  pending := h.pending
  kept hpos := h.alive (by simp only [Channel.references]; omega)
  deleted := by
    have hiff : c.references = 0 ↔
        c.isOpen = false ∧ c.waits = 0 ∧ c.reads = 0 ∧ c.writes = 0 ∧ c.handles = 0 := by
      unfold Channel.references
      cases c.isOpen
      · simp
        omega
      · simp
    rw [← hiff]
    exact ⟨h.counts.gone, h.deleted⟩
  once := h.counts.once
  works e hpos hfew := by
    obtain ⟨d, hd, -⟩ := step_spec h hpos hfew
    exact ⟨d, hd⟩

theorem accepted_spec (handles : Nat) (onConnect : List Call)
    (hfew : handles + 2 * (sizeAll onConnect + 2) < 2 ^ 31) :
    ∃ c, accepted handles onConnect = some c ∧ Counted 0 c ∧ c.references < 2 ^ 31 := by
  let c : Channel :=
    { object := { referenceCount := BitVec.ofNat 32 (handles + 1), deletions := 0 }
      isOpen := true
      txPending := 0
      handles, waits := 0, reads := 0, writes := 0 }
  have hcounts : c.object.Counts (handles + 1) := ⟨rfl, Nat.zero_le 1, by simp [c]⟩
  obtain ⟨o, ho, hocounts, -⟩ := hcounts.add rfl
  have hrefs : { c with object := o }.references = handles + 1 := by simp [Channel.references, c]
  have h1 : Counted 1 { c with object := o } := ⟨by rw [hrefs]; exact hocounts, by simp, rfl⟩
  obtain ⟨c2, hc2, h2, hle2⟩ := makeAll_spec onConnect h1 Nat.one_pos (by omega)
  obtain ⟨c3, hc3, h3, hrefs3⟩ := receive_spec h2 (Nat.succ_pos _)
  obtain ⟨o', ho', h4⟩ := removeReference_spec h3 (by omega)
  refine ⟨{ c3 with object := o' }, ?_, h4, ?_⟩
  · have hadd : c.addReference = some { c with object := o } := by
      simp [Channel.addReference, ho]
    simp only [c] at hadd
    simp only [accepted, Option.bind_eq_bind, hadd, hc2, hc3, ho', Option.bind_some, c]
  · simp only [Channel.references] at hrefs hle2 hrefs3 ⊢
    omega

theorem channel_lives_while_referenced (handles : Nat) (onConnect : List Call) (es : List Event)
    (hfew : handles + 2 * (sizeAll onConnect + 2) < 2 ^ 31) :
    ∃ c, accepted handles onConnect = some c ∧
      (Meets step Few c es → Always step Lifetime c es) := by
  obtain ⟨c, hc, h, hlt⟩ := accepted_spec handles onConnect hfew
  refine ⟨c, hc, fun hmeets => ?_⟩
  have hkeep : Always step (fun c => Counted 0 c ∧ c.references < 2 ^ 31) c es :=
    always_of_meets (fun c e d hc hf hd => by
      obtain ⟨d', hd', hcount⟩ := step_spec hc.1 (possible_of_step hd) hf
      obtain rfl : d' = d := Option.some.inj (hd'.symm.trans hd)
      exact hcount) ⟨h, hlt⟩ hmeets
  exact hkeep.mono fun c h => lifetime_of_counted h.1 h.2

/-- A channel that answers twice to what it reads, loses its last handle and closes because of an
error, with a write outstanding: it is deleted when the last operation has completed. -/
theorem channel_lives_while_referenced_example :
    ∃ c, accepted 0 [.copyHandle, .sendData] = some c ∧
      Always step Lifetime c
        [.received (.data [.sendData, .sendData]), .written false [] [], .call .dropHandle,
          .waited false [.close []], .written true [.close []] [.sendData], .waited true [],
          .received .canceled, .written true [] [.close []], .waited true [], .waited true [],
          .waited true []] := by
  obtain ⟨c, hc, h⟩ := channel_lives_while_referenced 0 [.copyHandle, .sendData]
    [.received (.data [.sendData, .sendData]), .written false [] [], .call .dropHandle,
      .waited false [.close []], .written true [.close []] [.sendData], .waited true [],
      .received .canceled, .written true [] [.close []], .waited true [], .waited true [],
      .waited true []] (by decide)
  have hstart : accepted 0 [.copyHandle, .sendData] = some
      { object := { referenceCount := 6, deletions := 0 }, isOpen := true, txPending := 1,
        handles := 1, waits := 2, reads := 1, writes := 1 } := by decide +kernel
  obtain rfl := Option.some.inj (hc.symm.trans hstart)
  exact ⟨_, hstart, h (by decide +kernel)⟩

/-! ## Where the counter comes round -/

/-- A channel with `n` writes under way. -/
def writing (n : Nat) : Channel where
  object := { referenceCount := BitVec.ofNat 32 (3 + 2 * n), deletions := 0 }
  isOpen := true
  txPending := n
  handles := 0
  waits := 1 + n
  reads := 1
  writes := n

theorem sendData_some {c : Channel} (hdel : c.object.deletions = 0)
    (hroom : c.txPending + 1 < 2 ^ 31) :
    sendData c = some { c with
      object := { c.object with referenceCount := c.object.referenceCount + 1 + 1 }
      waits := c.waits + 1
      txPending := c.txPending + 1
      writes := c.writes + 1 } := by
  have hroom' : c.txPending + 1 < 2147483648 := hroom
  simp [sendData, Channel.addReference, Object.addReference, Channel.incrementPending, hdel,
    hroom']

theorem step_writing {n : Nat} (hn : (n : Int) + 1 < 2 ^ 31) :
    step (writing n) (.call .sendData) = some (writing (n + 1)) := by
  have hcount : BitVec.ofNat 32 (3 + 2 * n) + 1 + 1 = BitVec.ofNat 32 (3 + 2 * (n + 1)) := by
    apply BitVec.eq_of_toNat_eq
    simp
    omega
  have hcall : ∀ c : Channel, c.object.deletions = 0 →
      step c (.call .sendData) = sendData c := fun c h => by simp [step, Call.make, h]
  rw [hcall (writing n) rfl, sendData_some (c := writing n) rfl hn]
  simp only [writing, hcount]
  rfl

theorem run_writing (n : Nat) (hn : n < 2 ^ 31) :
    run step (writing 0) (List.replicate n (.call .sendData)) = some (writing n) := by
  induction n with
  | zero => rfl
  | succ n ih =>
    rw [List.replicate_succ']
    exact run_snoc (ih (by omega)) (step_writing (by omega))

/-- With more than `2 ^ 30` writes outstanding, the counter of the channel is negative. -/
theorem reference_counter_comes_round :
    accepted 0 [] = some (writing 0) ∧
      ¬ Always step CountsReferences (writing 0)
        (List.replicate (2 ^ 30 - 1) (.call .sendData)) := by
  refine ⟨by decide, fun h => ?_⟩
  have hcount := h.of_run (run_writing (2 ^ 30 - 1) (by decide))
  simp only [CountsReferences, writing, Channel.references, BitVec.toInt_ofNat',
    Int.bmod_def] at hcount
  omega

end huasi.channel
