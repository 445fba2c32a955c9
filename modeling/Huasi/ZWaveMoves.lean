-- Everything that the protocol does to its sending half is a row of small
-- moves: a request is enqueued, the front is sent, the front leaves, and so
-- on. What each move keeps, every run keeps.
import Huasi.ZWaveSteps

open huasi.runs

namespace huasi.zwave

variable {σ : Type} {env : Env σ}

/-- Effects that say nothing about the queue and write nothing. -/
def Effect.Note : Effect → Prop
  | .ackReceived | .onResponse .. | .onSendRequest .. | .onRequest .. | .onError _ => True
  | _ => False

/-- One small move. -/
inductive Move (env : Env σ) : Tx σ → Tx σ → Prop where
  | push (s : Tx σ) (r : Request) : Move env s (s.push r)
  | transmit {s : Tx σ} {front rest} (h : s.requests = front :: rest) :
      Move env s (s.transmit env front rest)
  | complete {s : Tx σ} {front rest} (h : s.requests = front :: rest) :
      Move env s (s.pop rest (.complete front.ticket))
  | drop {s : Tx σ} {front rest} (h : s.requests = front :: rest) :
      Move env s (s.pop rest (.drop front.ticket))
  | sendAck (s : Tx σ) : Move env s s.sendAck
  | sendNack (s : Tx σ) : Move env s s.sendNack
  | note (s : Tx σ) (x : Effect) (hx : x.Note) : Move env s (s.emit x)
  | app (s : Tx σ) (a : σ) : Move env s { s with app := a }
  | retry (s : Tx σ) (n : Nat) : Move env s { s with txRetryCount := n }
  | timer (s : Tx σ) {t : Timer} (h : t.waits ⊆ s.txTimer.waits) :
      Move env s { s with txTimer := t }

/-- A row of moves. -/
abbrev Moves (env : Env σ) : Tx σ → Tx σ → Prop := Relation.ReflTransGen (Move env)

theorem Moves.keeps {P : Tx σ → Prop} (hmove : ∀ s s', P s → Move env s s' → P s')
    {s s' : Tx σ} (h : Moves env s s') (hs : P s) : P s' := by
  induction h with
  | refl => exact hs
  | tail _ hm ih => exact hmove _ _ ih hm

/-- The log only grows. -/
theorem Moves.log_grows {s s' : Tx σ} (h : Moves env s s') : s.log <+: s'.log := by
  refine h.keeps (P := fun t => s.log <+: t.log) ?_ (List.prefix_refl _)
  intro t t' ht hm
  cases hm with
  | app => exact ht
  | retry => exact ht
  | timer => exact ht
  | _ => exact ht.trans (List.prefix_append _ _)

/-! ## Each function is a row of moves -/

theorem cancel_waits (c : Bool) (t : Timer) : (t.cancel c).waits ⊆ t.waits := by
  intro w hw
  unfold Timer.cancel Timer.waits at *
  cases c
  · exact List.mem_append_right _ (by simpa using hw)
  · simp at hw

theorem cancel_moves (s : Tx σ) (n : Nat) : Moves env s (s.cancel env n) :=
  .tail (.single (.retry s n)) (.timer _ (cancel_waits _ _))

theorem answer_moves {s s' : Tx σ} {out : σ × List Request} (h : s.answer env out = some s') :
    Moves env s s' := by
  apply answer_keeps h
  · exact .single (.app s out.1)
  · intro t r hm hr
    apply (hm.tail (.push t r)).tail
    exact .transmit (by simp [hr])
  · intro t r hm _
    exact hm.tail (.push t r)

theorem sendRequestPtr_moves {s s' : Tx σ} {r : Request} (h : s.sendRequestPtr env r = some s') :
    Moves env s s' := by
  rw [sendRequestPtr_eq, Option.some.injEq] at h
  subst h
  split
  · rename_i hr
    exact .tail (.single (.push s r)) (.transmit (by simp [hr]))
  · exact .single (.push s r)

theorem onResponse_moves {s s' : Tx σ} {e : Entry} {data : List UInt8} {length : Int}
    (h : s.onResponse env e data length = some s') : Moves env s s' :=
  .head (.note s (.onResponse e.ticket data length) trivial) (answer_moves h)

theorem onSendRequest_moves {s s' : Tx σ} {e : Entry} {data : List UInt8} {length : Int}
    (h : s.onSendRequest env e data length = some s') : Moves env s s' :=
  .head (.note s (.onSendRequest e.ticket data length) trivial) (answer_moves h)

theorem onRequest_moves {s s' : Tx σ} {data : List UInt8} {length : Int}
    (h : s.onRequest env data length = some s') : Moves env s s' :=
  .head (.note s (.onRequest data length) trivial) (answer_moves h)

theorem onError_moves {s s' : Tx σ} {error : Error} (h : s.onError env error = some s') :
    Moves env s s' :=
  .head (.note s (.onError error) trivial) (answer_moves h)

theorem resendRequest_moves {s s' : Tx σ} {error : Nat}
    (h : s.resendRequest env error = some s') : Moves env s s' := by
  obtain ⟨front, rest, hr, ⟨-, rfl⟩ | ⟨-, hcall⟩⟩ := resendRequest_cases h
  · exact .tail (.single (.retry s _)) (.transmit hr)
  · have hdrop : Moves env s
        (({ s with txRetryCount := 0 } : Tx σ).pop rest (.drop front.ticket)) :=
      .tail (.single (.retry s 0)) (.drop hr)
    exact hdrop.trans (onError_moves hcall)

theorem receiveNack_moves {s s' : Tx σ} (h : s.receiveNack env = some s') : Moves env s s' := by
  rcases receiveNack_cases h with ⟨-, rfl⟩ | ⟨-, hre⟩
  · exact cancel_moves s _
  · exact (cancel_moves s _).trans (resendRequest_moves hre)

theorem endProcedure_moves {s s' : Tx σ} {front : Entry} {rest : List Entry}
    (hr : s.requests = front :: rest) (h : s.endProcedure env front rest = some s') :
    Moves env s s' := by
  rw [endProcedure_eq, Option.some.injEq] at h
  subst h
  have hpop : Moves env s ((s.cancel env 0).pop rest (.complete front.ticket)) :=
    (cancel_moves s 0).tail (.complete hr)
  cases rest with
  | nil => exact hpop
  | cons next rest' => exact hpop.tail (.transmit rfl)

theorem receiveFrame_moves {s s' : Tx σ} {b : List UInt8} {length : Nat} (hb : b.length = 256)
    (h : s.receiveFrame env b length = some s') : Moves env s s' := by
  have hack : Moves env s s.sendAck := .single (.sendAck s)
  obtain ⟨_, _, _, -, -, -, hcase⟩ := receiveFrame_reads hb h
  cases hcase with
  | ended hr hf he hcall =>
    have hend := hack.trans (endProcedure_moves hr he)
    rcases hcall with ⟨-, -, hcall⟩ | ⟨-, -, hcall⟩
    · exact hend.trans (onResponse_moves hcall)
    · exact hend.trans (onSendRequest_moves hcall)
  | response hr hf ht hs hcall => exact hack.trans (onResponse_moves hcall)
  | ignored => exact hack
  | request hno ht hcall => exact hack.trans (onRequest_moves hcall)
  | nothing => exact hack

theorem reacts_moves {s s' : Tx σ} (h : Reacts env s s') : Moves env s s' := by
  cases h with
  | same => exact .refl
  | frame hb h => exact receiveFrame_moves hb h
  | sendNack => exact .single (.sendNack s)
  | receiveAck => exact (cancel_moves s 0).tail (.note _ .ackReceived trivial)
  | receiveNack h => exact receiveNack_moves h
  | error h => exact onError_moves h

theorem expire_waits (t : Timer) : t.expire.waits ⊆ t.waits := by
  intro w hw
  simp only [Timer.expire, Timer.waits, List.nil_append, List.mem_append] at hw ⊢
  exact hw.symm

/-- An event of the sending half changes the port, and then it is a row of moves. -/
theorem step_moves {s s' : Tx σ} {e : TxEvent} (h : s.step env e = some s') :
    ∃ tty, Moves env { s with tty } s' := by
  cases e with
  | sendRequest r => exact ⟨s.tty, sendRequestPtr_moves h⟩
  | expire =>
    cases h
    exact ⟨s.tty, .single (.timer s (expire_waits _))⟩
  | timer i =>
    refine ⟨s.tty, ?_⟩
    simp only [Tx.step] at h
    split at h
    · cases h
      exact .refl
    · refine .head (.timer s ?_) (resendRequest_moves h)
      intro w hw
      simp only [Timer.waits, List.mem_append] at hw ⊢
      exact hw.imp id fun hw => List.mem_of_mem_eraseIdx hw
  | transfer k =>
    cases h
    exact ⟨_, .refl⟩
  | written i =>
    cases h
    exact ⟨_, .refl⟩
  | writeError value =>
    simp only [Tx.step] at h
    split at h
    · cases h
      exact ⟨s.tty, .refl⟩
    · exact ⟨_, onError_moves h⟩

section Keeps

variable {P : Tx σ → Prop} (hmove : ∀ s s', P s → Move env s s' → P s')
  (htty : ∀ (s : Tx σ) tty, P s → P { s with tty })

include hmove htty

/-- What every move and every change of the port keep, every event keeps. -/
theorem step_of_moves (s : ZWaveProtocol σ) (e : Event) (s' : ZWaveProtocol σ) (hs : P s.tx)
    (h : step env s e = some s') : P s'.tx := by
  refine step_keeps ?_ ?_ s e s' hs h
  · intro s e s' hs h
    obtain ⟨tty, hm⟩ := step_moves h
    exact hm.keeps hmove (htty s tty hs)
  · intro s s' hs h
    exact (reacts_moves h).keeps hmove hs

/-- It always holds, when it holds at the start. -/
theorem always_of_moves {a : σ} {txBuffer rxBuffer : Buffer} (hinit : P (.init a txBuffer))
    (es : List Event) :
    Always (step env) (fun s => P s.tx) (init a txBuffer rxBuffer) es :=
  always_of_step (step_of_moves hmove htty) _ _ hinit

/-- It holds at each turn of each read of a run. -/
theorem turn_of_moves {a : σ} {txBuffer rxBuffer : Buffer} (hinit : P (.init a txBuffer))
    {es : List Event} {s : ZWaveProtocol σ}
    (hrun : run (step env) (init a txBuffer rxBuffer) es = some s)
    {bytes : List UInt8} {p : Bool × ZWaveProtocol σ} (hp : p ∈ readTurns env s bytes) :
    P p.2.tx := by
  have hs : P s.tx := (always_of_moves hmove htty hinit es).of_run hrun
  refine readTurns_keeps ?_ hs hp
  intro s s' hs h
  exact (reacts_moves h).keeps hmove hs

end Keeps

end huasi.zwave
