-- What a Channel writes to its socket (src/src/Channel.cpp): sendData copies the
-- payload and starts a write at once, so several writes can be under way, and
-- the rest of a partial write queues behind the writes that started after it.
import Huasi.Runs
import Huasi.WritePort

open huasi.runs huasi.write_port

namespace huasi.channel_output

/-! ## The writes of a channel -/

/-- A buffer that `sendData` allocated: the number of the call, and the copy of the data. -/
structure Buffer where
  number : Nat
  data : List UInt8
deriving DecidableEq, Repr

/-- The socket, with the writes of the channel. -/
abbrev Socket := Port Buffer UInt8

/-- An open socket that nothing was written to. -/
def Socket.new : Socket := Port.empty

/-- `sendData`: `asio::async_write` of a new buffer. -/
def sendData (data : List UInt8) (s : Socket) : Socket :=
  s.asyncWrite Buffer.data { number := s.started.length, data } data.length

/-- The calls of `sendData`, and what `async_write` does for each write: a transfer of the first
`async_write_some` in the queue of the socket moves `k` bytes, and the completion of a transfer
starts the next one or ends the write. -/
inductive Event where
  | sendData (data : List UInt8)
  | transfer (k : Nat)
  | completion (i : Nat)
deriving DecidableEq, Repr

def step (s : Socket) : Event → Option Socket
  | .sendData data => some (channel_output.sendData data s)
  | .transfer k => some (s.transfer Buffer.data k)
  | .completion i => some (s.completion i)

/-- The socket got a prefix of the payloads, in the order of the calls. -/
def InOrder (s : Socket) : Prop := s.sent <+: s.started.flatten

/-- Where the event moves bytes, every write that started before the one that they belong to has
moved all of its bytes. -/
def InTurn (s : Socket) : Event → Prop
  | .transfer k => ∀ w ∈ s.queue.head?, 0 < k → w.total + k ≤ w.size →
      ∀ v ∈ s.incomplete, v.source.number < w.source.number → v.total = v.size
  | _ => True

/-! ## Runs of writes in turn -/

/-- The rests of the writes, in the order of the calls, are what the socket lacks. -/
def Ordered (s : Socket) : Prop := ∃ left, Numbered Buffer.number Buffer.data s left

theorem ordered_new : Ordered Socket.new := ⟨_, numbered_empty⟩

theorem Ordered.inOrder {s : Socket} (h : Ordered s) : InOrder s := by
  obtain ⟨left, h⟩ := h
  exact h.sent_prefix

theorem step_ordered {s t : Socket} {e : Event} (h : Ordered s) (hturn : InTurn s e)
    (ht : step s e = some t) : Ordered t := by
  obtain ⟨left, h⟩ := h
  cases e with
  | sendData data =>
    obtain rfl := Option.some.inj ht
    exact ⟨_, h.asyncWrite { number := s.started.length, data } rfl⟩
  | transfer k =>
    obtain rfl := Option.some.inj ht
    refine h.transfer k fun w hw hk hle v hv hlt => ?_
    have hlen := (h.kept v hv).2
    rw [Write.rest, hturn w hw hk hle v hv hlt, ← hlen, List.drop_length]
  | completion i =>
    obtain rfl := Option.some.inj ht
    exact ⟨left, h.completion i⟩

theorem output_in_order_of_turns (es : List Event) (hturn : Meets step InTurn Socket.new es) :
    Always step InOrder Socket.new es :=
  (always_of_meets (fun _ _ _ h hc ht => step_ordered h hc ht) ordered_new hturn).mono
    fun _ => Ordered.inOrder

instance (s : Socket) (e : Event) : Decidable (InTurn s e) :=
  match e with
  | .transfer k => inferInstanceAs (Decidable (∀ w ∈ s.queue.head?, 0 < k →
      w.total + k ≤ w.size → ∀ v ∈ s.incomplete, v.source.number < w.source.number →
        v.total = v.size))
  | .sendData _ | .completion _ => inferInstanceAs (Decidable True)

instance (s : Socket) : Decidable (InOrder s) := inferInstanceAs (Decidable (_ <+: _))

/-- Head and body of a response, the head in two parts: the second part of the head moves before
the body does. -/
theorem output_in_order_of_turns_example :
    Always step InOrder Socket.new
      [.sendData [1, 2, 3], .transfer 1, .completion 0, .sendData [4, 5], .transfer 2, .transfer 2,
        .completion 1, .completion 0] :=
  output_in_order_of_turns _ (by decide)

/-- The body is there before the head is through: its bytes come between those of the head. -/
theorem body_overtakes_head :
    ¬ Always step InOrder Socket.new
      [.sendData [1, 2, 3], .sendData [4, 5], .transfer 1, .completion 0, .transfer 2] := by
  decide

end huasi.channel_output
