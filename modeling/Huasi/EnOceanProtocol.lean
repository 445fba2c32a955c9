-- The receiving half of `EnOceanProtocol` (src/src/enocean/EnOceanProtocol.cpp): the
-- read handler with its loop over the receive buffer, and the whole protocol as a
-- machine that handles one event after the other.
import Huasi.EnOceanTx
import Huasi.Runs

open huasi.receive_buffer huasi.runs

namespace huasi.enocean

variable {σ : Type}

/-! ## One packet -/

/-- Cancel timeout and reset retry count. -/
def Tx.cancel (env : Env σ) (s : Tx σ) : Tx σ :=
  { s with txTimer := s.txTimer.cancel env.cancelsQueued, txRetryCount := 0 }

/-- A packet with the right checksums. -/
def Tx.receivePacket (env : Env σ) (s : Tx σ) (packetType : UInt8)
    (data optionalData : List UInt8) : Option (Tx σ) :=
  let s := s.cancel env
  match s.requests with
  | front :: _ =>
    -- check if this is a response to a pending request
    if packetType = RESPONSE then do
      let s ← s.onResponse env front data optionalData
      match s.requests with
      | [] => none
      | front :: rest =>
        -- remove request from queue, send next request if there is one in the queue
        let s := s.pop rest (.complete front.ticket)
        if rest.isEmpty then some s else s.sendRequest env
    else s.onRequest env packetType data optionalData
  | [] => s.onRequest env packetType data optionalData

/-! ## The read handler -/

/-- `EnOceanProtocol`. `receiving` says that an `async_read_some` is outstanding. -/
structure EnOceanProtocol (σ : Type) where
  tx : Tx σ
  rx : Rx UInt8 BUFFER_SIZE
  receiving : Bool

/-- One turn of `while (rxPosition > 6)`. -/
def turn (env : Env σ) (s : EnOceanProtocol σ) : Option (Turn (EnOceanProtocol σ)) := do
  let rxBuffer := s.rx.buffer.elements
  -- check if header is ok
  if (← rxBuffer[0]?) = 0x55 ∧ calcChecksum (rxBuffer.drop 1) 4 = (← rxBuffer[5]?) then
    let dataLength := (← rxBuffer[1]?).toNat <<< 8 ||| (← rxBuffer[2]?).toNat
    let optionalLength := (← rxBuffer[3]?).toNat
    let length := dataLength + optionalLength
    let packetType ← rxBuffer[4]?
    -- check if complete frame has arrived
    if 6 + length + 1 ≤ s.rx.position then
      -- check if frame is ok
      if calcChecksum (rxBuffer.drop 6) length = (← rxBuffer[6 + length]?) then
        let tx ← s.tx.receivePacket env packetType ((rxBuffer.drop 6).take dataLength)
          ((rxBuffer.drop (6 + dataLength)).take optionalLength)
        -- remove frame from buffer
        let rx ← s.rx.remove (6 + length + 1)
        some (.again { s with tx, rx })
      else
        some (.again { s with rx := s.rx.clear })
    else
      some .leave
  else
    some (.again { s with rx := s.rx.clear })

/-- The guard of the loop. -/
def unfinished (s : EnOceanProtocol σ) : Bool := decide (6 < s.rx.position)

/-- The handler of a read, with the bytes already in the buffer. Each turn takes a byte away at
least, so there are no more turns than bytes. -/
def handleRead (env : Env σ) (s : EnOceanProtocol σ) : Option (EnOceanProtocol σ) :=
  loop unfinished (turn env) s.rx.position s

/-! ## The events -/

/-- An event of the sending half, or the completion of a read. -/
inductive Event where
  | tx (e : TxEvent)
  | read (bytes : List UInt8)
  | readError (value : Int)

/-- The state with the bytes of a read in the buffer. -/
def EnOceanProtocol.received (s : EnOceanProtocol σ) (bytes : List UInt8)
    (h : s.rx.position + bytes.length ≤ BUFFER_SIZE) : EnOceanProtocol σ :=
  { s with rx := s.rx.received bytes h }

/-- One event. A read never delivers more than the free part of the buffer, and nothing is read
after a read failed: such an event changes nothing. -/
def step (env : Env σ) (s : EnOceanProtocol σ) : Event → Option (EnOceanProtocol σ)
  | .tx e => (s.tx.step env e).map fun tx => { s with tx }
  | .read bytes =>
    if h : s.receiving = true ∧ s.rx.position + bytes.length ≤ BUFFER_SIZE then
      handleRead env (s.received bytes h.2)
    else some s
  | .readError value =>
    if s.receiving then
      (s.tx.onError env (.system value)).map fun tx => { s with tx, receiving := false }
    else some s

/-- The sending half after construction. The send buffer holds any bytes. -/
def Tx.init (a : σ) (txBuffer : Buffer UInt8 BUFFER_SIZE) : Tx σ where
  requests := []
  txBuffer := txBuffer
  txTimer := ⟨[], []⟩
  txRetryCount := 0
  tty := .empty
  app := a
  tickets := 0
  log := []

/-- The state after construction. The buffers hold any bytes. -/
def init (a : σ) (txBuffer rxBuffer : Buffer UInt8 BUFFER_SIZE) : EnOceanProtocol σ where
  tx := .init a txBuffer
  rx := ⟨0, rxBuffer, Nat.zero_le _⟩
  receiving := true

end huasi.enocean
