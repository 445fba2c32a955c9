-- The receiving half of `ZWaveProtocol` (src/zwave/ZWaveProtocol.cpp): the read
-- handler with its loop over the receive buffer, and the whole protocol as a
-- machine that handles one event after the other.
import Huasi.Runs
import Huasi.ZWaveTx

open huasi.runs

namespace huasi.zwave

variable {σ : Type}

/-! ## The receive buffer -/

/-- `rxBuffer` with `rxPosition`. -/
structure Rx where
  rxPosition : Nat
  rxBuffer : Buffer
  position_le : rxPosition ≤ 256

/-- The bytes that were received and not yet handled. -/
def Rx.unread (rx : Rx) : List UInt8 := rx.rxBuffer.bytes.take rx.rxPosition

/-- A read into the free part of the buffer. -/
def Rx.received (rx : Rx) (bytes : List UInt8) (h : rx.rxPosition + bytes.length ≤ 256) : Rx :=
  ⟨rx.rxPosition + bytes.length, rx.rxBuffer.store rx.rxPosition bytes h, h⟩

/-- `std::copy(rxBuffer + n, rxBuffer + rxPosition, rxBuffer); rxPosition -= n`. The range of the
copy must not be reversed. -/
def Rx.remove (rx : Rx) (n : Nat) : Option Rx :=
  if n ≤ rx.rxPosition then
    some ⟨rx.rxPosition - n,
      rx.rxBuffer.store 0 (rx.unread.drop n) (by
        have := rx.position_le
        simp only [Rx.unread, List.length_drop, List.length_take]
        omega),
      (Nat.sub_le _ _).trans rx.position_le⟩
  else none

/-- `rxPosition = 0`. -/
def Rx.clear (rx : Rx) : Rx := { rx with rxPosition := 0, position_le := Nat.zero_le _ }

/-! ## One frame -/

/-- The end of a request procedure: cancel timeout and reset retry count, remove the request
from the queue, and send the next one if there is one. -/
def Tx.endProcedure (env : Env σ) (s : Tx σ) (front : Entry) (rest : List Entry) :
    Option (Tx σ) :=
  let s := (s.cancel env 0).pop rest (.complete front.ticket)
  if rest.isEmpty then some s else s.sendRequest env

/-- The first frame of a read with the right checksum. It is acknowledged, and it goes to the
request at the front of the queue if that has its function. The fixed offsets 2, 3 and 4 of
`rxBuffer` are read whatever the length is. -/
def Tx.receiveFrame (env : Env σ) (s : Tx σ) (rxBuffer : List UInt8) (length : Nat) :
    Option (Tx σ) := do
  let frameType ← rxBuffer[2]?
  let function ← rxBuffer[3]?
  let id ← rxBuffer[4]?
  let s := s.sendAck
  match s.requests.head? with
  | some front =>
    if front.request.function = function then
      let isResponse := decide (frameType = RESPONSE)
      let isRequest := decide (frameType = REQUEST) && decide (front.request.funcId = some id)
      (if (isResponse && front.request.funcId.isNone) || isRequest then
        s.endProcedure env front s.requests.tail
      else some s).bind fun s =>
      if isResponse then
        s.onResponse env front ((rxBuffer.drop 4).take (length - 3)) ((length : Int) - 3)
      else if isRequest then
        s.onSendRequest env front ((rxBuffer.drop 4).take (length - 3)) ((length : Int) - 3)
      else some s
    else if frameType = REQUEST then
      s.onRequest env ((rxBuffer.drop 3).take (length - 2)) ((length : Int) - 2)
    else some s
  | none =>
    if frameType = REQUEST then
      s.onRequest env ((rxBuffer.drop 3).take (length - 2)) ((length : Int) - 2)
    else some s

/-! ## The read handler -/

/-- `ZWaveProtocol`. `receiving` says that an `async_read_some` is outstanding. -/
structure ZWaveProtocol (σ : Type) where
  tx : Tx σ
  rx : Rx
  receiving : Bool

/-- A turn of the loop with SOF at the head of the buffer. -/
def turnFrame (env : Env σ) (frame : Bool) (s : ZWaveProtocol σ) :
    Option (Turn (Bool × ZWaveProtocol σ)) :=
  let rxBuffer := s.rx.rxBuffer.bytes
  if 3 ≤ s.rx.rxPosition then do
    -- check if frame is complete
    let length := (← rxBuffer[1]?).toNat
    if 2 + length ≤ s.rx.rxPosition then
      -- check if checksum is ok
      let checksum := calcChecksum (rxBuffer.drop 1) length
      if (← rxBuffer[2 + length - 1]?) = checksum then
        let tx ← if frame then some s.tx else s.tx.receiveFrame env rxBuffer length
        let rx ← s.rx.remove (2 + length)
        some (.again (true, { s with tx, rx }))
      else
        some (.again (frame, { s with tx := s.tx.sendNack, rx := s.rx.clear }))
    else
      some .leave
  else
    some .leave

/-- NACK: cancel timeout and resend the request. -/
def Tx.receiveNack (env : Env σ) (s : Tx σ) : Option (Tx σ) :=
  let s := s.cancel env s.txRetryCount
  if s.requests.isEmpty then some s else s.resendRequest env 1

/-- ACK: cancel timeout and reset retry count. -/
def Tx.receiveAck (env : Env σ) (s : Tx σ) : Tx σ := (s.cancel env 0).emit .ackReceived

/-- One turn of `while (rxPosition > 0)`. `frame` says that a frame came before in this read. -/
def turn (env : Env σ) : Bool × ZWaveProtocol σ → Option (Turn (Bool × ZWaveProtocol σ))
  | (frame, s) => do
    let messageType ← s.rx.rxBuffer.bytes[0]?
    if messageType = SOF then
      turnFrame env frame s
    else if messageType = ACK then
      let rx ← s.rx.remove 1
      some (.again (frame, { s with tx := s.tx.receiveAck env, rx }))
    else if messageType = NACK then
      let rx ← s.rx.remove 1
      let tx ← s.tx.receiveNack env
      some (.again (frame, { s with tx, rx }))
    else if messageType = CAN then
      let rx ← s.rx.remove 1
      some (.again (frame, { s with rx }))
    else
      -- unknown
      some (.again (frame, { s with rx := s.rx.clear }))

/-- The guard of the loop. -/
def unfinished (s : Bool × ZWaveProtocol σ) : Bool := decide (0 < s.2.rx.rxPosition)

/-- The handler of a read, with the bytes already in the buffer. Each turn takes a byte away at
least, so there are no more turns than bytes. -/
def handleRead (env : Env σ) (s : ZWaveProtocol σ) : Option (ZWaveProtocol σ) :=
  (loop unfinished (turn env) s.rx.rxPosition (false, s)).map (·.2)

/-! ## The events -/

/-- An event of the sending half, or the completion of a read. -/
inductive Event where
  | tx (e : TxEvent)
  | read (bytes : List UInt8)
  | readError (value : Int)

/-- The state with the bytes of a read in the buffer. -/
def ZWaveProtocol.received (s : ZWaveProtocol σ) (bytes : List UInt8)
    (h : s.rx.rxPosition + bytes.length ≤ 256) : ZWaveProtocol σ :=
  { s with rx := s.rx.received bytes h }

/-- One event. A read never delivers more than the free part of the buffer, and nothing is read
after a read failed: such an event changes nothing. -/
def step (env : Env σ) (s : ZWaveProtocol σ) : Event → Option (ZWaveProtocol σ)
  | .tx e => (s.tx.step env e).map fun tx => { s with tx }
  | .read bytes =>
    if h : s.receiving = true ∧ s.rx.rxPosition + bytes.length ≤ 256 then
      handleRead env (s.received bytes h.2)
    else some s
  | .readError value =>
    if s.receiving then
      (s.tx.onError env (.system value)).map fun tx => { s with tx, receiving := false }
    else some s

/-- The sending half after construction. The send buffer holds any bytes. -/
def Tx.init (a : σ) (txBuffer : Buffer) : Tx σ where
  requests := []
  txBuffer := txBuffer
  txTimer := ⟨[], []⟩
  txRetryCount := 0
  nextFuncId := 1
  tty := .empty
  app := a
  tickets := 0
  log := []

/-- The state after construction. The buffers hold any bytes. -/
def init (a : σ) (txBuffer rxBuffer : Buffer) : ZWaveProtocol σ where
  tx := .init a txBuffer
  rx := ⟨0, rxBuffer, Nat.zero_le _⟩
  receiving := true

end huasi.zwave
