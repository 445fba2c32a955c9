-- The sending half of `ZWaveProtocol` (src/zwave/ZWaveProtocol.hpp and .cpp):
-- the queue of requests, the timeout timer with its retry counter, the send
-- buffer and the writes on the serial port. `none` stands for undefined
-- behaviour: the front of an empty queue.
import Huasi.WritePort

open huasi.write_port

namespace huasi.zwave

/-! ## Bytes -/

/-- Start of frame. -/
def SOF : UInt8 := 0x01

/-- Acknowledge. -/
def ACK : UInt8 := 0x06

/-- Not acknowledge. -/
def NACK : UInt8 := 0x15

/-- Cancel. -/
def CAN : UInt8 := 0x18

/-- The frame type of a request. -/
def REQUEST : UInt8 := 0x00

/-- The frame type of a response. -/
def RESPONSE : UInt8 := 0x01

/-- The most bytes that `getRequest` may write. -/
def MAX_REQUEST_LENGTH : Nat := 250

/-- The xor of the first `length` bytes, from 0xff. -/
def calcChecksum (data : List UInt8) (length : Nat) : UInt8 :=
  (data.take length).foldl (fun checksum b => checksum ^^^ b) 0xff

/-- An array of 256 bytes. -/
structure Buffer where
  bytes : List UInt8
  size_eq : bytes.length = 256

/-- Write bytes into the array, from index `i` on. A write past the end cannot be stated. -/
def Buffer.store (b : Buffer) (i : Nat) (data : List UInt8) (h : i + data.length ≤ 256) : Buffer :=
  ⟨b.bytes.take i ++ data ++ b.bytes.drop (i + data.length), by
    simp only [List.length_append, List.length_take, List.length_drop, b.size_eq]; omega⟩

/-! ## Requests -/

/-- A `Request` object. `data` is what `getRequest` writes. `funcId` is there for a
`SendRequest` only; its constructor does not set it, so it starts with any value. -/
structure Request where
  function : UInt8
  data : List UInt8
  data_le : data.length ≤ MAX_REQUEST_LENGTH
  funcId : Option UInt8

/-- A request in the queue. The ticket tells the objects apart: it is the number of the
requests that were enqueued before. -/
structure Entry where
  ticket : Nat
  request : Request

/-- `sr->funcId = funcId`, for a `SendRequest`. -/
def Request.assign (r : Request) (funcId : UInt8) : Request :=
  { r with funcId := r.funcId.map fun _ => funcId }

/-- The local `length` of `sendRequest()` when it computes the checksum. -/
def Request.length (r : Request) : Nat := 4 + r.data.length + r.funcId.toList.length

theorem Request.length_le (r : Request) : r.length ≤ 255 := by
  have hd := r.data_le
  have hf : r.funcId.toList.length ≤ 1 := by cases r.funcId <;> simp
  unfold MAX_REQUEST_LENGTH at hd
  unfold Request.length
  omega

theorem Request.data_fits (r : Request) : 4 + r.data.length ≤ 256 := by
  have hl := r.length_le
  unfold Request.length at hl
  omega

theorem Request.funcId_fits (r : Request) :
    4 + r.data.length + r.funcId.toList.length ≤ 256 :=
  Nat.le_succ_of_le r.length_le

theorem Request.header_fits (r : Request) :
    0 + [SOF, UInt8.ofNat (r.length - 1), REQUEST, r.function].length ≤ 256 := by
  rw [List.length_cons, List.length_cons, List.length_cons, List.length_singleton]
  omega

theorem Request.checksum_fits (r : Request) (checksum : UInt8) :
    r.length + [checksum].length ≤ 256 :=
  Nat.succ_le_succ r.length_le

/-- What `sendRequest()` writes into `txBuffer`: the data of the request, its funcId, the
header and the checksum. -/
def Request.encode (r : Request) (txBuffer : Buffer) : Buffer :=
  let txBuffer := txBuffer.store 4 r.data r.data_fits
  let txBuffer := txBuffer.store (4 + r.data.length) r.funcId.toList r.funcId_fits
  let txBuffer := txBuffer.store 0 [SOF, UInt8.ofNat (r.length - 1), REQUEST, r.function]
    r.header_fits
  let checksum := calcChecksum (txBuffer.bytes.drop 1) (r.length - 1)
  txBuffer.store r.length [checksum] (r.checksum_fits checksum)

/-! ## The application -/

/-- An `error_code`: of the ZWave category (1 for a NACK, 2 for a timeout), or of the system. -/
inductive Error where
  | zWaveCategory (value : Nat)
  | system (value : Int)
deriving DecidableEq

/-- The virtual functions. Each one sees the state of the application, changes it, and calls
`sendRequest` for a list of new requests. A callback of a request gets the request, the bytes
that its pointer and its length name, and the length. -/
structure Application (σ : Type) where
  onResponse : σ → Entry → List UInt8 → Int → σ × List Request
  onSendRequest : σ → Entry → List UInt8 → Int → σ × List Request
  onRequest : σ → List UInt8 → Int → σ × List Request
  onError : σ → Error → σ × List Request

/-- The application, and whether `cancel` still reaches a wait whose expiry is queued. As asio
documents it, it does not. -/
structure Env (σ : Type) where
  app : Application σ
  cancelsQueued : Bool

/-! ## The timer -/

/-- The waits on `txTimer`, each with the ticket of the request whose transmission started it:
those that still wait, and those whose expiry is queued for their handler. A wait that was
cancelled is gone, because its handler does nothing. -/
structure Timer where
  pending : List Nat
  expired : List Nat

def Timer.cancel (cancelsQueued : Bool) (t : Timer) : Timer :=
  { pending := [], expired := if cancelsQueued then [] else t.expired }

def Timer.asyncWait (t : Timer) (owner : Nat) : Timer :=
  { t with pending := t.pending ++ [owner] }

/-- The time is over: the waits queue for their handler. -/
def Timer.expire (t : Timer) : Timer := { pending := [], expired := t.expired ++ t.pending }

/-- Every wait whose handler has not run. -/
def Timer.waits (t : Timer) : List Nat := t.pending ++ t.expired

/-! ## The state -/

/-- The buffers that are written to the port. -/
inductive Source where
  | ack
  | nack
  | txBuffer
deriving DecidableEq

/-- What the protocol does, in order. -/
inductive Effect where
  | enqueue (ticket : Nat) (request : Request)
  | transmit (ticket : Nat) (funcId : Option UInt8) (frame : List UInt8)
  | complete (ticket : Nat)
  | drop (ticket : Nat)
  | ack
  | nack
  | ackReceived
  | onResponse (ticket : Nat) (data : List UInt8) (length : Int)
  | onSendRequest (ticket : Nat) (data : List UInt8) (length : Int)
  | onRequest (data : List UInt8) (length : Int)
  | onError (error : Error)

/-- The members of `ZWaveProtocol` that sending uses, the state of the application, the number
of requests so far, and the log of the effects. -/
structure Tx (σ : Type) where
  requests : List Entry
  txBuffer : Buffer
  txTimer : Timer
  txRetryCount : Nat
  nextFuncId : UInt8
  tty : Port Source UInt8
  app : σ
  tickets : Nat
  log : List Effect

variable {σ : Type}

def Tx.emit (s : Tx σ) (x : Effect) : Tx σ := { s with log := s.log ++ [x] }

def Tx.memory (s : Tx σ) : Source → List UInt8
  | .ack => [ACK]
  | .nack => [NACK]
  | .txBuffer => s.txBuffer.bytes

/-- `asio::async_write(tty, asio::buffer(source, size), ..)`. -/
def Tx.asyncWrite (s : Tx σ) (source : Source) (size : Nat) : Tx σ :=
  { s with tty := s.tty.asyncWrite s.memory source size }

def Tx.sendAck (s : Tx σ) : Tx σ := (s.asyncWrite .ack 1).emit .ack

def Tx.sendNack (s : Tx σ) : Tx σ := (s.asyncWrite .nack 1).emit .nack

/-- The value of `nextFuncId` after one use. -/
def advance (nextFuncId : UInt8) : UInt8 :=
  if nextFuncId < 0xff then nextFuncId + 1 else 1

/-- `sendRequest()` with the front of the queue at hand. -/
def Tx.transmit (env : Env σ) (s : Tx σ) (front : Entry) (rest : List Entry) : Tx σ :=
  let request := front.request.assign s.nextFuncId
  let txBuffer := request.encode s.txBuffer
  -- start timeout timer: `expires_from_now` cancels the waits that are there
  let txTimer := (s.txTimer.cancel env.cancelsQueued).asyncWait front.ticket
  let s := { s with
    requests := { front with request } :: rest
    txBuffer, txTimer
    nextFuncId := if request.funcId.isSome then advance s.nextFuncId else s.nextFuncId }
  (s.asyncWrite .txBuffer (request.length + 1)).emit
    (.transmit front.ticket request.funcId (txBuffer.bytes.take (request.length + 1)))

/-- `sendRequest()`: send the front of the queue. -/
def Tx.sendRequest (env : Env σ) (s : Tx σ) : Option (Tx σ) :=
  match s.requests with
  | [] => none
  | front :: rest => some (s.transmit env front rest)

/-- `requests.push_back(request)`. -/
def Tx.push (s : Tx σ) (request : Request) : Tx σ :=
  let s' : Tx σ := { s with
    requests := s.requests ++ [⟨s.tickets, request⟩]
    tickets := s.tickets + 1 }
  s'.emit (.enqueue s.tickets request)

/-- `sendRequest(ptr<Request> request)`. -/
def Tx.sendRequestPtr (env : Env σ) (s : Tx σ) (request : Request) : Option (Tx σ) :=
  let s := s.push request
  if s.requests.length = 1 then s.sendRequest env else some s

/-- A callback returned: its new state, and its calls of `sendRequest`, one after the other. -/
def Tx.answer (env : Env σ) (s : Tx σ) (out : σ × List Request) : Option (Tx σ) :=
  out.2.foldlM (Tx.sendRequestPtr env) { s with app := out.1 }

def Tx.onResponse (env : Env σ) (s : Tx σ) (e : Entry) (data : List UInt8) (length : Int) :
    Option (Tx σ) :=
  (s.emit (.onResponse e.ticket data length)).answer env
    (env.app.onResponse s.app e data length)

def Tx.onSendRequest (env : Env σ) (s : Tx σ) (e : Entry) (data : List UInt8) (length : Int) :
    Option (Tx σ) :=
  (s.emit (.onSendRequest e.ticket data length)).answer env
    (env.app.onSendRequest s.app e data length)

def Tx.onRequest (env : Env σ) (s : Tx σ) (data : List UInt8) (length : Int) : Option (Tx σ) :=
  (s.emit (.onRequest data length)).answer env (env.app.onRequest s.app data length)

def Tx.onError (env : Env σ) (s : Tx σ) (error : Error) : Option (Tx σ) :=
  (s.emit (.onError error)).answer env (env.app.onError s.app error)

/-- `requests.pop_front()`, with what the log says about it. -/
def Tx.pop (s : Tx σ) (rest : List Entry) (x : Effect) : Tx σ :=
  ({ s with requests := rest } : Tx σ).emit x

/-- `resendRequest(error)`. -/
def Tx.resendRequest (env : Env σ) (s : Tx σ) (error : Nat) : Option (Tx σ) :=
  let s := { s with txRetryCount := s.txRetryCount + 1 }
  if s.txRetryCount < 3 then
    s.sendRequest env
  else
    match s.requests with
    | [] => none
    | front :: rest =>
      let s := ({ s with txRetryCount := 0 } : Tx σ).pop rest (.drop front.ticket)
      s.onError env (.zWaveCategory error)

/-- `txTimer.cancel(); txRetryCount = ..`, as on an acknowledgement. -/
def Tx.cancel (env : Env σ) (s : Tx σ) (txRetryCount : Nat) : Tx σ :=
  { s with txTimer := s.txTimer.cancel env.cancelsQueued, txRetryCount }

/-! ## The events of the sending half -/

/-- A call of the application, an expiry of the timer, a handler of a queued expiry, and the
transfers and completions of the writes. -/
inductive TxEvent where
  | sendRequest (request : Request)
  | expire
  | timer (i : Nat)
  | transfer (k : Nat)
  | written (i : Nat)
  | writeError (value : Int)

/-- One event. An event that cannot happen in the state changes nothing: a handler of an expiry
that is not queued, a failed transfer with no write in the queue. -/
def Tx.step (env : Env σ) (s : Tx σ) : TxEvent → Option (Tx σ)
  | .sendRequest request => s.sendRequestPtr env request
  | .expire => some { s with txTimer := s.txTimer.expire }
  | .timer i =>
    match s.txTimer.expired[i]? with
    | none => some s
    | some _ =>
      -- timer expired before response (ACK or NACK) was received
      let txTimer := { s.txTimer with expired := s.txTimer.expired.eraseIdx i }
      ({ s with txTimer } : Tx σ).resendRequest env 2
  | .transfer k => some { s with tty := s.tty.transfer s.memory k }
  | .written i => some { s with tty := s.tty.completion i }
  | .writeError value =>
    match s.tty.queue with
    | [] => some s
    | _ :: rest =>
      ({ s with tty := { s.tty with queue := rest } } : Tx σ).onError env (.system value)

end huasi.zwave
