-- The sending half of `EnOceanProtocol` (src/src/enocean/EnOceanProtocol.hpp and .cpp):
-- packets and their checksums, the queue of requests, the timeout timer with its
-- retry counter and the send buffer. `none` stands for the front of an empty queue.
import Huasi.ReceiveBuffer
import Huasi.ZWaveTx

open huasi.receive_buffer huasi.write_port
open huasi.zwave (Timer)

namespace huasi.enocean

/-! ## Checksums -/

def crc8Table : List UInt8 := [
  0x00, 0x07, 0x0e, 0x09, 0x1c, 0x1b, 0x12, 0x15, 0x38, 0x3f, 0x36, 0x31, 0x24, 0x23, 0x2a, 0x2d,
  0x70, 0x77, 0x7e, 0x79, 0x6c, 0x6b, 0x62, 0x65, 0x48, 0x4f, 0x46, 0x41, 0x54, 0x53, 0x5a, 0x5d,
  0xe0, 0xe7, 0xee, 0xe9, 0xfc, 0xfb, 0xf2, 0xf5, 0xd8, 0xdf, 0xd6, 0xd1, 0xc4, 0xc3, 0xca, 0xcd,
  0x90, 0x97, 0x9e, 0x99, 0x8c, 0x8b, 0x82, 0x85, 0xa8, 0xaf, 0xa6, 0xa1, 0xb4, 0xb3, 0xba, 0xbd,
  0xc7, 0xc0, 0xc9, 0xce, 0xdb, 0xdc, 0xd5, 0xd2, 0xff, 0xf8, 0xf1, 0xf6, 0xe3, 0xe4, 0xed, 0xea,
  0xb7, 0xb0, 0xb9, 0xbe, 0xab, 0xac, 0xa5, 0xa2, 0x8f, 0x88, 0x81, 0x86, 0x93, 0x94, 0x9d, 0x9a,
  0x27, 0x20, 0x29, 0x2e, 0x3b, 0x3c, 0x35, 0x32, 0x1f, 0x18, 0x11, 0x16, 0x03, 0x04, 0x0d, 0x0a,
  0x57, 0x50, 0x59, 0x5e, 0x4b, 0x4c, 0x45, 0x42, 0x6f, 0x68, 0x61, 0x66, 0x73, 0x74, 0x7d, 0x7a,
  0x89, 0x8e, 0x87, 0x80, 0x95, 0x92, 0x9b, 0x9c, 0xb1, 0xb6, 0xbf, 0xb8, 0xad, 0xaa, 0xa3, 0xa4,
  0xf9, 0xfe, 0xf7, 0xf0, 0xe5, 0xe2, 0xeb, 0xec, 0xc1, 0xc6, 0xcf, 0xc8, 0xdd, 0xda, 0xd3, 0xd4,
  0x69, 0x6e, 0x67, 0x60, 0x75, 0x72, 0x7b, 0x7c, 0x51, 0x56, 0x5f, 0x58, 0x4d, 0x4a, 0x43, 0x44,
  0x19, 0x1e, 0x17, 0x10, 0x05, 0x02, 0x0b, 0x0c, 0x21, 0x26, 0x2f, 0x28, 0x3d, 0x3a, 0x33, 0x34,
  0x4e, 0x49, 0x40, 0x47, 0x52, 0x55, 0x5c, 0x5b, 0x76, 0x71, 0x78, 0x7f, 0x6a, 0x6d, 0x64, 0x63,
  0x3e, 0x39, 0x30, 0x37, 0x22, 0x25, 0x2c, 0x2b, 0x06, 0x01, 0x08, 0x0f, 0x1a, 0x1d, 0x14, 0x13,
  0xae, 0xa9, 0xa0, 0xa7, 0xb2, 0xb5, 0xbc, 0xbb, 0x96, 0x91, 0x98, 0x9f, 0x8a, 0x8d, 0x84, 0x83,
  0xde, 0xd9, 0xd0, 0xd7, 0xc2, 0xc5, 0xcc, 0xcb, 0xe6, 0xe1, 0xe8, 0xef, 0xfa, 0xfd, 0xf4, 0xf3]

theorem crc8Table_length : crc8Table.length = 256 := by decide +kernel

theorem lt_crc8Table_length (i : UInt8) : i.toNat < crc8Table.length := by
  rw [crc8Table_length]
  exact i.toNat_lt

def crc8 (crc b : UInt8) : UInt8 :=
  crc8Table.get ⟨(crc ^^^ b).toNat, lt_crc8Table_length _⟩

/-- The checksum of the first `length` bytes. -/
def calcChecksum (data : List UInt8) (length : Nat) : UInt8 := (data.take length).foldl crc8 0

/-! ## Packets -/

/-- The packet type of a response. -/
def RESPONSE : UInt8 := 2

def MAX_DATA_LENGTH : Nat := 256
def MAX_OPTIONAL_LENGTH : Nat := 16

/-- The size of `txBuffer` and of `rxBuffer`. -/
def BUFFER_SIZE : Nat := 6 + MAX_DATA_LENGTH + MAX_OPTIONAL_LENGTH + 1

/-- A `Request` object. `data` and `optionalData` are what `getData` and `getOptionalData`
write. -/
structure Request where
  packetType : UInt8
  data : List UInt8
  optionalData : List UInt8
  data_le : data.length ≤ MAX_DATA_LENGTH
  optional_le : optionalData.length ≤ MAX_OPTIONAL_LENGTH

/-- The local `length` of `sendRequest()`. -/
def Request.length (r : Request) : Nat := r.data.length + r.optionalData.length

theorem Request.length_le (r : Request) : 6 + r.length + 1 ≤ BUFFER_SIZE := by
  have hdata := r.data_le
  have hoptional := r.optional_le
  unfold Request.length BUFFER_SIZE
  omega

theorem Request.data_fits (r : Request) : 6 + r.data.length ≤ BUFFER_SIZE := by
  have := r.length_le
  unfold Request.length at this
  omega

theorem Request.optional_fits (r : Request) :
    6 + r.data.length + r.optionalData.length ≤ BUFFER_SIZE := by
  have := r.length_le
  unfold Request.length at this
  omega

/-- `txBuffer[0]` to `txBuffer[4]`. -/
def Request.header (r : Request) : List UInt8 :=
  [0x55, UInt8.ofNat (r.data.length >>> 8), UInt8.ofNat r.data.length,
    UInt8.ofNat r.optionalData.length, r.packetType]

theorem Request.header_fits (r : Request) : 0 + r.header.length ≤ BUFFER_SIZE :=
  Nat.le_of_ble_eq_true rfl

theorem headerChecksum_fits (checksum : UInt8) : 5 + [checksum].length ≤ BUFFER_SIZE :=
  Nat.le_of_ble_eq_true rfl

theorem Request.checksum_fits (r : Request) (checksum : UInt8) :
    6 + r.length + [checksum].length ≤ BUFFER_SIZE := r.length_le

/-- What `sendRequest()` writes into `txBuffer`. -/
def Request.encode (r : Request) (txBuffer : Buffer UInt8 BUFFER_SIZE) :
    Buffer UInt8 BUFFER_SIZE :=
  let txBuffer := txBuffer.store 6 r.data r.data_fits
  let txBuffer := txBuffer.store (6 + r.data.length) r.optionalData r.optional_fits
  let txBuffer := txBuffer.store 0 r.header r.header_fits
  let txBuffer := txBuffer.store 5 [calcChecksum (txBuffer.elements.drop 1) 4]
    (headerChecksum_fits _)
  txBuffer.store (6 + r.length) [calcChecksum (txBuffer.elements.drop 6) r.length]
    (r.checksum_fits _)

/-- What `sendRequest()` hands to `async_write`. -/
def Request.frame (r : Request) (txBuffer : Buffer UInt8 BUFFER_SIZE) : List UInt8 :=
  (r.encode txBuffer).elements.take (6 + r.length + 1)

/-! ## The application -/

/-- A request in the queue. The ticket tells the objects apart: it is the number of the
requests that were enqueued before. -/
structure Entry where
  ticket : Nat
  request : Request

/-- An `error_code`: of the EnOcean category (1 for a NACK, 2 for a timeout), or of the system. -/
inductive Error where
  | enOceanCategory (value : Nat)
  | system (value : Int)
deriving DecidableEq

/-- The virtual functions. Each one sees the state of the application, changes it, and calls
`sendRequest` for a list of new requests. A packet comes as the bytes that its pointers and
lengths name. -/
structure Application (σ : Type) where
  onResponse : σ → Entry → List UInt8 → List UInt8 → σ × List Request
  onRequest : σ → UInt8 → List UInt8 → List UInt8 → σ × List Request
  onError : σ → Error → σ × List Request

/-- The application, and whether `cancel` still reaches a wait whose expiry is queued. -/
structure Env (σ : Type) where
  app : Application σ
  cancelsQueued : Bool

/-! ## The state -/

/-- What the protocol does, in order. -/
inductive Effect where
  | enqueue (ticket : Nat) (request : Request)
  | transmit (ticket : Nat) (frame : List UInt8)
  | complete (ticket : Nat)
  | drop (ticket : Nat)
  | onResponse (ticket : Nat) (data optionalData : List UInt8)
  | onRequest (packetType : UInt8) (data optionalData : List UInt8)
  | onError (error : Error)

/-- The members of `EnOceanProtocol` that sending uses, the state of the application, the number
of requests so far, and the log of the effects. -/
structure Tx (σ : Type) where
  requests : List Entry
  txBuffer : Buffer UInt8 BUFFER_SIZE
  txTimer : Timer
  txRetryCount : Nat
  tty : Port Unit UInt8
  app : σ
  tickets : Nat
  log : List Effect

variable {σ : Type}

def Tx.emit (s : Tx σ) (x : Effect) : Tx σ := { s with log := s.log ++ [x] }

/-- `txBuffer` is the only buffer that is written to the port. -/
def Tx.memory (s : Tx σ) : Unit → List UInt8 := fun _ => s.txBuffer.elements

/-- `sendRequest()` with the front of the queue at hand. -/
def Tx.transmit (env : Env σ) (s : Tx σ) (front : Entry) : Tx σ :=
  let txBuffer := front.request.encode s.txBuffer
  let s := { s with
    txBuffer
    -- start timeout timer: `expires_from_now` cancels the waits that are there
    txTimer := (s.txTimer.cancel env.cancelsQueued).asyncWait front.ticket }
  let s := { s with tty := s.tty.asyncWrite s.memory () (6 + front.request.length + 1) }
  s.emit (.transmit front.ticket (txBuffer.elements.take (6 + front.request.length + 1)))

/-- `sendRequest()`: send the front of the queue. -/
def Tx.sendRequest (env : Env σ) (s : Tx σ) : Option (Tx σ) :=
  match s.requests with
  | [] => none
  | front :: _ => some (s.transmit env front)

/-- `requests.push_back(request)`. -/
def Tx.push (s : Tx σ) (request : Request) : Tx σ :=
  let s' : Tx σ := { s with
    requests := s.requests ++ [⟨s.tickets, request⟩]
    tickets := s.tickets + 1 }
  s'.emit (.enqueue s.tickets request)

/-- `sendRequest(ptr<Request> request)`. -/
def Tx.sendRequestPtr (env : Env σ) (s : Tx σ) (request : Request) : Option (Tx σ) :=
  let s := s.push request
  -- send request immediately if request queue was empty
  if s.requests.length = 1 then s.sendRequest env else some s

/-- A callback returned: its new state, and its calls of `sendRequest`, one after the other. -/
def Tx.answer (env : Env σ) (s : Tx σ) (out : σ × List Request) : Option (Tx σ) :=
  out.2.foldlM (Tx.sendRequestPtr env) { s with app := out.1 }

def Tx.onResponse (env : Env σ) (s : Tx σ) (e : Entry) (data optionalData : List UInt8) :
    Option (Tx σ) :=
  (s.emit (.onResponse e.ticket data optionalData)).answer env
    (env.app.onResponse s.app e data optionalData)

def Tx.onRequest (env : Env σ) (s : Tx σ) (packetType : UInt8)
    (data optionalData : List UInt8) : Option (Tx σ) :=
  (s.emit (.onRequest packetType data optionalData)).answer env
    (env.app.onRequest s.app packetType data optionalData)

def Tx.onError (env : Env σ) (s : Tx σ) (error : Error) : Option (Tx σ) :=
  (s.emit (.onError error)).answer env (env.app.onError s.app error)

/-- `requests.pop_front()`, with what the log says about it. -/
def Tx.pop (s : Tx σ) (rest : List Entry) (x : Effect) : Tx σ :=
  ({ s with requests := rest } : Tx σ).emit x

/-- `resendRequest(error)`. -/
def Tx.resendRequest (env : Env σ) (s : Tx σ) (error : Nat) : Option (Tx σ) :=
  let s := { s with txRetryCount := s.txRetryCount + 1 }
  if s.txRetryCount < 3 then
    s.sendRequest env
  else
    match s.requests with
    | [] => none
    | front :: rest =>
      let s := ({ s with txRetryCount := 0 } : Tx σ).pop rest (.drop front.ticket)
      s.onError env (.enOceanCategory error)

/-! ## The events of the sending half -/

/-- A call of the application, an expiry of the timer, a handler of a queued expiry, and the
transfers and completions of the writes. -/
inductive TxEvent where
  | sendRequest (request : Request)
  | expire
  | timer (i : Nat)
  | transfer (k : Nat)
  | written (i : Nat)
  | writeError (value : Int)

/-- One event. An event that cannot happen in the state changes nothing. -/
def Tx.step (env : Env σ) (s : Tx σ) : TxEvent → Option (Tx σ)
  | .sendRequest request => s.sendRequestPtr env request
  | .expire => some { s with txTimer := s.txTimer.expire }
  | .timer i =>
    match s.txTimer.expired[i]? with
    | none => some s
    | some _ =>
      -- timer expired before response was received
      let txTimer := { s.txTimer with expired := s.txTimer.expired.eraseIdx i }
      ({ s with txTimer } : Tx σ).resendRequest env 2
  | .transfer k => some { s with tty := s.tty.transfer s.memory k }
  | .written i => some { s with tty := s.tty.completion i }
  | .writeError value =>
    match s.tty.queue with
    | [] => some s
    | _ :: rest =>
      ({ s with tty := { s.tty with queue := rest } } : Tx σ).onError env (.system value)

end huasi.enocean
