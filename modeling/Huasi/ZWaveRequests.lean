-- The requests of `ZWaveNetwork` (src/zwave/ZWaveNetwork.hpp and .cpp): what each
-- one writes into the frame. With them, the smallest setting that the
-- protocol runs in: an application that ignores every callback.
import Huasi.ZWaveProtocol

namespace huasi.zwave

/-! ## Functions of the controller -/

def SERIAL_API_GET_INIT_DATA : UInt8 := 0x02
def ZW_SEND_DATA : UInt8 := 0x13
def ZW_REQUEST_NODE_INFO : UInt8 := 0x60

/-! ## Requests -/

def DiscoverNodesRequest : Request where
  function := SERIAL_API_GET_INIT_DATA
  data := []
  data_le := by decide
  funcId := none

def GetNodeInfoRequest (nodeId : UInt8) : Request where
  function := ZW_REQUEST_NODE_INFO
  data := [nodeId]
  data_le := by simp [MAX_REQUEST_LENGTH]
  funcId := none

/-- `SendDataRequest::ACK | SendDataRequest::AUTO_ROUTE`. -/
def TX_OPTIONS : UInt8 := 0x01 ||| 0x04

/-- Longer commands do not fit: `getRequest` would write more than it may. `funcId` is the value
that the object happens to start with. -/
def SendDataRequest (nodeId : UInt8) (data : List UInt8) (h : data.length ≤ 247)
    (funcId : UInt8) : Request where
  function := ZW_SEND_DATA
  data := [nodeId, UInt8.ofNat data.length] ++ data ++ [TX_OPTIONS]
  data_le := by
    unfold MAX_REQUEST_LENGTH
    simp only [List.length_append, List.length_cons, List.length_nil]
    omega
  funcId := some funcId

/-! ## A quiet setting -/

def Application.quiet : Application Unit where
  onResponse _ _ _ _ := ((), [])
  onSendRequest _ _ _ _ := ((), [])
  onRequest _ _ _ := ((), [])
  onError _ _ := ((), [])

/-- The quiet application, on a loop that behaves as asio documents it. -/
def quietEnv : Env Unit := ⟨.quiet, false⟩

def Buffer.zeros : Buffer := ⟨List.replicate 256 0, List.length_replicate⟩

/-- The protocol after construction, with zeros in its buffers. -/
def fresh : ZWaveProtocol Unit := init () .zeros .zeros

/-- `BASIC_SET` to node 4, on. -/
def switchOn : Request := SendDataRequest 4 [0x20, 0x01, 0xff] (by decide) 0

end huasi.zwave
