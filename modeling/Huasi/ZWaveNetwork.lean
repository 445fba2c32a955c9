-- ZWaveNetwork (src/src/zwave/ZWaveNetwork.hpp, ZWaveNetwork.cpp, FibaroFgr222.cpp): the
-- nodes, the command objects that track their states, and the frames that come
-- from them. Commands to a node are the payloads of SendDataRequests. `none`
-- stands for a read behind the end of a frame.
import Mathlib.Logic.Function.Basic
import Huasi.Parameters

open huasi.text huasi.sorted_map

namespace huasi.network

/-! ## Commands -/

def BASIC : UInt8 := 0x20
def CONFIGURATION : UInt8 := 0x70
def MANUFACTURER_SPECIFIC : UInt8 := 0x72
def MANUFACTURER_PROPRIETARY : UInt8 := 0x91
def MARK : UInt8 := 0xEF

def APPLICATION_COMMAND_HANDLER : UInt8 := 0x04
def ZW_APPLICATION_UPDATE : UInt8 := 0x49

/-- Registers of the Fibaro FGR-222. -/
def SLAT_TIME : UInt8 := 12
def CALIBRATE : UInt8 := 29

/-- A command object of a node, with the values that it tracks. -/
inductive Command where
  | basic (value : UInt8)
  | config
  | manufacturerSpecific (manufacturer product id : UInt16)
  | fibaroFgr222 (blinds slat : UInt8)
  | fibaroFgr222Config (slatTime : UInt16)
deriving DecidableEq, Repr

/-- The objects as their constructors leave them. -/
def Command.newBasic : Command := .basic 0
def Command.newManufacturerSpecific : Command := .manufacturerSpecific 0 0 0
def Command.newFibaroFgr222 : Command := .fibaroFgr222 0 0
def Command.newFibaroFgr222Config : Command := .fibaroFgr222Config 0

/-- Two bytes as a word, the high byte first. -/
def word (high low : UInt8) : UInt16 := high.toUInt16 <<< 8 ||| low.toUInt16

/-- Four bytes as a long word, the highest byte first. -/
def long (b3 b2 b1 b0 : UInt8) : UInt32 :=
  b3.toUInt32 <<< 24 ||| b2.toUInt32 <<< 16 ||| b1.toUInt32 <<< 8 ||| b0.toUInt32

/-! ## To a node -/

/-- `ConfigCommand::sendByte`. -/
def sendByte (index value : UInt8) : List UInt8 := [CONFIGURATION, 0x04, index, 0x01, value]

/-- `ConfigCommand::sendWord`. -/
def sendWord (index : UInt8) (value : UInt16) : List UInt8 :=
  [CONFIGURATION, 0x04, index, 0x02, (value >>> 8).toUInt8, value.toUInt8]

/-- `ConfigCommand::sendLong`. -/
def sendLong (index : UInt8) (value : UInt32) : List UInt8 :=
  [CONFIGURATION, 0x04, index, 0x04, (value >>> 24).toUInt8, (value >>> 16).toUInt8,
    (value >>> 8).toUInt8, value.toUInt8]

/-- `sendSet` of each command: the object afterwards, and what it sends. A null `optional` has the
value 0. -/
def Command.sendSet (p : Parameters) : Command → Command × List (List UInt8)
  | .basic value =>
    let state := p.getState (ascii "state")
    let dim := p.getPercentage (ascii "dim")
    if state.isSome ∨ dim.isSome then
      (.basic value,
        [[BASIC, 0x01, dim.getD (if state.getD false then 0xff else 0x00)]])
    else (.basic value, [])
  | .config => (.config, [])
  | .manufacturerSpecific manufacturer product id =>
    (.manufacturerSpecific manufacturer product id, [])
  | .fibaroFgr222 blinds slat =>
    let newBlinds := p.getPercentage (ascii "position.blinds")
    let newSlat := p.getPercentage (ascii "position.slat")
    -- workaround: slat does not work if blinds is zero
    let sentBlinds :=
      if newBlinds = some 0 ∧ newSlat.isSome ∧ newSlat.getD 0 > 0 then some 1 else newBlinds
    let flags : UInt8 := (if newBlinds.isSome then 2 else 0) ||| (if newSlat.isSome then 1 else 0)
    if flags ≠ 0 then
      (.fibaroFgr222 blinds slat,
        [[MANUFACTURER_PROPRIETARY, 0x01, 0x0f, 0x26, 0x01, flags, sentBlinds.getD 0,
          newSlat.getD 0]])
    else (.fibaroFgr222 blinds slat, [])
  | .fibaroFgr222Config slatTime =>
    match p.getWord (ascii "config.slatTime") with
    | some newTime => (.fibaroFgr222Config newTime, [sendWord SLAT_TIME newTime])
    | none =>
      (.fibaroFgr222Config slatTime,
        if p.contains (ascii "config.calibrate") then [sendByte CALIBRATE 1] else [])

/-- `sendGet` of each command. -/
def Command.sendGet : Command → List (List UInt8)
  | .basic _ => [[BASIC, 0x02]]
  | .config => []
  | .manufacturerSpecific _ _ _ => [[MANUFACTURER_SPECIFIC, 0x04]]
  | .fibaroFgr222 _ _ => [[MANUFACTURER_PROPRIETARY, 0x01, 0x0f, 0x26, 0x02, 0x02, 0x00, 0x00]]
  | .fibaroFgr222Config _ => [[CONFIGURATION, 0x05, SLAT_TIME]]

/-- `get` of each command: what it adds to the parameters. -/
def Command.get (p : Parameters) : Command → Parameters
  | .basic value =>
    if value = 0x00 ∨ value = 0xff then p.setState (ascii "state") (value ≠ 0)
    else p.setByte (ascii "dim") value
  | .config => p
  | .manufacturerSpecific manufacturer product id =>
    let p := p.setWord (ascii "device.manufacturer") manufacturer
    let p := p.setWord (ascii "device.product") product
    p.setWord (ascii "device.id") id
  | .fibaroFgr222 blinds slat =>
    (p.setByte (ascii "position.blinds") blinds).setByte (ascii "position.slat") slat
  | .fibaroFgr222Config slatTime => p.setWord (ascii "config.slatTime") slatTime

/-! ## From a node -/

/-- A call of `onByte`, `onWord` or `onLong`. -/
inductive ConfigReport where
  | onByte (index value : UInt8)
  | onWord (index : UInt8) (value : UInt16)
  | onLong (index : UInt8) (value : UInt32)
deriving DecidableEq, Repr

/-- `ConfigCommand::onCommand`: which of the three it calls, if any. -/
def configReport (data : List UInt8) : Option (Option ConfigReport) :=
  if 5 ≤ data.length then do
    let command ← data[1]?
    if command = 0x06 then
      let index ← data[2]?
      let size ← data[3]?
      if 4 + size.toNat ≤ data.length then
        if size = 1 then
          let b ← data[4]?
          return some (.onByte index b)
        else if size = 2 then
          let high ← data[4]?
          let low ← data[5]?
          return some (.onWord index (word high low))
        else if size = 4 then
          let b3 ← data[4]?
          let b2 ← data[5]?
          let b1 ← data[6]?
          let b0 ← data[7]?
          return some (.onLong index (long b3 b2 b1 b0))
        else return none
      else return none
    else return none
  else some none

/-- A node of the network. -/
structure Node where
  deviceName : Text
  name : Text
  commands : SortedMap UInt8 Command

def Node.new : Node := { deviceName := [], name := [], commands := .empty }

/-- The object that is registered for a class has another state. -/
def Node.track (node : Node) (commandClass : UInt8) (c : Command) : Node :=
  { node with commands := node.commands.insert commandClass c }

/-- `ManufacturerSpecificCommand::onCommand` after it has read its three words. -/
def Node.identify (node : Node) (manufacturer product : UInt16) : Node × List (List UInt8) :=
  -- check for specific devices
  if manufacturer = 271 ∧ product = 770 then
    ({ node with
        deviceName := ascii "Fibaro FGR-222"
        commands := (node.commands.insert CONFIGURATION .newFibaroFgr222Config).insert
          MANUFACTURER_PROPRIETARY .newFibaroFgr222 },
      Command.newFibaroFgr222Config.sendGet ++ Command.newFibaroFgr222.sendGet)
  else (node, [])

/-- `onCommand` of the object that is registered for a class: the node afterwards, and what the
object sends. -/
def Command.onCommand (c : Command) (commandClass : UInt8) (node : Node) (data : List UInt8) :
    Option (Node × List (List UInt8)) :=
  match c with
  | .basic _ =>
    if 3 ≤ data.length then do
      let command ← data[1]?
      if command = 0x03 then
        let value ← data[2]?
        return (node.track commandClass (.basic value), [])
      else return (node, [])
    else some (node, [])
  | .config => (configReport data).map fun _ => (node, [])
  | .manufacturerSpecific _ _ _ =>
    if 8 ≤ data.length then do
      let manufacturer := word (← data[2]?) (← data[3]?)
      let product := word (← data[4]?) (← data[5]?)
      let id := word (← data[6]?) (← data[7]?)
      let node := node.track commandClass (.manufacturerSpecific manufacturer product id)
      return node.identify manufacturer product
    else some (node, [])
  | .fibaroFgr222 blinds slat =>
    if 8 ≤ data.length then do
      let flags ← data[5]?
      let newBlinds ← data[6]?
      let newSlat ← data[7]?
      let blinds := if flags &&& 2 ≠ 0 then newBlinds else blinds
      let slat := if flags &&& 1 ≠ 0 then newSlat else slat
      return (node.track commandClass (.fibaroFgr222 blinds slat), [])
    else some (node, [])
  | .fibaroFgr222Config _ =>
    (configReport data).map fun report =>
      match report with
      | some (.onWord index value) =>
        if index = SLAT_TIME then (node.track commandClass (.fibaroFgr222Config value), [])
        else (node, [])
      | _ => (node, [])

/-! ## The network -/

/-- The nodes of the network, by their ids. -/
structure ZWaveNetwork where
  nodes : UInt8 → Node

def ZWaveNetwork.setNode (s : ZWaveNetwork) (nodeId : UInt8) (node : Node) : ZWaveNetwork :=
  { s with nodes := Function.update s.nodes nodeId node }

/-- A `SendDataRequest` that is enqueued. -/
structure SendData where
  nodeId : UInt8
  data : List UInt8
deriving DecidableEq, Repr

/-- What a `Sender` enqueues. -/
def sender (nodeId : UInt8) (sent : List (List UInt8)) : List SendData :=
  sent.map fun data => { nodeId, data }

/-- `sendSet`. The result is `none` where the code returns false. -/
def ZWaveNetwork.sendSet (s : ZWaveNetwork) (nodeId : Nat) (p : Parameters) :
    Option (ZWaveNetwork × List SendData) :=
  if nodeId < 256 then
    let id := UInt8.ofNat nodeId
    let node := s.nodes id
    if node.commands.entries ≠ [] then
      some (s.setNode id { node with commands := node.commands.mapValues fun c => (c.sendSet p).1 },
        sender id (node.commands.entries.flatMap fun e => (e.2.sendSet p).2))
    else none
  else none

/-- `get`: the parameters of a node. The result is `none` where the code returns false. -/
def ZWaveNetwork.get (s : ZWaveNetwork) (nodeId : Nat) (p : Parameters) : Option Parameters :=
  if nodeId < 256 then
    let node := s.nodes (UInt8.ofNat nodeId)
    let p := p.insert (ascii "node.name") node.name
    let p := if node.deviceName ≠ [] then p.insert (ascii "device.name") node.deviceName else p
    if node.commands.entries ≠ [] then
      some (node.commands.entries.foldl (fun p e => e.2.get p) p)
    else none
  else none

/-- A class in the list of a node that the network has an object for. -/
def Node.register (node : Node) (commandClass : UInt8) : Node :=
  if commandClass = BASIC then node.track BASIC .newBasic
  else if commandClass = CONFIGURATION then node.track CONFIGURATION .config
  else if commandClass = MANUFACTURER_SPECIFIC then
    node.track MANUFACTURER_SPECIFIC .newManufacturerSpecific
  else node

/-- `updateNode`. -/
def ZWaveNetwork.updateNode (s : ZWaveNetwork) (nodeId : UInt8) (classes : List UInt8)
    (classCount : Nat) : Option (ZWaveNetwork × List SendData) :=
  if classCount ≤ classes.length then
    let node := { s.nodes nodeId with name := Parameters.byteText nodeId }
    let node := (classes.take classCount).foldl Node.register node
    -- get current state
    some (s.setNode nodeId node,
      sender nodeId (node.commands.entries.flatMap fun e => e.2.sendGet))
  else none

/-- The number of bytes in front of a `MARK`. -/
def countToMark : List UInt8 → Nat
  | [] => 0
  | b :: rest => if b = MARK then 0 else countToMark rest + 1

/-- `onRequest`: a frame that no request asked for. -/
def ZWaveNetwork.onRequest (s : ZWaveNetwork) (data : List UInt8) :
    Option (ZWaveNetwork × List SendData) :=
  -- check if at least result and nodeId are present
  if 3 ≤ data.length then do
    let function ← data[0]?
    let nodeId ← data[2]?
    if function = APPLICATION_COMMAND_HANDLER ∧ 7 ≤ data.length then
      let commandLength ← data[3]?
      let commandClass ← data[4]?
      if 4 + commandLength.toNat ≤ data.length then
        let node := s.nodes nodeId
        match node.commands.lookup commandClass with
        | some c =>
          let (node, sent) ←
            c.onCommand commandClass node ((data.drop 4).take commandLength.toNat)
          return (s.setNode nodeId node, sender nodeId sent)
        | none => return (s, [])
      else return (s, [])
    else if function = ZW_APPLICATION_UPDATE ∧ 7 ≤ data.length then
      -- the generic device class is only printed
      let _generic ← data[5]?
      let stop := 7 + countToMark (data.drop 7)
      s.updateNode nodeId data (stop - 7)
    else return (s, [])
  else some (s, [])

end huasi.network
