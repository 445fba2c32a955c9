-- The handlers of the frames as the code has them, on a pointer and a length: which bytes
-- they read, that all of these lie inside the frame, and that the network model is what
-- they compute.
import Huasi.Reading
import Huasi.ZWaveCommands

open huasi.reading huasi.text huasi.sorted_map

namespace huasi.network

/-! ## The handlers on a pointer -/

/-- `ConfigCommand::onCommand` up to the call of `onByte`, `onWord` or `onLong`. -/
def configReportAt (length : Nat) : Reading UInt8 (Option ConfigReport) :=
  if 5 ≤ length then do
    let command ← byteAt 1
    if command = 0x06 then
      let index ← byteAt 2
      let size ← byteAt 3
      if 4 + size.toNat ≤ length then
        if size = 1 then
          let b ← byteAt 4
          return some (.onByte index b)
        else if size = 2 then
          let high ← byteAt 4
          let low ← byteAt 5
          return some (.onWord index (word high low))
        else if size = 4 then
          let b3 ← byteAt 4
          let b2 ← byteAt 5
          let b1 ← byteAt 6
          let b0 ← byteAt 7
          return some (.onLong index (long b3 b2 b1 b0))
        else return none
      else return none
    else return none
  else return none

/-- `onCommand` of each object. -/
def Command.onCommandAt (c : Command) (commandClass : UInt8) (node : Node) (length : Nat) :
    Reading UInt8 (Node × List (List UInt8)) :=
  match c with
  | .basic _ =>
    if 3 ≤ length then do
      let command ← byteAt 1
      if command = 0x03 then
        let value ← byteAt 2
        return (node.track commandClass (.basic value), [])
      else return (node, [])
    else return (node, [])
  | .config => do
    let _report ← configReportAt length
    return (node, [])
  | .manufacturerSpecific _ _ _ =>
    if 8 ≤ length then do
      let manufacturer := word (← byteAt 2) (← byteAt 3)
      let product := word (← byteAt 4) (← byteAt 5)
      let id := word (← byteAt 6) (← byteAt 7)
      let node := node.track commandClass (.manufacturerSpecific manufacturer product id)
      return node.identify manufacturer product
    else return (node, [])
  | .fibaroFgr222 blinds slat =>
    if 8 ≤ length then do
      let flags ← byteAt 5
      let blinds ← byteAtIf (flags &&& 2 ≠ 0) 6 blinds
      let slat ← byteAtIf (flags &&& 1 ≠ 0) 7 slat
      return (node.track commandClass (.fibaroFgr222 blinds slat), [])
    else return (node, [])
  | .fibaroFgr222Config _ => do
    let report ← configReportAt length
    match report with
    | some (.onWord index value) =>
      if index = SLAT_TIME then return (node.track commandClass (.fibaroFgr222Config value), [])
      else return (node, [])
    | _ => return (node, [])

/-- The loop of `updateNode` over the classes, from the index `i` on. -/
def registerAt (node : Node) (i : Nat) : Nat → Reading UInt8 Node
  | 0 => return node
  | count + 1 => do
    let commandClass ← byteAt i
    registerAt (node.register commandClass) (i + 1) count

/-- `updateNode`. -/
def ZWaveNetwork.updateNodeAt (s : ZWaveNetwork) (nodeId : UInt8) (classCount : Nat) :
    Reading UInt8 (ZWaveNetwork × List SendData) := do
  let node ← registerAt { s.nodes nodeId with name := Parameters.byteText nodeId } 0 classCount
  -- get current state
  return (s.setNode nodeId node, sender nodeId (node.commands.entries.flatMap fun e => e.2.sendGet))

/-- The search for a `MARK` from the index `i` on, with `count` bytes left. -/
def markAt (i : Nat) : Nat → Reading UInt8 Nat
  | 0 => return i
  | count + 1 => do
    let b ← byteAt i
    if b = MARK then return i else markAt (i + 1) count

/-- `onRequest`. -/
def ZWaveNetwork.onRequestAt (s : ZWaveNetwork) (length : Nat) :
    Reading UInt8 (ZWaveNetwork × List SendData) :=
  -- check if at least result and nodeId are present
  if 3 ≤ length then do
    let function ← byteAt 0
    let nodeId ← byteAt 2
    if function = APPLICATION_COMMAND_HANDLER ∧ 7 ≤ length then
      let commandLength ← byteAt 3
      let commandClass ← byteAt 4
      if 4 + commandLength.toNat ≤ length then
        let node := s.nodes nodeId
        match node.commands.lookup commandClass with
        | some c =>
          let (node, sent) ← (c.onCommandAt commandClass node commandLength.toNat).shift 4
          return (s.setNode nodeId node, sender nodeId sent)
        | none => return (s, [])
      else return (s, [])
    else if function = ZW_APPLICATION_UPDATE ∧ 7 ≤ length then
      -- the generic device class is only printed
      let _generic ← byteAt 5
      let stop ← markAt 7 (length - 7)
      s.updateNodeAt nodeId (stop - 7)
    else return (s, [])
  else return (s, [])

/-! ## They stay inside the frame -/

theorem configReportAt_within (length : Nat) : (configReportAt length).Within length := by
  apply within_ite
  · intro hlength
    apply within_bind (within_byteAt (by omega))
    intro command
    apply within_ite
    · intro _
      apply within_bind (within_byteAt (by omega))
      intro index
      apply within_bind (within_byteAt (by omega))
      intro size
      apply within_ite
      · intro hsize
        apply within_ite
        · rintro rfl
          exact within_bind (within_byteAt (by omega)) fun _ => within_pure _ _
        · intro _
          apply within_ite
          · rintro rfl
            have hlow : 5 < length := hsize
            apply within_bind (within_byteAt (by omega))
            intro high
            exact within_bind (within_byteAt hlow) fun _ => within_pure _ _
          · intro _
            apply within_ite
            · rintro rfl
              have hlowest : 7 < length := hsize
              apply within_bind (within_byteAt (by omega))
              intro b3
              apply within_bind (within_byteAt (by omega))
              intro b2
              apply within_bind (within_byteAt (by omega))
              intro b1
              exact within_bind (within_byteAt hlowest) fun _ => within_pure _ _
            · exact fun _ => within_pure _ _
      · exact fun _ => within_pure _ _
    · exact fun _ => within_pure _ _
  · exact fun _ => within_pure _ _

theorem onCommandAt_within (c : Command) (commandClass : UInt8) (node : Node) (length : Nat) :
    (c.onCommandAt commandClass node length).Within length := by
  cases c with
  | basic value =>
    apply within_ite
    · intro hlength
      apply within_bind (within_byteAt (by omega))
      intro command
      apply within_ite
      · exact fun _ => within_bind (within_byteAt (by omega)) fun _ => within_pure _ _
      · exact fun _ => within_pure _ _
    · exact fun _ => within_pure _ _
  | config => exact within_bind (configReportAt_within length) fun _ => within_pure _ _
  | manufacturerSpecific manufacturer product id =>
    apply within_ite
    · intro hlength
      apply within_bind (within_byteAt (by omega))
      intro m1
      apply within_bind (within_byteAt (by omega))
      intro m0
      apply within_bind (within_byteAt (by omega))
      intro p1
      apply within_bind (within_byteAt (by omega))
      intro p0
      apply within_bind (within_byteAt (by omega))
      intro i1
      exact within_bind (within_byteAt (by omega)) fun _ => within_pure _ _
    · exact fun _ => within_pure _ _
  | fibaroFgr222 blinds slat =>
    apply within_ite
    · intro hlength
      apply within_bind (within_byteAt (by omega))
      intro flags
      apply within_bind (within_byteAtIf (by omega) _ blinds)
      intro blinds
      exact within_bind (within_byteAtIf (by omega) _ slat) fun _ => within_pure _ _
    · exact fun _ => within_pure _ _
  | fibaroFgr222Config slatTime =>
    apply within_bind (configReportAt_within length)
    intro report
    split
    · exact within_ite (fun _ => within_pure _ _) fun _ => within_pure _ _
    · exact within_pure _ _

theorem registerAt_within (node : Node) (i count : Nat) :
    (registerAt node i count).Within (i + count) := by
  induction count generalizing node i with
  | zero => exact within_pure _ _
  | succ count ih =>
    apply within_bind (within_byteAt (by omega))
    intro commandClass
    exact within_mono (by omega) (ih (node.register commandClass) (i + 1))

theorem updateNodeAt_within (s : ZWaveNetwork) (nodeId : UInt8) (classCount : Nat) :
    (s.updateNodeAt nodeId classCount).Within classCount := by
  apply within_bind _ fun _ => within_pure _ _
  exact within_mono (by omega) (registerAt_within _ 0 classCount)

theorem markAt_within (i count : Nat) : (markAt i count).Within (i + count) := by
  induction count generalizing i with
  | zero => exact within_pure _ _
  | succ count ih =>
    apply within_bind (within_byteAt (by omega))
    intro b
    apply within_ite
    · exact fun _ => within_pure _ _
    · exact fun _ => within_mono (by omega) (ih (i + 1))

/-- The search for the `MARK` ends at the end of the frame. -/
theorem markAt_yields (i count : Nat) : (markAt i count).Yields fun stop => stop ≤ i + count := by
  induction count generalizing i with
  | zero => exact Nat.le_refl i
  | succ count ih =>
    intro b
    change Reading.Yields _ (if b = MARK then pure i else markAt (i + 1) count)
    split
    · exact Nat.le_add_right i _
    · have hstop := ih (i + 1)
      rwa [Nat.add_right_comm] at hstop

theorem onRequestAt_within (s : ZWaveNetwork) (length : Nat) :
    (s.onRequestAt length).Within length := by
  apply within_ite
  · intro h3
    apply within_bind (within_byteAt (by omega))
    intro function
    apply within_bind (within_byteAt (by omega))
    intro nodeId
    apply within_ite
    · rintro ⟨-, h7⟩
      apply within_bind (within_byteAt (by omega))
      intro commandLength
      apply within_bind (within_byteAt (by omega))
      intro commandClass
      apply within_ite
      · intro hcommand
        dsimp only
        split
        · rename_i c hc
          apply within_bind
          · exact within_mono hcommand (within_shift (onCommandAt_within c commandClass _ _))
          · exact fun _ => within_pure _ _
        · exact within_pure _ _
      · exact fun _ => within_pure _ _
    · intro _
      apply within_ite
      · rintro ⟨-, h7⟩
        apply within_bind (within_byteAt (by omega))
        intro _generic
        apply within_bind_yields (within_mono (by omega) (markAt_within 7 (length - 7)))
          (markAt_yields 7 (length - 7))
        intro stop hstop
        exact within_mono (by omega) (updateNodeAt_within s nodeId (stop - 7))
      · exact fun _ => within_pure _ _
  · exact fun _ => within_pure _ _

/-! ## They compute what the network model has -/

theorem configReportAt_onList (data : List UInt8) :
    (configReportAt data.length).onList data = configReport data := by
  simp only [configReportAt, configReport, onList_ite, onList_bind, onList_byteAt, onList_pure,
    Option.bind_eq_bind, Option.pure_def]

theorem onCommandAt_onList (c : Command) (commandClass : UInt8) (node : Node)
    (data : List UInt8) :
    (c.onCommandAt commandClass node data.length).onList data =
      c.onCommand commandClass node data := by
  cases c with
  | basic value =>
    simp only [Command.onCommandAt, Command.onCommand, onList_ite, onList_bind, onList_byteAt,
      onList_pure, Option.bind_eq_bind, Option.pure_def]
  | config =>
    simp only [Command.onCommandAt, Command.onCommand, onList_bind, configReportAt_onList,
      onList_pure, Option.map_eq_bind]
    rfl
  | manufacturerSpecific manufacturer product id =>
    simp only [Command.onCommandAt, Command.onCommand, onList_ite, onList_bind, onList_byteAt,
      onList_pure, Option.bind_eq_bind, Option.pure_def]
  | fibaroFgr222 blinds slat =>
    simp only [Command.onCommandAt, Command.onCommand, onList_ite, onList_bind, onList_byteAt,
      onList_pure, Option.bind_eq_bind, Option.pure_def]
    by_cases hlength : 8 ≤ data.length
    · have h5 : data[5]? = some data[5] := List.getElem?_eq_getElem (by omega)
      have h6 : data[6]? = some data[6] := List.getElem?_eq_getElem (by omega)
      have h7 : data[7]? = some data[7] := List.getElem?_eq_getElem (by omega)
      simp only [if_pos hlength, h5, h6, h7, Option.bind_some,
        onList_byteAtIf (show 6 < data.length by omega),
        onList_byteAtIf (show 7 < data.length by omega)]
    · rw [if_neg hlength, if_neg hlength]
  | fibaroFgr222Config slatTime =>
    simp only [Command.onCommandAt, Command.onCommand, onList_bind, configReportAt_onList,
      Option.map_eq_bind]
    congr 1
    funext report
    rcases report with _ | ⟨index, value⟩ | ⟨index, value⟩ | ⟨index, value⟩
    · rfl
    · rfl
    · simp only [onList_ite, onList_pure, Function.comp_apply]
      split <;> rfl
    · rfl

theorem registerAt_onList (data : List UInt8) (node : Node) (i count : Nat)
    (h : i + count ≤ data.length) : (registerAt node i count).onList data =
      some (((data.drop i).take count).foldl Node.register node) := by
  induction count generalizing node i with
  | zero => rfl
  | succ count ih =>
    have hi : i < data.length := by omega
    rw [registerAt, onList_bind, onList_byteAt, List.getElem?_eq_getElem hi, Option.bind_some,
      ih _ _ (by omega), List.drop_eq_getElem_cons hi, List.take_succ_cons, List.foldl_cons]

theorem updateNodeAt_onList (s : ZWaveNetwork) (nodeId : UInt8) (data : List UInt8)
    (classCount : Nat) (h : classCount ≤ data.length) :
    (s.updateNodeAt nodeId classCount).onList data = s.updateNode nodeId data classCount := by
  simp only [ZWaveNetwork.updateNodeAt, ZWaveNetwork.updateNode, onList_bind,
    registerAt_onList data _ 0 classCount (by omega), List.drop_zero, Option.bind_some,
    onList_pure, if_pos h]

theorem markAt_onList (data : List UInt8) (i count : Nat) (h : i + count = data.length) :
    (markAt i count).onList data = some (i + countToMark (data.drop i)) := by
  induction count generalizing i with
  | zero =>
    rw [markAt, onList_pure, List.drop_eq_nil_of_le (by omega)]
    rfl
  | succ count ih =>
    have hi : i < data.length := by omega
    rw [markAt, onList_bind, onList_byteAt, List.getElem?_eq_getElem hi, Option.bind_some,
      onList_ite, ih _ (by omega), List.drop_eq_getElem_cons hi, countToMark]
    split
    · rfl
    · rw [Nat.add_assoc, Nat.add_comm 1]

/-- The object gets the command as a pointer into the frame. -/
theorem shift_onCommandAt_onList (c : Command) (commandClass : UInt8) (node : Node)
    {data : List UInt8} {commandLength : Nat} (h : 4 + commandLength ≤ data.length) :
    ((c.onCommandAt commandClass node commandLength).shift 4).onList data =
      c.onCommand commandClass node ((data.drop 4).take commandLength) := by
  have hlength : ((data.drop 4).take commandLength).length = commandLength := by
    rw [List.length_take, List.length_drop]
    omega
  have hcommand := onCommandAt_onList c commandClass node ((data.drop 4).take commandLength)
  rw [hlength, onList_take (onCommandAt_within c commandClass node commandLength)] at hcommand
  rw [onList_shift, hcommand]

theorem onRequestAt_onList (s : ZWaveNetwork) (data : List UInt8) :
    (s.onRequestAt data.length).onList data = s.onRequest data := by
  simp only [ZWaveNetwork.onRequestAt, ZWaveNetwork.onRequest, onList_ite, onList_bind,
    onList_byteAt, onList_pure, Option.bind_eq_bind, Option.pure_def]
  by_cases h7 : 7 ≤ data.length
  · have hget : ∀ i, i < 7 → ∃ b, data[i]? = some b := fun i hi =>
      ⟨_, List.getElem?_eq_getElem (by omega)⟩
    obtain ⟨function, h0⟩ := hget 0 (by decide)
    obtain ⟨nodeId, h2⟩ := hget 2 (by decide)
    obtain ⟨commandLength, h3⟩ := hget 3 (by decide)
    obtain ⟨commandClass, h4⟩ := hget 4 (by decide)
    obtain ⟨generic, h5⟩ := hget 5 (by decide)
    have hmark := markAt_onList data 7 (data.length - 7) (by omega)
    have hupdate := updateNodeAt_onList s nodeId data (countToMark (data.drop 7)) (by
      rw [countToMark_eq]
      exact classList_length_le data)
    simp only [h0, h2, h3, h4, h5, Option.bind_some, hmark, Nat.add_sub_cancel_left, hupdate]
    split
    · split
      · split
        · rename_i hcommand
          cases (s.nodes nodeId).commands.lookup commandClass with
          | some c =>
            simp only [onList_bind, shift_onCommandAt_onList c commandClass _ hcommand,
              onList_pure]
          | none => simp only [onList_pure]
        · rfl
      · rfl
    · rfl
  · simp only [h7, and_false, if_false]

/-- Every frame is handled, whatever objects the nodes have. -/
theorem onRequest_total (s : ZWaveNetwork) (data : List UInt8) :
    ∃ r, s.onRequest data = some r := by
  rw [← onRequestAt_onList]
  exact onList_total (onRequestAt_within s data.length)

theorem onRequest_reads_inside (s : ZWaveNetwork) (memory : Nat → UInt8) (length : Nat) :
    (∀ i ∈ (s.onRequestAt length).indices memory, i < length) ∧
      s.onRequest (frame memory length) = some ((s.onRequestAt length).result memory) := by
  have hwithin := onRequestAt_within s length
  refine ⟨indices_lt hwithin memory, ?_⟩
  have hlist := onRequestAt_onList s (frame memory length)
  rw [length_frame] at hlist
  exact hlist.symm.trans (onList_frame hwithin memory)

end huasi.network
