-- Which bytes move the tracked state: a command of another form than the report of its
-- class leaves a BASIC or a CONFIGURATION object alone, but the other two objects look
-- at the length only.
import Huasi.ZWaveCommands

open huasi.text huasi.sorted_map

namespace huasi.network

/-! ## The reports -/

/-- The report of the class of an object, as the code documents it, with any bytes behind it. -/
def Command.IsReport : Command → List UInt8 → Prop
  | .basic _, commandClass :: command :: _value :: _ =>
    commandClass = BASIC ∧ command = 0x03
  | .config, commandClass :: command :: _index :: size :: value =>
    commandClass = CONFIGURATION ∧ command = 0x06 ∧ 0 < size.toNat ∧ size.toNat ≤ value.length
  | .fibaroFgr222Config _, commandClass :: command :: _index :: size :: value =>
    commandClass = CONFIGURATION ∧ command = 0x06 ∧ 0 < size.toNat ∧ size.toNat ≤ value.length
  | .manufacturerSpecific _ _ _, commandClass :: command :: _ :: _ :: _ :: _ :: _ :: _ :: _ =>
    commandClass = MANUFACTURER_SPECIFIC ∧ command = 0x05
  | .fibaroFgr222 _ _, commandClass :: b1 :: b2 :: b3 :: b4 :: _flags :: _blinds :: _slat :: _ =>
    commandClass = MANUFACTURER_PROPRIETARY ∧ b1 = 0x01 ∧ b2 = 0x0f ∧ b3 = 0x26 ∧ b4 = 0x03
  | _, _ => False

/-- The node is the one that an FGR-222 becomes when it is identified. -/
def Node.Identified (node : Node) : Prop :=
  node.deviceName = ascii "Fibaro FGR-222" ∧
    node.commands.lookup CONFIGURATION = some .newFibaroFgr222Config ∧
    node.commands.lookup MANUFACTURER_PROPRIETARY = some .newFibaroFgr222

/-- What a command would overwrite has the values of the command already. -/
def Command.Harmless (node : Node) : Command → List UInt8 → Prop
  | .manufacturerSpecific manufacturer product id,
      _ :: _ :: m1 :: m0 :: p1 :: p0 :: i1 :: i0 :: _ =>
    word m1 m0 = manufacturer ∧ word p1 p0 = product ∧ word i1 i0 = id ∧
      (manufacturer = 271 ∧ product = 770 → node.Identified)
  | .fibaroFgr222 blinds slat, command =>
    (blindsIn command).getD blinds = blinds ∧ (slatIn command).getD slat = slat
  | _, _ => True

/-! ## Objects that stay as they are -/

theorem insert_of_lookup {m : SortedMap UInt8 Command} {k : UInt8} {c : Command}
    (h : m.lookup k = some c) : m.insert k c = m := by
  apply SortedMap.ext_lookup
  intro l
  rw [lookup_insert]
  split
  · subst_vars
    exact h.symm
  · rfl

theorem track_eq_self {node : Node} {k : UInt8} {c d : Command}
    (h : node.commands.lookup k = some c) : node.track k d = node ↔ d = c := by
  constructor
  · intro heq
    have hlookup : (node.track k d).commands.lookup k = some d := lookup_insert_self k d _
    rw [heq, h] at hlookup
    exact (Option.some.inj hlookup).symm
  · rintro rfl
    rw [Node.track, insert_of_lookup h]

theorem identify_eq_self {node : Node} {manufacturer product : UInt16} :
    (node.identify manufacturer product).1 = node ↔
      (manufacturer = 271 ∧ product = 770 → node.Identified) := by
  unfold Node.identify
  split
  · rename_i hdevice
    simp only [hdevice, and_self, forall_const]
    constructor
    · intro heq
      have hcommands := congrArg Node.commands heq
      refine ⟨(congrArg Node.deviceName heq).symm, ?_, ?_⟩
      · rw [← hcommands, lookup_insert_ne (by decide), lookup_insert_self]
      · rw [← hcommands, lookup_insert_self]
    · rintro ⟨hname, hconfig, hposition⟩
      rw [← hname, insert_of_lookup hconfig, insert_of_lookup hposition]
  · rename_i hdevice
    simp only [hdevice, false_implies]

/-- The identification leaves the object that it comes from. -/
theorem lookup_identify (node : Node) (manufacturer product : UInt16) :
    (node.identify manufacturer product).1.commands.lookup MANUFACTURER_SPECIFIC =
      node.commands.lookup MANUFACTURER_SPECIFIC := by
  unfold Node.identify
  split
  · rw [lookup_insert_ne (by decide), lookup_insert_ne (by decide)]
  · rfl

/-! ## One object -/

section Unchanged

variable {node : Node} {k : UInt8} {data : List UInt8}

/-- The command leaves the node as it is. -/
def Leaves (c : Command) (k : UInt8) (node : Node) (data : List UInt8) : Prop :=
  ∃ sent, c.onCommand k node data = some (node, sent)

theorem leaves_iff {c : Command} {r : Node × List (List UInt8)}
    (h : c.onCommand k node data = some r) : Leaves c k node data ↔ r.1 = node := by
  constructor
  · rintro ⟨sent, hsent⟩
    rw [h, Option.some.injEq] at hsent
    rw [hsent]
  · intro hr
    exact ⟨r.2, by rw [h, ← hr]⟩

theorem basic_leaves {value : UInt8} (hclass : ∀ b ∈ data.head?, b = BASIC)
    (hform : ¬ (Command.basic value).IsReport data) : Leaves (.basic value) k node data := by
  match data with
  | commandClass :: command :: b2 :: rest =>
    have hcommand : command ≠ 0x03 := fun hcommand =>
      hform ⟨hclass commandClass rfl, hcommand⟩
    refine ⟨[], ?_⟩
    simp [Command.onCommand, hcommand]
  | [] => exact ⟨[], rfl⟩
  | [_] => exact ⟨[], rfl⟩
  | [_, _] => exact ⟨[], rfl⟩

theorem config_leaves : Leaves .config k node data := by
  obtain ⟨report, hreport, -⟩ := configReport_slatTime data
  exact ⟨[], by simp [Command.onCommand, hreport]⟩

theorem fibaroFgr222Config_leaves {slatTime : UInt16} (hclass : ∀ b ∈ data.head?, b = CONFIGURATION)
    (hc : node.commands.lookup k = some (.fibaroFgr222Config slatTime))
    (hform : ¬ (Command.fibaroFgr222Config slatTime).IsReport data) :
    Leaves (.fibaroFgr222Config slatTime) k node data := by
  have htime : slatTimeIn data = none := by
    unfold slatTimeIn
    split
    · rename_i commandClass command index size high low rest
      refine if_neg ?_
      rintro ⟨rfl, -, rfl⟩
      exact hform ⟨hclass commandClass rfl, rfl, by decide, by simp⟩
    · rfl
  obtain ⟨node', hnode, rfl | ⟨rfl, -⟩⟩ := onCommand_fibaroFgr222Config slatTime node data k
  · refine (leaves_iff hnode).mpr ?_
    rw [htime]
    exact (track_eq_self hc).mpr rfl
  · exact ⟨[], hnode⟩

theorem manufacturerSpecific_leaves_iff {manufacturer product id : UInt16}
    (hc : node.commands.lookup MANUFACTURER_SPECIFIC =
      some (.manufacturerSpecific manufacturer product id)) :
    Leaves (.manufacturerSpecific manufacturer product id) MANUFACTURER_SPECIFIC node data ↔
      (Command.manufacturerSpecific manufacturer product id).Harmless node data := by
  by_cases hlength : 8 ≤ data.length
  · match data, hlength with
    | b0 :: b1 :: m1 :: m0 :: p1 :: p0 :: i1 :: i0 :: rest, _ =>
      let c := Command.manufacturerSpecific (word m1 m0) (word p1 p0) (word i1 i0)
      rw [leaves_iff (r := (node.track MANUFACTURER_SPECIFIC c).identify (word m1 m0) (word p1 p0))
        rfl]
      constructor
      · intro heq
        -- the identification leaves this object, so its words are the ones of the command
        have hself : (node.track MANUFACTURER_SPECIFIC c).commands.lookup
            MANUFACTURER_SPECIFIC = some c := lookup_insert_self _ _ _
        rw [← lookup_identify, heq, hc, Option.some.injEq] at hself
        obtain ⟨rfl, rfl, rfl⟩ := Command.manufacturerSpecific.inj hself
        rw [(track_eq_self hc).mpr rfl] at heq
        exact ⟨rfl, rfl, rfl, identify_eq_self.mp heq⟩
      · rintro ⟨rfl, rfl, rfl, hidentified⟩
        rw [(track_eq_self hc).mpr rfl]
        exact identify_eq_self.mpr hidentified
  · have hleaves : Leaves (.manufacturerSpecific manufacturer product id) MANUFACTURER_SPECIFIC
        node data := ⟨[], by simp only [Command.onCommand, if_neg hlength]⟩
    refine iff_of_true hleaves ?_
    unfold Command.Harmless
    split
    · simp at hlength
    · simp_all
    · trivial

theorem fibaroFgr222_leaves_iff {blinds slat : UInt8}
    (hc : node.commands.lookup k = some (.fibaroFgr222 blinds slat)) :
    Leaves (.fibaroFgr222 blinds slat) k node data ↔
      (Command.fibaroFgr222 blinds slat).Harmless node data := by
  obtain ⟨node', hnode, rfl | ⟨rfl, hblinds, hslat⟩⟩ :=
    onCommand_fibaroFgr222 blinds slat k node data
  · rw [leaves_iff hnode, track_eq_self hc, Command.fibaroFgr222.injEq]
    rfl
  · rw [leaves_iff hnode]
    simp only [Command.Harmless, hblinds, hslat, Option.getD_none, and_self]

/-- Where the law holds for one command: the object looks at the form of the report, or the
command brings nothing new. -/
theorem only_reports_change_iff (c : Command) (k : UInt8) (node : Node) (data : List UInt8)
    (hc : node.commands.lookup k = some c) (hfit : c.fits k) (hclass : ∀ b ∈ data.head?, b = k) :
    (¬ c.IsReport data → Leaves c k node data) ↔ (c.IsReport data ∨ c.Harmless node data) := by
  cases c with
  | basic value =>
    obtain rfl : k = BASIC := hfit
    exact iff_of_true (basic_leaves hclass) (Or.inr trivial)
  | config => exact iff_of_true (fun _ => config_leaves) (Or.inr trivial)
  | fibaroFgr222Config slatTime =>
    obtain rfl : k = CONFIGURATION := hfit
    exact iff_of_true (fibaroFgr222Config_leaves hclass hc) (Or.inr trivial)
  | manufacturerSpecific manufacturer product id =>
    obtain rfl : k = MANUFACTURER_SPECIFIC := hfit
    rw [manufacturerSpecific_leaves_iff hc]
    exact or_iff_not_imp_left.symm
  | fibaroFgr222 blinds slat =>
    rw [fibaroFgr222_leaves_iff hc]
    exact or_iff_not_imp_left.symm

end Unchanged

/-- The same bytes once as a report, once as the GET that asks for it. -/
def shutter : Node := Node.new.track MANUFACTURER_PROPRIETARY (.fibaroFgr222 99 10)

theorem only_reports_change_iff_example :
    Leaves (.fibaroFgr222 99 10) MANUFACTURER_PROPRIETARY shutter
      [0x91, 0x01, 0x0f, 0x26, 0x02, 0x02, 0x63, 0x00] :=
  (only_reports_change_iff (.fibaroFgr222 99 10) MANUFACTURER_PROPRIETARY shutter
    [0x91, 0x01, 0x0f, 0x26, 0x02, 0x02, 0x63, 0x00] rfl rfl
    (by simp [MANUFACTURER_PROPRIETARY])).mpr (Or.inr ⟨rfl, rfl⟩)
    fun h => absurd h.2.2.2.2 (by decide)

/-- The GET of the position closes the blinds. -/
theorem get_changes_position :
    ¬ ∀ (c : Command) (k : UInt8) (node : Node) (data : List UInt8),
      node.commands.lookup k = some c → c.fits k → (∀ b ∈ data.head?, b = k) →
        ¬ c.IsReport data → Leaves c k node data := by
  intro h
  have hleaves := h (.fibaroFgr222 99 10) MANUFACTURER_PROPRIETARY shutter
    [0x91, 0x01, 0x0f, 0x26, 0x02, 0x02, 0x00, 0x00] rfl rfl (by simp [MANUFACTURER_PROPRIETARY])
    fun h => absurd h.2.2.2.2 (by decide)
  have hc : shutter.commands.lookup MANUFACTURER_PROPRIETARY = some (.fibaroFgr222 99 10) := rfl
  have hharmless := (fibaroFgr222_leaves_iff hc).mp hleaves
  exact absurd hharmless.1 (by decide)

end huasi.network
