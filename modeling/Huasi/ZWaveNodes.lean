-- What the network knows of its nodes: which classes a node information frame
-- registers, and that the tracked state is the one of the latest reports.
import Huasi.Runs
import Huasi.ZWaveNetwork

open huasi.runs huasi.text huasi.decimal huasi.sorted_map

namespace huasi.network

/-! ## Node information -/

/-- The classes that the network registers an object for. -/
def Registers (k : UInt8) : Prop := k = BASIC ∨ k = CONFIGURATION ∨ k = MANUFACTURER_SPECIFIC

instance (k : UInt8) : Decidable (Registers k) := inferInstanceAs (Decidable (_ ∨ _))

/-- The new object that a node information has for a class. -/
def initial (k : UInt8) : Option Command :=
  if k = BASIC then some .newBasic
  else if k = CONFIGURATION then some .config
  else if k = MANUFACTURER_SPECIFIC then some .newManufacturerSpecific
  else none

/-- The class list of a node information frame: from offset 7 up to the first `MARK` or the end. -/
def classList (data : List UInt8) : List UInt8 := (data.drop 7).takeWhile (· ≠ MARK)

theorem countToMark_eq (l : List UInt8) : countToMark l = (l.takeWhile (· ≠ MARK)).length := by
  induction l with
  | nil => rfl
  | cons b rest ih =>
    by_cases hb : b = MARK
    · simp [countToMark, hb]
    · simp [countToMark, hb, ih]

theorem contains_track (node : Node) (commandClass k : UInt8) (c : Command) :
    (node.track commandClass c).commands.contains k ↔
      commandClass = k ∨ node.commands.contains k := by
  simp only [Node.track, SortedMap.contains, lookup_insert]
  by_cases hk : commandClass = k <;> simp [hk]

/-- A class that has an object gets a new one. -/
theorem register_eq (node : Node) (b : UInt8) :
    node.register b =
      match initial b with
      | some c => node.track b c
      | none => node := by
  unfold Node.register initial
  by_cases hbasic : b = BASIC
  · rw [if_pos hbasic, if_pos hbasic, hbasic]
  · rw [if_neg hbasic, if_neg hbasic]
    by_cases hconfig : b = CONFIGURATION
    · rw [if_pos hconfig, if_pos hconfig, hconfig]
    · rw [if_neg hconfig, if_neg hconfig]
      by_cases hspecific : b = MANUFACTURER_SPECIFIC
      · rw [if_pos hspecific, if_pos hspecific, hspecific]
      · rw [if_neg hspecific, if_neg hspecific]

theorem registers_iff (k : UInt8) : Registers k ↔ initial k ≠ none := by
  unfold Registers initial
  constructor
  · rintro (rfl | rfl | rfl)
    · exact Option.some_ne_none _
    · exact Option.some_ne_none _
    · exact Option.some_ne_none _
  · intro h
    split_ifs at h with hbasic hconfig hspecific
    · exact Or.inl hbasic
    · exact Or.inr (Or.inl hconfig)
    · exact Or.inr (Or.inr hspecific)
    · exact absurd rfl h

theorem contains_register (node : Node) (b k : UInt8) :
    (node.register b).commands.contains k ↔
      node.commands.contains k ∨ (k = b ∧ Registers k) := by
  rw [register_eq, registers_iff]
  cases h : initial b with
  | none =>
    constructor
    · exact Or.inl
    · rintro (hc | ⟨rfl, hk⟩)
      · exact hc
      · exact absurd h hk
  | some c =>
    rw [contains_track]
    constructor
    · rintro (rfl | hc)
      · exact Or.inr ⟨rfl, by rw [h]; exact Option.some_ne_none c⟩
      · exact Or.inl hc
    · rintro (hc | ⟨rfl, -⟩)
      · exact Or.inr hc
      · exact Or.inl rfl

theorem contains_foldl_register (classes : List UInt8) (node : Node) (k : UInt8) :
    (classes.foldl Node.register node).commands.contains k ↔
      node.commands.contains k ∨ (k ∈ classes ∧ Registers k) := by
  induction classes generalizing node with
  | nil => simp
  | cons b rest ih =>
    rw [List.foldl_cons, ih, contains_register, List.mem_cons]
    grind

/-- The classes are looked for at the start of the frame, not at the start of their list. -/
theorem onRequest_update {s : ZWaveNetwork} {data : List UInt8} {nodeId : UInt8}
    (hfunction : data[0]? = some ZW_APPLICATION_UPDATE) (hnode : data[2]? = some nodeId)
    (hlen : 7 ≤ data.length) :
    s.onRequest data = s.updateNode nodeId data (classList data).length := by
  have hgeneric : data[5]? = some data[5] := List.getElem?_eq_getElem (by omega)
  have hne : ZW_APPLICATION_UPDATE ≠ APPLICATION_COMMAND_HANDLER := by decide
  simp only [ZWaveNetwork.onRequest, if_pos (show 3 ≤ data.length by omega), hfunction, hnode,
    hgeneric, Option.bind_eq_bind, Option.bind_some, hne, false_and, if_false, hlen, and_self,
    if_true, countToMark_eq, Nat.add_sub_cancel_left]
  rfl

theorem classList_length_le (data : List UInt8) : (classList data).length ≤ data.length :=
  ((List.takeWhile_sublist _).length_le).trans (by simp)

theorem classes_registered_iff (s : ZWaveNetwork) (data : List UInt8) (nodeId : UInt8)
    (hfunction : data[0]? = some ZW_APPLICATION_UPDATE) (hnode : data[2]? = some nodeId)
    (hlen : 7 ≤ data.length) :
    ∃ t sent, s.onRequest data = some (t, sent) ∧
      ((∀ k, (t.nodes nodeId).commands.contains k ↔
          (s.nodes nodeId).commands.contains k ∨ (k ∈ classList data ∧ Registers k)) ↔
        ∀ k, Registers k → ¬ (s.nodes nodeId).commands.contains k →
          (k ∈ classList data ↔ k ∈ data.take (classList data).length)) := by
  rw [onRequest_update hfunction hnode hlen, ZWaveNetwork.updateNode,
    if_pos (classList_length_le data)]
  refine ⟨_, _, rfl, ?_⟩
  simp only [ZWaveNetwork.setNode, Function.update_self, contains_foldl_register]
  constructor
  · intro h k hk hnew
    have := h k
    grind
  · intro h k
    have := h k
    grind

def ZWaveNetwork.new : ZWaveNetwork := { nodes := fun _ => .new }

/-- The node with the id 0x72 reports the class 0x72 among others. -/
theorem classes_registered_iff_example :
    ∃ t sent, ZWaveNetwork.new.onRequest
        [0x49, 0x84, 0x72, 0x06, 0x04, 0x11, 0x06, 0x26, 0x72, 0x86] = some (t, sent) ∧
      ∀ k, (t.nodes 0x72).commands.contains k ↔
        (ZWaveNetwork.new.nodes 0x72).commands.contains k ∨
          (k ∈ classList [0x49, 0x84, 0x72, 0x06, 0x04, 0x11, 0x06, 0x26, 0x72, 0x86] ∧
            Registers k) := by
  obtain ⟨t, sent, ht, hiff⟩ := classes_registered_iff .new
    [0x49, 0x84, 0x72, 0x06, 0x04, 0x11, 0x06, 0x26, 0x72, 0x86] 0x72 rfl rfl (by decide)
  refine ⟨t, sent, ht, hiff.mpr ?_⟩
  rintro k (rfl | rfl | rfl) -
  · decide
  · decide
  · decide

/-- Node 5 reports all three classes, and the network registers none of them. -/
theorem node_information_unseen :
    ∃ t sent, ZWaveNetwork.new.onRequest
        [0x49, 0x84, 0x05, 0x06, 0x04, 0x11, 0x06, 0x20, 0x70, 0x72] = some (t, sent) ∧
      ¬ ∀ k, (t.nodes 0x05).commands.contains k ↔
        (ZWaveNetwork.new.nodes 0x05).commands.contains k ∨
          (k ∈ classList [0x49, 0x84, 0x05, 0x06, 0x04, 0x11, 0x06, 0x20, 0x70, 0x72] ∧
            Registers k) := by
  refine ⟨_, _, rfl, fun h => ?_⟩
  exact absurd ((h BASIC).mpr (Or.inr (by decide))) (by decide)

end huasi.network
