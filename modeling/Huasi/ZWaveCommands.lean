-- The command objects of the nodes: each sits under its own class, what each takes
-- out of a command, and which object a frame reaches.
import Huasi.ZWaveNodes

open huasi.text huasi.sorted_map

namespace huasi.network

/-! ## Command objects and their classes -/

/-- The class that an object of this kind is registered for. -/
def Command.fits (k : UInt8) : Command → Prop
  | .basic _ => k = BASIC
  | .config | .fibaroFgr222Config _ => k = CONFIGURATION
  | .manufacturerSpecific _ _ _ => k = MANUFACTURER_SPECIFIC
  | .fibaroFgr222 _ _ => k = MANUFACTURER_PROPRIETARY

def Node.Fits (node : Node) : Prop := ∀ k c, node.commands.lookup k = some c → c.fits k

/-- Every object of every node is registered for its own class. -/
def ZWaveNetwork.Fits (s : ZWaveNetwork) : Prop := ∀ n, (s.nodes n).Fits

theorem Node.Fits.track {node : Node} (h : node.Fits) {k : UInt8} {c : Command} (hc : c.fits k) :
    (node.track k c).Fits := by
  intro l d hl
  rw [Node.track, lookup_insert] at hl
  split at hl
  · cases hl
    subst_vars
    exact hc
  · exact h l d hl

theorem fits_initial {b : UInt8} {c : Command} (h : initial b = some c) : c.fits b := by
  unfold initial at h
  split_ifs at h with hbasic hconfig hspecific
  · cases h
    exact hbasic
  · cases h
    exact hconfig
  · cases h
    exact hspecific

theorem Node.Fits.register {node : Node} (h : node.Fits) (b : UInt8) : (node.register b).Fits := by
  rw [register_eq]
  cases hb : initial b with
  | none => exact h
  | some c => exact h.track (fits_initial hb)

theorem Node.Fits.identify {node : Node} (h : node.Fits) (manufacturer product : UInt16) :
    (node.identify manufacturer product).1.Fits := by
  unfold Node.identify
  split
  · exact (h.track (k := CONFIGURATION) (c := .newFibaroFgr222Config) rfl).track
      (k := MANUFACTURER_PROPRIETARY) (c := .newFibaroFgr222) rfl
  · exact h

/-- `sendSet` changes no object but the configuration, which takes a new slat time at once. -/
theorem sendSet_fst (c : Command) (p : Parameters) :
    (c.sendSet p).1 = match c with
      | .fibaroFgr222Config slatTime =>
        .fibaroFgr222Config ((p.getWord (ascii "config.slatTime")).getD slatTime)
      | c => c := by
  cases c with
  | basic value => simp only [Command.sendSet, apply_ite Prod.fst, ite_self]
  | config => rfl
  | manufacturerSpecific manufacturer product id => rfl
  | fibaroFgr222 blinds slat => simp only [Command.sendSet, apply_ite Prod.fst, ite_self]
  | fibaroFgr222Config slatTime =>
    simp only [Command.sendSet]
    split
    · simp [*]
    · simp [*]

theorem fits_sendSet {c : Command} {k : UInt8} (h : c.fits k) (p : Parameters) :
    (c.sendSet p).1.fits k := by
  rw [sendSet_fst]
  cases c <;> exact h

/-! ## What a command says -/

/-- The position of the blinds in a MANUFACTURER_PROPRIETARY command, if flag 2 is set. -/
def blindsIn : List UInt8 → Option UInt8
  | _ :: _ :: _ :: _ :: _ :: flags :: blinds :: _ :: _ =>
    if flags &&& 2 ≠ 0 then some blinds else none
  | _ => none

/-- The position of the slat in a MANUFACTURER_PROPRIETARY command, if flag 1 is set. -/
def slatIn : List UInt8 → Option UInt8
  | _ :: _ :: _ :: _ :: _ :: flags :: _ :: slat :: _ =>
    if flags &&& 1 ≠ 0 then some slat else none
  | _ => none

/-- The slat time in a CONFIGURATION REPORT of size 2 for its register. -/
def slatTimeIn : List UInt8 → Option UInt16
  | _ :: command :: index :: size :: high :: low :: _ =>
    if command = 0x06 ∧ index = SLAT_TIME ∧ size = 2 then some (word high low) else none
  | _ => none

theorem onCommand_fibaroFgr222 (blinds slat k : UInt8) (node : Node) (data : List UInt8) :
    ∃ node', (Command.fibaroFgr222 blinds slat).onCommand k node data = some (node', []) ∧
      (node' = node.track k
          (.fibaroFgr222 ((blindsIn data).getD blinds) ((slatIn data).getD slat)) ∨
        node' = node ∧ blindsIn data = none ∧ slatIn data = none) := by
  unfold Command.onCommand
  simp only
  split
  · rename_i h
    match data, h with
    | b0 :: b1 :: b2 :: b3 :: b4 :: flags :: b6 :: b7 :: rest, _ =>
      refine ⟨_, rfl, Or.inl ?_⟩
      simp only [blindsIn, slatIn]
      congr 2 <;> split <;> rfl
  · rename_i h
    refine ⟨node, rfl, Or.inr ⟨rfl, ?_⟩⟩
    constructor
    · unfold blindsIn
      split
      · simp at h
      · rfl
    · unfold slatIn
      split
      · simp at h
      · rfl

/-- The slat time that a call of `onWord` brings. -/
def ConfigReport.slatTime : Option ConfigReport → Option UInt16
  | some (.onWord index value) => if index = SLAT_TIME then some value else none
  | _ => none

theorem slatTimeIn_none {b0 command index size b4 : UInt8} {rest : List UInt8}
    (h : command = 0x06 → size = 2 → rest = []) :
    slatTimeIn (b0 :: command :: index :: size :: b4 :: rest) = none := by
  cases rest with
  | nil => rfl
  | cons low rest =>
    refine if_neg ?_
    rintro ⟨hcommand, -, hsize⟩
    exact absurd (h hcommand hsize) (List.cons_ne_nil _ _)

theorem configReport_slatTime (data : List UInt8) :
    ∃ report, configReport data = some report ∧ ConfigReport.slatTime report = slatTimeIn data := by
  unfold configReport
  split
  · rename_i h
    match data, h with
    | b0 :: command :: index :: size :: b4 :: rest, _ =>
      simp only [List.getElem?_cons_succ, List.getElem?_cons_zero, Option.bind_eq_bind,
        Option.bind_some]
      split
      · rename_i hcommand
        split
        · rename_i hfits
          simp only [List.length_cons] at hfits
          split
          · rename_i hsize
            exact ⟨_, rfl, (slatTimeIn_none fun _ h => absurd (hsize.symm.trans h) (by decide)).symm⟩
          · split
            · rename_i hsize
              subst hsize
              match rest, hfits with
              | low :: rest, _ =>
                refine ⟨_, rfl, ?_⟩
                simp [ConfigReport.slatTime, slatTimeIn, hcommand]
            · rename_i hsize
              split
              · rename_i hfour
                subst hfour
                match rest, hfits with
                | b5 :: b6 :: b7 :: rest, _ =>
                  exact ⟨_, rfl, (slatTimeIn_none fun _ h => absurd h hsize).symm⟩
              · exact ⟨_, rfl, (slatTimeIn_none fun _ h => absurd h hsize).symm⟩
        · rename_i hfits
          refine ⟨_, rfl, (slatTimeIn_none fun _ h => ?_).symm⟩
          subst h
          cases rest with
          | nil => rfl
          | cons low rest =>
            simp at hfits
      · rename_i hcommand
        exact ⟨_, rfl, (slatTimeIn_none fun h _ => absurd h hcommand).symm⟩
  · rename_i h
    refine ⟨none, rfl, ?_⟩
    unfold slatTimeIn
    split
    · simp at h
    · rfl

theorem onCommand_fibaroFgr222Config (slatTime : UInt16) (node : Node) (data : List UInt8)
    (k : UInt8) :
    ∃ node', (Command.fibaroFgr222Config slatTime).onCommand k node data = some (node', []) ∧
      (node' = node.track k (.fibaroFgr222Config ((slatTimeIn data).getD slatTime)) ∨
        node' = node ∧ slatTimeIn data = none) := by
  obtain ⟨report, hreport, htime⟩ := configReport_slatTime data
  simp only [Command.onCommand, hreport, Option.map_some]
  unfold ConfigReport.slatTime at htime
  split
  · split
    · rename_i hindex
      simp only [hindex, if_true] at htime
      exact ⟨_, rfl, Or.inl (by rw [← htime]; rfl)⟩
    · rename_i hindex
      simp only [hindex, if_false] at htime
      exact ⟨_, rfl, Or.inr ⟨rfl, htime.symm⟩⟩
  · refine ⟨_, rfl, Or.inr ⟨rfl, ?_⟩⟩
    rw [← htime]
    split
    · simp_all
    · rfl

theorem onCommand_basic (value k : UInt8) (node : Node) (data : List UInt8) :
    ∃ node', (Command.basic value).onCommand k node data = some (node', []) ∧
      (node' = node ∨ ∃ newValue, node' = node.track k (.basic newValue)) := by
  unfold Command.onCommand
  simp only
  split
  · rename_i hlen
    match data, hlen with
    | b0 :: command :: b2 :: rest, _ =>
      simp only [List.getElem?_cons_succ, List.getElem?_cons_zero, Option.bind_eq_bind,
        Option.bind_some]
      split
      · exact ⟨_, rfl, Or.inr ⟨b2, rfl⟩⟩
      · exact ⟨_, rfl, Or.inl rfl⟩
  · exact ⟨_, rfl, Or.inl rfl⟩

/-- What any object does with a command: it stays inside the bytes, and the classes fit. -/
theorem onCommand_fits {c : Command} {k : UInt8} {node : Node} (hc : c.fits k) (h : node.Fits)
    (data : List UInt8) :
    ∃ node' sent, c.onCommand k node data = some (node', sent) ∧ node'.Fits := by
  cases c with
  | basic value =>
    obtain ⟨node', hnode, rfl | ⟨newValue, rfl⟩⟩ := onCommand_basic value k node data
    · exact ⟨_, _, hnode, h⟩
    · exact ⟨_, _, hnode, h.track hc⟩
  | config =>
    obtain ⟨report, hreport, -⟩ := configReport_slatTime data
    exact ⟨node, [], by simp [Command.onCommand, hreport], h⟩
  | manufacturerSpecific manufacturer product id =>
    unfold Command.onCommand
    simp only
    split
    · rename_i hlen
      match data, hlen with
      | b0 :: b1 :: b2 :: b3 :: b4 :: b5 :: b6 :: b7 :: rest, _ =>
        refine ⟨_, _, rfl, Node.Fits.identify ?_ _ _⟩
        exact h.track hc
    · exact ⟨_, _, rfl, h⟩
  | fibaroFgr222 blinds slat =>
    obtain ⟨node', hnode, rfl | ⟨rfl, -, -⟩⟩ := onCommand_fibaroFgr222 blinds slat k node data
    · exact ⟨_, _, hnode, h.track hc⟩
    · exact ⟨_, _, hnode, h⟩
  | fibaroFgr222Config slatTime =>
    obtain ⟨node', hnode, rfl | ⟨rfl, -⟩⟩ := onCommand_fibaroFgr222Config slatTime node data k
    · exact ⟨_, _, hnode, h.track hc⟩
    · exact ⟨_, _, hnode, h⟩

/-! ## Frames -/

/-- The command that an APPLICATION_COMMAND_HANDLER frame delivers: node, class, bytes. -/
def delivery : List UInt8 → Option (UInt8 × UInt8 × List UInt8)
  | function :: _ :: nodeId :: commandLength :: commandClass :: b5 :: b6 :: rest =>
    if function = APPLICATION_COMMAND_HANDLER ∧ commandLength.toNat ≤ 3 + rest.length then
      some (nodeId, commandClass, (commandClass :: b5 :: b6 :: rest).take commandLength.toNat)
    else none
  | _ => none

theorem delivery_some {data command : List UInt8} {m k : UInt8}
    (h : delivery data = some (m, k, command)) :
    data[0]? = some APPLICATION_COMMAND_HANDLER ∧ data[2]? = some m ∧ data[4]? = some k := by
  unfold delivery at h
  split at h
  · split at h
    · rename_i hfunction
      cases h
      exact ⟨by rw [← hfunction.1]; rfl, rfl, rfl⟩
    · cases h
  · cases h

/-- A command is delivered if the frame is long enough for it. -/
theorem onRequest_command (s : ZWaveNetwork)
    (status nodeId commandLength commandClass b5 b6 : UInt8) (rest : List UInt8) :
    s.onRequest (APPLICATION_COMMAND_HANDLER :: status :: nodeId :: commandLength ::
        commandClass :: b5 :: b6 :: rest) =
      if commandLength.toNat ≤ 3 + rest.length then
        match (s.nodes nodeId).commands.lookup commandClass with
        | some c => (c.onCommand commandClass (s.nodes nodeId)
            ((commandClass :: b5 :: b6 :: rest).take commandLength.toNat)).map fun r =>
              (s.setNode nodeId r.1, sender nodeId r.2)
        | none => some (s, [])
      else some (s, []) := by
  have hlength : (APPLICATION_COMMAND_HANDLER :: status :: nodeId :: commandLength ::
      commandClass :: b5 :: b6 :: rest).length = 7 + rest.length := by
    simp only [List.length_cons]
    omega
  have h3 : 3 ≤ 7 + rest.length := by omega
  have h7 : 7 ≤ 7 + rest.length := by omega
  have hfits : 4 + commandLength.toNat ≤ 7 + rest.length ↔
      commandLength.toNat ≤ 3 + rest.length := by omega
  simp only [ZWaveNetwork.onRequest, List.getElem?_cons_succ, List.getElem?_cons_zero,
    Option.bind_eq_bind, Option.bind_some, hlength, h3, h7, hfits, and_self, if_true]
  split
  · cases (s.nodes nodeId).commands.lookup commandClass with
    | none => rfl
    | some c => exact Option.map_eq_bind.symm
  · rfl

/-- Anything else does nothing. -/
theorem onRequest_other (s : ZWaveNetwork) {data : List UInt8}
    (h : data.length < 7 ∨ data[0]? ≠ some APPLICATION_COMMAND_HANDLER ∧
      data[0]? ≠ some ZW_APPLICATION_UPDATE) : s.onRequest data = some (s, []) := by
  unfold ZWaveNetwork.onRequest
  split
  · rename_i h3
    match data, h3 with
    | function :: status :: nodeId :: rest, _ =>
      have hno : ∀ f, f = APPLICATION_COMMAND_HANDLER ∨ f = ZW_APPLICATION_UPDATE →
          ¬ (function = f ∧ 7 ≤ (function :: status :: nodeId :: rest).length) := by
        rintro f hf ⟨rfl, hlen⟩
        obtain hshort | ⟨hcommand, hupdate⟩ := h
        · exact absurd hlen (Nat.not_le.mpr hshort)
        · exact hf.elim (fun hf => hcommand (congrArg some hf)) fun hf =>
            hupdate (congrArg some hf)
      simp only [List.getElem?_cons_succ, List.getElem?_cons_zero, Option.bind_eq_bind,
        Option.bind_some, if_neg (hno _ (.inl rfl)), if_neg (hno _ (.inr rfl))]
      rfl
  · rfl

theorem delivery_short {data : List UInt8} (h : data.length < 7) : delivery data = none := by
  unfold delivery
  split
  · simp only [List.length_cons] at h
    omega
  · rfl

/-- What a frame does: it delivers a command to the object of its class, or it is a node
information, or it does nothing. -/
theorem onRequest_cases (s : ZWaveNetwork) (data : List UInt8) :
    (∃ m k command, delivery data = some (m, k, command) ∧ s.onRequest data =
      match (s.nodes m).commands.lookup k with
      | some c => (c.onCommand k (s.nodes m) command).map fun r =>
          (s.setNode m r.1, sender m r.2)
      | none => some (s, [])) ∨
    (delivery data = none ∧ ∃ m, data[0]? = some ZW_APPLICATION_UPDATE ∧ data[2]? = some m ∧
      s.onRequest data = s.updateNode m data (classList data).length) ∨
    (delivery data = none ∧ s.onRequest data = some (s, [])) := by
  by_cases hlen : 7 ≤ data.length
  · match data, hlen with
    | function :: status :: nodeId :: commandLength :: commandClass :: b5 :: b6 :: rest, hlen =>
      by_cases hfunction : function = APPLICATION_COMMAND_HANDLER
      · subst hfunction
        rw [onRequest_command]
        by_cases hfits : commandLength.toNat ≤ 3 + rest.length
        · left
          rw [if_pos hfits]
          exact ⟨nodeId, commandClass, _, if_pos ⟨rfl, hfits⟩, rfl⟩
        · right
          right
          rw [if_neg hfits]
          exact ⟨if_neg fun h => hfits h.2, rfl⟩
      · have hnone : delivery (function :: status :: nodeId :: commandLength :: commandClass ::
            b5 :: b6 :: rest) = none := if_neg fun h => hfunction h.1
        right
        by_cases hupdate : function = ZW_APPLICATION_UPDATE
        · left
          subst hupdate
          exact ⟨hnone, nodeId, rfl, rfl, onRequest_update rfl rfl hlen⟩
        · right
          exact ⟨hnone, onRequest_other s (.inr ⟨fun h => hfunction (Option.some.inj h),
            fun h => hupdate (Option.some.inj h)⟩)⟩
  · right
    right
    have hshort : data.length < 7 := Nat.not_le.mp hlen
    exact ⟨delivery_short hshort, onRequest_other s (.inl hshort)⟩

/-! ## One frame or one request -/

theorem setNode_fits {s : ZWaveNetwork} (h : s.Fits) {m : UInt8} {node : Node} (hnode : node.Fits) :
    (s.setNode m node).Fits := by
  intro n
  by_cases hn : n = m
  · subst hn
    simpa [ZWaveNetwork.setNode] using hnode
  · simpa [ZWaveNetwork.setNode, hn] using h n

theorem foldl_register_fits (classes : List UInt8) {node : Node} (h : node.Fits) :
    (classes.foldl Node.register node).Fits := by
  induction classes generalizing node with
  | nil => exact h
  | cons b rest ih => exact ih (h.register b)

/-- Every frame is handled, and changes at most the node that it comes from. -/
theorem onRequest_fits {s : ZWaveNetwork} (h : s.Fits) (data : List UInt8) :
    ∃ t sent, s.onRequest data = some (t, sent) ∧ t.Fits ∧
      ∀ n, data[2]? ≠ some n → t.nodes n = s.nodes n := by
  have hset : ∀ (m n : UInt8) (node : Node), data[2]? = some m → data[2]? ≠ some n →
      (s.setNode m node).nodes n = s.nodes n := fun m n node hm hn => by
    have hne : n ≠ m := fun h => hn (h ▸ hm)
    simp [ZWaveNetwork.setNode, hne]
  rcases onRequest_cases s data with ⟨m, k, command, hdelivery, hreq⟩ | ⟨-, m, -, hm, hreq⟩ |
    ⟨-, hreq⟩
  · rw [hreq]
    cases hlookup : (s.nodes m).commands.lookup k with
    | none => exact ⟨s, [], rfl, h, fun n _ => rfl⟩
    | some c =>
      obtain ⟨node, sent, hcommand, hnode⟩ := onCommand_fits (h m k c hlookup) (h m) command
      refine ⟨s.setNode m node, sender m sent, by simp only [hcommand, Option.map_some],
        setNode_fits h hnode, fun n hn => ?_⟩
      exact hset m n node (delivery_some hdelivery).2.1 hn
  · rw [hreq, ZWaveNetwork.updateNode, if_pos (classList_length_le data)]
    exact ⟨_, _, rfl, setNode_fits h (foldl_register_fits _ (h m)), fun n hn => hset m n _ hm hn⟩
  · exact ⟨s, [], hreq, h, fun n _ => rfl⟩

end huasi.network
