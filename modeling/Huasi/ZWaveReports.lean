-- The network over time: frames arrive and POSTs go out in any order, and `get` shows
-- of an identified FGR-222 what the latest reports have brought.
import Huasi.Runs
import Huasi.ZWaveGet

open huasi.runs huasi.text huasi.decimal huasi.sorted_map

namespace huasi.network

/-! ## Events -/

/-- What happens to the network: a frame arrives, or a POST sends parameters to a node. -/
inductive Event where
  | request (data : List UInt8)
  | post (nodeId : Nat) (p : Parameters)

/-- One event. A POST to an unknown node changes nothing. -/
def step (s : ZWaveNetwork) : Event → Option ZWaveNetwork
  | .request data => (s.onRequest data).map Prod.fst
  | .post nodeId p => some (((s.sendSet nodeId p).map Prod.fst).getD s)

/-- A POST goes through the objects of its node. -/
theorem lookup_post {s t : ZWaveNetwork} {nodeId : Nat} {p : Parameters}
    (h : step s (.post nodeId p) = some t) (n k : UInt8) :
    (t.nodes n).commands.lookup k =
      if nodeId = n.toNat then ((s.nodes n).commands.lookup k).map fun c => (c.sendSet p).1
      else (s.nodes n).commands.lookup k := by
  obtain rfl := Option.some.inj h
  unfold ZWaveNetwork.sendSet
  split
  · rename_i hlt
    have hid : UInt8.ofNat nodeId = n ↔ nodeId = n.toNat := by
      rw [← UInt8.toNat_inj, UInt8.toNat_ofNat_of_lt' hlt]
    simp only
    split
    · by_cases hn : nodeId = n.toNat
      · rw [if_pos hn, ← hid.mpr hn]
        simp [ZWaveNetwork.setNode]
      · have hne : n ≠ UInt8.ofNat nodeId := fun h => hn (hid.mp h.symm)
        simp [ZWaveNetwork.setNode, hn, hne]
    · rename_i hempty
      split
      · rename_i hn
        obtain rfl := hid.mpr hn
        have hnone : (s.nodes (UInt8.ofNat nodeId)).commands.lookup k = none := by
          simp [SortedMap.lookup, Classical.not_not.mp hempty]
        simp [hnone]
      · rfl
  · rename_i hge
    have hne : nodeId ≠ n.toNat := fun h => hge (h ▸ n.toNat_lt)
    simp [hne]

theorem post_fits {s t : ZWaveNetwork} (hs : s.Fits) {nodeId : Nat} {p : Parameters}
    (h : step s (.post nodeId p) = some t) : t.Fits := by
  intro n k c hc
  rw [lookup_post h] at hc
  split at hc
  · obtain ⟨d, hd, rfl⟩ := Option.map_eq_some_iff.mp hc
    exact fits_sendSet (hs n k d hd) p
  · exact hs n k c hc

/-- Every event is handled. -/
theorem step_fits {s : ZWaveNetwork} (h : s.Fits) (e : Event) :
    ∃ t, step s e = some t ∧ t.Fits := by
  cases e with
  | request data =>
    obtain ⟨t, sent, ht, hfits, -⟩ := onRequest_fits h data
    exact ⟨t, by simp [step, ht], hfits⟩
  | post nodeId p => exact ⟨_, rfl, post_fits h rfl⟩

theorem run_fits {s : ZWaveNetwork} (h : s.Fits) (es : List Event) :
    ∃ t, run step s es = some t ∧ t.Fits := by
  induction es generalizing s with
  | nil => exact ⟨s, rfl, h⟩
  | cons e es ih =>
    obtain ⟨t, ht, hfits⟩ := step_fits h e
    obtain ⟨u, hu, hu'⟩ := ih hfits
    exact ⟨u, by simp [run, ht, hu], hu'⟩

theorem new_fits : ZWaveNetwork.new.Fits := fun _ _ _ h => by
  simp [ZWaveNetwork.new, Node.new] at h

/-! ## The latest reports of a node -/

/-- The bytes that an event delivers to the object of a class of a node. -/
def commandTo (n k : UInt8) : Event → Option (List UInt8)
  | .request data => (delivery data).bind fun d => if d.1 = n ∧ d.2.1 = k then some d.2.2 else none
  | .post _ _ => none

def blindsReport (n : UInt8) (e : Event) : Option UInt8 :=
  (commandTo n MANUFACTURER_PROPRIETARY e).bind blindsIn

def slatReport (n : UInt8) (e : Event) : Option UInt8 :=
  (commandTo n MANUFACTURER_PROPRIETARY e).bind slatIn

/-- A slat time that the node reports, or that a POST sets. -/
def slatTimeReport (n : UInt8) : Event → Option UInt16
  | .request data => (commandTo n CONFIGURATION (.request data)).bind slatTimeIn
  | .post nodeId p => if nodeId = n.toNat then p.getWord (ascii "config.slatTime") else none

/-- The value that the latest event brings that brings any, else `value`. -/
def latest {α : Type} (report : Event → Option α) (value : α) (es : List Event) : α :=
  ((es.filterMap report).getLast?).getD value

theorem latest_cons {α : Type} (report : Event → Option α) (value : α) (e : Event)
    (es : List Event) : latest report value (e :: es) = latest report ((report e).getD value) es := by
  unfold latest
  cases he : report e with
  | none => simp [he]
  | some v =>
    simp only [List.filterMap_cons, he, Option.getD_some]
    rw [List.getLast?_cons]
    rfl

/-- The node is neither registered nor identified again. -/
def Keeps (n : UInt8) : Event → Prop
  | .request data => data[2]? = some n → data[0]? ≠ some ZW_APPLICATION_UPDATE ∧
      ¬ (data[0]? = some APPLICATION_COMMAND_HANDLER ∧ data[4]? = some MANUFACTURER_SPECIFIC)
  | .post _ _ => True

/-- What the objects of an identified FGR-222 track. -/
structure Tracks (n : UInt8) (blinds slat : UInt8) (slatTime : UInt16) (s : ZWaveNetwork) :
    Prop where
  fits : s.Fits
  position : (s.nodes n).commands.lookup MANUFACTURER_PROPRIETARY =
    some (.fibaroFgr222 blinds slat)
  config : (s.nodes n).commands.lookup CONFIGURATION = some (.fibaroFgr222Config slatTime)

section Tracks

variable {n : UInt8} {blinds slat : UInt8} {slatTime : UInt16} {s : ZWaveNetwork}

theorem lookup_track (node : Node) (k l : UInt8) (c : Command) :
    (node.track k c).commands.lookup l = if k = l then some c else node.commands.lookup l :=
  lookup_insert k l c node.commands

/-- The node `n` after a command to one of its objects. -/
theorem onCommand_tracks (h : Tracks n blinds slat slatTime s) {k : UInt8} {c : Command}
    (hc : (s.nodes n).commands.lookup k = some c) (hk : k ≠ MANUFACTURER_SPECIFIC)
    (command : List UInt8) :
    ∃ node sent, c.onCommand k (s.nodes n) command = some (node, sent) ∧
      node.commands.lookup MANUFACTURER_PROPRIETARY = some (.fibaroFgr222
        ((if k = MANUFACTURER_PROPRIETARY then blindsIn command else none).getD blinds)
        ((if k = MANUFACTURER_PROPRIETARY then slatIn command else none).getD slat)) ∧
      node.commands.lookup CONFIGURATION = some (.fibaroFgr222Config
        ((if k = CONFIGURATION then slatTimeIn command else none).getD slatTime)) := by
  have hfit := h.fits n k c hc
  cases c with
  | basic value =>
    obtain rfl : k = BASIC := hfit
    obtain ⟨node, hnode, rfl | ⟨newValue, rfl⟩⟩ := onCommand_basic value BASIC (s.nodes n) command
    · exact ⟨_, _, hnode, h.position, h.config⟩
    · exact ⟨_, _, hnode, by rw [lookup_track]; exact h.position,
        by rw [lookup_track]; exact h.config⟩
  | config =>
    obtain rfl : k = CONFIGURATION := hfit
    exact absurd (hc.symm.trans h.config) (by simp)
  | manufacturerSpecific manufacturer product id => exact absurd hfit hk
  | fibaroFgr222 b sl =>
    obtain rfl : k = MANUFACTURER_PROPRIETARY := hfit
    obtain ⟨rfl, rfl⟩ : b = blinds ∧ sl = slat := by simpa using hc.symm.trans h.position
    obtain ⟨node, hnode, rfl | ⟨rfl, hblinds, hslat⟩⟩ :=
      onCommand_fibaroFgr222 b sl MANUFACTURER_PROPRIETARY (s.nodes n) command
    · exact ⟨_, _, hnode, by rw [lookup_track]; rfl, by rw [lookup_track]; exact h.config⟩
    · refine ⟨_, _, hnode, ?_, h.config⟩
      rw [if_pos rfl, if_pos rfl, hblinds, hslat]
      exact h.position
  | fibaroFgr222Config time =>
    obtain rfl : k = CONFIGURATION := hfit
    obtain rfl : time = slatTime := by simpa using hc.symm.trans h.config
    obtain ⟨node, hnode, rfl | ⟨rfl, htime⟩⟩ :=
      onCommand_fibaroFgr222Config time (s.nodes n) command CONFIGURATION
    · exact ⟨_, _, hnode, by rw [lookup_track]; exact h.position, by rw [lookup_track]; rfl⟩
    · refine ⟨_, _, hnode, h.position, ?_⟩
      rw [if_pos rfl, htime]
      exact h.config

theorem Tracks.of_nodes (h : Tracks n blinds slat slatTime s) {t : ZWaveNetwork} (hfits : t.Fits)
    (hnodes : t.nodes n = s.nodes n) : Tracks n blinds slat slatTime t :=
  ⟨hfits, hnodes ▸ h.position, hnodes ▸ h.config⟩

theorem bind_commandTo {α : Type} {data command : List UInt8} {n k : UInt8}
    (h : delivery data = some (n, k, command)) (l : UInt8) (f : List UInt8 → Option α) :
    (commandTo n l (.request data)).bind f = if k = l then f command else none := by
  simp only [commandTo, h, Option.bind_some, true_and]
  by_cases hk : k = l
  · rw [if_pos hk, if_pos hk, Option.bind_some]
  · rw [if_neg hk, if_neg hk, Option.bind_none]

/-- Without a command to the node nothing is reported. -/
theorem Tracks.quiet (h : Tracks n blinds slat slatTime s) {data : List UInt8}
    (hnone : ∀ k, commandTo n k (.request data) = none) {t : ZWaveNetwork} (hfits : t.Fits)
    (hnodes : t.nodes n = s.nodes n) :
    Tracks n ((blindsReport n (.request data)).getD blinds)
      ((slatReport n (.request data)).getD slat)
      ((slatTimeReport n (.request data)).getD slatTime) t := by
  simp only [blindsReport, slatReport, slatTimeReport, hnone, Option.bind_none, Option.getD_none]
  exact h.of_nodes hfits hnodes

/-- A command to the node, of a class other than the one that identifies it. -/
theorem Tracks.delivered (h : Tracks n blinds slat slatTime s) {data command : List UInt8}
    {k : UInt8} (hdelivery : delivery data = some (n, k, command)) (hk : k ≠ MANUFACTURER_SPECIFIC)
    {t : ZWaveNetwork} {sent : List SendData} (hfits : t.Fits)
    (ht : (match (s.nodes n).commands.lookup k with
      | some c => (c.onCommand k (s.nodes n) command).map fun r =>
          (s.setNode n r.1, sender n r.2)
      | none => some (s, [])) = some (t, sent)) :
    Tracks n ((blindsReport n (.request data)).getD blinds)
      ((slatReport n (.request data)).getD slat)
      ((slatTimeReport n (.request data)).getD slatTime) t := by
  simp only [blindsReport, slatReport, slatTimeReport, bind_commandTo hdelivery]
  cases hlookup : (s.nodes n).commands.lookup k with
  | none =>
    have hposition : k ≠ MANUFACTURER_PROPRIETARY := fun hk =>
      absurd (hlookup.symm.trans (hk ▸ h.position)) (by simp)
    have hconfig : k ≠ CONFIGURATION := fun hk =>
      absurd (hlookup.symm.trans (hk ▸ h.config)) (by simp)
    rw [hlookup] at ht
    obtain rfl : s = t := (Prod.mk.inj (Option.some.inj ht)).1
    simpa only [if_neg hposition, if_neg hconfig, Option.getD_none] using h
  | some c =>
    obtain ⟨node, sent', hnode, hposition, hconfig⟩ := onCommand_tracks h hlookup hk command
    rw [hlookup] at ht
    simp only [hnode, Option.map_some, Option.some.injEq, Prod.mk.injEq] at ht
    obtain ⟨rfl, -⟩ := ht
    have hself : (s.setNode n node).nodes n = node := by simp [ZWaveNetwork.setNode]
    exact ⟨hfits, by rw [hself]; exact hposition, by rw [hself]; exact hconfig⟩

theorem request_tracks (h : Tracks n blinds slat slatTime s) {data : List UInt8}
    (hkeeps : Keeps n (.request data)) :
    ∃ t, step s (.request data) = some t ∧
      Tracks n ((blindsReport n (.request data)).getD blinds)
        ((slatReport n (.request data)).getD slat)
        ((slatTimeReport n (.request data)).getD slatTime) t := by
  obtain ⟨t, sent, ht, hfits, hother⟩ := onRequest_fits h.fits data
  refine ⟨t, by simp [step, ht], ?_⟩
  rcases onRequest_cases s data with ⟨m, k, command, hdelivery, hreq⟩ |
    ⟨hdelivery, m, hupdate, hm, -⟩ | ⟨hdelivery, hreq⟩
  · obtain ⟨hfunction, hnode, hclass⟩ := delivery_some hdelivery
    by_cases hmn : m = n
    · subst hmn
      have hk : k ≠ MANUFACTURER_SPECIFIC := fun hk =>
        (hkeeps hnode).2 ⟨hfunction, hk ▸ hclass⟩
      exact h.delivered hdelivery hk hfits (hreq.symm.trans ht)
    · exact h.quiet (fun l => by simp [commandTo, hdelivery, hmn]) hfits
        (hother n fun hn => hmn (Option.some.inj (hnode.symm.trans hn)))
  · have hmn : m ≠ n := fun hmn => (hkeeps (hmn ▸ hm)).1 hupdate
    exact h.quiet (fun l => by simp [commandTo, hdelivery]) hfits
      (hother n fun hn => hmn (Option.some.inj (hm.symm.trans hn)))
  · obtain rfl : s = t := (Prod.mk.inj (Option.some.inj (hreq.symm.trans ht))).1
    exact h.quiet (fun l => by simp [commandTo, hdelivery]) hfits rfl

theorem step_tracks (h : Tracks n blinds slat slatTime s) {e : Event} (hkeeps : Keeps n e) :
    ∃ t, step s e = some t ∧
      Tracks n ((blindsReport n e).getD blinds) ((slatReport n e).getD slat)
        ((slatTimeReport n e).getD slatTime) t := by
  cases e with
  | request data => exact request_tracks h hkeeps
  | post nodeId p =>
    refine ⟨_, rfl, post_fits h.fits rfl, ?_, ?_⟩
    · rw [lookup_post rfl, h.position, Option.map_some, sendSet_fst]
      exact ite_self _
    · rw [lookup_post rfl, h.config, Option.map_some, sendSet_fst]
      by_cases hn : nodeId = n.toNat
      · simp only [slatTimeReport, if_pos hn]
      · simp only [slatTimeReport, if_neg hn, Option.getD_none]

/-- A run leaves the values of its latest reports. -/
theorem run_tracks (h : Tracks n blinds slat slatTime s) {es : List Event}
    (hkeeps : ∀ e ∈ es, Keeps n e) :
    ∃ t, run step s es = some t ∧
      Tracks n (latest (blindsReport n) blinds es) (latest (slatReport n) slat es)
        (latest (slatTimeReport n) slatTime es) t := by
  induction es generalizing blinds slat slatTime s with
  | nil => exact ⟨s, rfl, h⟩
  | cons e es ih =>
    obtain ⟨t, ht, htracks⟩ := step_tracks h (hkeeps e List.mem_cons_self)
    obtain ⟨u, hu, hutracks⟩ := ih htracks fun e he => hkeeps e (List.mem_cons_of_mem _ he)
    refine ⟨u, by simp [run, ht, hu], ?_⟩
    simpa only [latest_cons] using hutracks

end Tracks

/-! ## What `get` shows -/

theorem get_of_tracks {n : UInt8} {blinds slat : UInt8} {slatTime : UInt16} {s : ZWaveNetwork}
    (h : Tracks n blinds slat slatTime s) (p : Parameters) :
    ∃ q, s.get n.toNat p = some q ∧
      q.lookup (ascii "position.blinds") = some (numeral blinds.toNat) ∧
      q.lookup (ascii "position.slat") = some (numeral slat.toNat) ∧
      q.lookup (ascii "config.slatTime") = some (numeral slatTime.toNat) := by
  have hne : (s.nodes n).commands.entries ≠ [] :=
    List.ne_nil_of_mem (mem_entries_iff.mpr h.position)
  unfold ZWaveNetwork.get
  rw [if_pos n.toNat_lt, UInt8.ofNat_toNat]
  simp only [if_pos hne]
  refine ⟨_, rfl, ?_, ?_, ?_⟩
  · rw [lookup_shown (h.fits n) h.position (by simp [Command.names]), shown_blinds,
      Parameters.byteText_eq, Option.some_or]
  · rw [lookup_shown (h.fits n) h.position (by simp [Command.names]), shown_slat,
      Parameters.byteText_eq, Option.some_or]
  · rw [lookup_shown (h.fits n) h.config (by simp [Command.names]), shown_slatTime,
      Parameters.wordText_eq, Option.some_or]

/-! ## The identification -/

/-- Manufacturer and product in a MANUFACTURER_SPECIFIC command. -/
def manufacturerIn : List UInt8 → Option (UInt16 × UInt16)
  | _ :: _ :: m1 :: m0 :: p1 :: p0 :: _ :: _ :: _ => some (word m1 m0, word p1 p0)
  | _ => none

/-- A frame by which the network identifies the node as an FGR-222. It needs the object that
receives the report. -/
def Identifies (s : ZWaveNetwork) (n : UInt8) (data : List UInt8) : Prop :=
  (s.nodes n).commands.contains MANUFACTURER_SPECIFIC ∧
    (commandTo n MANUFACTURER_SPECIFIC (.request data)).bind manufacturerIn = some (271, 770)

theorem commandTo_some {n k : UInt8} {data command : List UInt8}
    (h : commandTo n k (.request data) = some command) :
    delivery data = some (n, k, command) := by
  obtain ⟨⟨m, l, command'⟩, hdelivery, hif⟩ := Option.bind_eq_some_iff.mp h
  split at hif
  · rename_i hboth
    obtain ⟨rfl, rfl⟩ := hboth
    cases hif
    exact hdelivery
  · cases hif

theorem commands_identify (node : Node) : (node.identify 271 770).1.commands =
    (node.commands.insert CONFIGURATION .newFibaroFgr222Config).insert
      MANUFACTURER_PROPRIETARY .newFibaroFgr222 := by
  simp [Node.identify]

theorem onCommand_manufacturerSpecific (manufacturer product id : UInt16) (node : Node)
    {command : List UInt8} (hin : manufacturerIn command = some (271, 770)) :
    ∃ r, (Command.manufacturerSpecific manufacturer product id).onCommand
        MANUFACTURER_SPECIFIC node command = some r ∧
      r.1.commands.lookup MANUFACTURER_PROPRIETARY = some (.fibaroFgr222 0 0) ∧
      r.1.commands.lookup CONFIGURATION = some (.fibaroFgr222Config 0) := by
  match command, hin with
  | b0 :: b1 :: m1 :: m0 :: p1 :: p0 :: i1 :: i0 :: rest, hin =>
    obtain ⟨hmanufacturer, hproduct⟩ : word m1 m0 = 271 ∧ word p1 p0 = 770 := by
      simpa [manufacturerIn] using hin
    refine ⟨(node.track MANUFACTURER_SPECIFIC (.manufacturerSpecific (word m1 m0) (word p1 p0)
      (word i1 i0))).identify (word m1 m0) (word p1 p0), rfl, ?_⟩
    rw [hmanufacturer, hproduct, commands_identify, lookup_insert_self,
      lookup_insert_ne (by decide), lookup_insert_self]
    exact ⟨rfl, rfl⟩

/-- An identified node starts without a report. -/
theorem tracks_of_identifies {s : ZWaveNetwork} (h : s.Fits) {n : UInt8} {data : List UInt8}
    (hident : Identifies s n data) :
    ∃ t, step s (.request data) = some t ∧ Tracks n 0 0 0 t := by
  obtain ⟨hobject, hbind⟩ := hident
  obtain ⟨command, hcommand, hin⟩ := Option.bind_eq_some_iff.mp hbind
  have hdelivery := commandTo_some hcommand
  obtain ⟨c, hc⟩ := Option.isSome_iff_exists.mp hobject
  obtain ⟨t, sent, ht, hfits, -⟩ := onRequest_fits h data
  suffices hnode : (t.nodes n).commands.lookup MANUFACTURER_PROPRIETARY =
        some (.fibaroFgr222 0 0) ∧
      (t.nodes n).commands.lookup CONFIGURATION = some (.fibaroFgr222Config 0) from
    ⟨t, by simp [step, ht], hfits, hnode.1, hnode.2⟩
  rcases onRequest_cases s data with ⟨m, k, command', hdelivery', hreq⟩ | ⟨hnone, -⟩ | ⟨hnone, -⟩
  · obtain ⟨rfl, rfl, rfl⟩ : n = m ∧ MANUFACTURER_SPECIFIC = k ∧ command = command' := by
      simpa using hdelivery.symm.trans hdelivery'
    have hfit := h n _ c hc
    cases c with
    | manufacturerSpecific manufacturer product id =>
      obtain ⟨r, hr, hposition, hconfig⟩ :=
        onCommand_manufacturerSpecific manufacturer product id (s.nodes n) hin
      rw [hreq, hc] at ht
      simp only [hr, Option.map_some, Option.some.injEq, Prod.mk.injEq] at ht
      obtain ⟨rfl, -⟩ := ht
      have hself : (s.setNode n r.1).nodes n = r.1 := by simp [ZWaveNetwork.setNode]
      rw [hself]
      exact ⟨hposition, hconfig⟩
    | basic => exact absurd (show MANUFACTURER_SPECIFIC = BASIC from hfit) (by decide)
    | config | fibaroFgr222Config =>
      exact absurd (show MANUFACTURER_SPECIFIC = CONFIGURATION from hfit) (by decide)
    | fibaroFgr222 =>
      exact absurd (show MANUFACTURER_SPECIFIC = MANUFACTURER_PROPRIETARY from hfit) (by decide)
  · exact absurd (hdelivery.symm.trans hnone) (by simp)
  · exact absurd (hdelivery.symm.trans hnone) (by simp)

theorem get_shows_latest (history : List Event) (s : ZWaveNetwork) (n : UInt8)
    (report : List UInt8) (es : List Event) (hrun : run step .new history = some s)
    (hident : Identifies s n report) (hkeeps : ∀ e ∈ es, Keeps n e) (p : Parameters) :
    ∃ t q, run step s (.request report :: es) = some t ∧ t.get n.toNat p = some q ∧
      q.lookup (ascii "position.blinds") = some (numeral (latest (blindsReport n) 0 es).toNat) ∧
      q.lookup (ascii "position.slat") = some (numeral (latest (slatReport n) 0 es).toNat) ∧
      q.lookup (ascii "config.slatTime") =
        some (numeral (latest (slatTimeReport n) 0 es).toNat) := by
  obtain ⟨s', hs', hfits⟩ := run_fits new_fits history
  obtain rfl : s = s' := Option.some.inj (hrun.symm.trans hs')
  obtain ⟨t, ht, htracks⟩ := tracks_of_identifies hfits hident
  obtain ⟨u, hu, hutracks⟩ := run_tracks htracks hkeeps
  obtain ⟨q, hq, hshown⟩ := get_of_tracks hutracks p
  exact ⟨u, q, by simp [run, ht, hu], hq, hshown⟩

/-- The node 0x72 reports its position and its slat time, a POST sets another slat time. -/
theorem get_shows_latest_example :
    ∃ s t q, run step .new
        [.request [0x49, 0x84, 0x72, 0x06, 0x04, 0x11, 0x06, 0x26, 0x72, 0x86]] = some s ∧
      run step s
        [.request [0x04, 0x00, 0x72, 0x08, 0x72, 0x05, 0x01, 0x0f, 0x03, 0x02, 0x00, 0x00],
          .request [0x04, 0x00, 0x72, 0x08, 0x91, 0x01, 0x0f, 0x26, 0x03, 0x02, 0x63, 0x0a],
          .request [0x04, 0x00, 0x72, 0x06, 0x70, 0x06, 0x0c, 0x02, 0x00, 0x96],
          .post 0x72 (SortedMap.insert (ascii "config.slatTime") (ascii "200") .empty)] = some t ∧
      t.get 0x72 .empty = some q ∧
      q.lookup (ascii "position.blinds") = some (numeral 99) ∧
      q.lookup (ascii "position.slat") = some (numeral 0) ∧
      q.lookup (ascii "config.slatTime") = some (numeral 200) := by
  have hrun : ∃ s, run step .new
      [.request [0x49, 0x84, 0x72, 0x06, 0x04, 0x11, 0x06, 0x26, 0x72, 0x86]] = some s ∧
      (s.nodes 0x72).commands.contains MANUFACTURER_SPECIFIC := ⟨_, rfl, by decide⟩
  obtain ⟨s, hs, hobject⟩ := hrun
  obtain ⟨t, q, ht, hq, hblinds, hslat, htime⟩ := get_shows_latest _ s 0x72
    [0x04, 0x00, 0x72, 0x08, 0x72, 0x05, 0x01, 0x0f, 0x03, 0x02, 0x00, 0x00]
    [.request [0x04, 0x00, 0x72, 0x08, 0x91, 0x01, 0x0f, 0x26, 0x03, 0x02, 0x63, 0x0a],
      .request [0x04, 0x00, 0x72, 0x06, 0x70, 0x06, 0x0c, 0x02, 0x00, 0x96],
      .post 0x72 (SortedMap.insert (ascii "config.slatTime") (ascii "200") .empty)]
    hs ⟨hobject, by decide⟩ (by simp [Keeps]; decide) .empty
  exact ⟨s, t, q, hs, ht, hq, hblinds, hslat, htime⟩

end huasi.network
