-- Node information that arrives again: which objects a frame installs in its node, that
-- these are new ones whose state is asked for, and that everything else stays.
import Huasi.ZWaveIsolation
import Huasi.ZWaveReportForms
import Huasi.ZWaveReports

open huasi.runs huasi.text huasi.decimal huasi.sorted_map

namespace huasi.network

/-! ## What a frame installs -/

/-- The objects that a node information installs. -/
def registered (data : List UInt8) (k : UInt8) : Option Command :=
  if (data.take (classList data).length).contains k then initial k else none

/-- The three words of a MANUFACTURER_SPECIFIC command. -/
def wordsIn : List UInt8 → Option (UInt16 × UInt16 × UInt16)
  | _ :: _ :: m1 :: m0 :: p1 :: p0 :: i1 :: i0 :: _ => some (word m1 m0, word p1 p0, word i1 i0)
  | _ => none

/-- The objects that a node has after a MANUFACTURER_SPECIFIC report: the one that tracks the
words of the report, and two new ones for an FGR-222. -/
def identified (manufacturer product id : UInt16) (k : UInt8) : Option Command :=
  if k = MANUFACTURER_SPECIFIC then some (.manufacturerSpecific manufacturer product id)
  else if manufacturer = 271 ∧ product = 770 then
    if k = CONFIGURATION then some .newFibaroFgr222Config
    else if k = MANUFACTURER_PROPRIETARY then some .newFibaroFgr222
    else none
  else none

/-- The frame informs about the node: it is a node information, or a report to the object that
identifies the node. It installs the given objects. -/
inductive Informs (node : Node) (n : UInt8) : List UInt8 → (UInt8 → Option Command) → Prop where
  | update {data : List UInt8} (hfunction : data[0]? = some ZW_APPLICATION_UPDATE)
      (hnode : data[2]? = some n) (hlength : 7 ≤ data.length) :
      Informs node n data (registered data)
  | report {data command : List UInt8} {manufacturer product id : UInt16}
      (hdelivery : delivery data = some (n, MANUFACTURER_SPECIFIC, command))
      (hwords : wordsIn command = some (manufacturer, product, id))
      (hobject : node.commands.contains MANUFACTURER_SPECIFIC) :
      Informs node n data (identified manufacturer product id)

/-! ## A node information -/

theorem lookup_register (node : Node) (b k : UInt8) :
    (node.register b).commands.lookup k =
      (if k = b then initial k else none).or (node.commands.lookup k) := by
  rw [register_eq]
  cases h : initial b with
  | none =>
    by_cases hk : k = b
    · rw [if_pos hk, hk, h, Option.none_or]
    · rw [if_neg hk, Option.none_or]
  | some c =>
    rw [lookup_track]
    by_cases hk : k = b
    · rw [if_pos hk.symm, if_pos hk, hk, h, Option.some_or]
    · rw [if_neg (Ne.symm hk), if_neg hk, Option.none_or]

theorem lookup_foldl_register (classes : List UInt8) (node : Node) (k : UInt8) :
    (classes.foldl Node.register node).commands.lookup k =
      (if classes.contains k then initial k else none).or (node.commands.lookup k) := by
  induction classes generalizing node with
  | nil => rfl
  | cons b rest ih =>
    rw [List.foldl_cons, ih, lookup_register]
    by_cases hk : k ∈ rest
    · cases initial k <;> simp [hk]
    · by_cases hb : k = b
      · simp [hb, hb ▸ hk]
      · simp [hk, hb]

/-- The names of a node are not registered. -/
theorem register_names (node : Node) (b : UInt8) :
    (node.register b).deviceName = node.deviceName ∧ (node.register b).name = node.name := by
  rw [register_eq]
  cases initial b with
  | none => exact ⟨rfl, rfl⟩
  | some c => exact ⟨rfl, rfl⟩

theorem foldl_register_names (classes : List UInt8) (node : Node) :
    (classes.foldl Node.register node).deviceName = node.deviceName ∧
      (classes.foldl Node.register node).name = node.name := by
  induction classes generalizing node with
  | nil => exact ⟨rfl, rfl⟩
  | cons b rest ih =>
    rw [List.foldl_cons, (ih _).1, (ih _).2]
    exact register_names node b

/-- The same classes again register the same objects. -/
theorem foldl_register_again (classes : List UInt8) (node : Node) :
    classes.foldl Node.register (classes.foldl Node.register node) =
      classes.foldl Node.register node := by
  have hcommands : (classes.foldl Node.register (classes.foldl Node.register node)).commands =
      (classes.foldl Node.register node).commands := by
    apply SortedMap.ext_lookup
    intro k
    rw [lookup_foldl_register, lookup_foldl_register, ← Option.or_assoc, Option.or_self]
  obtain ⟨hdevice, hname⟩ := foldl_register_names classes (classes.foldl Node.register node)
  cases hnode : classes.foldl Node.register (classes.foldl Node.register node)
  cases hagain : classes.foldl Node.register node
  rw [hnode, hagain] at hcommands hdevice hname
  rw [Node.mk.injEq]
  exact ⟨hdevice, hname, hcommands⟩

theorem named_again (classes : List UInt8) (node : Node) (n : UInt8) :
    let node' := classes.foldl Node.register { node with name := Parameters.byteText n }
    { node' with name := Parameters.byteText n } = node' := by
  intro node'
  have hname : node'.name = Parameters.byteText n := (foldl_register_names classes _).2
  rw [← hname]

theorem onFrame_update {data : List UInt8} (hfunction : data[0]? = some ZW_APPLICATION_UPDATE)
    (hlength : 7 ≤ data.length) (node : Node) (n : UInt8) :
    node.onFrame n data =
      let named := { node with name := Parameters.byteText n }
      let node' := (data.take (classList data).length).foldl Node.register named
      some (node', node'.commands.entries.flatMap fun e => e.2.sendGet) := by
  unfold Node.onFrame
  rw [delivery_update hfunction]
  exact if_pos ⟨hfunction, hlength⟩

/-- The node information asks for the state of every object. -/
theorem onFrame_update_asks {data : List UInt8} {node node' : Node} {n : UInt8}
    {sent : List (List UInt8)} (hfunction : data[0]? = some ZW_APPLICATION_UPDATE)
    (hlength : 7 ≤ data.length) (h : node.onFrame n data = some (node', sent)) {k : UInt8}
    {c : Command} (hc : node'.commands.lookup k = some c) : ∀ g ∈ c.sendGet, g ∈ sent := by
  rw [onFrame_update hfunction hlength] at h
  obtain ⟨rfl, rfl⟩ := Prod.mk.inj (Option.some.inj h)
  intro g hg
  exact List.mem_flatMap.mpr ⟨(k, c), mem_entries_iff.mpr hc, hg⟩

/-! ## A report that identifies the node -/

/-- The object that identifies a node is of the kind of its class. -/
theorem object_of_contains {node : Node} (hfits : node.Fits)
    (h : node.commands.contains MANUFACTURER_SPECIFIC) :
    ∃ manufacturer product id, node.commands.lookup MANUFACTURER_SPECIFIC =
      some (.manufacturerSpecific manufacturer product id) := by
  obtain ⟨c, hc⟩ := Option.isSome_iff_exists.mp h
  have hfit := hfits _ c hc
  cases c with
  | manufacturerSpecific manufacturer product id => exact ⟨manufacturer, product, id, hc⟩
  | basic => exact absurd (show MANUFACTURER_SPECIFIC = BASIC from hfit) (by decide)
  | config | fibaroFgr222Config =>
    exact absurd (show MANUFACTURER_SPECIFIC = CONFIGURATION from hfit) (by decide)
  | fibaroFgr222 =>
    exact absurd (show MANUFACTURER_SPECIFIC = MANUFACTURER_PROPRIETARY from hfit) (by decide)

theorem onFrame_report {data command : List UInt8} {n : UInt8} {manufacturer product id : UInt16}
    (hdelivery : delivery data = some (n, MANUFACTURER_SPECIFIC, command))
    (hwords : wordsIn command = some (manufacturer, product, id)) {node : Node} {m p i : UInt16}
    (hobject : node.commands.lookup MANUFACTURER_SPECIFIC = some (.manufacturerSpecific m p i)) :
    node.onFrame n data = some ((node.track MANUFACTURER_SPECIFIC
      (.manufacturerSpecific manufacturer product id)).identify manufacturer product) := by
  unfold Node.onFrame
  rw [hdelivery]
  simp only [hobject]
  match command, hwords with
  | b0 :: b1 :: m1 :: m0 :: p1 :: p0 :: i1 :: i0 :: rest, hwords =>
    simp only [wordsIn, Option.some.injEq, Prod.mk.injEq] at hwords
    obtain ⟨rfl, rfl, rfl⟩ := hwords
    rfl

theorem lookup_track_identify (node : Node) (manufacturer product id : UInt16) (k : UInt8) :
    (((node.track MANUFACTURER_SPECIFIC (.manufacturerSpecific manufacturer product id)).identify
      manufacturer product).1.commands.lookup k) =
      (identified manufacturer product id k).or (node.commands.lookup k) := by
  unfold Node.identify identified
  by_cases hk : k = MANUFACTURER_SPECIFIC
  · subst hk
    rw [if_pos rfl]
    split
    · rw [lookup_insert_ne (by decide), lookup_insert_ne (by decide), lookup_track, if_pos rfl]
      rfl
    · rw [lookup_track, if_pos rfl]
      rfl
  · rw [if_neg hk]
    have hne : MANUFACTURER_PROPRIETARY ≠ CONFIGURATION := by decide
    split
    · rw [lookup_insert, lookup_insert, lookup_track, if_neg (Ne.symm hk)]
      grind
    · rw [lookup_track, if_neg (Ne.symm hk)]
      rfl

/-- The same words again identify the same node. -/
theorem track_identify_again (node : Node) (manufacturer product id : UInt16) :
    let c := Command.manufacturerSpecific manufacturer product id
    let r := (node.track MANUFACTURER_SPECIFIC c).identify manufacturer product
    (r.1.track MANUFACTURER_SPECIFIC c).identify manufacturer product = r := by
  intro c r
  have hself : r.1.track MANUFACTURER_SPECIFIC c = r.1 := by
    refine (track_eq_self (c := c) ?_).mpr rfl
    rw [lookup_track_identify]
    rfl
  rw [hself]
  have hnode : (r.1.identify manufacturer product).1 = r.1 := by
    refine identify_eq_self.mpr fun hdevice => ?_
    obtain ⟨rfl, rfl⟩ := hdevice
    refine ⟨rfl, ?_, ?_⟩
    · rw [lookup_track_identify]
      rfl
    · rw [lookup_track_identify]
      rfl
  have hsent : (r.1.identify manufacturer product).2 = r.2 := by
    unfold r Node.identify
    split <;> rfl
  exact Prod.ext hnode hsent

theorem asked_of_identified (node : Node) {manufacturer product id : UInt16} {k : UInt8}
    {c : Command} (hc : identified manufacturer product id k = some c)
    (hk : k ≠ MANUFACTURER_SPECIFIC) :
    ∀ g ∈ c.sendGet, g ∈ (node.identify manufacturer product).2 := by
  intro g hg
  rw [identified, if_neg hk] at hc
  unfold Node.identify
  split at hc
  · rename_i hdevice
    rw [if_pos hdevice, List.mem_append]
    split at hc
    · cases hc
      exact Or.inl hg
    · split at hc
      · cases hc
        exact Or.inr hg
      · cases hc
  · cases hc

/-! ## One frame that informs about its node -/

/-- What such a frame does: the objects that it installs replace those of their classes, all
others stay, it asks for the state of the new ones, and to hear it again changes nothing. -/
theorem onFrame_informs {node : Node} (hfits : node.Fits) {n : UInt8} {data : List UInt8}
    {installs : UInt8 → Option Command} (h : Informs node n data installs) :
    ∃ node' sent, node.onFrame n data = some (node', sent) ∧
      (∀ k, node'.commands.lookup k = (installs k).or (node.commands.lookup k)) ∧
      (∀ k c, installs k = some c →
        data[0]? = some ZW_APPLICATION_UPDATE ∨ k ≠ MANUFACTURER_SPECIFIC →
          ∀ g ∈ c.sendGet, g ∈ sent) ∧
      node'.onFrame n data = some (node', sent) := by
  cases h with
  | update hfunction hnode hlength =>
    have hframe := onFrame_update hfunction hlength node n
    refine ⟨_, _, hframe, lookup_foldl_register _ _, ?_, ?_⟩
    · intro k c hc _
      apply onFrame_update_asks hfunction hlength hframe
      rw [lookup_foldl_register]
      change (registered data k).or _ = some c
      rw [hc, Option.some_or]
    · rw [onFrame_update hfunction hlength]
      simp only [named_again, foldl_register_again]
  | @report _ manufacturer product id hdelivery hwords hobject =>
    obtain ⟨m, p, i, hc⟩ := object_of_contains hfits hobject
    let c := Command.manufacturerSpecific manufacturer product id
    let r := (node.track MANUFACTURER_SPECIFIC c).identify manufacturer product
    have hlookup : ∀ k, r.1.commands.lookup k =
        (identified manufacturer product id k).or (node.commands.lookup k) :=
      lookup_track_identify node manufacturer product id
    have hself : r.1.commands.lookup MANUFACTURER_SPECIFIC = some c := hlookup MANUFACTURER_SPECIFIC
    refine ⟨r.1, r.2, onFrame_report hdelivery hwords hc, hlookup, ?_, ?_⟩
    · intro k d hinstalls hk
      have hfunction := (delivery_some hdelivery).1
      have hne : k ≠ MANUFACTURER_SPECIFIC := hk.resolve_left fun hupdate =>
        absurd (hfunction.symm.trans hupdate) (by decide)
      exact asked_of_identified _ hinstalls hne
    · rw [onFrame_report hdelivery hwords hself]
      exact congrArg some (track_identify_again node manufacturer product id)

/-! ## What `get` shows before and after -/

/-- The classes of the command objects. -/
inductive Kind where
  | basic
  | config
  | manufacturerSpecific
  | fibaroFgr222
  | fibaroFgr222Config
deriving DecidableEq

def Command.kind : Command → Kind
  | .basic _ => .basic
  | .config => .config
  | .manufacturerSpecific _ _ _ => .manufacturerSpecific
  | .fibaroFgr222 _ _ => .fibaroFgr222
  | .fibaroFgr222Config _ => .fibaroFgr222Config

/-- Outside of the configuration there is one kind for each class. -/
theorem kind_eq {c d : Command} {k : UInt8} (hc : c.fits k) (hd : d.fits k)
    (hk : k ≠ CONFIGURATION) : c.kind = d.kind := by
  cases c with
  | config | fibaroFgr222Config => exact absurd hc hk
  | basic =>
    obtain rfl : k = BASIC := hc
    cases d <;> first | rfl | exact absurd hd (by simp [Command.fits]; decide)
  | manufacturerSpecific =>
    obtain rfl : k = MANUFACTURER_SPECIFIC := hc
    cases d <;> first | rfl | exact absurd hd (by simp [Command.fits]; decide)
  | fibaroFgr222 =>
    obtain rfl : k = MANUFACTURER_PROPRIETARY := hc
    cases d <;> first | rfl | exact absurd hd (by simp [Command.fits]; decide)

/-- What the caller of `get` finds under a name. -/
def ZWaveNetwork.shows (s : ZWaveNetwork) (n : UInt8) (p : Parameters) (name : Text) :
    Option Text :=
  (s.get n.toNat p).bind fun q => q.lookup name

theorem shows_eq {s : ZWaveNetwork} {n k : UInt8} (hfits : (s.nodes n).Fits) {c : Command}
    (hc : (s.nodes n).commands.lookup k = some c) {name : Text} (hname : name ∈ c.names)
    (p : Parameters) : s.shows n p name = (c.shown name).or (p.lookup name) := by
  have hne : (s.nodes n).commands.entries ≠ [] := List.ne_nil_of_mem (mem_entries_iff.mpr hc)
  obtain ⟨hnode, hdevice⟩ := names_ne hname
  unfold ZWaveNetwork.shows ZWaveNetwork.get
  rw [if_pos n.toNat_lt, UInt8.ofNat_toNat]
  simp only [if_pos hne, Option.bind_some]
  rw [lookup_shown hfits hc hname]
  congr 1
  split
  · rw [lookup_insert_ne hdevice, lookup_insert_ne hnode]
  · rw [lookup_insert_ne hnode]

/-! ## Node information again -/

theorem information_again (history : List Event) (s : ZWaveNetwork) (n : UInt8)
    (data : List UInt8) (installs : UInt8 → Option Command)
    (hrun : run step .new history = some s) (h : Informs (s.nodes n) n data installs) :
    ∃ t sent, s.onRequest data = some (t, sent) ∧
      (∀ k, (t.nodes n).commands.lookup k =
        (installs k).or ((s.nodes n).commands.lookup k)) ∧
      (∀ k c d, k ≠ CONFIGURATION → (s.nodes n).commands.lookup k = some c →
        (t.nodes n).commands.lookup k = some d → c.kind = d.kind) ∧
      (∀ k c, installs k = none → (s.nodes n).commands.lookup k = some c →
        ∀ name ∈ c.names, ∀ p, t.shows n p name = s.shows n p name) ∧
      (∀ k c, installs k = some c →
        ∀ name ∈ c.names, ∀ p, t.shows n p name = (c.shown name).or (p.lookup name)) ∧
      (∀ k c, installs k = some c →
        data[0]? = some ZW_APPLICATION_UPDATE ∨ k ≠ MANUFACTURER_SPECIFIC →
          ∀ g ∈ c.sendGet, { nodeId := n, data := g } ∈ sent) ∧
      t.onRequest data = some (t, sent) := by
  obtain ⟨s', hs', hfits⟩ := run_fits new_fits history
  obtain rfl : s = s' := Option.some.inj (hrun.symm.trans hs')
  have hn : data[2]? = some n := by
    cases h with
    | update _ hnode _ => exact hnode
    | report hdelivery _ _ => exact (delivery_some hdelivery).2.1
  obtain ⟨node', sent, hframe, hlookup, hasked, hagain⟩ := onFrame_informs (hfits n) h
  have ht : s.onRequest data = some (s.setNode n node', sender n sent) := by
    rw [onRequest_node s hn, hframe, Option.map_some]
  have hself : (s.setNode n node').nodes n = node' := by simp [ZWaveNetwork.setNode]
  obtain ⟨t, sent', ht', htfits, -⟩ := onRequest_fits hfits data
  obtain ⟨rfl, rfl⟩ := Prod.mk.inj (Option.some.inj (ht.symm.trans ht'))
  refine ⟨_, _, ht, ?_, ?_, ?_, ?_, ?_, ?_⟩
  · rw [hself]
    exact hlookup
  · intro k c d hk hc hd
    exact kind_eq (hfits n k c hc) (htfits n k d hd) hk
  · intro k c hinstalls hc name hname p
    have htc : ((s.setNode n node').nodes n).commands.lookup k = some c := by
      rw [hself, hlookup, hinstalls, hc, Option.none_or]
    rw [shows_eq (htfits n) htc hname, shows_eq (hfits n) hc hname]
  · intro k c hinstalls name hname p
    refine shows_eq (k := k) (htfits n) ?_ hname p
    rw [hself, hlookup, hinstalls, Option.some_or]
  · intro k c hinstalls hk g hg
    exact List.mem_map_of_mem (hasked k c hinstalls hk g hg)
  · rw [onRequest_node _ hn, hself, hagain, Option.map_some]
    simp [ZWaveNetwork.setNode]

/-- Node 0x20 informs about its classes, among them BASIC. -/
def information : List UInt8 := [0x49, 0x84, 0x20, 0x06, 0x04, 0x11, 0x06, 0x20, 0x72, 0x86]

theorem information_again_example :
    ∃ s t sent, run step .new [.request information,
        .request [0x04, 0x00, 0x20, 0x03, 0x20, 0x03, 0x63]] = some s ∧
      s.onRequest information = some (t, sent) ∧ t.onRequest information = some (t, sent) := by
  obtain ⟨s, hs, -⟩ := run_fits new_fits [.request information,
    .request [0x04, 0x00, 0x20, 0x03, 0x20, 0x03, 0x63]]
  obtain ⟨t, sent, ht, -, -, -, -, -, hagain⟩ := information_again _ s 0x20 information
    (registered information) hs (.update rfl rfl (by decide))
  exact ⟨s, t, sent, hs, ht, hagain⟩

/-- The value that the node has reported in between is lost. -/
theorem information_again_loses_value :
    ∃ s t, run step .new [.request information,
        .request [0x04, 0x00, 0x20, 0x03, 0x20, 0x03, 0x63]] = some s ∧
      (∀ k c, registered information k = some c → (s.nodes 0x20).commands.contains k) ∧
      step s (.request information) = some t ∧
      s.shows 0x20 .empty (ascii "dim") = some (ascii "99") ∧
      t.shows 0x20 .empty (ascii "dim") = none := by
  have htake : information.take (classList information).length = [0x49, 0x84, 0x20] := by decide
  refine ⟨_, _, rfl, ?_, rfl, ?_, ?_⟩
  · intro k c h
    rw [registered, htake] at h
    split at h
    · rename_i hk
      rcases List.mem_cons.mp (List.contains_iff_mem.mp hk) with rfl | hk
      · cases h
      · rcases List.mem_cons.mp hk with rfl | hk
        · cases h
        · obtain rfl := List.mem_singleton.mp hk
          decide
    · cases h
  · decide
  · decide

end huasi.network
