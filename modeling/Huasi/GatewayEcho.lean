-- A client that sends back what it got: the form of a GET as the query of a POST to the
-- same node, through `get`, the escapes, the query and `sendSet`, and exactly when the
-- node is set to the values that the network tracks.
import Huasi.Gateway
import Huasi.ZWaveGet

open huasi.text huasi.sorted_map huasi.network

namespace huasi.gateway

/-! ## The names that `get` shows -/

/-- A name that can stand in a form. -/
def PlainName (name : Text) : Prop := 38 ∉ name ∧ 61 ∉ name

instance (name : Text) : Decidable (PlainName name) := inferInstanceAs (Decidable (_ ∧ _))

theorem plain_insert {p : Parameters} (h : Plain p.entries) {name : Text} (hname : PlainName name)
    (value : Text) : Plain (p.insert name value).entries := by
  intro e he
  rcases mem_insertEntry he with rfl | he
  · exact hname
  · exact h e he

theorem plain_get {p : Parameters} (h : Plain p.entries) (c : Command) :
    Plain (c.get p).entries := by
  cases c with
  | basic value =>
    unfold Command.get
    simp only
    split
    · exact plain_insert h (by decide) _
    · exact plain_insert h (by decide) _
  | config => exact h
  | manufacturerSpecific manufacturer product id =>
    apply plain_insert _ (by decide)
    apply plain_insert _ (by decide)
    exact plain_insert h (by decide) _
  | fibaroFgr222 blinds slat =>
    apply plain_insert _ (by decide)
    exact plain_insert h (by decide) _
  | fibaroFgr222Config slatTime => exact plain_insert h (by decide) _

theorem plain_foldl_get {entries : List (UInt8 × Command)} {p : Parameters}
    (h : Plain p.entries) :
    Plain (entries.foldl (fun p e => e.2.get p) p).entries := by
  induction entries generalizing p with
  | nil => exact h
  | cons e rest ih => exact ih (plain_get h e.2)

/-! ## One object -/

/-- The set command that carries what the object tracks. With the blinds at 0 the slat does not
work, so they go to 1 where the slat is set. -/
def tracked : Command → List (List UInt8)
  | .basic value => [[BASIC, 0x01, value]]
  | .config | .manufacturerSpecific _ _ _ => []
  | .fibaroFgr222 blinds slat =>
    [[MANUFACTURER_PROPRIETARY, 0x01, 0x0f, 0x26, 0x01, 0x03,
      if blinds = 0 ∧ slat > 0 then 1 else blinds, slat]]
  | .fibaroFgr222Config slatTime => [sendWord SLAT_TIME slatTime]

/-- The values that a device reports: 0 to 99, and 0xff for on. -/
def InRange : Command → Prop
  | .basic value => value ≤ 99 ∨ value = 0xff
  | .fibaroFgr222 blinds slat => blinds ≤ 99 ∧ slat ≤ 99
  | .config | .manufacturerSpecific _ _ _ | .fibaroFgr222Config _ => True

instance : ∀ c, Decidable (InRange c)
  | .basic value => inferInstanceAs (Decidable (value ≤ 99 ∨ value = 0xff))
  | .fibaroFgr222 blinds slat => inferInstanceAs (Decidable (blinds ≤ 99 ∧ slat ≤ 99))
  | .config | .manufacturerSpecific _ _ _ | .fibaroFgr222Config _ =>
    inferInstanceAs (Decidable True)

/-- Values that come back: neither on nor off, and no number 0. -/
def ComesBack : Command → Prop
  | .basic value => value ≠ 0 ∧ value ≠ 0xff
  | .config | .manufacturerSpecific _ _ _ => True
  | .fibaroFgr222 blinds slat => blinds ≠ 0 ∧ slat ≠ 0
  | .fibaroFgr222Config slatTime => slatTime ≠ 0

instance : ∀ c, Decidable (ComesBack c)
  | .basic value => inferInstanceAs (Decidable (value ≠ 0 ∧ value ≠ 0xff))
  | .fibaroFgr222 blinds slat => inferInstanceAs (Decidable (blinds ≠ 0 ∧ slat ≠ 0))
  | .fibaroFgr222Config slatTime => inferInstanceAs (Decidable (slatTime ≠ 0))
  | .config | .manufacturerSpecific _ _ _ => inferInstanceAs (Decidable True)

/-- The parameters show what the object shows. -/
def ShowsAll (p : Parameters) (c : Command) : Prop :=
  ∀ name ∈ c.names, p.lookup name = c.shown name

theorem shown_state (value : UInt8) :
    (Command.basic value).shown (ascii "state") =
      if value = 0 ∨ value = 0xff then some (if value ≠ 0 then ascii "off" else ascii "on")
      else none := by
  unfold Command.shown Command.get
  simp only
  split
  · unfold Parameters.setState
    rw [lookup_insert_self]
    simp only [decide_eq_true_eq]
  · exact lookup_insert_ne (by decide) _ _

theorem shown_dim (value : UInt8) :
    (Command.basic value).shown (ascii "dim") =
      if value = 0 ∨ value = 0xff then none else some (Parameters.byteText value) := by
  unfold Command.shown Command.get
  simp only
  split
  · exact lookup_insert_ne (by decide) _ _
  · exact lookup_insert_self _ _ _

section Object

variable {p : Parameters}

/-- On comes back as off, and off as on. -/
theorem sendSet_basic {value : UInt8} (h : ShowsAll p (.basic value))
    (hrange : value ≤ 99 ∨ value = 0xff) :
    ((Command.basic value).sendSet p).2 =
      [[BASIC, 0x01, if value = 0 then 0xff else if value = 0xff then 0 else value]] := by
  have hstate := h (ascii "state") (by simp [Command.names])
  have hdim := h (ascii "dim") (by simp [Command.names])
  rw [shown_state] at hstate
  rw [shown_dim] at hdim
  by_cases h0 : value = 0
  · subst h0
    simp only [Command.sendSet, Parameters.getState_some hstate, Parameters.getPercentage_none hdim]
    rfl
  · by_cases hff : value = 0xff
    · subst hff
      simp only [Command.sendSet, Parameters.getState_some hstate,
        Parameters.getPercentage_none hdim]
      rfl
    · have hle : value ≤ 99 := hrange.resolve_right hff
      rw [if_neg (not_or.mpr ⟨h0, hff⟩)] at hstate hdim
      have hpercent : p.getPercentage (ascii "dim") = some value := by
        rw [Parameters.getPercentage_of_byteText hdim hle, if_neg h0]
      simp only [Command.sendSet, Parameters.getState_none hstate, hpercent, h0, hff]
      rfl

theorem sendSet_fibaroFgr222 {blinds slat : UInt8} (h : ShowsAll p (.fibaroFgr222 blinds slat))
    (hblinds : blinds ≤ 99) (hslat : slat ≤ 99) :
    ((Command.fibaroFgr222 blinds slat).sendSet p).2 =
      if blinds = 0 ∧ slat = 0 then []
      else [[MANUFACTURER_PROPRIETARY, 0x01, 0x0f, 0x26, 0x01,
        (if blinds = 0 then 0 else 2) ||| (if slat = 0 then 0 else 1), blinds, slat]] := by
  have hb := h (ascii "position.blinds") (by simp [Command.names])
  have hs := h (ascii "position.slat") (by simp [Command.names])
  rw [shown_blinds] at hb
  rw [shown_slat] at hs
  have hpb := Parameters.getPercentage_of_byteText hb hblinds
  have hps := Parameters.getPercentage_of_byteText hs hslat
  unfold Command.sendSet
  simp only [hpb, hps]
  by_cases hb0 : blinds = 0
  · by_cases hs0 : slat = 0
    · simp [hb0, hs0]
    · simp [hb0, hs0]
  · by_cases hs0 : slat = 0
    · simp [hb0, hs0]
    · simp [hb0, hs0]

theorem sendSet_fibaroFgr222Config {slatTime : UInt16}
    (h : ShowsAll p (.fibaroFgr222Config slatTime)) :
    ((Command.fibaroFgr222Config slatTime).sendSet p).2 =
      if slatTime = 0 then
        (if p.contains (ascii "config.calibrate") then [sendByte CALIBRATE 1] else [])
      else [sendWord SLAT_TIME slatTime] := by
  have ht := h (ascii "config.slatTime") (by simp [Command.names])
  rw [shown_slatTime] at ht
  have hword := Parameters.getWord_of_wordText ht
  unfold Command.sendSet
  simp only [hword]
  by_cases h0 : slatTime = 0
  · simp [h0]
  · simp [h0]

/-- An object sends at most what it tracks, and exactly that where its values come back. -/
theorem sendSet_echo {c : Command} (h : ShowsAll p c) (hrange : InRange c) :
    (c.sendSet p).2.length ≤ (tracked c).length ∧ ((c.sendSet p).2 = tracked c ↔ ComesBack c) := by
  cases c with
  | basic value =>
    rw [sendSet_basic h hrange]
    refine ⟨Nat.le_refl 1, ?_⟩
    unfold tracked ComesBack
    simp only [List.cons.injEq, and_true, true_and]
    constructor
    · intro hvalue
      by_cases h0 : value = 0
      · subst h0
        exact absurd hvalue (by decide)
      · by_cases hff : value = 0xff
        · subst hff
          exact absurd hvalue (by decide)
        · exact ⟨h0, hff⟩
    · rintro ⟨h0, hff⟩
      rw [if_neg h0, if_neg hff]
  | config => exact ⟨Nat.le_refl 0, iff_of_true rfl trivial⟩
  | manufacturerSpecific manufacturer product id =>
    exact ⟨Nat.le_refl 0, iff_of_true rfl trivial⟩
  | fibaroFgr222 blinds slat =>
    rw [sendSet_fibaroFgr222 h hrange.1 hrange.2]
    unfold tracked ComesBack
    by_cases hb0 : blinds = 0
    · by_cases hs0 : slat = 0
      · simp [hb0, hs0]
      · simp [hb0, hs0]
    · by_cases hs0 : slat = 0
      · simp [hb0, hs0]
      · simp only [hb0, hs0, false_and, if_false]
        exact ⟨Nat.le_refl 1, iff_of_true rfl ⟨hb0, hs0⟩⟩
  | fibaroFgr222Config slatTime =>
    rw [sendSet_fibaroFgr222Config h]
    unfold tracked ComesBack
    by_cases h0 : slatTime = 0
    · rw [if_pos h0]
      split
      · refine ⟨Nat.le_refl 1, ?_⟩
        simp [h0, sendByte, sendWord, CALIBRATE, SLAT_TIME]
      · simp [h0]
    · rw [if_neg h0]
      exact ⟨Nat.le_refl 1, iff_of_true rfl h0⟩

end Object

/-! ## One node -/

/-- Where no part is longer, equal wholes have equal parts. -/
theorem flatMap_eq_iff {α β : Type} {l : List α} {f g : α → List β}
    (h : ∀ a ∈ l, (f a).length ≤ (g a).length) :
    l.flatMap f = l.flatMap g ↔ ∀ a ∈ l, f a = g a := by
  induction l with
  | nil => simp
  | cons a l ih =>
    have hrest := fun a ha => h a (List.mem_cons_of_mem _ ha)
    have hlen : (l.flatMap f).length ≤ (l.flatMap g).length := by
      clear ih h
      induction l with
      | nil => exact Nat.le_refl _
      | cons b l ih =>
        rw [List.flatMap_cons, List.flatMap_cons, List.length_append, List.length_append]
        have hb := hrest b List.mem_cons_self
        have hl := ih fun a ha => hrest a (List.mem_cons_of_mem _ ha)
        omega
    rw [List.flatMap_cons, List.flatMap_cons, List.forall_mem_cons, ← ih hrest]
    constructor
    · intro heq
      have htotal := congrArg List.length heq
      rw [List.length_append, List.length_append] at htotal
      have ha := h a List.mem_cons_self
      exact List.append_inj heq (by omega)
    · rintro ⟨ha, hl⟩
      rw [ha, hl]

theorem sender_inj {nodeId : UInt8} {xs ys : List (List UInt8)} :
    sender nodeId xs = sender nodeId ys ↔ xs = ys := by
  unfold sender
  apply (List.map_injective_iff.mpr _).eq_iff
  intro x y hxy
  exact (SendData.mk.inj hxy).2

/-- The parameters before the objects add theirs. -/
theorem start_spec {node : Node} {p : Parameters}
    (hp : (if node.deviceName ≠ [] then
        (SortedMap.empty.insert (ascii "node.name") node.name).insert (ascii "device.name")
          node.deviceName
      else SortedMap.empty.insert (ascii "node.name") node.name) = p) :
    Plain p.entries ∧ ∀ (c : Command), ∀ name ∈ c.names, p.lookup name = none := by
  have hempty : Plain (SortedMap.empty : Parameters).entries := fun e he => by cases he
  have hplain := plain_insert hempty (show PlainName (ascii "node.name") by decide) node.name
  subst hp
  split
  · refine ⟨plain_insert hplain (by decide) _, fun c name hname => ?_⟩
    obtain ⟨hnode, hdevice⟩ := names_ne hname
    rw [lookup_insert_ne hdevice, lookup_insert_ne hnode, lookup_empty]
  · refine ⟨hplain, fun c name hname => ?_⟩
    rw [lookup_insert_ne (names_ne hname).1, lookup_empty]

/-- What `get` of a node gives: names that can stand in a form, and what each object shows. -/
theorem get_shows {network : ZWaveNetwork} {n : UInt8} (hfits : (network.nodes n).Fits)
    {parameters : Parameters} (h : network.get n.toNat .empty = some parameters) :
    Plain parameters.entries ∧ (network.nodes n).commands.entries ≠ [] ∧
      ∀ e ∈ (network.nodes n).commands.entries, ShowsAll parameters e.2 := by
  unfold ZWaveNetwork.get at h
  rw [if_pos n.toNat_lt, UInt8.ofNat_toNat] at h
  simp only at h
  split at h
  · rename_i hne
    generalize hp : (if (network.nodes n).deviceName ≠ [] then _ else _ : Parameters) = p at h
    obtain ⟨hplain, hnone⟩ := start_spec hp
    obtain rfl := Option.some.inj h
    refine ⟨plain_foldl_get hplain, hne, ?_⟩
    rintro ⟨k, c⟩ he name hname
    rw [lookup_shown hfits (mem_entries_iff.mp he) hname, hnone c name hname, Option.or_none]
  · cases h

theorem echo_iff (network : ZWaveNetwork) (n : UInt8) (path query head body : Text)
    (keepAlive keepAlive' : Bool) (hpath : nodeOf path = some n.toNat)
    (hfits : (network.nodes n).Fits)
    (hrange : ∀ e ∈ (network.nodes n).commands.entries, InRange e.2)
    (hget : (onRequest network .GET path query keepAlive).sent = [head, body]) :
    (onRequest network .POST path body keepAlive').enqueued =
        sender n ((network.nodes n).commands.entries.flatMap fun e => tracked e.2) ↔
      ∀ e ∈ (network.nodes n).commands.entries, ComesBack e.2 := by
  unfold onRequest at hget ⊢
  simp only [hpath, if_true, reduceCtorEq, if_false] at hget ⊢
  cases hp : network.get n.toNat .empty with
  | none =>
    rw [hp] at hget
    cases hget
  | some parameters =>
    rw [hp] at hget
    simp only [List.cons.injEq, and_true] at hget
    obtain ⟨-, rfl⟩ := hget
    obtain ⟨hplain, hne, hshows⟩ := get_shows hfits hp
    rw [parseQuery_formData hplain]
    unfold ZWaveNetwork.sendSet
    rw [if_pos n.toNat_lt]
    simp only [UInt8.ofNat_toNat, if_pos hne]
    rw [sender_inj, flatMap_eq_iff fun e he => (sendSet_echo (hshows e he) (hrange e he)).1]
    exact forall₂_congr fun e he => (sendSet_echo (hshows e he) (hrange e he)).2

/-- A node with all four objects. -/
def blindsNode (value blinds slat : UInt8) (slatTime : UInt16) : Node :=
  (((Node.new.track BASIC (.basic value)).track CONFIGURATION
    (.fibaroFgr222Config slatTime)).track MANUFACTURER_SPECIFIC
      (.manufacturerSpecific 271 770 4096)).track MANUFACTURER_PROPRIETARY
        (.fibaroFgr222 blinds slat)

def blindsNetwork (value blinds slat : UInt8) (slatTime : UInt16) : ZWaveNetwork :=
  { nodes := fun _ => blindsNode value blinds slat slatTime }

theorem blindsNode_fits (value blinds slat : UInt8) (slatTime : UInt16) :
    (blindsNode value blinds slat slatTime).Fits := by
  have hnew : Node.new.Fits := fun k c h => by cases h
  have hbasic := hnew.track (k := BASIC) (c := .basic value) rfl
  have hconfig := hbasic.track (k := CONFIGURATION) (c := .fibaroFgr222Config slatTime) rfl
  have hspecific := hconfig.track (k := MANUFACTURER_SPECIFIC)
    (c := .manufacturerSpecific 271 770 4096) rfl
  exact hspecific.track (k := MANUFACTURER_PROPRIETARY) (c := .fibaroFgr222 blinds slat) rfl

theorem echo_iff_example :
    ∃ head body, (onRequest (blindsNetwork 50 25 99 150) .GET (ascii "/node/114") [] true).sent =
        [head, body] ∧
      (onRequest (blindsNetwork 50 25 99 150) .POST (ascii "/node/114") body true).enqueued =
        sender 114 ((blindsNode 50 25 99 150).commands.entries.flatMap fun e => tracked e.2) :=
  ⟨_, _, rfl, (echo_iff (blindsNetwork 50 25 99 150) 114 (ascii "/node/114") [] _ _ true true
    (by decide +kernel) (blindsNode_fits 50 25 99 150) (by decide +kernel) rfl).mpr
      (by decide +kernel)⟩

/-- A node that is on is switched off, blinds at 0 and a slat time of 0 are not sent at all. -/
theorem on_comes_back_as_off :
    ∃ head body, (onRequest (blindsNetwork 0xff 0 50 0) .GET (ascii "/node/114") [] true).sent =
        [head, body] ∧
      (onRequest (blindsNetwork 0xff 0 50 0) .POST (ascii "/node/114") body true).enqueued =
        sender 114 [[0x20, 0x01, 0x00], [0x91, 0x01, 0x0f, 0x26, 0x01, 0x01, 0x00, 0x32]] ∧
      (onRequest (blindsNetwork 0xff 0 50 0) .POST (ascii "/node/114") body true).enqueued ≠
        sender 114 ((blindsNode 0xff 0 50 0).commands.entries.flatMap fun e => tracked e.2) := by
  refine ⟨_, _, rfl, ?_, ?_⟩
  · decide +kernel
  · decide +kernel

end huasi.gateway
