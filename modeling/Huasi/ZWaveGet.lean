-- What `get` shows of a node: every parameter has one object that sets it, and the
-- text of that object is the one that the caller finds.
import Huasi.ZWaveCommands

open huasi.text huasi.decimal huasi.sorted_map

namespace huasi.network

/-! ## The parameters of an object -/

/-- The names of the parameters that an object has. -/
def Command.names : Command → List Text
  | .basic _ => [ascii "state", ascii "dim"]
  | .config => []
  | .manufacturerSpecific _ _ _ =>
    [ascii "device.manufacturer", ascii "device.product", ascii "device.id"]
  | .fibaroFgr222 _ _ => [ascii "position.blinds", ascii "position.slat"]
  | .fibaroFgr222Config _ => [ascii "config.slatTime"]

/-- The class of the objects that have a parameter. -/
def owner (name : Text) : UInt8 :=
  if name = ascii "state" ∨ name = ascii "dim" then BASIC
  else if name = ascii "position.blinds" ∨ name = ascii "position.slat" then
    MANUFACTURER_PROPRIETARY
  else if name = ascii "config.slatTime" then CONFIGURATION
  else MANUFACTURER_SPECIFIC

theorem owner_eq {c : Command} {k : UInt8} (h : c.fits k) {name : Text} (hname : name ∈ c.names) :
    owner name = k := by
  cases c with
  | basic | manufacturerSpecific | fibaroFgr222 | fibaroFgr222Config =>
    rw [show k = _ from h]
    simp only [Command.names] at hname
    revert name
    decide
  | config => cases hname

/-- No object has a parameter that its node has. -/
theorem names_ne {c : Command} {name : Text} (h : name ∈ c.names) :
    ascii "node.name" ≠ name ∧ ascii "device.name" ≠ name := by
  cases c with
  | basic | manufacturerSpecific | fibaroFgr222 | fibaroFgr222Config =>
    simp only [Command.names] at h
    revert name
    decide
  | config => cases h

/-- What an object shows under a name, if anything. -/
def Command.shown (c : Command) (name : Text) : Option Text := (c.get .empty).lookup name

theorem lookup_get (c : Command) (p : Parameters) (name : Text) :
    (c.get p).lookup name = (c.shown name).or (p.lookup name) := by
  unfold Command.shown
  cases c with
  | config => rfl
  | basic value =>
    simp only [Command.get]
    split
    · simp only [Parameters.setState, lookup_insert, lookup_empty]
      split <;> rfl
    · simp only [Parameters.setByte, lookup_insert, lookup_empty]
      split <;> rfl
  | fibaroFgr222Config slatTime =>
    simp only [Command.get, Parameters.setWord, lookup_insert, lookup_empty]
    split <;> rfl
  | fibaroFgr222 blinds slat =>
    simp only [Command.get, Parameters.setByte, lookup_insert, lookup_empty]
    split
    · rfl
    · split <;> rfl
  | manufacturerSpecific manufacturer product id =>
    simp only [Command.get, Parameters.setWord, lookup_insert, lookup_empty]
    split
    · rfl
    · split
      · rfl
      · split <;> rfl

theorem shown_of_not_mem {c : Command} {name : Text} (h : name ∉ c.names) :
    c.shown name = none := by
  unfold Command.shown
  cases c with
  | config => rfl
  | basic value =>
    simp only [Command.names, List.mem_cons, List.not_mem_nil, or_false, not_or] at h
    simp only [Command.get]
    split
    · exact lookup_insert_ne (Ne.symm h.1) _ _
    · exact lookup_insert_ne (Ne.symm h.2) _ _
  | fibaroFgr222Config slatTime =>
    simp only [Command.names, List.mem_singleton] at h
    exact lookup_insert_ne (Ne.symm h) _ _
  | fibaroFgr222 blinds slat =>
    simp only [Command.names, List.mem_cons, List.not_mem_nil, or_false, not_or] at h
    simp only [Command.get, Parameters.setByte]
    rw [lookup_insert_ne (Ne.symm h.2), lookup_insert_ne (Ne.symm h.1), lookup_empty]
  | manufacturerSpecific manufacturer product id =>
    simp only [Command.names, List.mem_cons, List.not_mem_nil, or_false, not_or] at h
    simp only [Command.get, Parameters.setWord]
    rw [lookup_insert_ne (Ne.symm h.2.2), lookup_insert_ne (Ne.symm h.2.1),
      lookup_insert_ne (Ne.symm h.1), lookup_empty]

/-! ## The parameters of a node -/

section Entries

variable {entries : List (UInt8 × Command)} {name : Text} {v : Option Text}

/-- A parameter that is `v` already, or that nobody sets, stays as it is. -/
theorem lookup_foldl_get_keep (h : ∀ e ∈ entries, e.2.shown name = none ∨ e.2.shown name = v)
    {p : Parameters} (hp : v.or (p.lookup name) = p.lookup name) :
    (entries.foldl (fun p e => e.2.get p) p).lookup name = p.lookup name := by
  induction entries generalizing p with
  | nil => rfl
  | cons e rest ih =>
    have hget : (e.2.get p).lookup name = p.lookup name := by
      rw [lookup_get]
      rcases h e List.mem_cons_self with he | he
      · rw [he, Option.none_or]
      · rw [he, hp]
    rw [List.foldl_cons, ih (fun e he => h e (List.mem_cons_of_mem _ he)) (by rw [hget, hp]), hget]

/-- Where the objects that show a parameter agree, `get` shows it. -/
theorem lookup_foldl_get (h : ∀ e ∈ entries, e.2.shown name = none ∨ e.2.shown name = v)
    {e : UInt8 × Command} (he : e ∈ entries) (hv : e.2.shown name = v) (p : Parameters) :
    (entries.foldl (fun p e => e.2.get p) p).lookup name = v.or (p.lookup name) := by
  induction entries generalizing p with
  | nil => cases he
  | cons d rest ih =>
    have hrest := fun e he => h e (List.mem_cons_of_mem d he)
    rw [List.foldl_cons]
    rcases List.mem_cons.mp he with rfl | he
    · have hget : (e.2.get p).lookup name = v.or (p.lookup name) := by rw [lookup_get, hv]
      rw [lookup_foldl_get_keep hrest (by rw [hget, ← Option.or_assoc, Option.or_self]), hget]
    · rw [ih hrest he, lookup_get]
      rcases h d List.mem_cons_self with hd | hd
      · rw [hd, Option.none_or]
      · rw [hd, ← Option.or_assoc, Option.or_self]

end Entries

/-- A parameter shows what its one object shows. -/
theorem lookup_shown {node : Node} (hfits : node.Fits) {k : UInt8} {c : Command}
    (hc : node.commands.lookup k = some c) {name : Text} (hname : name ∈ c.names)
    (p : Parameters) :
    (node.commands.entries.foldl (fun p e => e.2.get p) p).lookup name =
      (c.shown name).or (p.lookup name) := by
  apply lookup_foldl_get _ (mem_entries_iff.mpr hc) rfl p
  rintro ⟨l, d⟩ hd
  have hlookup := mem_entries_iff.mp hd
  by_cases hmem : name ∈ d.names
  · have hkl : k = l := by
      rw [← owner_eq (hfits k c hc) hname, owner_eq (hfits l d hlookup) hmem]
    subst hkl
    obtain rfl : d = c := Option.some.inj (hlookup.symm.trans hc)
    exact Or.inr rfl
  · exact Or.inl (shown_of_not_mem hmem)

/-! ## What the objects show -/

theorem shown_blinds (blinds slat : UInt8) :
    (Command.fibaroFgr222 blinds slat).shown (ascii "position.blinds") =
      some (Parameters.byteText blinds) := by
  simp only [Command.shown, Command.get, Parameters.setByte]
  rw [lookup_insert_ne (by decide), lookup_insert_self]

theorem shown_slat (blinds slat : UInt8) :
    (Command.fibaroFgr222 blinds slat).shown (ascii "position.slat") =
      some (Parameters.byteText slat) := lookup_insert_self _ _ _

theorem shown_slatTime (slatTime : UInt16) :
    (Command.fibaroFgr222Config slatTime).shown (ascii "config.slatTime") =
      some (Parameters.wordText slatTime) := lookup_insert_self _ _ _

end huasi.network
