-- ptr (src/src/ptr.hpp): handles to objects, and every way to make, assign and
-- destroy one. A handle counts as one reference of the object that it points to,
-- whatever the order in which an operation adds and removes references.
import Mathlib.Data.List.Count
import Huasi.Object
import Huasi.Runs

open huasi.runs huasi.object

namespace huasi.ptr

/-! ## Objects, handles, operations -/

/-- The member `p` of a handle, or a raw pointer: null, or an object by its address. -/
abbrev Ptr := Option Nat

/-- Objects by address, and handles by name. A destroyed handle has no `p` any more. -/
structure State where
  objects : List Object
  handles : List (Option Ptr)
deriving DecidableEq, Repr

def State.empty : State := { objects := [], handles := [] }

/-- `handle.p`, which only a handle that is not destroyed has. -/
def State.p (s : State) (h : Nat) : Option Ptr := (s.handles[h]?).join

def State.setP (s : State) (h : Nat) (p : Ptr) : State :=
  { s with handles := s.handles.set h (some p) }

/-- The handle that a constructor makes, with its `p`. -/
def State.newHandle (s : State) (p : Ptr) : State := { s with handles := s.handles ++ [some p] }

/-- What a call on the object at an address does to the heap. -/
def State.onObject (s : State) (f : Object → Option Object) (o : Nat) : Option State :=
  (s.objects[o]?).bind fun obj => (f obj).map fun obj' => { s with objects := s.objects.set o obj' }

/-- `if (p != nullptr) p->addReference()`. -/
def State.addReference (s : State) : Ptr → Option State
  | none => some s
  | some o => s.onObject Object.addReference o

/-- `if (p != nullptr) p->removeReference()`. -/
def State.removeReference (s : State) : Ptr → Option State
  | none => some s
  | some o => s.onObject Object.removeReference o

/-- What a program does with handles. Handles are named in the order of their construction. -/
inductive Op where
  | newObject
  | constructNull
  | constructRaw (p : Ptr)
  | constructCopy (g : Nat)
  | constructMove (g : Nat)
  | constructConvert (g : Nat)
  | assignNull (h : Nat)
  | assignRaw (h : Nat) (p : Ptr)
  | assign (h g : Nat)
  | assignConvert (h g : Nat)
  | destroy (h : Nat)
deriving DecidableEq, Repr

/-- `ptr(T * p) : p(p)`. -/
def constructRaw (s : State) (p : Ptr) : Option State :=
  (s.newHandle p).addReference p

/-- `ptr(const ptr<T> & p) : p(p.p)`, and the same text for `ptr(const ptr<U> & p)`. -/
def constructCopy (s : State) (g : Nat) : Option State :=
  (s.p g).bind fun q => (s.newHandle q).addReference q

/-- `ptr(ptr<T> && p) : p(p.p)`: the reference moves, the source is null. -/
def constructMove (s : State) (g : Nat) : Option State :=
  (s.p g).map fun q => (s.newHandle q).setP g none

/-- `operator =(std::nullptr_t)`. -/
def assignNull (s : State) (h : Nat) : Option State :=
  (s.p h).bind fun p => (s.removeReference p).map fun s => s.setP h none

/-- `operator =(T * p)`: first the new reference, then the old one goes. -/
def assignRaw (s : State) (h : Nat) (p : Ptr) : Option State :=
  (s.addReference p).bind fun s =>
    (s.p h).bind fun old => (s.removeReference old).map fun s => s.setP h p

/-- `operator =(const ptr<T> & p)`, and the same text for `operator =(const ptr<U> & p)`. -/
def assign (s : State) (h g : Nat) : Option State :=
  (s.p g).bind fun q => (s.addReference q).bind fun s =>
    (s.p h).bind fun old => (s.removeReference old).bind fun s =>
      (s.p g).map fun q => s.setP h q

/-- `~ptr()`. -/
def destroy (s : State) (h : Nat) : Option State :=
  (s.p h).bind fun p => (s.removeReference p).map fun s =>
    { s with handles := s.handles.set h none }

/-- One operation. It fails where it names what does not exist, or touches a deleted object. -/
def step (s : State) : Op → Option State
  | .newObject => some { s with objects := s.objects ++ [Object.new] }
  | .constructNull => some (s.newHandle none)
  | .constructRaw p => constructRaw s p
  | .constructCopy g => constructCopy s g
  | .constructMove g => constructMove s g
  | .constructConvert g => constructCopy s g
  | .assignNull h => assignNull s h
  | .assignRaw h p => assignRaw s h p
  | .assign h g => assign s h g
  | .assignConvert h g => assign s h g
  | .destroy h => destroy s h

/-- The number of handles that point to an object. -/
def State.handlesTo (s : State) (o : Nat) : Nat := s.handles.count (some (some o))

/-- What an operation needs to exist: the handles that it names are not destroyed, and a raw
pointer is null or points to an object that is not deleted. -/
def State.Live (s : State) : Ptr → Prop
  | none => True
  | some o => ∃ obj : Object, s.objects[o]? = some obj ∧ obj.deletions = 0

def Operands (s : State) : Op → Prop
  | .newObject | .constructNull => True
  | .constructRaw p => s.Live p
  | .constructCopy g | .constructMove g | .constructConvert g => (s.p g).isSome
  | .assignNull h | .destroy h => (s.p h).isSome
  | .assignRaw h p => s.Live p ∧ (s.p h).isSome
  | .assign h g | .assignConvert h g => (s.p g).isSome ∧ (s.p h).isSome

/-! ## What an operation does to the counts -/

/-- One reference to the object that `q` points to. -/
def refs (q : Ptr) (o : Nat) : Nat := if q = some o then 1 else 0

@[simp] theorem refs_none (o : Nat) : refs none o = 0 := rfl

theorem refs_le_one (q : Ptr) (o : Nat) : refs q o ≤ 1 := by
  unfold refs
  split <;> omega

/-- The number of deletions of the object at an address. -/
def State.deletions (s : State) (o : Nat) : Nat := ((s.objects[o]?).map Object.deletions).getD 0

theorem deletions_of_get {s : State} {o : Nat} {obj : Object} (h : s.objects[o]? = some obj) :
    s.deletions o = obj.deletions := by
  simp [State.deletions, h]

/-- The objects know of `d` references each, and nothing else is referred to. -/
structure Holds (objects : List Object) (d : Nat → Nat) : Prop where
  counts : ∀ o (obj : Object), objects[o]? = some obj → obj.Counts (d o)
  known : ∀ o, 0 < d o → o < objects.length

theorem Holds.alive {s : State} {d : Nat → Nat} (h : Holds s.objects d) {o : Nat}
    (ho : 0 < d o) : s.Live (some o) := by
  have hlt := h.known o ho
  exact ⟨s.objects[o], List.getElem?_eq_getElem hlt,
    (h.counts o _ (List.getElem?_eq_getElem hlt)).alive ho⟩

theorem Holds.congr {objects : List Object} {d e : Nat → Nat} (h : Holds objects d)
    (hde : ∀ o, e o = d o) : Holds objects e := by
  obtain rfl : e = d := funext hde
  exact h

/-- A call on one object changes the references and deletions of this object only. -/
theorem Holds.onObject {s : State} {d e : Nat → Nat} {f : Object → Option Object} {o : Nat}
    {obj obj' : Object} (h : Holds s.objects d) (ho : s.objects[o]? = some obj)
    (hf : f obj = some obj') (hobj : obj'.Counts (e o)) (hde : ∀ i, i ≠ o → e i = d i) :
    ∃ t, s.onObject f o = some t ∧ t.handles = s.handles ∧ Holds t.objects e ∧
      t.deletions o = obj'.deletions ∧ ∀ i, i ≠ o → t.deletions i = s.deletions i := by
  have hlt : o < s.objects.length := (List.getElem?_eq_some_iff.mp ho).1
  refine ⟨{ s with objects := s.objects.set o obj' }, by simp [State.onObject, ho, hf], rfl,
    ⟨?_, ?_⟩, ?_, ?_⟩
  · intro i x hi
    by_cases hio : i = o
    · subst hio
      simp only [List.getElem?_set_self hlt] at hi
      cases hi
      exact hobj
    · rw [List.getElem?_set_ne (Ne.symm hio)] at hi
      rw [hde i hio]
      exact h.counts i x hi
  · intro i hi
    rw [List.length_set]
    by_cases hio : i = o
    · exact hio ▸ hlt
    · exact h.known i (hde i hio ▸ hi)
  · simp [State.deletions, List.getElem?_set_self hlt]
  · intro i hio
    simp [State.deletions, List.getElem?_set_ne (Ne.symm hio)]

theorem addReference_spec {s : State} {d : Nat → Nat} {q : Ptr} (h : Holds s.objects d)
    (hq : s.Live q) :
    ∃ t, s.addReference q = some t ∧ t.handles = s.handles ∧
      Holds t.objects (fun o => d o + refs q o) ∧ ∀ o, t.deletions o = s.deletions o := by
  cases q with
  | none => exact ⟨s, rfl, rfl, h, fun _ => rfl⟩
  | some o =>
    obtain ⟨obj, hobj, hdel⟩ := hq
    obtain ⟨p, hp, hcount, hpdel⟩ := (h.counts o obj hobj).add hdel
    obtain ⟨t, ht, hh, hH, ho, hne⟩ := h.onObject (e := fun i => d i + refs (some o) i) hobj hp
      (by simpa [refs] using hcount) (fun i hi => by simp [refs, Ne.symm hi])
    refine ⟨t, ht, hh, hH, fun i => ?_⟩
    by_cases hi : i = o
    · subst hi
      rw [ho, hpdel, deletions_of_get hobj, hdel]
    · exact hne i hi

theorem removeReference_spec {s : State} {d : Nat → Nat} {q : Ptr}
    (h : Holds s.objects (fun o => d o + refs q o)) (hd : ∀ o, 0 < refs q o → d o < 2 ^ 32) :
    ∃ t, s.removeReference q = some t ∧ t.handles = s.handles ∧ Holds t.objects d ∧
      ∀ o, t.deletions o = s.deletions o + if 0 < refs q o ∧ d o = 0 then 1 else 0 := by
  cases q with
  | none => exact ⟨s, rfl, rfl, h, fun _ => by simp⟩
  | some o =>
    obtain ⟨obj, hobj, hdel⟩ := h.alive (o := o) (by simp [refs])
    have hcount : obj.Counts (d o + 1) := by simpa [refs] using h.counts o obj hobj
    obtain ⟨p, hp, hpcount, hpdel⟩ := hcount.remove (hd o (by simp [refs]))
    obtain ⟨t, ht, hh, hH, ho, hne⟩ := h.onObject (e := d) hobj hp hpcount
      (fun i hi => by simp [refs, Ne.symm hi])
    refine ⟨t, ht, hh, hH, fun i => ?_⟩
    by_cases hi : i = o
    · subst hi
      rw [ho, hpdel, deletions_of_get hobj, hdel]
      simp [refs]
    · simp [hne i hi, refs, Ne.symm hi]

/-! ## What an operation does to the handles -/

theorem p_eq_some_iff {s : State} {h : Nat} {q : Ptr} :
    s.p h = some q ↔ s.handles[h]? = some (some q) := by
  unfold State.p
  cases s.handles[h]? <;> simp

@[simp] theorem handlesTo_newHandle (s : State) (q : Ptr) (o : Nat) :
    (s.newHandle q).handlesTo o = s.handlesTo o + refs q o := by
  simp [State.handlesTo, State.newHandle, refs, List.count_singleton]

/-- Another value in the place of a handle: the old one is a handle less, the new one more. -/
theorem count_set_handle {hs : List (Option Ptr)} {h : Nat} {old : Ptr} (new : Option Ptr)
    (hold : hs[h]? = some (some old)) (o : Nat) :
    (hs.set h new).count (some (some o)) + refs old o =
      hs.count (some (some o)) + if new = some (some o) then 1 else 0 := by
  obtain ⟨hlt, hget⟩ := List.getElem?_eq_some_iff.mp hold
  have hpos : refs old o ≤ hs.count (some (some o)) := by
    unfold refs
    split
    · subst_vars
      exact List.count_pos_iff.mpr (List.mem_of_getElem? hold)
    · exact Nat.zero_le _
  rw [List.count_set hlt, hget]
  have hbeq : (if (some old == some (some o)) = true then 1 else 0) = refs old o := by
    simp [refs]
  rw [hbeq]
  simp only [beq_iff_eq]
  omega

theorem handlesTo_setP {s : State} {h : Nat} {old : Ptr} (new : Ptr) (hold : s.p h = some old)
    (o : Nat) : (s.setP h new).handlesTo o + refs old o = s.handlesTo o + refs new o := by
  have := count_set_handle (some new) (p_eq_some_iff.mp hold) o
  simpa [State.handlesTo, State.setP, refs] using this

theorem refs_le_handlesTo {s : State} {h : Nat} {q : Ptr} (hq : s.p h = some q) (o : Nat) :
    refs q o ≤ s.handlesTo o := by
  have := handlesTo_setP none hq o
  have := handlesTo_setP q hq o
  simp only [refs_none] at *
  omega

/-! ## One operation -/

/-- What an operation leaves: every object knows the number of handles that point to it, and
exactly the objects that have lost their last handle are deleted. -/
structure Effect (s t : State) : Prop where
  holds : Holds t.objects t.handlesTo
  deletes : ∀ o, t.deletions o =
    s.deletions o + if 0 < s.handlesTo o ∧ t.handlesTo o = 0 then 1 else 0

/-- The operation took the reference `q` and gave the reference `old` of a handle back. -/
theorem effect_of {s t : State} {d : Nat → Nat} (q old : Ptr) (hH : Holds t.objects d)
    (ht : ∀ o, t.handlesTo o = d o) (hle : ∀ o, refs old o ≤ s.handlesTo o)
    (hbal : ∀ o, d o + refs old o = s.handlesTo o + refs q o)
    (hdel : ∀ o, t.deletions o = s.deletions o + if 0 < refs old o ∧ d o = 0 then 1 else 0) :
    Effect s t := by
  refine ⟨hH.congr ht, fun o => ?_⟩
  have hiff : (0 < refs old o ∧ d o = 0) ↔ (0 < s.handlesTo o ∧ t.handlesTo o = 0) := by
    have := hle o
    have := hbal o
    have := ht o
    omega
  rw [hdel o]
  simp only [hiff]

variable {s : State}

theorem newObject_spec (hs : Holds s.objects s.handlesTo) :
    Effect s { s with objects := s.objects ++ [Object.new] } := by
  have hnone : s.handlesTo s.objects.length = 0 := by
    by_contra h
    exact absurd (hs.known _ (Nat.pos_of_ne_zero h)) (Nat.lt_irrefl _)
  refine effect_of (d := s.handlesTo) none none ⟨?_, ?_⟩ (fun _ => rfl)
    (by simp) (by simp) (fun o => ?_)
  · intro o obj ho
    rcases Nat.lt_or_ge o s.objects.length with h | h
    · exact hs.counts o obj (by simpa [List.getElem?_append_left h] using ho)
    · have hlt := (List.getElem?_eq_some_iff.mp ho).1
      obtain rfl : o = s.objects.length := by
        simp at hlt
        omega
      obtain rfl : Object.new = obj := by simpa using ho
      rw [hnone]
      exact Object.new_counts
  · intro o ho
    simpa using Nat.lt_succ_of_lt (hs.known o ho)
  · rcases Nat.lt_trichotomy o s.objects.length with h | rfl | h
    · simp [State.deletions, List.getElem?_append_left h]
    · simp [State.deletions, Object.new]
    · have hnew : (s.objects ++ [Object.new])[o]? = none := by
        apply List.getElem?_eq_none
        rw [List.length_append]
        exact h
      have hold : s.objects[o]? = none := List.getElem?_eq_none (Nat.le_of_lt h)
      simp only [State.deletions, hnew, hold, refs_none, Nat.lt_irrefl, false_and, if_false,
        Option.map_none, Option.getD_none, Nat.add_zero]

theorem constructNull_spec (hs : Holds s.objects s.handlesTo) : Effect s (s.newHandle none) :=
  effect_of none none hs (by simp) (by simp) (by simp) (fun o => by simp; rfl)

theorem constructRaw_spec {p : Ptr} (hs : Holds s.objects s.handlesTo) (hp : s.Live p) :
    ∃ t, constructRaw s p = some t ∧ Effect s t := by
  obtain ⟨t, ht, hh, hH, hdel⟩ := addReference_spec (s := s.newHandle p) (q := p) hs hp
  refine ⟨t, ht, effect_of p none hH (fun o => ?_) (by simp) (by simp) ?_⟩
  · simp only [State.handlesTo, hh]
    exact handlesTo_newHandle s p o
  · intro o
    rw [hdel o, refs_none]
    rfl

/-- Where a handle points to, there is an object that is not deleted. -/
theorem live_of_p {g : Nat} {q : Ptr} (hs : Holds s.objects s.handlesTo) (hq : s.p g = some q) :
    s.Live q := by
  cases q with
  | none => trivial
  | some o => exact hs.alive (Nat.lt_of_lt_of_le (by simp [refs]) (refs_le_handlesTo hq o))

theorem constructCopy_spec {g : Nat} {q : Ptr} (hs : Holds s.objects s.handlesTo)
    (hq : s.p g = some q) : ∃ t, constructCopy s g = some t ∧ Effect s t := by
  obtain ⟨t, ht, he⟩ := constructRaw_spec hs (live_of_p hs hq)
  unfold constructRaw at ht
  exact ⟨t, by simpa [constructCopy, hq] using ht, he⟩

theorem constructMove_spec {g : Nat} {q : Ptr} (hs : Holds s.objects s.handlesTo)
    (hq : s.p g = some q) : ∃ t, constructMove s g = some t ∧ Effect s t := by
  have hlt : g < s.handles.length :=
    (List.getElem?_eq_some_iff.mp (p_eq_some_iff.mp hq)).1
  have hq' : (s.newHandle q).p g = some q := by
    rw [p_eq_some_iff] at hq ⊢
    simpa [State.newHandle, List.getElem?_append_left hlt] using hq
  have hcount : ∀ o, ((s.newHandle q).setP g none).handlesTo o = s.handlesTo o := by
    intro o
    have := handlesTo_setP none hq' o
    simp only [handlesTo_newHandle, refs_none] at this
    omega
  exact ⟨(s.newHandle q).setP g none, by simp [constructMove, hq],
    effect_of none none hs hcount (by simp) (by simp) (fun o => by simp; rfl)⟩

/-- A reference is taken, then the reference of the handle `h` is given back, whatever the
handle holds from then on. -/
theorem replace_spec {h : Nat} {q old : Ptr} (new : Option Ptr)
    (hs : Holds s.objects s.handlesTo) (hfew : ∀ o, s.handlesTo o < 2 ^ 32) (hq : s.Live q)
    (hold : s.p h = some old) (hnew : ∀ o, (if new = some (some o) then 1 else 0) = refs q o) :
    ∃ u v, s.addReference q = some u ∧ u.handles = s.handles ∧ u.removeReference old = some v ∧
      v.handles = s.handles ∧ Effect s { v with handles := v.handles.set h new } := by
  have hbal := count_set_handle new (p_eq_some_iff.mp hold)
  simp only [hnew] at hbal
  have hle := refs_le_handlesTo hold
  obtain ⟨u, hu, huh, huH, hudel⟩ := addReference_spec hs hq
  have huH' := huH.congr (e := fun o => (s.handles.set h new).count (some (some o)) + refs old o)
    hbal
  obtain ⟨v, hv, hvh, hvH, hvdel⟩ := removeReference_spec huH' (fun o ho => by
    have hb := hbal o
    have hf := hfew o
    have hone := refs_le_one q o
    unfold State.handlesTo at hf
    omega)
  refine ⟨u, v, hu, huh, hv, hvh.trans huh, effect_of q old hvH ?_ hle hbal ?_⟩
  · intro o
    simp only [State.handlesTo, hvh, huh]
  · intro o
    rw [← hudel o]
    exact hvdel o

theorem assignRaw_spec {h : Nat} {p old : Ptr} (hs : Holds s.objects s.handlesTo)
    (hfew : ∀ o, s.handlesTo o < 2 ^ 32) (hp : s.Live p) (hold : s.p h = some old) :
    ∃ t, assignRaw s h p = some t ∧ Effect s t := by
  obtain ⟨u, v, hu, huh, hv, -, he⟩ :=
    replace_spec (some p) hs hfew hp hold (fun o => by simp [refs])
  have hold' : u.p h = some old := by rw [p_eq_some_iff, huh, ← p_eq_some_iff]; exact hold
  exact ⟨v.setP h p, by simp [assignRaw, hu, hold', hv], he⟩

theorem assignNull_spec {h : Nat} {old : Ptr} (hs : Holds s.objects s.handlesTo)
    (hfew : ∀ o, s.handlesTo o < 2 ^ 32) (hold : s.p h = some old) :
    ∃ t, assignNull s h = some t ∧ Effect s t := by
  obtain ⟨u, v, hu, -, hv, -, he⟩ :=
    replace_spec (q := none) (some none) hs hfew trivial hold (fun o => by simp)
  obtain rfl : s = u := Option.some.inj hu
  exact ⟨v.setP h none, by simp [assignNull, hold, hv], he⟩

theorem destroy_spec {h : Nat} {old : Ptr} (hs : Holds s.objects s.handlesTo)
    (hfew : ∀ o, s.handlesTo o < 2 ^ 32) (hold : s.p h = some old) :
    ∃ t, destroy s h = some t ∧ Effect s t := by
  obtain ⟨u, v, hu, -, hv, -, he⟩ :=
    replace_spec (q := none) none hs hfew trivial hold (fun o => by simp)
  obtain rfl : s = u := Option.some.inj hu
  exact ⟨_, by simp [destroy, hold, hv], he⟩

/-- Source and target may be one handle, or point to one object: the new reference is there
before the old one goes. -/
theorem assign_spec {h g : Nat} {q old : Ptr} (hs : Holds s.objects s.handlesTo)
    (hfew : ∀ o, s.handlesTo o < 2 ^ 32) (hq : s.p g = some q) (hold : s.p h = some old) :
    ∃ t, assign s h g = some t ∧ Effect s t := by
  obtain ⟨u, v, hu, huh, hv, hvh, he⟩ :=
    replace_spec (some q) hs hfew (live_of_p hs hq) hold (fun o => by simp [refs])
  have hold' : u.p h = some old := by rw [p_eq_some_iff, huh, ← p_eq_some_iff]; exact hold
  have hq' : v.p g = some q := by rw [p_eq_some_iff, hvh, ← p_eq_some_iff]; exact hq
  exact ⟨v.setP h q, by simp [assign, hq, hu, hold', hv, hq'], he⟩

/-- Every operation whose operands exist works, and counts right. -/
theorem step_spec {op : Op} (hs : Holds s.objects s.handlesTo)
    (hfew : ∀ o, s.handlesTo o < 2 ^ 32) (hop : Operands s op) :
    ∃ t, step s op = some t ∧ Effect s t := by
  cases op with
  | newObject => exact ⟨_, rfl, newObject_spec hs⟩
  | constructNull => exact ⟨_, rfl, constructNull_spec hs⟩
  | constructRaw p => exact constructRaw_spec hs hop
  | constructCopy g | constructConvert g =>
    obtain ⟨q, hq⟩ := Option.isSome_iff_exists.mp hop
    exact constructCopy_spec hs hq
  | constructMove g =>
    obtain ⟨q, hq⟩ := Option.isSome_iff_exists.mp hop
    exact constructMove_spec hs hq
  | assignNull h =>
    obtain ⟨old, hold⟩ := Option.isSome_iff_exists.mp hop
    exact assignNull_spec hs hfew hold
  | assignRaw h p =>
    obtain ⟨old, hold⟩ := Option.isSome_iff_exists.mp hop.2
    exact assignRaw_spec hs hfew hop.1 hold
  | assign h g | assignConvert h g =>
    obtain ⟨q, hq⟩ := Option.isSome_iff_exists.mp hop.1
    obtain ⟨old, hold⟩ := Option.isSome_iff_exists.mp hop.2
    exact assign_spec hs hfew hq hold
  | destroy h =>
    obtain ⟨old, hold⟩ := Option.isSome_iff_exists.mp hop
    exact destroy_spec hs hfew hold

theorem addReference_some {u : State} {q : Ptr} (h : s.addReference q = some u) :
    s.Live q ∧ u.handles = s.handles := by
  cases q with
  | none =>
    obtain rfl := Option.some.inj h
    exact ⟨trivial, rfl⟩
  | some o =>
    obtain ⟨obj, hobj, h⟩ := Option.bind_eq_some_iff.mp h
    obtain ⟨obj', hobj', rfl⟩ := Option.map_eq_some_iff.mp h
    refine ⟨⟨obj, hobj, ?_⟩, rfl⟩
    by_contra hdel
    simp [Object.addReference, hdel] at hobj'

/-- An operation whose operands do not exist is none that a program can make. -/
theorem operands_of_step {op : Op} {t : State} (h : step s op = some t) : Operands s op := by
  cases op with
  | newObject | constructNull => trivial
  | constructRaw p => exact (addReference_some (s := s.newHandle p) h).1
  | constructCopy g | constructConvert g =>
    obtain ⟨q, hq, -⟩ := Option.bind_eq_some_iff.mp h
    exact Option.isSome_of_eq_some hq
  | constructMove g =>
    obtain ⟨q, hq, -⟩ := Option.map_eq_some_iff.mp h
    exact Option.isSome_of_eq_some hq
  | assignNull h' | destroy h' =>
    obtain ⟨old, hold, -⟩ := Option.bind_eq_some_iff.mp h
    exact Option.isSome_of_eq_some hold
  | assignRaw h' p =>
    obtain ⟨u, hu, h⟩ := Option.bind_eq_some_iff.mp h
    obtain ⟨old, hold, -⟩ := Option.bind_eq_some_iff.mp h
    obtain ⟨hlive, hh⟩ := addReference_some hu
    rw [p_eq_some_iff, hh, ← p_eq_some_iff] at hold
    exact ⟨hlive, Option.isSome_of_eq_some hold⟩
  | assign h' g | assignConvert h' g =>
    obtain ⟨q, hq, h⟩ := Option.bind_eq_some_iff.mp h
    obtain ⟨u, hu, h⟩ := Option.bind_eq_some_iff.mp h
    obtain ⟨old, hold, -⟩ := Option.bind_eq_some_iff.mp h
    rw [p_eq_some_iff, (addReference_some hu).2, ← p_eq_some_iff] at hold
    exact ⟨Option.isSome_of_eq_some hq, Option.isSome_of_eq_some hold⟩

/-! ## Every sequence of operations -/

/-- No object has so many handles that its counter comes round to 0. -/
def Few (s : State) : Prop := ∀ o, s.handlesTo o < 2 ^ 32

theorem few_of_length {s : State} (h : s.handles.length < 2 ^ 32) : Few s :=
  fun _ => Nat.lt_of_le_of_lt List.count_le_length h

/-- The counter of every object is the number of handles that point to it. -/
def CountsHandles (s : State) : Prop :=
  ∀ o (obj : Object), s.objects[o]? = some obj → obj.referenceCount.toInt = s.handlesTo o

/-- What holds between two operations, and of every operation that can come next. -/
structure Sound (s : State) : Prop where
  /-- the counter is the number of handles in the arithmetic of the counter, -/
  wraps : ∀ o (obj : Object), s.objects[o]? = some obj →
    obj.referenceCount = BitVec.ofNat 32 (s.handlesTo o)
  /-- and the number itself as long as an int can show it -/
  counts : (∀ o, s.handlesTo o < 2 ^ 31) → CountsHandles s
  /-- no handle points to a deleted object -/
  dangling : ∀ h o, s.p h = some (some o) →
    ∃ obj : Object, s.objects[o]? = some obj ∧ obj.deletions = 0
  /-- an object is deleted at most once: -/
  once : ∀ o, s.deletions o ≤ 1
  /-- by the operation that takes its last handle away, and by no other -/
  deletes : ∀ op t, step s op = some t → ∀ o, t.deletions o =
    s.deletions o + if 0 < s.handlesTo o ∧ t.handlesTo o = 0 then 1 else 0
  /-- no operation with existing operands touches a deleted object -/
  works : ∀ op, Operands s op → ∃ t, step s op = some t

theorem effect_of_step {op : Op} {t : State} (hs : Holds s.objects s.handlesTo)
    (hfew : Few s) (h : step s op = some t) : Effect s t := by
  obtain ⟨u, hu, he⟩ := step_spec hs hfew (operands_of_step h)
  obtain rfl : u = t := Option.some.inj (hu.symm.trans h)
  exact he

theorem sound_of_holds (hs : Holds s.objects s.handlesTo) (hfew : Few s) : Sound s where
  wraps o obj h := (hs.counts o obj h).count
  counts h31 o obj h := (hs.counts o obj h).toInt (h31 o)
  dangling h o hp := live_of_p hs hp
  once o := by
    unfold State.deletions
    cases ho : s.objects[o]? with
    | none => exact Nat.zero_le 1
    | some obj => exact (hs.counts o obj ho).once
  deletes op t h := (effect_of_step hs hfew h).deletes
  works op hop := by
    obtain ⟨t, ht, -⟩ := step_spec hs hfew hop
    exact ⟨t, ht⟩

theorem empty_holds : Holds State.empty.objects State.empty.handlesTo where
  counts o obj h := by simp [State.empty] at h
  known o h := by simp [State.empty, State.handlesTo] at h

theorem handles_are_counted (ops : List Op) (hfew : Always step Few State.empty ops) :
    Always step Sound State.empty ops := by
  have hmeets := hfew.meets
  have hkeep := always_of_meets (P := fun s => Holds s.objects s.handlesTo)
    (fun s op t hs hf ht => (effect_of_step hs hf ht).holds) empty_holds hmeets
  exact (hkeep.and hfew).mono fun s h => sound_of_holds h.1 h.2

/-- A handle that is assigned to itself, copied and moved, and an object that loses its last
handle by an assignment. -/
theorem handles_are_counted_example :
    Always step Sound State.empty
      [.newObject, .newObject, .constructRaw (some 0), .assign 0 0, .constructMove 0,
        .constructConvert 1, .assignRaw 1 (some 1), .destroy 2, .assignConvert 1 1,
        .assignNull 1] :=
  handles_are_counted _ (Always.mono (fun _ => few_of_length) (by decide))

/-! ## Where the counter comes round -/

/-- `n` handles to one object. -/
theorem run_construct (n : Nat) :
    run step State.empty (.newObject :: List.replicate n (.constructRaw (some 0))) =
      some { objects := [{ referenceCount := BitVec.ofNat 32 n, deletions := 0 }],
             handles := List.replicate n (some (some 0)) } := by
  induction n with
  | zero => rfl
  | succ n ih =>
    rw [List.replicate_succ', ← List.cons_append, run_append, ih]
    simp [run, step, constructRaw, State.newHandle, State.addReference, State.onObject,
      Object.addReference, BitVec.ofNat_add, List.replicate_succ']

/-- With `2 ^ 31` handles to one object, the counter of the object is negative. -/
theorem handle_counter_comes_round :
    ¬ Always step CountsHandles State.empty
      (.newObject :: List.replicate (2 ^ 31) (.constructRaw (some 0))) := by
  intro h
  have hcount := h.of_run (run_construct (2 ^ 31)) 0 _ rfl
  rw [State.handlesTo, List.count_replicate_self, BitVec.toInt_ofNat'] at hcount
  exact absurd hcount (by decide)

end huasi.ptr
