-- Maps as lists of entries in the order of their keys, each key once. So equal
-- lookups mean equal maps, and what runs over the entries runs in key order.
import Mathlib.Data.List.Sort
import Mathlib.Order.Defs.LinearOrder

namespace huasi.sorted_map

variable {K V W : Type} [LinearOrder K]

/-! ## The map -/

/-- The keys are sorted, and there is no key twice. -/
def KeysSorted (entries : List (K × V)) : Prop := entries.Pairwise fun a b => a.1 < b.1

structure SortedMap (K V : Type) [LinearOrder K] where
  entries : List (K × V)
  sorted : KeysSorted entries

theorem keysSorted_nil : KeysSorted ([] : List (K × V)) := List.Pairwise.nil

def SortedMap.empty : SortedMap K V := ⟨[], keysSorted_nil⟩

/-- The entries with `v` at `k`, be the key new or not. -/
def insertEntry (k : K) (v : V) : List (K × V) → List (K × V)
  | [] => [(k, v)]
  | e :: rest =>
    if k < e.1 then (k, v) :: e :: rest
    else if e.1 < k then e :: insertEntry k v rest
    else (k, v) :: rest

theorem mem_insertEntry {k : K} {v : V} {e : K × V} {entries : List (K × V)}
    (h : e ∈ insertEntry k v entries) : e = (k, v) ∨ e ∈ entries := by
  induction entries with
  | nil => exact Or.inl (List.mem_singleton.mp h)
  | cons d rest ih =>
    unfold insertEntry at h
    split at h
    · exact List.mem_cons.mp h
    · split at h
      · rcases List.mem_cons.mp h with rfl | h
        · exact Or.inr List.mem_cons_self
        · exact (ih h).imp_right (List.mem_cons_of_mem d)
      · rcases List.mem_cons.mp h with rfl | h
        · exact Or.inl rfl
        · exact Or.inr (List.mem_cons_of_mem d h)

theorem keysSorted_insertEntry (k : K) (v : V) (entries : List (K × V))
    (h : KeysSorted entries) : KeysSorted (insertEntry k v entries) := by
  induction entries with
  | nil => exact List.pairwise_singleton _ _
  | cons d rest ih =>
    obtain ⟨hd, hrest⟩ := List.pairwise_cons.mp h
    unfold insertEntry
    split
    · rename_i hlt
      refine List.pairwise_cons.mpr ⟨fun e he => ?_, h⟩
      rcases List.mem_cons.mp he with rfl | he
      · exact hlt
      · exact hlt.trans (hd e he)
    · split
      · rename_i hlt
        refine List.pairwise_cons.mpr ⟨fun e he => ?_, ih hrest⟩
        rcases mem_insertEntry he with rfl | he
        · exact hlt
        · exact hd e he
      · rename_i hnlt hngt
        obtain rfl : d.1 = k := le_antisymm (not_lt.mp hnlt) (not_lt.mp hngt)
        exact List.pairwise_cons.mpr ⟨hd, hrest⟩

def SortedMap.insert (k : K) (v : V) (m : SortedMap K V) : SortedMap K V :=
  ⟨insertEntry k v m.entries, keysSorted_insertEntry k v m.entries m.sorted⟩

def SortedMap.lookup (k : K) (m : SortedMap K V) : Option V :=
  (m.entries.find? fun e => e.1 = k).map Prod.snd

def SortedMap.contains (k : K) (m : SortedMap K V) : Bool := (m.lookup k).isSome

theorem keysSorted_map (f : V → W) (entries : List (K × V)) (h : KeysSorted entries) :
    KeysSorted (entries.map fun e => (e.1, f e.2)) :=
  List.pairwise_map.mpr h

/-- The same keys, with other values. -/
def SortedMap.mapValues (f : V → W) (m : SortedMap K V) : SortedMap K W :=
  ⟨m.entries.map fun e => (e.1, f e.2), keysSorted_map f m.entries m.sorted⟩

/-! ## Lookups -/

@[simp] theorem lookup_empty (k : K) : (SortedMap.empty : SortedMap K V).lookup k = none := rfl

theorem lookup_insert (k l : K) (v : V) (m : SortedMap K V) :
    (m.insert k v).lookup l = if k = l then some v else m.lookup l := by
  obtain ⟨entries, sorted⟩ := m
  simp only [SortedMap.insert, SortedMap.lookup]
  clear sorted
  induction entries with
  | nil => by_cases hkl : k = l <;> simp [insertEntry, hkl]
  | cons d rest ih =>
    unfold insertEntry
    split
    · by_cases hkl : k = l <;> simp [hkl]
    · split
      · rename_i hlt
        by_cases hdl : d.1 = l
        · have hkl : k ≠ l := fun hkl => (hdl.trans hkl.symm) ▸ hlt.ne <| rfl
          simp [hdl, hkl]
        · simpa [hdl] using ih
      · rename_i hnlt hngt
        obtain rfl : d.1 = k := le_antisymm (not_lt.mp hnlt) (not_lt.mp hngt)
        by_cases hkl : d.1 = l <;> simp [hkl]

@[simp] theorem lookup_insert_self (k : K) (v : V) (m : SortedMap K V) :
    (m.insert k v).lookup k = some v := by
  rw [lookup_insert, if_pos rfl]

theorem lookup_insert_ne {k l : K} (h : k ≠ l) (v : V) (m : SortedMap K V) :
    (m.insert k v).lookup l = m.lookup l := by
  rw [lookup_insert, if_neg h]

@[simp] theorem lookup_mapValues (f : V → W) (m : SortedMap K V) (k : K) :
    (m.mapValues f).lookup k = (m.lookup k).map f := by
  simp only [SortedMap.mapValues, SortedMap.lookup, List.find?_map, Option.map_map]
  rfl

theorem mem_entries_iff {m : SortedMap K V} {k : K} {v : V} :
    (k, v) ∈ m.entries ↔ m.lookup k = some v := by
  obtain ⟨entries, sorted⟩ := m
  simp only [SortedMap.lookup]
  induction entries with
  | nil => simp
  | cons d rest ih =>
    obtain ⟨hd, hrest⟩ := List.pairwise_cons.mp sorted
    by_cases hdk : d.1 = k
    · have hnot : (k, v) ∉ rest := fun hmem => (hd _ hmem).ne hdk
      obtain ⟨d1, d2⟩ := d
      simp only at hdk
      subst hdk
      simp [hnot, eq_comm]
    · have hne : (k, v) ≠ d := fun h => hdk (by rw [← h])
      simp [hdk, hne, ih hrest]

/-- Equal lookups, equal maps. -/
theorem SortedMap.ext_lookup {m n : SortedMap K V} (h : ∀ k, m.lookup k = n.lookup k) : m = n := by
  have hmem : ∀ e, e ∈ m.entries ↔ e ∈ n.entries := fun e => by
    rw [mem_entries_iff (k := e.1) (v := e.2), mem_entries_iff (k := e.1) (v := e.2), h]
  have hirrefl : ∀ l : List (K × V), KeysSorted l → l.Nodup := fun l hl =>
    hl.imp fun hab heq => (heq ▸ hab).ne rfl
  have hperm : m.entries.Perm n.entries :=
    (List.perm_ext_iff_of_nodup (hirrefl _ m.sorted) (hirrefl _ n.sorted)).mpr hmem
  have heq : m.entries = n.entries :=
    hperm.eq_of_pairwise (fun a b _ _ hab hba => absurd hba (lt_asymm hab)) m.sorted n.sorted
  cases m
  cases n
  cases heq
  rfl

instance [DecidableEq V] : DecidableEq (SortedMap K V) := fun m n =>
  decidable_of_iff (m.entries = n.entries)
    ⟨fun h => by cases m; cases n; cases h; rfl, fun h => h ▸ rfl⟩

/-! ## One entry after the other -/

/-- All entries of a list, where a later one overwrites an earlier one with its key. -/
def SortedMap.insertAll (m : SortedMap K V) (entries : List (K × V)) : SortedMap K V :=
  entries.foldl (fun m e => m.insert e.1 e.2) m

/-- The value of the last entry with a key. -/
def lastValue (k : K) : List (K × V) → Option V
  | [] => none
  | e :: rest => (lastValue k rest).or (if e.1 = k then some e.2 else none)

theorem lastValue_append (k : K) (l m : List (K × V)) :
    lastValue k (l ++ m) = (lastValue k m).or (lastValue k l) := by
  induction l with
  | nil => exact (Option.or_none).symm
  | cons e l ih => rw [List.cons_append, lastValue, ih, Option.or_assoc, lastValue]

theorem mem_of_lastValue {k : K} {v : V} {l : List (K × V)} (h : lastValue k l = some v) :
    (k, v) ∈ l := by
  induction l with
  | nil => cases h
  | cons e l ih =>
    rcases Option.or_eq_some_iff.mp h with hrest | ⟨-, hfirst⟩
    · exact List.mem_cons_of_mem e (ih hrest)
    · by_cases hk : e.1 = k
      · rw [if_pos hk, Option.some.injEq] at hfirst
        exact List.mem_cons.mpr (Or.inl (Prod.ext hk.symm hfirst.symm))
      · rw [if_neg hk] at hfirst
        cases hfirst

theorem lookup_insertAll (m : SortedMap K V) (entries : List (K × V)) (k : K) :
    (m.insertAll entries).lookup k = (lastValue k entries).or (m.lookup k) := by
  induction entries generalizing m with
  | nil => rfl
  | cons e rest ih =>
    have hrest : m.insertAll (e :: rest) = (m.insert e.1 e.2).insertAll rest := rfl
    rw [hrest, ih, lookup_insert, lastValue]
    cases lastValue k rest with
    | some v => rfl
    | none => by_cases hk : e.1 = k <;> simp [hk]

/-- Under sorted keys the last entry with a key is the only one. -/
theorem lastValue_entries (m : SortedMap K V) (k : K) : lastValue k m.entries = m.lookup k := by
  obtain ⟨entries, sorted⟩ := m
  simp only [SortedMap.lookup]
  induction entries with
  | nil => rfl
  | cons e rest ih =>
    obtain ⟨he, hrest⟩ := List.pairwise_cons.mp sorted
    rw [lastValue, ih hrest]
    by_cases hk : e.1 = k
    · have hnone : rest.find? (fun d => d.1 = k) = none := by
        rw [List.find?_eq_none]
        intro d hd
        have hlt := he d hd
        rw [hk] at hlt
        simpa using hlt.ne'
      simp [hk, hnone]
    · simp [hk]

/-- The entries of a map, filed one after the other, are the map. -/
theorem insertAll_entries (m : SortedMap K V) : SortedMap.empty.insertAll m.entries = m := by
  apply SortedMap.ext_lookup
  intro k
  rw [lookup_insertAll, lookup_empty, Option.or_none, lastValue_entries]

end huasi.sorted_map
