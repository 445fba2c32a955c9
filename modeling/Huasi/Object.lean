-- Object (src/src/Object.hpp): an object on the heap that counts the references
-- to it and deletes itself with the last one. The counter is an int: it shows
-- the number of references as long as that fits, and wraps beyond.
import Mathlib.Algebra.Group.Int.Defs
import Mathlib.Algebra.Group.Nat.Defs

namespace huasi.object

/-! ## The counter -/

/-- An `Object` on the heap. `deletions` tells how often `delete this` has run on it. -/
structure Object where
  referenceCount : BitVec 32
  deletions : Nat
deriving DecidableEq, Repr

/-- A new object: nothing refers to it yet. -/
def Object.new : Object := { referenceCount := 0, deletions := 0 }

/-- `addReference`. The object must not be deleted yet. -/
def Object.addReference (o : Object) : Option Object :=
  if o.deletions = 0 then some { o with referenceCount := o.referenceCount + 1 } else none

/-- `removeReference`: the atomic subtraction wraps, and its old value decides. -/
def Object.removeReference (o : Object) : Option Object :=
  if o.deletions = 0 then
    if o.referenceCount = 1 then
      some { o with referenceCount := o.referenceCount - 1, deletions := o.deletions + 1 }
    else some { o with referenceCount := o.referenceCount - 1 }
  else none

/-- The object knows of `n` references. It is deleted at most once, and has none then. -/
structure Object.Counts (o : Object) (n : Nat) : Prop where
  count : o.referenceCount = BitVec.ofNat 32 n
  once : o.deletions ≤ 1
  gone : o.deletions = 1 → n = 0

theorem Object.new_counts : Object.new.Counts 0 := ⟨rfl, Nat.zero_le 1, fun _ => rfl⟩

/-- A counter below `2 ^ 31` shows the number of references. -/
theorem Object.Counts.toInt {o : Object} {n : Nat} (h : o.Counts n) (hn : n < 2 ^ 31) :
    o.referenceCount.toInt = n := by
  rw [h.count, BitVec.toInt_ofNat', Int.bmod_def]
  omega

theorem Object.Counts.alive {o : Object} {n : Nat} (h : o.Counts n) (hn : 0 < n) :
    o.deletions = 0 := by
  have := h.once
  have := h.gone
  omega

/-- One more reference. -/
theorem Object.Counts.add {o : Object} {n : Nat} (h : o.Counts n) (ho : o.deletions = 0) :
    ∃ p, o.addReference = some p ∧ p.Counts (n + 1) ∧ p.deletions = 0 := by
  refine ⟨{ o with referenceCount := o.referenceCount + 1 }, if_pos ho, ⟨?_, ?_, ?_⟩, ho⟩
  · simp [h.count, BitVec.ofNat_add]
  · simp [ho]
  · simp [ho]

theorem ofNat_eq_one_iff {n : Nat} (hn : n ≤ 2 ^ 32) : BitVec.ofNat 32 n = 1 ↔ n = 1 := by
  rw [← BitVec.toNat_inj, BitVec.toNat_ofNat]
  simp
  omega

/-- One reference less. The object is deleted with the last one, and not before. -/
theorem Object.Counts.remove {o : Object} {n : Nat} (h : o.Counts (n + 1)) (hn : n < 2 ^ 32) :
    ∃ p, o.removeReference = some p ∧ p.Counts n ∧ p.deletions = if n = 0 then 1 else 0 := by
  have ho : o.deletions = 0 := h.alive (Nat.succ_pos n)
  have hsub : o.referenceCount - 1 = BitVec.ofNat 32 n := by
    rw [h.count, BitVec.ofNat_add]
    exact BitVec.add_sub_cancel _ _
  have hone : o.referenceCount = 1 ↔ n = 0 := by
    rw [h.count, ofNat_eq_one_iff hn]
    omega
  unfold Object.removeReference
  rw [if_pos ho]
  split
  · have hn0 : n = 0 := hone.mp ‹_›
    exact ⟨_, rfl, ⟨hsub, by simp [ho], fun _ => hn0⟩, by simp [ho, hn0]⟩
  · have hn0 : n ≠ 0 := fun h0 => ‹¬_› (hone.mpr h0)
    exact ⟨_, rfl, ⟨hsub, by simp [ho], by simp [ho]⟩, by simp [ho, hn0]⟩

end huasi.object
