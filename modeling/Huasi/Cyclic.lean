-- Values of a counter that wraps around: lists in which equal values stand
-- far apart, so that a value names one entry among its neighbours.
import Mathlib.Data.List.Nodup

namespace huasi.cyclic

variable {α : Type}

/-- Two equal entries are at least `m` places apart. -/
def Apart (m : Nat) (l : List α) : Prop :=
  ∀ j k x, j < k → k < j + m → l[j]? = some x → l[k]? ≠ some x

/-- The list holds the values of a counter, from its first one on. -/
def Counts (value : Nat → α) (l : List α) : Prop := l = (List.range l.length).map value

variable {m : Nat} {l : List α} {value : Nat → α}

theorem Apart.drop (h : Apart m l) (i : Nat) : Apart m (l.drop i) := by
  intro j k x hjk hkm hj
  rw [List.getElem?_drop] at hj ⊢
  exact h (i + j) (i + k) x (by omega) (by omega) hj

theorem Apart.reverse (h : Apart m l) : Apart m l.reverse := by
  intro j k x hjk hkm hj hk
  obtain ⟨hjlt, -⟩ := List.getElem?_eq_some_iff.mp hj
  obtain ⟨hklt, -⟩ := List.getElem?_eq_some_iff.mp hk
  rw [List.length_reverse] at hjlt hklt
  rw [List.getElem?_reverse hjlt] at hj
  rw [List.getElem?_reverse hklt] at hk
  exact h (l.length - 1 - k) (l.length - 1 - j) x (by omega) (by omega) hk hj

/-- Among `m` entries in a row there are no equal ones. -/
theorem Apart.window (h : Apart m l) (i : Nat) : ((l.drop i).take m).Nodup := by
  rw [List.nodup_iff_getElem?_ne_getElem?]
  intro j k hjk hk heq
  have hkm : k < m := by
    rw [List.length_take] at hk
    omega
  rw [List.getElem?_take, List.getElem?_take, if_pos (by omega), if_pos hkm] at heq
  have hkl : k < (l.drop i).length := by
    rw [List.length_take] at hk
    omega
  rw [List.getElem?_eq_getElem hkl] at heq
  exact h.drop i j k _ hjk (by omega) heq (List.getElem?_eq_getElem hkl)

theorem Counts.append (h : Counts value l) : Counts value (l ++ [value l.length]) := by
  unfold Counts
  rw [List.length_append, List.length_singleton, List.range_succ, List.map_append, ← h]
  rfl

/-- A counter that does not repeat a value within `m` steps. -/
theorem Counts.apart (h : Counts value l)
    (hv : ∀ j k, j < k → k < j + m → value j ≠ value k) : Apart m l := by
  intro j k x hjk hkm hj hk
  unfold Counts at h
  rw [h, List.getElem?_map] at hj hk
  obtain ⟨a, ha, rfl⟩ := Option.map_eq_some_iff.mp hj
  obtain ⟨b, hb, heq⟩ := Option.map_eq_some_iff.mp hk
  obtain ⟨hja, ha⟩ := List.getElem?_eq_some_iff.mp ha
  obtain ⟨hkb, hb⟩ := List.getElem?_eq_some_iff.mp hb
  rw [List.getElem_range] at ha hb
  subst ha
  subst hb
  exact hv j k hjk hkm heq.symm

end huasi.cyclic
