-- A log with marks in it: what stands behind the last mark, and how often one thing stands
-- between two marks.
import Mathlib.Data.List.Basic
import Mathlib.Data.List.Count
import Mathlib.Data.List.Induction

namespace huasi.marks

variable {β α : Type} (mark : β → Bool)

/-- What stands behind the last mark. -/
def since (l : List β) : List β := l.foldl (fun m x => if mark x then [] else m ++ [x]) []

variable {mark} {l : List β} {x : β}

theorem since_mark (l : List β) (h : mark x = true) : since mark (l ++ [x]) = [] := by
  unfold since
  rw [List.foldl_append]
  simp [h]

theorem since_other (l : List β) (h : mark x = false) :
    since mark (l ++ [x]) = since mark l ++ [x] := by
  unfold since
  rw [List.foldl_append]
  simp [h]

theorem since_subset (l : List β) : since mark l ⊆ l := by
  induction l using List.reverseRecOn with
  | nil => exact List.Subset.refl _
  | append_singleton l x ih =>
    cases h : mark x with
    | true =>
      rw [since_mark l h]
      exact List.nil_subset _
    | false =>
      rw [since_other l h]
      exact List.append_subset.mpr
        ⟨fun y hy => List.mem_append_left _ (ih hy), List.subset_append_right _ _⟩

theorem since_part (before : List β) {part : List β} (h : ∀ x ∈ part, mark x = false) :
    since mark (before ++ part) = since mark before ++ part := by
  induction part using List.reverseRecOn with
  | nil => rw [List.append_nil, List.append_nil]
  | append_singleton part x ih =>
    have hpart := ih fun y hy => h y (List.mem_append_left _ hy)
    rw [← List.append_assoc, since_other _ (h x (by simp)), hpart, List.append_assoc]

/-! ## Counts -/

section Counts

variable [DecidableEq α] {f : β → Option α} {n : Nat}

/-- How often `f` finds `a` behind the last mark. -/
def recent (mark : β → Bool) (f : β → Option α) (l : List β) (a : α) : Nat :=
  ((since mark l).filterMap f).count a

/-- In no part without a mark does `f` find one thing more than `n` times. -/
def AtMost (mark : β → Bool) (f : β → Option α) (n : Nat) (l : List β) : Prop :=
  ∀ before part after, l = before ++ part ++ after → (∀ x ∈ part, mark x = false) →
    ∀ a, (part.filterMap f).count a ≤ n

theorem recent_mark (l : List β) (h : mark x = true) (a : α) :
    recent mark f (l ++ [x]) a = 0 := by
  unfold recent
  rw [since_mark l h]
  rfl

theorem recent_found (l : List β) {a : α} (h : mark x = false) (hx : f x = some a) :
    recent mark f (l ++ [x]) a = recent mark f l a + 1 := by
  unfold recent
  rw [since_other l h, List.filterMap_append, List.count_append]
  simp [hx]

theorem recent_skip (l : List β) (h : mark x = false) (hx : f x = none) (a : α) :
    recent mark f (l ++ [x]) a = recent mark f l a := by
  unfold recent
  rw [since_other l h, List.filterMap_append]
  simp [hx]

/-- What stands nowhere does not stand behind the last mark. -/
theorem recent_new {a : α} (h : a ∉ l.filterMap f) : recent mark f l a = 0 := by
  unfold recent
  rw [List.count_eq_zero]
  exact fun ha => h (List.filterMap_subset f (since_subset l) ha)

/-- A part without a mark at the end of a log. -/
theorem part_le_recent (before : List β) {part : List β} (h : ∀ x ∈ part, mark x = false)
    (a : α) : (part.filterMap f).count a ≤ recent mark f (before ++ part) a := by
  unfold recent
  rw [since_part before h, List.filterMap_append, List.count_append]
  exact Nat.le_add_left _ _

theorem atMost_nil : AtMost mark f n [] := by
  intro before part after hl _ a
  obtain rfl : part = [] := by simp_all
  exact Nat.zero_le n

theorem AtMost.append (h : AtMost mark f n l) (hx : ∀ a, f x = some a → recent mark f l a < n) :
    AtMost mark f n (l ++ [x]) := by
  intro before part after hl hno a
  rcases List.eq_nil_or_concat after with rfl | ⟨after, y, rfl⟩
  · rcases List.eq_nil_or_concat part with rfl | ⟨part, y, rfl⟩
    · exact Nat.zero_le n
    · rw [List.append_nil, List.concat_eq_append, ← List.append_assoc] at hl
      obtain ⟨rfl, hxy⟩ := List.append_inj' hl rfl
      obtain rfl : x = y := List.singleton_inj.mp hxy
      rw [List.concat_eq_append] at hno ⊢
      have hfree : ∀ z ∈ part, mark z = false := fun z hz => hno z (List.mem_append_left _ hz)
      rw [List.filterMap_append, List.count_append]
      cases hfound : f x with
      | none =>
        have hpart := h before part [] (List.append_nil _).symm hfree a
        simpa [hfound] using hpart
      | some b =>
        by_cases hba : b = a
        · subst hba
          have hless := hx b hfound
          have hpart := part_le_recent (f := f) before hfree b
          simp only [List.filterMap_cons, hfound, List.filterMap_nil, List.count_singleton_self]
          omega
        · have hpart := h before part [] (List.append_nil _).symm hfree a
          simpa [hfound, List.count_singleton, hba] using hpart
  · rw [List.concat_eq_append, ← List.append_assoc] at hl
    obtain ⟨hl, -⟩ := List.append_inj' hl rfl
    exact h before part after hl hno a

/-- What `f` does not see changes no count. -/
theorem AtMost.append_other (h : AtMost mark f n l) (hx : f x = none) :
    AtMost mark f n (l ++ [x]) :=
  h.append fun a ha => by rw [hx] at ha; cases ha

end Counts

end huasi.marks
