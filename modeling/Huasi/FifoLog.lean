-- The log of a queue that serves its front: what entered it, what was served
-- and what left it. A log that can be played on a queue is first in, first
-- out, and nothing leaves it twice or is served after it left.
import Huasi.Runs
import Mathlib.Data.List.Basic
import Mathlib.Data.List.Induction
import Mathlib.Data.List.Nodup
import Mathlib.Order.Lattice

namespace huasi.fifo_log

open runs

/-- What a log says about a queue: `a` entered at the back, `a` was served at the front, or
`a` left from the front. -/
inductive Op (α : Type) where
  | enter (a : α)
  | serve (a : α)
  | leave (a : α)

variable {α : Type}

/-- One line of the log, played on a queue. It fails where the front is not the one named. -/
def play [DecidableEq α] : List α → Op α → Option (List α)
  | q, .enter a => some (q ++ [a])
  | [], .serve _ => none
  | b :: q, .serve a => if a = b then some (b :: q) else none
  | [], .leave _ => none
  | b :: q, .leave a => if a = b then some q else none

/-- Who entered, in order. -/
def entered (l : List (Op α)) : List α :=
  l.filterMap fun | .enter a => some a | _ => none

/-- Who left, in order. -/
def left (l : List (Op α)) : List α :=
  l.filterMap fun | .leave a => some a | _ => none

/-- Who was served, in order. -/
def served (l : List (Op α)) : List α :=
  l.filterMap fun | .serve a => some a | _ => none

@[simp] theorem entered_append (l m : List (Op α)) : entered (l ++ m) = entered l ++ entered m :=
  List.filterMap_append

@[simp] theorem left_append (l m : List (Op α)) : left (l ++ m) = left l ++ left m :=
  List.filterMap_append

theorem served_append (l m : List (Op α)) : served (l ++ m) = served l ++ served m :=
  List.filterMap_append

variable [DecidableEq α]

theorem play_serve {q q' : List α} {a : α} (h : play q (.serve a) = some q') :
    q' = q ∧ ∃ r, q = a :: r := by
  cases q with
  | nil => simp [play] at h
  | cons b r =>
    simp only [play] at h
    split at h
    · rename_i hab
      subst hab
      simp only [Option.some.injEq] at h
      exact ⟨h.symm, r, rfl⟩
    · cases h

theorem play_leave {q q' : List α} {a : α} (h : play q (.leave a) = some q') : q = a :: q' := by
  cases q with
  | nil => simp [play] at h
  | cons b r =>
    simp only [play] at h
    split at h
    · rename_i hab
      subst hab
      simp only [Option.some.injEq] at h
      rw [h]
    · cases h

/-- Who is in the queue, followed by who entered, is who left, followed by who is still there. -/
theorem play_account {q q' : List α} {l : List (Op α)} (h : run play q l = some q') :
    q ++ entered l = left l ++ q' := by
  induction l generalizing q with
  | nil => cases h; simp [entered, left]
  | cons o l ih =>
    obtain ⟨r, hr, h⟩ := Option.bind_eq_some_iff.mp h
    have hl := ih h
    cases o with
    | enter a =>
      simp only [play, Option.some.injEq] at hr
      subst hr
      simpa [entered, left] using hl
    | serve a =>
      obtain ⟨rfl, -⟩ := play_serve hr
      simpa [entered, left] using hl
    | leave a =>
      rw [play_leave hr]
      simpa [entered, left] using hl

/-- Each part of a log that can be played can be played. -/
theorem play_part {q q' : List α} {l m : List (Op α)} (h : run play q (l ++ m) = some q') :
    ∃ r, run play q l = some r ∧ run play r m = some q' := by
  rw [run_append] at h
  exact Option.bind_eq_some_iff.mp h

/-- The one that is served is at the front at that moment. -/
theorem served_at_front {q q' : List α} {l m : List (Op α)} {a : α}
    (h : run play q (l ++ .serve a :: m) = some q') : ∃ r, run play q l = some (a :: r) := by
  obtain ⟨r, hl, hm⟩ := play_part h
  obtain ⟨t, ht, -⟩ := Option.bind_eq_some_iff.mp hm
  obtain ⟨-, u, rfl⟩ := play_serve ht
  exact ⟨u, hl⟩

/-- Where nobody enters twice, one that left is not in the queue. -/
theorem not_mem_of_left {q : List α} {l : List (Op α)} {a : α} (h : run play [] l = some q)
    (hn : (entered l).Nodup) (ha : a ∈ left l) : a ∉ q := by
  have hacc := play_account h
  rw [List.nil_append] at hacc
  rw [hacc] at hn
  exact fun hq => (List.nodup_append.mp hn).2.2 a ha a hq rfl

/-- Where nobody enters twice, one that left is not served any more. -/
theorem not_served_after_left {q : List α} {l m : List (Op α)} {a : α}
    (h : run play [] (l ++ .serve a :: m) = some q)
    (hn : (entered (l ++ .serve a :: m)).Nodup) : a ∉ left l := by
  obtain ⟨r, hr⟩ := served_at_front h
  have hnl : (entered l).Nodup := by
    rw [entered_append] at hn
    exact (List.nodup_append.mp hn).1
  exact fun ha => not_mem_of_left hr hnl ha List.mem_cons_self

/-- One that was served has left, or is the front. -/
theorem served_left_or_front {q : List α} {l m : List (Op α)} {a : α}
    (h : run play [] (l ++ .serve a :: m) = some q) :
    a ∈ left (l ++ .serve a :: m) ∨ q.head? = some a := by
  obtain ⟨r, hl, hserve⟩ := play_part h
  obtain ⟨t, ht, hm⟩ := Option.bind_eq_some_iff.mp hserve
  obtain ⟨rfl, u, rfl⟩ := play_serve ht
  have hacc := play_account hm
  simp only [left_append, List.mem_append]
  cases hlm : left m with
  | nil =>
    rw [hlm, List.nil_append] at hacc
    right
    rw [← hacc]
    rfl
  | cons b v =>
    left; right
    rw [hlm] at hacc
    simp only [List.cons_append, List.cons.injEq] at hacc
    have hcons : left (.serve a :: m) = left m := rfl
    rw [hcons, hlm, hacc.1]
    exact List.mem_cons_self

/-! ## The order of those that are served -/

/-- Where numbers enter in their order, the one that is served is the number of those that left. -/
theorem served_number {q q' : List Nat} {l : List (Op Nat)} {a n : Nat}
    (h : run play [] l = some q) (hserve : play q (.serve a) = some q')
    (hentered : entered l <+: List.range n) : a = (left l).length := by
  obtain ⟨-, r, rfl⟩ := play_serve hserve
  have hacc := play_account h
  rw [List.nil_append] at hacc
  have hget : (entered l)[(left l).length]? = some a := by simp [hacc]
  obtain ⟨m, hm⟩ := hentered
  have hrange : (List.range n)[(left l).length]? = some a := by
    rw [← hm, List.getElem?_append_left (List.getElem?_eq_some_iff.mp hget).1, hget]
  rw [List.getElem?_range (by
    simpa using (List.getElem?_eq_some_iff.mp hrange).1)] at hrange
  exact (Option.some.inj hrange).symm

/-- Where numbers enter in their order, they are served in their order. -/
theorem served_sorted {q : List Nat} {l : List (Op Nat)} {n : Nat} (h : run play [] l = some q)
    (hentered : entered l <+: List.range n) :
    (served l).Pairwise (· ≤ ·) ∧ ∀ a ∈ served l, a ≤ (left l).length := by
  induction l using List.reverseRecOn generalizing q with
  | nil => simp [served]
  | append_singleton l o ih =>
    obtain ⟨r, hr, ho⟩ := play_part h
    rw [entered_append] at hentered
    have hfirst : entered l <+: List.range n := (List.prefix_append _ _).trans hentered
    obtain ⟨hsorted, hle⟩ := ih hr hfirst
    rw [served_append, left_append, List.length_append]
    cases o with
    | serve a =>
      obtain ⟨q', hq', -⟩ := Option.bind_eq_some_iff.mp ho
      obtain rfl := served_number hr hq' hfirst
      refine ⟨?_, ?_⟩
      · rw [List.pairwise_append]
        refine ⟨hsorted, by simp [served], fun b hb c hc => ?_⟩
        obtain rfl : c = (left l).length := by simpa [served] using hc
        exact hle b hb
      · intro b hb
        rw [List.mem_append] at hb
        rcases hb with hb | hb
        · exact Nat.le_add_right_of_le (hle b hb)
        · obtain rfl : b = (left l).length := by simpa [served] using hb
          exact Nat.le_add_right _ _
    | enter a =>
      refine ⟨by simpa [served] using hsorted, fun b hb => ?_⟩
      exact Nat.le_add_right_of_le (hle b (by simpa [served] using hb))
    | leave a =>
      refine ⟨by simpa [served] using hsorted, fun b hb => ?_⟩
      exact Nat.le_add_right_of_le (hle b (by simpa [served] using hb))

/-- A row without repetitions is the beginning of a sorted one exactly if each of its members is
there, with the same members in front. -/
theorem prefix_iff_counts {β : Type} [LinearOrder β] {a b : List β}
    (ha : a.Pairwise (· < ·)) (hb : b.Pairwise (· ≤ ·)) :
    a <+: b ↔ ∀ t ∈ a, t ∈ b ∧ ∀ u < t, b.count u = a.count u := by
  constructor
  · rintro ⟨c, rfl⟩ t ht
    refine ⟨List.mem_append_left c ht, fun u hu => ?_⟩
    have hnone : c.count u = 0 := by
      rw [List.count_eq_zero]
      intro hc
      exact absurd hu (not_lt_of_ge ((List.pairwise_append.mp hb).2.2 t ht u hc))
    rw [List.count_append, hnone, Nat.add_zero]
  · intro h
    induction a generalizing b with
    | nil => exact List.nil_prefix
    | cons x a ih =>
      obtain ⟨hlater, hrow⟩ := List.pairwise_cons.mp ha
      obtain ⟨hx, hfront⟩ := h x List.mem_cons_self
      cases b with
      | nil => cases hx
      | cons y b =>
        obtain ⟨hleast, hb⟩ := List.pairwise_cons.mp hb
        have hle : y ≤ x := by
          rcases List.mem_cons.mp hx with rfl | hx
          · exact le_refl x
          · exact hleast x hx
        -- nothing smaller than the first of the row is there
        obtain rfl : y = x := by
          refine hle.eq_of_not_lt fun hlt => ?_
          have hcount := hfront y hlt
          have hno : y ∉ x :: a := by
            rw [List.mem_cons, not_or]
            exact ⟨hlt.ne, fun hy => absurd hlt (not_lt_of_ge (hlater y hy).le)⟩
          rw [List.count_eq_zero_of_not_mem hno, List.count_cons_self] at hcount
          omega
        rw [List.cons_prefix_cons]
        refine ⟨rfl, ih hrow hb fun t ht => ?_⟩
        obtain ⟨hmem, hcounts⟩ := h t (List.mem_cons_of_mem y ht)
        refine ⟨(List.mem_cons.mp hmem).resolve_left (hlater t ht).ne', fun u hu => ?_⟩
        have hcount := hcounts u hu
        rw [List.count_cons, List.count_cons] at hcount
        exact Nat.add_right_cancel hcount

/-! ## Lines that come in pairs -/

section Followed

variable {β : Type} {P Q : β → Prop} {l : List β} {x y : β}

/-- Each line of one kind has a line of another kind right behind it. -/
def Followed (P Q : β → Prop) (l : List β) : Prop :=
  ∀ i x, l[i]? = some x → P x → ∃ y, l[i + 1]? = some y ∧ Q y

theorem Followed.append {m : List β} (hl : Followed P Q l) (hm : Followed P Q m) :
    Followed P Q (l ++ m) := by
  intro i x hx hP
  rw [List.getElem?_append] at hx
  split at hx
  · rename_i hi
    obtain ⟨y, hy, hQ⟩ := hl i x hx hP
    exact ⟨y, List.getElem?_append_left (List.getElem?_eq_some_iff.mp hy).1 ▸ hy, hQ⟩
  · rename_i hi
    obtain ⟨y, hy, hQ⟩ := hm (i - l.length) x hx hP
    refine ⟨y, ?_, hQ⟩
    rw [List.getElem?_append_right (by omega), ← hy]
    congr 1
    omega

theorem followed_nil : Followed P Q [] := fun _ _ hx => by simp at hx

theorem followed_other (hx : ¬ P x) : Followed P Q [x] := by
  intro i z hz hP
  obtain rfl : x = z := by
    rw [List.getElem?_singleton] at hz
    split at hz
    · exact Option.some.inj hz
    · cases hz
  exact absurd hP hx

theorem followed_pair (hy : Q y) (hno : ¬ P y) : Followed P Q [x, y] := by
  intro i z hz hP
  cases i with
  | zero => exact ⟨y, rfl, hy⟩
  | succ i =>
    obtain ⟨w, hw, -⟩ := @followed_other β P Q y hno i z hz hP
    simp at hw

end Followed

end huasi.fifo_log
