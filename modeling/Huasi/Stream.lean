-- A stream of messages that arrives piece by piece: after some number of
-- bytes, which messages are complete, and what there is of the next one.
import Huasi.Runs
import Mathlib.Data.List.Basic
import Mathlib.Data.Option.Basic

open huasi.runs

namespace huasi.stream

variable {α β : Type} (bytes : α → List β)

/-- The messages that are complete after `n` bytes, and the others. -/
def arrived : Nat → List α → List α × List α
  | _, [] => ([], [])
  | n, m :: ms =>
    if (bytes m).length ≤ n then
      (m :: (arrived (n - (bytes m).length) ms).1, (arrived (n - (bytes m).length) ms).2)
    else ([], m :: ms)

/-- `n` bytes are not a whole message. -/
def Short (n : Nat) : List α → Prop
  | [] => n = 0
  | m :: _ => n < (bytes m).length

/-- After `n` bytes of `ms`, `done` is complete, and of `rest` not even the first message is. -/
structure Split (ms : List α) (n : Nat) (done rest : List α) : Prop where
  all : done ++ rest = ms
  enough : (done.flatMap bytes).length ≤ n
  short : Short bytes (n - (done.flatMap bytes).length) rest

variable {bytes}

theorem split_arrived {n : Nat} {ms : List α} (h : n ≤ (ms.flatMap bytes).length) :
    Split bytes ms n (arrived bytes n ms).1 (arrived bytes n ms).2 := by
  induction ms generalizing n with
  | nil =>
    refine ⟨rfl, Nat.zero_le _, ?_⟩
    have hn : n = 0 := Nat.le_zero.mp h
    subst hn
    rfl
  | cons m ms ih =>
    unfold arrived
    rw [List.flatMap_cons, List.length_append] at h
    split
    · rename_i hm
      obtain ⟨hall, henough, hshort⟩ := ih (n := n - (bytes m).length) (by omega)
      refine ⟨?_, ?_, ?_⟩
      · rw [List.cons_append, hall]
      · rw [List.flatMap_cons, List.length_append]
        omega
      · rw [List.flatMap_cons, List.length_append, ← Nat.sub_sub]
        exact hshort
    · rename_i hm
      refine ⟨rfl, Nat.zero_le _, ?_⟩
      unfold Short
      simp only [List.flatMap_nil, List.length_nil]
      omega

/-- The first `n` bytes are the complete messages and the start of the next one. -/
theorem Split.take {ms done rest : List α} {n : Nat} (h : Split bytes ms n done rest) :
    (ms.flatMap bytes).take n =
      done.flatMap bytes ++ (rest.flatMap bytes).take (n - (done.flatMap bytes).length) := by
  rw [← h.all, List.flatMap_append, List.take_append, List.take_of_length_le h.enough]

theorem Short.le {n : Nat} {ms : List α} (h : Short bytes n ms) :
    n ≤ (ms.flatMap bytes).length := by
  cases ms with
  | nil => exact Nat.le_of_eq h
  | cons m ms =>
    rw [List.flatMap_cons, List.length_append]
    have hlt : n < (bytes m).length := h
    omega

/-- A short piece is a piece of the first message. -/
theorem Short.take {n : Nat} {m : α} {ms : List α} (h : Short bytes n (m :: ms)) :
    ((m :: ms).flatMap bytes).take n = (bytes m).take n := by
  rw [List.flatMap_cons, List.take_append_of_le_length (Nat.le_of_lt h)]

theorem Split.drop {ms done rest : List α} {n : Nat} (h : Split bytes ms n done rest) :
    (ms.flatMap bytes).drop n = (rest.flatMap bytes).drop (n - (done.flatMap bytes).length) := by
  rw [← h.all, List.flatMap_append, List.drop_append, List.drop_of_length_le h.enough,
    List.nil_append]

/-! ## Two machines on one stream -/

/-- What the parts deliver is the start of what is to come, part by part. -/
theorem prefix_drop {l m r : List β} (h : l ++ m <+: r) : l <+: r ∧ m <+: r.drop l.length := by
  obtain ⟨t, rfl⟩ := h
  rw [List.append_assoc, List.drop_left]
  exact ⟨List.prefix_append _ _, List.prefix_append _ _⟩

section Refinement

variable {S M E : Type} {stepS : S → E → Option S} {stepM : M → E → Option M} {R : S → M → Prop}
  {Fits : S → E → Prop} {delivers : E → List β} {remaining : M → List β}

/-- Where each event that delivers the next part of the stream keeps two machines related, so
does each run that delivers the stream part by part. -/
theorem run_rel
    (hstep : ∀ s m e, R s m → delivers e <+: remaining m → Fits s e →
      (stepS s e = none ∧ stepM m e = none) ∨
        ∃ s' m', stepS s e = some s' ∧ stepM m e = some m' ∧ R s' m' ∧
          remaining m' = (remaining m).drop (delivers e).length)
    {s : S} {m : M} (es : List E) (h : R s m) (hstream : es.flatMap delivers <+: remaining m)
    (hfit : Meets stepS Fits s es) :
    Option.Rel R (run stepS s es) (run stepM m es) := by
  induction es generalizing s m with
  | nil => exact .some h
  | cons e es ih =>
    rw [List.flatMap_cons] at hstream
    obtain ⟨hnext, hlater⟩ := prefix_drop hstream
    unfold run
    rcases hstep s m e h hnext hfit.1 with ⟨hs, hm⟩ | ⟨s', m', hs, hm, h', hrem⟩
    · rw [hs, hm]
      exact .none
    · rw [hs, hm, Option.bind_some, Option.bind_some]
      apply ih h'
      · rwa [hrem]
      · exact hfit.2 s' hs

end Refinement

end huasi.stream
