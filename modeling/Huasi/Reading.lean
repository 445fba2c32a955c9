-- Programs that read a buffer behind a bare pointer. Nothing stops them from reading
-- behind its end, so the indices that they read are part of what they do.

namespace huasi.reading

/-- A program that reads a buffer: it is done, or it goes on with what stands at an index. -/
inductive Reading (β α : Type) where
  | done (a : α)
  | read (i : Nat) (next : β → Reading β α)

section Reading

variable {β α γ : Type}

def Reading.bind : Reading β α → (α → Reading β γ) → Reading β γ
  | .done a, f => f a
  | .read i next, f => .read i fun b => (next b).bind f

instance readingMonad : Monad (Reading β) where
  pure := .done
  bind := .bind

/-- What stands at an index. -/
def byteAt (i : Nat) : Reading β β := .read i .done

/-- What stands at an index, if it is looked at, else what there was before. -/
def byteAtIf (p : Prop) [Decidable p] (i : Nat) (before : β) : Reading β β :=
  if p then byteAt i else pure before

/-- The program with a pointer that is `k` further on. -/
def Reading.shift (k : Nat) : Reading β α → Reading β α
  | .done a => .done a
  | .read i next => .read (k + i) fun b => (next b).shift k

/-- What the program computes from a memory. -/
def Reading.result (memory : Nat → β) : Reading β α → α
  | .done a => a
  | .read i next => (next (memory i)).result memory

/-- The indices that it reads, in their order. -/
def Reading.indices (memory : Nat → β) : Reading β α → List Nat
  | .done _ => []
  | .read i next => i :: (next (memory i)).indices memory

/-- What it computes from a list. The result is `none` where it reads behind the end. -/
def Reading.onList (l : List β) : Reading β α → Option α
  | .done a => some a
  | .read i next => l[i]?.bind fun b => (next b).onList l

/-- Whatever stands in the buffer, every index that it reads is below `n`. -/
def Reading.Within (n : Nat) : Reading β α → Prop
  | .done _ => True
  | .read i next => i < n ∧ ∀ b, (next b).Within n

/-- Whatever stands in the buffer, the program computes a value with `P`. -/
def Reading.Yields (P : α → Prop) : Reading β α → Prop
  | .done a => P a
  | .read _ next => ∀ b, (next b).Yields P

/-! ## How programs compose -/

theorem within_pure (n : Nat) (a : α) : (pure a : Reading β α).Within n := trivial

theorem within_byteAt {n i : Nat} (h : i < n) : (byteAt i : Reading β β).Within n :=
  ⟨h, fun _ => trivial⟩

theorem within_bind {n : Nat} {x : Reading β α} {f : α → Reading β γ} (hx : x.Within n)
    (hf : ∀ a, (f a).Within n) : (x >>= f).Within n := by
  induction x with
  | done a => exact hf a
  | read i next ih => exact ⟨hx.1, fun b => ih b (hx.2 b)⟩

/-- What the first program computes bounds the indices of the second. -/
theorem within_bind_yields {n : Nat} {P : α → Prop} {x : Reading β α} {f : α → Reading β γ}
    (hx : x.Within n) (hP : x.Yields P) (hf : ∀ a, P a → (f a).Within n) : (x >>= f).Within n := by
  induction x with
  | done a => exact hf a hP
  | read i next ih => exact ⟨hx.1, fun b => ih b (hx.2 b) (hP b)⟩

theorem within_ite {n : Nat} {p : Prop} [Decidable p] {x y : Reading β α}
    (hx : p → x.Within n) (hy : ¬ p → y.Within n) : (if p then x else y).Within n := by
  split
  · rename_i h
    exact hx h
  · rename_i h
    exact hy h

theorem within_byteAtIf {n i : Nat} (h : i < n) (p : Prop) [Decidable p] (before : β) :
    (byteAtIf p i before).Within n :=
  within_ite (fun _ => within_byteAt h) fun _ => within_pure n before

theorem within_mono {n k : Nat} (hnk : n ≤ k) {x : Reading β α} (h : x.Within n) : x.Within k := by
  induction x with
  | done a => trivial
  | read i next ih => exact ⟨Nat.lt_of_lt_of_le h.1 hnk, fun b => ih b (h.2 b)⟩

theorem within_shift {n k : Nat} {x : Reading β α} (h : x.Within n) :
    (x.shift k).Within (k + n) := by
  induction x with
  | done a => trivial
  | read i next ih => exact ⟨Nat.add_lt_add_left h.1 k, fun b => ih b (h.2 b)⟩

theorem indices_lt {n : Nat} {x : Reading β α} (h : x.Within n) (memory : Nat → β) :
    ∀ i ∈ x.indices memory, i < n := by
  induction x with
  | done a => simp [Reading.indices]
  | read i next ih =>
    intro j hj
    rcases List.mem_cons.mp hj with rfl | hj
    · exact h.1
    · exact ih _ (h.2 _) j hj

theorem yields_pure {P : α → Prop} {a : α} (h : P a) : (pure a : Reading β α).Yields P := h

theorem yields_any (x : Reading β α) : x.Yields fun _ => True := by
  induction x with
  | done a => trivial
  | read i next ih => exact fun b => ih b

theorem yields_bind {P : α → Prop} {Q : γ → Prop} {x : Reading β α} {f : α → Reading β γ}
    (hx : x.Yields P) (hf : ∀ a, P a → (f a).Yields Q) : (x >>= f).Yields Q := by
  induction x with
  | done a => exact hf a hx
  | read i next ih => exact fun b => ih b (hx b)

theorem yields_ite {P : α → Prop} {p : Prop} [Decidable p] {x y : Reading β α}
    (hx : p → x.Yields P) (hy : ¬ p → y.Yields P) : (if p then x else y).Yields P := by
  split
  · rename_i h
    exact hx h
  · rename_i h
    exact hy h

theorem result_of_yields {P : α → Prop} {x : Reading β α} (h : x.Yields P) (memory : Nat → β) :
    P (x.result memory) := by
  induction x with
  | done a => exact h
  | read i next ih => exact ih _ (h _)

/-! ## On a list -/

@[simp] theorem onList_pure (l : List β) (a : α) : (pure a : Reading β α).onList l = some a := rfl

@[simp] theorem onList_byteAt (l : List β) (i : Nat) : (byteAt i).onList l = l[i]? := by
  simp only [byteAt, Reading.onList]
  cases l[i]? <;> rfl

theorem onList_byteAtIf {l : List β} {i : Nat} (h : i < l.length) (p : Prop) [Decidable p]
    (before : β) : (byteAtIf p i before).onList l = some (if p then l[i] else before) := by
  unfold byteAtIf
  split
  · rw [onList_byteAt, List.getElem?_eq_getElem h]
  · rfl

@[simp] theorem onList_bind (l : List β) (x : Reading β α) (f : α → Reading β γ) :
    (x >>= f).onList l = (x.onList l).bind fun a => (f a).onList l := by
  induction x with
  | done a => rfl
  | read i next ih =>
    change (l[i]?.bind fun b => (next b >>= f).onList l) =
      (l[i]?.bind fun b => (next b).onList l).bind fun a => (f a).onList l
    rw [Option.bind_assoc]
    exact congrArg _ (funext ih)

theorem onList_ite (l : List β) {p : Prop} [Decidable p] (x y : Reading β α) :
    (if p then x else y).onList l = if p then x.onList l else y.onList l := by
  split <;> rfl

theorem onList_shift (l : List β) (k : Nat) (x : Reading β α) :
    (x.shift k).onList l = x.onList (l.drop k) := by
  induction x with
  | done a => rfl
  | read i next ih =>
    simp only [Reading.shift, Reading.onList, List.getElem?_drop]
    exact congrArg _ (funext ih)

/-- What stands behind the reach of a program does not matter. -/
theorem onList_take {l : List β} {n : Nat} {x : Reading β α} (h : x.Within n) :
    x.onList (l.take n) = x.onList l := by
  induction x with
  | done a => rfl
  | read i next ih =>
    simp only [Reading.onList, List.getElem?_take_of_lt h.1]
    exact congrArg _ (funext fun b => ih b (h.2 b))

theorem onList_total {l : List β} {x : Reading β α} (h : x.Within l.length) :
    ∃ a, x.onList l = some a := by
  induction x with
  | done a => exact ⟨a, rfl⟩
  | read i next ih =>
    rw [Reading.onList, List.getElem?_eq_getElem h.1, Option.bind_some]
    exact ih _ (h.2 _)

/-- The first `n` bytes of a memory. -/
def frame (memory : Nat → β) (n : Nat) : List β := (List.range n).map memory

@[simp] theorem length_frame (memory : Nat → β) (n : Nat) : (frame memory n).length = n := by
  simp [frame]

/-- A program that stays inside the list computes the same from the memory. -/
theorem onList_frame {n : Nat} {x : Reading β α} (h : x.Within n) (memory : Nat → β) :
    x.onList (frame memory n) = some (x.result memory) := by
  induction x with
  | done a => rfl
  | read i next ih =>
    have hget : (frame memory n)[i]? = some (memory i) := by simp [frame, h.1]
    rw [Reading.onList, hget, Option.bind_some]
    exact ih _ (h.2 _)

/-! ## Writing -/

/-- `data` is written from index `i` on. -/
def store (memory : Nat → β) (i : Nat) (data : List β) : Nat → β :=
  fun j => if i ≤ j then (data[j - i]?).getD (memory j) else memory j

/-- What stands from `first` to `last` is copied to the start. -/
def copyDown (memory : Nat → β) (first last : Nat) : Nat → β :=
  fun j => if first + j < last then memory (first + j) else memory j

theorem frame_get (memory : Nat → β) {n i : Nat} (h : i < n) :
    (frame memory n)[i]? = some (memory i) := by
  simp [frame, h]

theorem frame_store (memory : Nat → β) {n i : Nat} {data : List β} (h : i + data.length ≤ n) :
    frame (store memory i data) n =
      (frame memory n).take i ++ data ++ (frame memory n).drop (i + data.length) := by
  apply List.ext_getElem?
  intro j
  rcases Nat.lt_or_ge j n with hj | hj
  · rw [frame_get _ hj, List.append_assoc]
    unfold store
    have hlen : ((frame memory n).take i).length = i := by
      rw [List.length_take, length_frame]
      omega
    by_cases hi : i ≤ j
    · rw [if_pos hi, List.getElem?_append_right (by omega), hlen]
      by_cases hdata : j - i < data.length
      · rw [List.getElem?_append_left hdata, List.getElem?_eq_getElem hdata]
        rfl
      · rw [List.getElem?_append_right (by omega), List.getElem?_drop,
          List.getElem?_eq_none (Nat.le_of_not_lt hdata),
          show i + data.length + (j - i - data.length) = j by omega, frame_get _ hj]
        rfl
    · rw [if_neg hi, List.getElem?_append_left (by omega), List.getElem?_take,
        if_pos (by omega), frame_get _ hj]
  · rw [List.getElem?_eq_none (by rw [length_frame]; exact hj), List.getElem?_eq_none]
    simp only [List.length_append, List.length_take, List.length_drop, length_frame]
    omega

/-- Copying to the start is storing what stands there. -/
theorem frame_copyDown (memory : Nat → β) {n first last : Nat} (hlast : last ≤ n) :
    frame (copyDown memory first last) n =
      frame (store memory 0 (((frame memory n).take last).drop first)) n := by
  apply List.map_congr_left
  intro j hj
  have hjn : j < n := List.mem_range.mp hj
  unfold copyDown store
  rw [if_pos (Nat.zero_le j), Nat.sub_zero, List.getElem?_drop, List.getElem?_take]
  by_cases h : first + j < last
  · rw [if_pos h, if_pos h, frame_get _ (by omega)]
    rfl
  · rw [if_neg h, if_neg h]
    rfl

end Reading

end huasi.reading
