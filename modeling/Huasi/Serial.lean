-- Machines that share a store. Each takes events of its own and makes requests of the
-- store, and the store answers one request at a time: whatever order the events come in, the
-- requests have one order that every machine agrees with.
import Huasi.Runs
import Mathlib.Logic.Function.Basic

open huasi.runs

namespace huasi.serial

/-! ## Rows with tags -/

section Parts

variable {ι A B : Type} [DecidableEq ι]

/-- What carries the tag `i`. -/
def part (i : ι) (l : List (ι × A)) : List A :=
  l.filterMap fun e => if e.1 = i then some e.2 else none

def tag (i : ι) (l : List A) : List (ι × A) := l.map fun a => (i, a)

@[simp] theorem part_append (i : ι) (l m : List (ι × A)) : part i (l ++ m) = part i l ++ part i m :=
  List.filterMap_append

@[simp] theorem part_tag (i : ι) (l : List A) : part i (tag i l) = l := by
  simp [part, tag, List.filterMap_map]

@[simp] theorem part_tag_ne {i j : ι} (h : i ≠ j) (l : List A) : part j (tag i l) = [] := by
  simp [part, tag, List.filterMap_map, h]

theorem part_cons (i j : ι) (a : A) (l : List (ι × A)) :
    part j ((i, a) :: l) = if i = j then a :: part j l else part j l := by
  unfold part
  by_cases h : i = j <;> simp [h]

/-- The requests of a row of events, where each event makes the requests of its block. -/
def order {E : Type} : List (ι × E) → List (List A) → List (ι × A)
  | e :: events, asks :: blocks => tag e.1 asks ++ order events blocks
  | _, _ => []

end Parts

/-! ## One machine, and the store -/

section Machines

variable {ι L E A V R : Type} (move : ι → L → E → Option (L × List A))
  (act : V → A → Option (V × R))

/-- The machine `i` on its own, with the requests that it makes. -/
def alone (i : ι) (l : L) : List E → Option (L × List A)
  | [] => some (l, [])
  | e :: es => do
    let (m, first) ← move i l e
    let (n, more) ← alone i m es
    some (n, first ++ more)

/-- The store, with the replies to the requests of a row. -/
def serve (v : V) : List (ι × A) → Option (V × List (ι × R))
  | [] => some (v, [])
  | (i, a) :: rest => do
    let (w, r) ← act v a
    let (x, more) ← serve w rest
    some (x, (i, r) :: more)

variable {act}

theorem serve_append {v w : V} {front : List (ι × A)} {r : List (ι × R)}
    (h : serve act v front = some (w, r)) (rest : List (ι × A)) :
    serve act v (front ++ rest) = (serve act w rest).map fun x => (x.1, r ++ x.2) := by
  induction front generalizing v r with
  | nil =>
    cases h
    simp
  | cons e front ih =>
    obtain ⟨i, a⟩ := e
    obtain ⟨⟨x, s⟩, hact, h⟩ := Option.bind_eq_some_iff.mp h
    obtain ⟨⟨y, more⟩, hrest, h⟩ := Option.bind_eq_some_iff.mp h
    cases h
    simp only [List.cons_append, serve, hact, ih hrest, Option.bind_eq_bind, Option.bind_some]
    cases serve act w rest <;> rfl

/-- A store that never fails. -/
theorem serve_total {P : V → Prop} (hact : ∀ v a, P v → ∃ r, act v a = some r ∧ P r.1)
    {v : V} (hv : P v) (asks : List (ι × A)) :
    ∃ r, serve act v asks = some r ∧ P r.1 := by
  induction asks generalizing v with
  | nil => exact ⟨(v, []), rfl, hv⟩
  | cons e rest ih =>
    obtain ⟨i, a⟩ := e
    obtain ⟨⟨w, s⟩, hw, hP⟩ := hact v a hv
    obtain ⟨⟨x, more⟩, hx, hP'⟩ := ih hP
    exact ⟨(x, (i, s) :: more), by simp [serve, hw, hx], hP'⟩

/-- The machines, the store, and the replies so far. -/
structure Shared (ι L V R : Type) where
  locals : ι → L
  store : V
  replies : List (ι × R)

variable [DecidableEq ι]

/-- The requests that each event makes, from the state that its machine is in then. -/
def blocksOf (locals : ι → L) : List (ι × E) → Option (List (List A))
  | [] => some []
  | e :: events => do
    let (l, asks) ← move e.1 (locals e.1) e.2
    let blocks ← blocksOf (Function.update locals e.1 l) events
    some (asks :: blocks)

variable (act) in
/-- An event of one machine. -/
def step (s : Shared ι L V R) (e : ι × E) : Option (Shared ι L V R) := do
  let (l, asks) ← move e.1 (s.locals e.1) e.2
  let (v, replies) ← serve act s.store (tag e.1 asks)
  some {
    locals := Function.update s.locals e.1 l
    store := v
    replies := s.replies ++ replies }

variable {move}

/-- Machines that get on with their events alone get on together: every machine ends as it does
alone, and the store answers the requests of all events one after the other, each event with the
requests that it makes, in which each machine finds its own requests as it makes them. -/
theorem run_serial {P : V → Prop} (hact : ∀ v a, P v → ∃ r, act v a = some r ∧ P r.1)
    {events : List (ι × E)} {s : Shared ι L V R} (hs : P s.store) {ends : ι → L × List A}
    (halone : ∀ i, alone move i (s.locals i) (part i events) = some (ends i)) :
    ∃ t blocks replies, run (step move act) s events = some t ∧
      blocksOf move s.locals events = some blocks ∧
      (∀ i, t.locals i = (ends i).1 ∧ part i (order events blocks) = (ends i).2) ∧
      serve act s.store (order events blocks) = some (t.store, replies) ∧
      t.replies = s.replies ++ replies := by
  induction events generalizing s ends with
  | nil =>
    refine ⟨s, [], [], rfl, rfl, fun i => ?_, rfl, by simp⟩
    have hi : (s.locals i, []) = ends i := Option.some.inj (halone i)
    rw [← hi]
    exact ⟨rfl, rfl⟩
  | cons e events ih =>
    obtain ⟨i, e⟩ := e
    have hi := halone i
    rw [part_cons, if_pos rfl] at hi
    obtain ⟨⟨l, first⟩, hmove, hi⟩ := Option.bind_eq_some_iff.mp hi
    obtain ⟨⟨m, more⟩, hmore, hi⟩ := Option.bind_eq_some_iff.mp hi
    have hends : (m, first ++ more) = ends i := Option.some.inj hi
    obtain ⟨⟨v, r⟩, hserve, hv⟩ := serve_total hact hs (tag i first)
    have hstep : step move act s (i, e) =
        some ⟨Function.update s.locals i l, v, s.replies ++ r⟩ := by
      simp [step, hmove, hserve]
    have hrest : ∀ j, alone move j (Function.update s.locals i l j) (part j events) =
        some (Function.update ends i (m, more) j) := by
      intro j
      by_cases hij : i = j
      · subst hij
        simpa using hmore
      · have hj := halone j
        rw [part_cons, if_neg hij] at hj
        rw [Function.update_of_ne (Ne.symm hij), Function.update_of_ne (Ne.symm hij)]
        exact hj
    obtain ⟨t, blocks, replies, hrun, hblocks, hparts, hrow, hreplies⟩ :=
      ih (s := ⟨Function.update s.locals i l, v, s.replies ++ r⟩) hv hrest
    refine ⟨t, first :: blocks, r ++ replies, by simp [run, hstep, hrun],
      by simp [blocksOf, hmove, hblocks], fun j => ?_, ?_, ?_⟩
    · obtain ⟨hl, hpart⟩ := hparts j
      rw [order, part_append]
      by_cases hij : i = j
      · subst hij
        rw [Function.update_self] at hl hpart
        rw [part_tag, hpart, ← hends]
        exact ⟨hl, rfl⟩
      · rw [Function.update_of_ne (Ne.symm hij)] at hl hpart
        rw [part_tag_ne hij, hpart]
        exact ⟨hl, rfl⟩
    · rw [order, serve_append hserve, hrow]
      rfl
    · rw [hreplies, List.append_assoc]

end Machines

end huasi.serial
