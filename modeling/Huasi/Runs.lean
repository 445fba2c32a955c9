-- Runs of an event-driven program: one event after the other, each handled
-- by a function that fails where the behaviour is undefined, and the loop
-- inside one handler. Every law of a whole run is an induction of this file.
import Mathlib.Logic.Relation
import Mathlib.Data.List.Infix

namespace huasi.runs

/-! ## One event after the other -/

section Events

variable {S E : Type} (step : S → E → Option S)

/-- The state after the events of a list, or `none` from the first failure on. -/
def run (s : S) : List E → Option S
  | [] => some s
  | e :: es => (step s e).bind fun t => run t es

/-- `P` holds in every state that the run reaches, the first and the last included. -/
def Always (P : S → Prop) (s : S) : List E → Prop
  | [] => P s
  | e :: es => P s ∧ ∀ t, step s e = some t → Always P t es

/-- Each event of the run meets `C` in the state that it finds. -/
def Meets (C : S → E → Prop) (s : S) : List E → Prop
  | [] => True
  | e :: es => C s e ∧ ∀ t, step s e = some t → Meets C t es

variable {step} {P Q : S → Prop} {C D : S → E → Prop}

theorem run_append (s : S) (es fs : List E) :
    run step s (es ++ fs) = (run step s es).bind fun t => run step t fs := by
  induction es generalizing s with
  | nil => rfl
  | cons e es ih =>
    simp only [List.cons_append, run]
    cases step s e with
    | none => rfl
    | some t => exact ih t

theorem run_snoc {s t u : S} {es : List E} {e : E} (h : run step s es = some t)
    (he : step t e = some u) : run step s (es ++ [e]) = some u := by
  rw [run_append, h]
  simp [run, he]

/-- What each step keeps, a row of them keeps. -/
theorem foldlM_keeps (hstep : ∀ s e t, P s → step s e = some t → P t) {s t : S} {es : List E}
    (h : es.foldlM step s = some t) (hs : P s) : P t := by
  induction es generalizing s with
  | nil =>
    cases h
    exact hs
  | cons e es ih =>
    rw [List.foldlM_cons] at h
    obtain ⟨u, hu, h⟩ := Option.bind_eq_some_iff.mp h
    exact ih h (hstep s e u hs hu)

/-- A row of steps that never fail does not fail. -/
theorem foldlM_total (hstep : ∀ s e, ∃ t, step s e = some t) (s : S) (es : List E) :
    ∃ t, es.foldlM step s = some t := by
  induction es generalizing s with
  | nil => exact ⟨s, rfl⟩
  | cons e es ih =>
    obtain ⟨u, hu⟩ := hstep s e
    rw [List.foldlM_cons, hu]
    exact ih u

theorem always_head {s : S} {es : List E} (h : Always step P s es) : P s := by
  cases es with
  | nil => exact h
  | cons e es => exact h.1

/-- What each step keeps, every run keeps. -/
theorem always_of_step (hstep : ∀ s e t, P s → step s e = some t → P t) (s : S) (es : List E)
    (h : P s) : Always step P s es := by
  induction es generalizing s with
  | nil => exact h
  | cons e es ih => exact ⟨h, fun t ht => ih t (hstep s e t h ht)⟩

theorem Always.mono (hPQ : ∀ s, P s → Q s) {s : S} {es : List E} (h : Always step P s es) :
    Always step Q s es := by
  induction es generalizing s with
  | nil => exact hPQ s h
  | cons e es ih => exact ⟨hPQ s h.1, fun t ht => ih (h.2 t ht)⟩

theorem Always.and {s : S} {es : List E} (hP : Always step P s es) (hQ : Always step Q s es) :
    Always step (fun s => P s ∧ Q s) s es := by
  induction es generalizing s with
  | nil => exact ⟨hP, hQ⟩
  | cons e es ih => exact ⟨⟨hP.1, hQ.1⟩, fun t ht => ih (hP.2 t ht) (hQ.2 t ht)⟩

theorem Always.meets {s : S} {es : List E} (h : Always step P s es) :
    Meets step (fun s _ => P s) s es := by
  induction es generalizing s with
  | nil => trivial
  | cons e es ih => exact ⟨h.1, fun t ht => ih (h.2 t ht)⟩

theorem Meets.mono (hCD : ∀ s e, C s e → D s e) {s : S} {es : List E} (h : Meets step C s es) :
    Meets step D s es := by
  induction es generalizing s with
  | nil => trivial
  | cons e es ih => exact ⟨hCD s e h.1, fun t ht => ih (h.2 t ht)⟩

/-- A condition on the events alone. -/
theorem meets_of_events {D : E → Prop} {es : List E} (h : ∀ e ∈ es, D e) (s : S) :
    Meets step (fun _ e => D e) s es := by
  induction es generalizing s with
  | nil => trivial
  | cons e es ih =>
    exact ⟨h e List.mem_cons_self, fun t _ => ih (fun f hf => h f (List.mem_cons_of_mem e hf)) t⟩

/-- What holds always holds where a run ends. -/
theorem Always.of_run {s t : S} {es : List E} (h : Always step P s es)
    (hr : run step s es = some t) : P t := by
  induction es generalizing s with
  | nil =>
    cases hr
    exact h
  | cons e es ih =>
    obtain ⟨u, hu, hr⟩ := Option.bind_eq_some_iff.mp hr
    exact ih (h.2 u hu) hr

/-- Where each step that meets `C` keeps `P`, a run of such steps keeps `P`. -/
theorem always_of_meets (hstep : ∀ s e t, P s → C s e → step s e = some t → P t)
    {s : S} {es : List E} (h : P s) (hc : Meets step C s es) : Always step P s es := by
  induction es generalizing s with
  | nil => exact h
  | cons e es ih => exact ⟨h, fun t ht => ih (hstep s e t h hc.1 ht) (hc.2 t ht)⟩

/-- Where `C` is exactly what keeps the law `Q`, by an invariant `P` that the steps with `C` keep,
a run keeps the law exactly if each step meets `C`. -/
theorem always_iff_meets (hPQ : ∀ s, P s → Q s) {s : S} {es : List E}
    (hstep : ∀ s, ∀ e ∈ es, P s → (C s e ↔ ∀ t, step s e = some t → Q t))
    (hkeep : ∀ s, ∀ e ∈ es, ∀ t, P s → C s e → step s e = some t → P t) (h : P s) :
    Always step Q s es ↔ Meets step C s es := by
  induction es generalizing s with
  | nil => exact ⟨fun _ => trivial, fun _ => hPQ s h⟩
  | cons e es ih =>
    have hhead := hstep s e List.mem_cons_self h
    have htail := fun t ht hc => ih (fun s e he => hstep s e (List.mem_cons_of_mem _ he))
      (fun s e he => hkeep s e (List.mem_cons_of_mem _ he))
      (hkeep s e List.mem_cons_self t h hc ht)
    constructor
    · rintro ⟨-, ha⟩
      have hc : C s e := hhead.mpr fun t ht => always_head (ha t ht)
      exact ⟨hc, fun t ht => (htail t ht hc).mp (ha t ht)⟩
    · rintro ⟨hc, hm⟩
      exact ⟨hPQ s h, fun t ht => (htail t ht hc).mpr (hm t ht)⟩

/-- In a run to the end, where each step keeps the law exactly if it meets `C`. -/
theorem always_iff_meets_of_run (hstep : ∀ s e t, P s → step s e = some t → (P t ↔ C s e))
    {s t : S} {es : List E} (hr : run step s es = some t) (h : P s) :
    Always step P s es ↔ Meets step C s es := by
  induction es generalizing s with
  | nil => exact iff_of_true h trivial
  | cons e es ih =>
    obtain ⟨u, hu, hrest⟩ := Option.bind_eq_some_iff.mp hr
    have hhead := hstep s e u h hu
    constructor
    · intro ha
      have hpu : P u := always_head (ha.2 u hu)
      refine ⟨hhead.mp hpu, fun v hv => ?_⟩
      obtain rfl : u = v := Option.some.inj (hu.symm.trans hv)
      exact (ih hrest hpu).mp (ha.2 u hu)
    · intro hm
      have hpu : P u := hhead.mpr hm.1
      refine ⟨h, fun v hv => ?_⟩
      obtain rfl : u = v := Option.some.inj (hu.symm.trans hv)
      exact (ih hrest hpu).mpr (hm.2 u hu)

theorem meets_congr (hI : ∀ s e t, P s → step s e = some t → P t)
    (hCD : ∀ s e, P s → (C s e ↔ D s e)) {s : S} {es : List E} (h : P s) :
    Meets step C s es ↔ Meets step D s es := by
  induction es generalizing s with
  | nil => exact Iff.rfl
  | cons e es ih =>
    exact and_congr (hCD s e h) (forall₂_congr fun t ht => ih (hI s e t h ht))

/-- Where the view is moved by the events of one party only, each of them acting on the view alone,
a run leaves the view that these events make. -/
theorem view_of_run {V : Type} {view : S → V} {act : V → E → V} {mine : E → Bool}
    (hmine : ∀ s e t, mine e = true → step s e = some t → view t = act (view s) e)
    (hother : ∀ s e t, mine e = false → step s e = some t → view t = view s) {s t : S}
    {es : List E} (h : run step s es = some t) :
    view t = (es.filter mine).foldl act (view s) := by
  induction es generalizing s with
  | nil =>
    cases h
    rfl
  | cons e es ih =>
    obtain ⟨u, hu, hrest⟩ := Option.bind_eq_some_iff.mp h
    rw [ih hrest]
    cases he : mine e with
    | true => rw [List.filter_cons_of_pos he, List.foldl_cons, hmine s e u he hu]
    | false => rw [List.filter_cons_of_neg (by simp [he]), hother s e u he hu]

/-- What is related to a result is one. -/
theorem exists_of_rel {T : Type} {R : S → T → Prop} {x : Option S} {t : T}
    (h : Option.Rel R x (some t)) : ∃ s, x = some s ∧ R s t := by
  cases h with
  | some h => exact ⟨_, rfl, h⟩

/-- Where two programs that are related take each event to states that are related, they stay
related. -/
theorem run_related {T : Type} {step' : T → E → Option T} {R : S → T → Prop}
    (hstep : ∀ s t e, R s t → Option.Rel R (step s e) (step' t e)) {s : S} {t : T} (h : R s t)
    (es : List E) : Option.Rel R (run step s es) (run step' t es) := by
  induction es generalizing s t with
  | nil => exact .some h
  | cons e es ih =>
    unfold run
    have hrel := hstep s t e h
    generalize step s e = x at hrel ⊢
    generalize step' t e = y at hrel ⊢
    cases hrel with
    | none => exact .none
    | some hnext => exact ih hnext

/-- A program that can follow each step of another one can follow a run of it. -/
theorem run_follows {T F : Type} {step' : T → F → Option T} {R : S → T → Prop} (f : E → F)
    (hstep : ∀ s t e u, R s t → step' t (f e) = some u → ∃ v, step s e = some v ∧ R v u) {s : S}
    {t u : T} (h : R s t) {es : List E} (hrun : run step' t (es.map f) = some u) :
    ∃ v, run step s es = some v ∧ R v u := by
  induction es generalizing s t with
  | nil =>
    cases hrun
    exact ⟨s, rfl, h⟩
  | cons e es ih =>
    obtain ⟨w, hw, hrest⟩ := Option.bind_eq_some_iff.mp hrun
    obtain ⟨v, hv, hnext⟩ := hstep s t e w h hw
    obtain ⟨x, hx, hend⟩ := ih hnext hrest
    exact ⟨x, by simp [run, hv, hx], hend⟩

/-- What a run reaches can be computed, so a law of one run can be decided. -/
instance Always.decidable [DecidablePred P] (s : S) (es : List E) :
    Decidable (Always step P s es) :=
  match es with
  | [] => inferInstanceAs (Decidable (P s))
  | e :: es =>
    match h : step s e with
    | none => decidable_of_iff (P s) ⟨fun hs => ⟨hs, by simp [h]⟩, And.left⟩
    | some t =>
      have := Always.decidable t es
      decidable_of_iff (P s ∧ Always step P t es)
        ⟨fun hs => ⟨hs.1, by simpa [h] using hs.2⟩, fun hs => ⟨hs.1, hs.2 t h⟩⟩

instance Meets.decidable [∀ s e, Decidable (C s e)] (s : S) (es : List E) :
    Decidable (Meets step C s es) :=
  match es with
  | [] => inferInstanceAs (Decidable True)
  | e :: es =>
    match h : step s e with
    | none => decidable_of_iff (C s e) ⟨fun hs => ⟨hs, by simp [h]⟩, And.left⟩
    | some t =>
      have := Meets.decidable t es
      decidable_of_iff (C s e ∧ Meets step C t es)
        ⟨fun hs => ⟨hs.1, by simpa [h] using hs.2⟩, fun hs => ⟨hs.1, hs.2 t h⟩⟩

end Events

/-! ## The loop of one handler -/

/-- How one turn of a loop ends: with `break`, or with a new state to go on from. -/
inductive Turn (S : Type) where
  | leave
  | again (s : S)

section Loop

variable {S : Type} (guard : S → Bool) (body : S → Option (Turn S))

/-- `while (guard) body`, for the number of turns given at most. -/
def loop : Nat → S → Option S
  | 0, s => some s
  | n + 1, s =>
    if guard s then
      match body s with
      | none => none
      | some .leave => some s
      | some (.again t) => loop n t
    else some s

/-- One turn that goes on, from `s` to `t`. -/
def Goes (s t : S) : Prop := guard s = true ∧ body s = some (.again t)

/-- The loop comes to its head in state `t` when it starts in `s`. -/
def Visits : S → S → Prop := Relation.ReflTransGen (Goes guard body)

/-- The loop ends in `s`: its guard is false, or the turn breaks. -/
def Ends (s : S) : Prop := guard s = false ∨ body s = some .leave

variable {P : S → Prop}

variable {guard body} in
theorem loop_ends {n : Nat} {s : S} (h : Ends guard body s) : loop guard body n s = some s := by
  cases n with
  | zero => rfl
  | succ n =>
    unfold loop
    rcases h with hg | hb
    · rw [hg]
      rfl
    · rw [hb]
      split <;> rfl

variable {guard body} in
theorem loop_goes {n : Nat} {s t : S} (h : Goes guard body s t) :
    loop guard body (n + 1) s = loop guard body n t := by
  rw [loop, h.1, h.2]
  rfl

/-- The states at the head of the loop, for the number of turns given at most. -/
def heads : Nat → S → List S
  | 0, s => [s]
  | n + 1, s =>
    if guard s then
      match body s with
      | some (.again t) => s :: heads n t
      | _ => [s]
    else [s]

/-- With a measure that each turn makes smaller, the loop never stops for want of turns: it
fails in a turn, or it comes to a state in which it ends. -/
theorem loop_spec (μ : S → Nat) (hμ : ∀ s, guard s = true → 0 < μ s)
    (hdec : ∀ s t, Goes guard body s t → μ t < μ s) {n : Nat} {s : S} (hn : μ s ≤ n) :
    (∃ t, Visits guard body s t ∧ guard t = true ∧ body t = none ∧ loop guard body n s = none) ∨
      ∃ t, Visits guard body s t ∧ Ends guard body t ∧ loop guard body n s = some t := by
  induction n generalizing s with
  | zero =>
    have hg : guard s = false := by
      by_contra hne
      have := hμ s (by simpa using hne)
      omega
    exact Or.inr ⟨s, .refl, Or.inl hg, rfl⟩
  | succ n ih =>
    cases hg : guard s with
    | false => exact Or.inr ⟨s, .refl, Or.inl hg, loop_ends (Or.inl hg)⟩
    | true =>
      cases hb : body s with
      | none => exact Or.inl ⟨s, .refl, hg, hb, by simp [loop, hg, hb]⟩
      | some r =>
        cases r with
        | leave => exact Or.inr ⟨s, .refl, Or.inr hb, loop_ends (Or.inr hb)⟩
        | again t =>
          have hgo : Goes guard body s t := ⟨hg, hb⟩
          rw [loop_goes hgo]
          rcases ih (s := t) (by have := hdec s t hgo; omega) with
            ⟨u, hv, h1, h2, h3⟩ | ⟨u, hv, h1, h2⟩
          · exact Or.inl ⟨u, .head hgo hv, h1, h2, h3⟩
          · exact Or.inr ⟨u, .head hgo hv, h1, h2⟩

/-- With such a measure, the heads are the states that the loop visits. -/
theorem mem_heads (μ : S → Nat) (hdec : ∀ s t, Goes guard body s t → μ t < μ s) {n : Nat}
    {s t : S} (hn : μ s ≤ n) : t ∈ heads guard body n s ↔ Visits guard body s t := by
  induction n generalizing s with
  | zero =>
    have hstop : ∀ u, ¬ Goes guard body s u := fun u hgo => by
      have := hdec s u hgo
      omega
    rw [heads, List.mem_singleton]
    constructor
    · rintro rfl
      exact .refl
    · intro hv
      rcases hv.cases_head with rfl | ⟨u, hgo, -⟩
      · rfl
      · exact absurd hgo (hstop u)
  | succ n ih =>
    by_cases hnext : ∃ u, Goes guard body s u
    · obtain ⟨u, hg, hb⟩ := hnext
      have hu : μ u ≤ n := by
        have := hdec s u ⟨hg, hb⟩
        omega
      simp only [heads, hg, if_true, hb, List.mem_cons, ih hu]
      constructor
      · rintro (rfl | hv)
        · exact .refl
        · exact .head ⟨hg, hb⟩ hv
      · intro hv
        rcases hv.cases_head with rfl | ⟨v, hgo, hv⟩
        · exact Or.inl rfl
        · rw [hgo.2, Option.some.injEq, Turn.again.injEq] at hb
          exact Or.inr (hb ▸ hv)
    · have hone : heads guard body (n + 1) s = [s] := by
        unfold heads
        split
        · rename_i hg
          split
          · rename_i u hb
            exact absurd ⟨u, hg, hb⟩ hnext
          · rfl
        · rfl
      rw [hone, List.mem_singleton]
      constructor
      · rintro rfl
        exact .refl
      · intro hv
        rcases hv.cases_head with rfl | ⟨u, hgo, -⟩
        · rfl
        · exact absurd ⟨u, hgo⟩ hnext

/-- A loop has one way to go, so it comes to its end from every state that it visits. -/
theorem Visits.to_end {guard : S → Bool} {body : S → Option (Turn S)} {s t u : S}
    (ht : Visits guard body s t) (hend : Ends guard body t) (hu : Visits guard body s u) :
    Visits guard body u t := by
  have hunique : Relator.RightUnique (Goes guard body) := by
    rintro a b c ⟨-, hb⟩ ⟨-, hc⟩
    rw [hb, Option.some.injEq, Turn.again.injEq] at hc
    exact hc
  rcases ht.total_of_right_unique hunique hu with hback | hgo
  · rcases hback.cases_head with rfl | ⟨v, ⟨hg, hb⟩, -⟩
    · exact .refl
    · rcases hend with hg' | hb'
      · rw [hg] at hg'
        cases hg'
      · rw [hb] at hb'
        cases hb'
  · exact hgo

/-- Two turns end in the same way. -/
inductive Turn.Rel {T : Type} (R : S → T → Prop) : Turn S → Turn T → Prop where
  | leave : Turn.Rel R .leave .leave
  | again {s : S} {t : T} (h : R s t) : Turn.Rel R (.again s) (.again t)

/-- Two loops whose turns end in the same way do so themselves. -/
theorem loop_rel {T : Type} {guard : S → Bool} {body : S → Option (Turn S)} {guard' : T → Bool}
    {body' : T → Option (Turn T)} {R : S → T → Prop}
    (hguard : ∀ s t, R s t → guard s = guard' t)
    (hbody : ∀ s t, R s t → guard s = true → Option.Rel (Turn.Rel R) (body s) (body' t))
    {s : S} {t : T} (h : R s t) (n : Nat) :
    Option.Rel R (loop guard body n s) (loop guard' body' n t) := by
  induction n generalizing s t with
  | zero => exact .some h
  | succ n ih =>
    unfold loop
    rw [← hguard s t h]
    cases hg : guard s with
    | false => exact .some h
    | true =>
      have hturn := hbody s t h hg
      cases hb : body s <;> cases hb' : body' t <;> rw [hb, hb'] at hturn <;> cases hturn
      · exact .none
      · rename_i hrel
        cases hrel with
        | leave => exact .some h
        | again hnext => exact ih hnext

/-- What each turn keeps, the loop keeps up to each state it visits. -/
theorem Visits.keeps {guard : S → Bool} {body : S → Option (Turn S)} {s t : S}
    (h : Visits guard body s t) (hs : P s)
    (hturn : ∀ u v, Visits guard body s u → Goes guard body u v → P u → P v) : P t := by
  induction h with
  | refl => exact hs
  | tail hv hgo ih => exact hturn _ _ hv hgo ih

end Loop

end huasi.runs
