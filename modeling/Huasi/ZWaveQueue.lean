-- The laws of the request queue: first in, first out, each request leaves
-- once and is answered once, and where no request is given up in front of
-- another one, the front was always sent.
import Huasi.FifoLog
import Huasi.ZWaveMoves

open huasi.runs huasi.fifo_log

namespace huasi.zwave

variable {σ : Type} {env : Env σ}

/-! ## The log of the queue -/

/-- What an effect says about the queue. -/
def Effect.op : Effect → Option (Op Nat)
  | .enqueue t _ => some (.enter t)
  | .transmit t _ _ => some (.serve t)
  | .complete t => some (.leave t)
  | .drop t => some (.leave t)
  | _ => none

def ops (l : List Effect) : List (Op Nat) := l.filterMap Effect.op

/-- The requests that were enqueued, in order. -/
def enqueued (l : List Effect) : List Nat :=
  l.filterMap fun | .enqueue t _ => some t | _ => none

/-- The requests that left the queue, in order: completed or dropped. -/
def gone (l : List Effect) : List Nat :=
  l.filterMap fun | .complete t => some t | .drop t => some t | _ => none

/-- The requests that were transmitted, once for each transmission. -/
def transmitted (l : List Effect) : List Nat :=
  l.filterMap fun | .transmit t _ _ => some t | _ => none

/-- The requests in the queue after the effects of a log. -/
def waiting (l : List Effect) : List Nat := (enqueued l).drop (gone l).length

theorem entered_ops (l : List Effect) : entered (ops l) = enqueued l := by
  unfold entered ops enqueued
  rw [List.filterMap_filterMap]
  congr 1
  funext x
  cases x <;> rfl

theorem left_ops (l : List Effect) : left (ops l) = gone l := by
  unfold left ops gone
  rw [List.filterMap_filterMap]
  congr 1
  funext x
  cases x <;> rfl

theorem ops_append (l m : List Effect) : ops (l ++ m) = ops l ++ ops m := List.filterMap_append

theorem enqueued_append (l m : List Effect) : enqueued (l ++ m) = enqueued l ++ enqueued m :=
  List.filterMap_append

theorem mem_enqueued {l : List Effect} {t : Nat} {r : Request} (h : .enqueue t r ∈ l) :
    t ∈ enqueued l := List.mem_filterMap.mpr ⟨_, h, rfl⟩

/-- The log of the protocol can be played on a queue that ends as the queue of requests. The
tickets count the requests, and a ticket never changes between `Request` and `SendRequest`. -/
structure Fifo (s : Tx σ) : Prop where
  played : run play [] (ops s.log) = some (s.requests.map Entry.ticket)
  tickets : enqueued s.log = List.range s.tickets
  kinds : ∀ e ∈ s.requests, ∀ r, .enqueue e.ticket r ∈ s.log →
    r.funcId.isSome = e.request.funcId.isSome

theorem fifo_init (a : σ) (txBuffer : Buffer) : Fifo (.init a txBuffer) :=
  ⟨rfl, rfl, fun _ he => by cases he⟩

theorem Fifo.enqueue_lt {s : Tx σ} (h : Fifo s) {t : Nat} {r : Request}
    (ht : .enqueue t r ∈ s.log) : t < s.tickets := by
  have hm := mem_enqueued ht
  rw [h.tickets] at hm
  exact List.mem_range.mp hm

theorem Fifo.account {s : Tx σ} (h : Fifo s) :
    enqueued s.log = gone s.log ++ s.requests.map Entry.ticket := by
  have hacc := play_account h.played
  rwa [List.nil_append, entered_ops, left_ops] at hacc

theorem Fifo.entry_lt {s : Tx σ} (h : Fifo s) {e : Entry} (he : e ∈ s.requests) :
    e.ticket < s.tickets := by
  have hm : e.ticket ∈ enqueued s.log := by
    rw [h.account]
    apply List.mem_append_right
    exact List.mem_map_of_mem he
  rw [h.tickets] at hm
  exact List.mem_range.mp hm

/-- What the laws of the queue are about. Where a change leaves it alone, `rfl` says so. -/
def Tx.books (s : Tx σ) : List Entry × Nat × List Effect := (s.requests, s.tickets, s.log)

theorem books_eq {s s' : Tx σ} (h : s'.books = s.books) :
    s'.requests = s.requests ∧ s'.tickets = s.tickets ∧ s'.log = s.log := by
  simpa only [Tx.books, Prod.mk.injEq] using h

theorem Fifo.of_eq {s s' : Tx σ} (h : Fifo s) (hsame : s'.books = s.books) : Fifo s' := by
  obtain ⟨hr, ht, hl⟩ := books_eq hsame
  refine ⟨?_, ?_, ?_⟩
  · rw [hl, hr]
    exact h.played
  · rw [hl, ht]
    exact h.tickets
  · rw [hl, hr]
    exact h.kinds

/-- An effect that says nothing about the queue keeps the invariant. -/
theorem Fifo.emit {s : Tx σ} (h : Fifo s) {x : Effect} (hx : x.op = none) : Fifo (s.emit x) := by
  have hops : ops (s.emit x).log = ops s.log := by
    rw [emit_log, ops_append]
    simp [ops, hx]
  have hno : ∀ t r, x ≠ .enqueue t r := by
    rintro t r rfl
    cases hx
  have henq : enqueued (s.emit x).log = enqueued s.log := by
    rw [← entered_ops, hops, entered_ops]
  refine ⟨?_, ?_, ?_⟩
  · rw [hops, emit_requests]
    exact h.played
  · rw [henq, emit_tickets]
    exact h.tickets
  · intro e he r hmem
    rw [emit_requests] at he
    rw [emit_log, List.mem_append, List.mem_singleton] at hmem
    rcases hmem with hmem | hmem
    · exact h.kinds e he r hmem
    · exact absurd hmem.symm (hno _ _)

theorem Fifo.push {s : Tx σ} (h : Fifo s) (r : Request) : Fifo (s.push r) := by
  refine ⟨?_, ?_, ?_⟩
  · simp only [push_log, push_requests, ops_append, run_append, h.played, Option.bind_some]
    simp [ops, Effect.op, run, play]
  · simp only [push_log, push_tickets, enqueued_append, h.tickets, List.range_succ]
    rfl
  · intro e he r' hmem
    simp only [push_log, push_requests, List.mem_append, List.mem_singleton] at he hmem
    rcases he with he | rfl
    · rcases hmem with hmem | hmem
      · exact h.kinds e he r' hmem
      · have := h.entry_lt he
        injection hmem
        omega
    · rcases hmem with hmem | hmem
      · exact absurd (h.enqueue_lt hmem) (Nat.lt_irrefl _)
      · injection hmem with _ hrr
        rw [hrr]

theorem Fifo.transmit {s : Tx σ} (h : Fifo s) {front : Entry} {rest : List Entry}
    (hr : s.requests = front :: rest) : Fifo (s.transmit env front rest) := by
  have hmap : (s.transmit env front rest).requests.map Entry.ticket =
      s.requests.map Entry.ticket := by
    rw [hr]
    rfl
  refine ⟨?_, ?_, ?_⟩
  · rw [hmap]
    simp only [transmit_log, ops_append, run_append, h.played, Option.bind_some]
    simp [ops, Effect.op, run, play, hr]
  · simp only [transmit_log, transmit_tickets, enqueued_append, h.tickets]
    simp [enqueued]
  · intro e he r hmem
    simp only [transmit_log, List.mem_append, List.mem_singleton, reduceCtorEq, or_false] at hmem
    simp only [transmit_requests, List.mem_cons] at he
    rcases he with rfl | he
    · rw [h.kinds front (by rw [hr]; exact List.mem_cons_self) r hmem]
      simp [Request.assign]
    · exact h.kinds e (by rw [hr]; exact List.mem_cons_of_mem _ he) r hmem

theorem Fifo.pop {s : Tx σ} (h : Fifo s) {front : Entry} {rest : List Entry} {x : Effect}
    (hr : s.requests = front :: rest) (hx : x.op = some (.leave front.ticket)) :
    Fifo (s.pop rest x) := by
  have hno : ∀ t r, x ≠ .enqueue t r := by
    rintro t r rfl
    cases hx
  refine ⟨?_, ?_, ?_⟩
  · simp only [pop_log, pop_requests, ops_append, run_append, h.played, Option.bind_some]
    simp [ops, hx, run, play, hr]
  · have hnil : enqueued [x] = [] := by
      cases x <;> simp_all [enqueued, Effect.op]
    simp only [pop_log, pop_tickets, enqueued_append, hnil, List.append_nil]
    exact h.tickets
  · intro e he r hmem
    simp only [pop_log, pop_requests, List.mem_append, List.mem_singleton] at he hmem
    rcases hmem with hmem | hmem
    · exact h.kinds e (by rw [hr]; exact List.mem_cons_of_mem _ he) r hmem
    · exact absurd hmem.symm (hno _ _)

theorem fifo_move (s s' : Tx σ) (h : Fifo s) (hm : Move env s s') : Fifo s' := by
  cases hm with
  | push r => exact h.push r
  | transmit hr => exact h.transmit hr
  | complete hr => exact h.pop hr rfl
  | drop hr => exact h.pop hr rfl
  | sendAck => exact (h.emit (x := .ack) rfl).of_eq rfl
  | sendNack => exact (h.emit (x := .nack) rfl).of_eq rfl
  | note x hx =>
    apply h.emit
    cases x <;> first | rfl | exact hx.elim
  | app a => exact h.of_eq rfl
  | retry n => exact h.of_eq rfl
  | timer ht => exact h.of_eq rfl

/-! ## Each request is answered once, each drop is reported once -/

/-- The callback that answers request `t`: `onRequest` for a `SendRequest`, else `onResponse`. -/
def Effect.answers (t : Nat) (send : Bool) : Effect → Bool
  | .onResponse u _ _ => !send && u == t
  | .onSendRequest u _ _ => send && u == t
  | _ => false

def Effect.completes (t : Nat) : Effect → Bool
  | .complete u => u == t
  | _ => false

def Effect.dropsOne (t : Nat) : Effect → Bool
  | .drop u => u == t
  | _ => false

def Effect.drops : Effect → Bool
  | .drop _ => true
  | _ => false

/-- `onError` with an error of the ZWave category. -/
def Effect.givesUp : Effect → Bool
  | .onError (.zWaveCategory _) => true
  | _ => false

/-- Effects that the counts below do not see. -/
def Effect.Silent : Effect → Prop
  | .transmit .. | .ack | .nack | .ackReceived | .onRequest .. | .onError (.system _) => True
  | _ => False

/-- Each request was answered as often as it was completed, but for the one whose callback is
owed, and each drop is followed by its `onError`. -/
structure Tidy (owed : Option Nat) (s : Tx σ) : Prop where
  fifo : Fifo s
  answered : ∀ t r, .enqueue t r ∈ s.log →
    s.log.countP (Effect.answers t r.funcId.isSome) + (if owed = some t then 1 else 0) =
      s.log.countP (Effect.completes t)
  known : ∀ t send, ∀ x ∈ s.log, Effect.answers t send x = true → t < s.tickets
  reported : ∀ i t, s.log[i]? = some (.drop t) →
    ∃ c, s.log[i + 1]? = some (.onError (.zWaveCategory c))
  errors : s.log.countP Effect.givesUp = s.log.countP Effect.drops

variable {owed : Option Nat}

theorem tidy_init (a : σ) (txBuffer : Buffer) : Tidy none (.init a txBuffer) := by
  refine ⟨fifo_init a txBuffer, ?_, ?_, ?_, rfl⟩
  · intro t r h
    cases h
  · intro t send x h
    cases h
  · intro i t h
    cases h

theorem Tidy.of_eq {s s' : Tx σ} (h : Tidy owed s) (hsame : s'.books = s.books) :
    Tidy owed s' := by
  have hfifo := h.fifo.of_eq hsame
  obtain ⟨-, ht, hl⟩ := books_eq hsame
  refine ⟨hfifo, ?_, ?_, ?_, ?_⟩
  · rw [hl]
    exact h.answered
  · rw [hl, ht]
    exact h.known
  · rw [hl]
    exact h.reported
  · rw [hl]
    exact h.errors

theorem silent_counts {x : Effect} (hx : x.Silent) (t : Nat) (send : Bool) :
    x.answers t send = false ∧ x.completes t = false ∧ x.drops = false ∧ x.givesUp = false ∧
      ∀ r, x ≠ .enqueue t r := by
  cases x with
  | onError e => cases e <;> simp_all [Effect.Silent, Effect.answers, Effect.completes,
      Effect.drops, Effect.givesUp]
  | _ => simp_all [Effect.Silent, Effect.answers, Effect.completes, Effect.drops, Effect.givesUp]

/-- A drop that is not the last effect keeps its successor when the log grows. -/
theorem reported_append {l m : List Effect}
    (h : ∀ i t, l[i]? = some (.drop t) → ∃ c, l[i + 1]? = some (.onError (.zWaveCategory c)))
    (hm : ∀ i t, m[i]? = some (.drop t) → ∃ c, m[i + 1]? = some (.onError (.zWaveCategory c))) :
    ∀ i t, (l ++ m)[i]? = some (.drop t) →
      ∃ c, (l ++ m)[i + 1]? = some (.onError (.zWaveCategory c)) := by
  intro i t hi
  by_cases hlt : i < l.length
  · rw [List.getElem?_append_left hlt] at hi
    obtain ⟨c, hc⟩ := h i t hi
    have hlt' : i + 1 < l.length := (List.getElem?_eq_some_iff.mp hc).1
    exact ⟨c, by rw [List.getElem?_append_left hlt']; exact hc⟩
  · rw [List.getElem?_append_right (by omega)] at hi
    obtain ⟨c, hc⟩ := hm _ t hi
    refine ⟨c, ?_⟩
    rw [List.getElem?_append_right (by omega), show i + 1 - l.length = i - l.length + 1 by omega]
    exact hc

theorem reported_singleton {x : Effect} (hx : x.drops = false) :
    ∀ i t, [x][i]? = some (.drop t) →
      ∃ c, [x][i + 1]? = some (.onError (.zWaveCategory c)) := by
  intro i t hi
  rw [List.getElem?_singleton] at hi
  split at hi
  · cases hi
    cases hx
  · cases hi

/-- A silent effect at the end of the log. -/
theorem Tidy.silent {s s' : Tx σ} (h : Tidy owed s) {x : Effect} (hx : x.Silent) (hf : Fifo s')
    (ht : s'.tickets = s.tickets) (hl : s'.log = s.log ++ [x]) : Tidy owed s' := by
  refine ⟨hf, ?_, ?_, ?_, ?_⟩
  · intro t r hmem
    obtain ⟨h1, h2, -, -, h5⟩ := silent_counts hx t r.funcId.isSome
    rw [hl, List.mem_append, List.mem_singleton] at hmem
    rcases hmem with hmem | hmem
    · simp only [hl, List.countP_append, List.countP_singleton, h1, h2, Bool.false_eq_true,
        if_false, Nat.add_zero]
      exact h.answered t r hmem
    · exact absurd hmem.symm (h5 r)
  · intro t send y hy ha
    rw [hl, List.mem_append, List.mem_singleton] at hy
    rw [ht]
    rcases hy with hy | rfl
    · exact h.known t send y hy ha
    · rw [(silent_counts hx t send).1] at ha
      cases ha
  · rw [hl]
    apply reported_append h.reported
    apply reported_singleton
    exact (silent_counts hx 0 true).2.2.1
  · obtain ⟨-, -, h3, h4, -⟩ := silent_counts hx 0 true
    simp only [hl, List.countP_append, List.countP_singleton, h3, h4, Bool.false_eq_true,
      if_false, Nat.add_zero]
    exact h.errors

theorem Tidy.note {s : Tx σ} (h : Tidy owed s) {x : Effect} (hx : x.Silent) (hop : x.op = none) :
    Tidy owed (s.emit x) := h.silent hx (h.fifo.emit hop) rfl rfl

theorem Tidy.transmit {s : Tx σ} (h : Tidy owed s) {front : Entry} {rest : List Entry}
    (hr : s.requests = front :: rest) : Tidy owed (s.transmit env front rest) :=
  h.silent (x := .transmit ..) trivial (h.fifo.transmit hr) rfl rfl

/-- No effect completes or answers a ticket that is not taken yet. -/
theorem Tidy.fresh {s : Tx σ} (h : Tidy owed s) (send : Bool) :
    s.log.countP (Effect.answers s.tickets send) = 0 ∧
      s.log.countP (Effect.completes s.tickets) = 0 := by
  constructor
  · rw [List.countP_eq_zero]
    intro x hx ha
    exact absurd (h.known _ _ x hx ha) (Nat.lt_irrefl _)
  · rw [List.countP_eq_zero]
    intro x hx hc
    have hg : s.tickets ∈ gone s.log := by
      cases x <;> simp only [Effect.completes, Bool.false_eq_true, beq_iff_eq] at hc
      subst hc
      exact List.mem_filterMap.mpr ⟨_, hx, rfl⟩
    have he : s.tickets ∈ enqueued s.log := by
      rw [h.fifo.account]
      exact List.mem_append_left _ hg
    rw [h.fifo.tickets, List.mem_range] at he
    omega

theorem Tidy.push {s : Tx σ} (h : Tidy none s) (r : Request) : Tidy none (s.push r) := by
  refine ⟨h.fifo.push r, ?_, ?_, ?_, ?_⟩
  · intro t r' hmem
    simp only [push_log, List.countP_append, List.countP_singleton, Effect.answers,
      Effect.completes, Bool.false_eq_true, if_false, Nat.add_zero]
    simp only [push_log, List.mem_append, List.mem_singleton] at hmem
    rcases hmem with hmem | hmem
    · exact h.answered t r' hmem
    · injection hmem with ht
      subst ht
      obtain ⟨h1, h2⟩ := h.fresh r'.funcId.isSome
      rw [h1, h2]
      rfl
  · intro t send x hx ha
    simp only [push_log, push_tickets, List.mem_append, List.mem_singleton] at hx ⊢
    rcases hx with hx | rfl
    · exact Nat.lt_succ_of_lt (h.known t send x hx ha)
    · cases ha
  · apply reported_append h.reported
    exact reported_singleton rfl
  · simp only [push_log, List.countP_append, List.countP_singleton, Effect.givesUp,
      Effect.drops, Bool.false_eq_true, if_false, Nat.add_zero]
    exact h.errors

/-- The front is completed: its callback is owed. -/
theorem Tidy.complete {s : Tx σ} (h : Tidy none s) {front : Entry} {rest : List Entry}
    (hr : s.requests = front :: rest) :
    Tidy (some front.ticket) (s.pop rest (.complete front.ticket)) := by
  refine ⟨h.fifo.pop hr rfl, ?_, ?_, ?_, ?_⟩
  · intro t r hmem
    simp only [pop_log, List.mem_append, List.mem_singleton, reduceCtorEq, or_false]
      at hmem
    have ha := h.answered t r hmem
    simp only [reduceCtorEq, if_false, Nat.add_zero] at ha
    simp only [pop_log, List.countP_append, List.countP_singleton, Effect.answers,
      Effect.completes, Bool.false_eq_true, if_false, Nat.add_zero, ha, beq_iff_eq,
      Option.some.injEq]
  · intro t send x hx ha
    simp only [pop_log, pop_tickets, List.mem_append, List.mem_singleton] at hx ⊢
    rcases hx with hx | rfl
    · exact h.known t send x hx ha
    · cases ha
  · apply reported_append h.reported
    exact reported_singleton rfl
  · simp only [pop_log, List.countP_append, List.countP_singleton, Effect.givesUp,
      Effect.drops, Bool.false_eq_true, if_false, Nat.add_zero]
    exact h.errors

/-- A callback that is not the answer of its request: the response to a `SendRequest`. Or the
answer of the request whose callback is owed. -/
theorem Tidy.callback {s : Tx σ} (h : Tidy owed s) {x : Effect} (t : Nat) (send : Bool)
    (hx : ∀ u b, x.answers u b = (b == send && u == t)) (ht : t < s.tickets)
    (hop : x.op = none) (hcount : x.completes t = false ∧ x.drops = false ∧ x.givesUp = false)
    (howed : ∀ r, .enqueue t r ∈ s.log → (r.funcId.isSome = send ↔ owed = some t))
    (hother : owed = none ∨ owed = some t) : Tidy none (s.emit x) := by
  have hno : ∀ t r, x ≠ .enqueue t r := by
    rintro t r rfl
    cases hop
  have hcomplete : ∀ u, x.completes u = false := by
    intro u
    cases x <;> first | rfl | cases hop
  refine ⟨h.fifo.emit hop, ?_, ?_, ?_, ?_⟩
  · intro u r hmem
    simp only [emit_log, List.mem_append, List.mem_singleton] at hmem
    rcases hmem with hmem | hmem
    · have ha := h.answered u r hmem
      simp only [emit_log, List.countP_append, List.countP_singleton, hcomplete, hx,
        Bool.false_eq_true, if_false, Nat.add_zero, reduceCtorEq, ← ha]
      congr 1
      by_cases hu : u = t
      · subst hu
        have hiff := howed r hmem
        by_cases hs : r.funcId.isSome = send
        · simp [hs, hiff.mp hs]
        · have hne : owed ≠ some u := fun ho => hs (hiff.mpr ho)
          simp [hs, hne]
      · have hne : owed ≠ some u := by
          rcases hother with rfl | rfl
          · simp
          · simpa using fun htu : t = u => hu htu.symm
        simp [hu, hne]
    · exact absurd hmem.symm (hno _ _)
  · intro u b y hy ha
    simp only [emit_log, emit_tickets, List.mem_append, List.mem_singleton] at hy ⊢
    rcases hy with hy | rfl
    · exact h.known u b y hy ha
    · rw [hx, Bool.and_eq_true, beq_iff_eq, beq_iff_eq] at ha
      rw [ha.2]
      exact ht
  · apply reported_append h.reported
    exact reported_singleton hcount.2.1
  · simp only [emit_log, List.countP_append, List.countP_singleton, hcount.2.1, hcount.2.2,
      Bool.false_eq_true, if_false, Nat.add_zero]
    exact h.errors

/-- The front is dropped and its `onError` called. -/
theorem Tidy.drop {s : Tx σ} (h : Tidy none s) {front : Entry} {rest : List Entry}
    (hr : s.requests = front :: rest) (c : Nat) :
    Tidy none ((s.pop rest (.drop front.ticket)).emit (.onError (.zWaveCategory c))) := by
  have hlog : ((s.pop rest (.drop front.ticket)).emit (.onError (.zWaveCategory c))).log =
      s.log ++ [.drop front.ticket, .onError (.zWaveCategory c)] := by
    simp
  refine ⟨(h.fifo.pop hr rfl).emit rfl, ?_, ?_, ?_, ?_⟩
  · intro t r hmem
    simp only [hlog, List.mem_append, List.mem_cons, reduceCtorEq, List.not_mem_nil, or_false]
      at hmem
    have ha := h.answered t r hmem
    simpa [hlog, List.countP_append, List.countP_cons, Effect.answers, Effect.completes] using ha
  · intro t send x hx ha
    simp only [hlog, List.mem_append, List.mem_cons, List.not_mem_nil, or_false] at hx
    rcases hx with hx | rfl | rfl
    · exact h.known t send x hx ha
    · cases ha
    · cases ha
  · rw [hlog]
    apply reported_append h.reported
    intro i t hi
    cases i with
    | zero => exact ⟨c, rfl⟩
    | succ i =>
      cases i with
      | zero => cases hi
      | succ i => cases hi
  · simp only [hlog, List.countP_append, List.countP_cons, Effect.givesUp, Effect.drops,
      List.countP_nil, if_true, Bool.false_eq_true, if_false, h.errors]

/-! ## What each function keeps -/

theorem answer_tidy {s s' : Tx σ} {out : σ × List Request} (h : Tidy none s)
    (ha : s.answer env out = some s') : Tidy none s' := by
  apply answer_keeps ha
  · exact h.of_eq rfl
  · intro t r ht hr
    apply (ht.push r).transmit
    simp [hr]
  · intro t r ht _
    exact ht.push r

theorem resendRequest_tidy {s s' : Tx σ} {error : Nat} (h : Tidy none s)
    (hre : s.resendRequest env error = some s') : Tidy none s' := by
  obtain ⟨front, rest, hr, ⟨-, rfl⟩ | ⟨-, hcall⟩⟩ := resendRequest_cases hre
  · have hretry : Tidy none ({ s with txRetryCount := s.txRetryCount + 1 } : Tx σ) :=
      h.of_eq rfl
    exact hretry.transmit hr
  · have hretry : Tidy none ({ s with txRetryCount := 0 } : Tx σ) := h.of_eq rfl
    exact answer_tidy (hretry.drop hr error) hcall

theorem receiveNack_tidy {s s' : Tx σ} (h : Tidy none s) (hn : s.receiveNack env = some s') :
    Tidy none s' := by
  rcases receiveNack_cases hn with ⟨-, rfl⟩ | ⟨-, hre⟩
  · exact h.of_eq rfl
  · have hcancel : Tidy none (s.cancel env s.txRetryCount) := h.of_eq rfl
    exact resendRequest_tidy hcancel hre

theorem endProcedure_tidy {s s' : Tx σ} {front : Entry} {rest : List Entry} (h : Tidy none s)
    (hr : s.requests = front :: rest) (he : s.endProcedure env front rest = some s') :
    Tidy (some front.ticket) s' ∧ s'.tickets = s.tickets ∧
      ∀ t r, .enqueue t r ∈ s'.log → .enqueue t r ∈ s.log := by
  rw [endProcedure_eq, Option.some.injEq] at he
  subst he
  have hcancel : Tidy none (s.cancel env 0) := h.of_eq rfl
  have hpop := hcancel.complete (show (s.cancel env 0).requests = front :: rest from hr)
  cases rest with
  | nil =>
    refine ⟨hpop, rfl, fun t r hmem => ?_⟩
    simpa using hmem
  | cons next rest' =>
    refine ⟨hpop.transmit rfl, rfl, fun t r hmem => ?_⟩
    simpa using hmem

theorem receiveFrame_tidy {s s' : Tx σ} {b : List UInt8} {length : Nat} (h : Tidy none s)
    (hb : b.length = 256) (hf : s.receiveFrame env b length = some s') : Tidy none s' := by
  have hack : Tidy none s.sendAck := (h.note (x := .ack) trivial rfl).of_eq rfl
  obtain ⟨_, _, _, -, -, -, hcase⟩ := receiveFrame_reads hb hf
  cases hcase with
  | @ended front rest s₁ _ hr hfun he hcall =>
    have hmem : front ∈ s.sendAck.requests := by
      rw [sendAck_requests, hr]
      exact List.mem_cons_self
    obtain ⟨hend, htickets, hlog⟩ := endProcedure_tidy hack hr he
    have hlt : front.ticket < s₁.tickets := htickets ▸ hack.fifo.entry_lt hmem
    have hkind : ∀ r, .enqueue front.ticket r ∈ s₁.log →
        r.funcId.isSome = front.request.funcId.isSome :=
      fun r hr => hack.fifo.kinds front hmem r (hlog _ _ hr)
    rcases hcall with ⟨-, hplain, hcall⟩ | ⟨-, hsend, hcall⟩
    · refine answer_tidy (hend.callback front.ticket false ?_ hlt rfl
        ⟨rfl, rfl, rfl⟩ ?_ (Or.inr rfl)) hcall
      · intro u c
        cases c <;> simp [Effect.answers, eq_comm]
      · intro r hr
        simp [hkind r hr, hplain]
    · refine answer_tidy (hend.callback front.ticket true ?_ hlt rfl
        ⟨rfl, rfl, rfl⟩ ?_ (Or.inr rfl)) hcall
      · intro u c
        cases c <;> simp [Effect.answers, eq_comm]
      · intro r hr
        simp [hkind r hr, hsend]
  | @response front rest _ hr hfun ht hs hcall =>
    have hmem : front ∈ s.sendAck.requests := by
      rw [sendAck_requests, hr]
      exact List.mem_cons_self
    refine answer_tidy (hack.callback front.ticket false ?_
      (hack.fifo.entry_lt hmem) rfl ⟨rfl, rfl, rfl⟩ ?_ (Or.inl rfl)) hcall
    · intro u c
      cases c <;> simp [Effect.answers, eq_comm]
    · intro r hr
      simp [hack.fifo.kinds front hmem r hr, hs]
  | ignored => exact hack
  | request hno ht hcall =>
    have hnote : Tidy none (s.sendAck.emit (.onRequest ((b.drop 3).take (length - 2))
        ((length : Int) - 2))) :=
      hack.note trivial rfl
    exact answer_tidy hnote hcall
  | nothing => exact hack

theorem onError_tidy {s s' : Tx σ} {value : Int} (h : Tidy none s)
    (he : s.onError env (.system value) = some s') : Tidy none s' := by
  have hnote : Tidy none (s.emit (.onError (.system value))) :=
    h.note trivial rfl
  exact answer_tidy hnote he

theorem reacts_tidy (s s' : Tx σ) (h : Tidy none s) (hre : Reacts env s s') : Tidy none s' := by
  cases hre with
  | same => exact h
  | frame hb hf => exact receiveFrame_tidy h hb hf
  | sendNack => exact (h.note (x := .nack) trivial rfl).of_eq rfl
  | receiveAck =>
    exact (h.note (x := .ackReceived) trivial rfl).of_eq rfl
  | receiveNack hn => exact receiveNack_tidy h hn
  | error he => exact onError_tidy h he

theorem step_tidy (s : Tx σ) (e : TxEvent) (s' : Tx σ) (h : Tidy none s)
    (he : s.step env e = some s') : Tidy none s' := by
  cases e with
  | sendRequest r =>
    simp only [Tx.step, sendRequestPtr_eq, Option.some.injEq] at he
    subst he
    split
    · exact (h.push r).transmit (by simp [Tx.push, Tx.emit, ‹s.requests = []›])
    · exact h.push r
  | expire =>
    cases he
    exact h.of_eq rfl
  | timer i =>
    simp only [Tx.step] at he
    split at he
    · cases he
      exact h
    · refine resendRequest_tidy ?_ he
      exact h.of_eq rfl
  | transfer k =>
    cases he
    exact h.of_eq rfl
  | written i =>
    cases he
    exact h.of_eq rfl
  | writeError value =>
    simp only [Tx.step] at he
    split at he
    · cases he
      exact h
    · refine onError_tidy ?_ he
      exact h.of_eq rfl

theorem tidy_always {a : σ} {txBuffer rxBuffer : Buffer} (es : List Event) :
    Always (step env) (fun s => Tidy none s.tx) (init a txBuffer rxBuffer) es :=
  always_tx step_tidy reacts_tidy (tidy_init a txBuffer) es

/-! ## First in, first out, exactly once -/

/-- What the queue of requests promises. -/
structure FifoOnce (s : Tx σ) : Prop where
  /-- Requests leave in the order in which they were enqueued, and those in the queue are the
  ones that did not leave. -/
  account : enqueued s.log = gone s.log ++ s.requests.map Entry.ticket
  /-- No request is enqueued, and so none is in the queue or leaves it, twice. -/
  once : (enqueued s.log).Nodup
  /-- At any time those that left are the first of those that were enqueued. -/
  order : ∀ l, l <+: s.log → gone l <+: enqueued l
  /-- Every transmission is of the front, and it is not one that left before. -/
  front : ∀ l m t f b, s.log = l ++ .transmit t f b :: m →
    (waiting l).head? = some t ∧ t ∉ gone l
  /-- One that left was completed once or dropped once, not both. -/
  leaves : ∀ t ∈ gone s.log,
    s.log.countP (Effect.completes t) + s.log.countP (Effect.dropsOne t) = 1
  /-- A drop is reported at once, and nothing else is. -/
  reported : ∀ i t, s.log[i]? = some (.drop t) →
    ∃ c, s.log[i + 1]? = some (.onError (.zWaveCategory c))
  errors : s.log.countP Effect.givesUp = s.log.countP Effect.drops
  /-- A request is answered exactly as often as it is completed: a plain one by `onResponse`, a
  `SendRequest` by its `onRequest`. -/
  answered : ∀ t r, .enqueue t r ∈ s.log →
    s.log.countP (Effect.answers t r.funcId.isSome) = s.log.countP (Effect.completes t)

/-- One leaves as often as it is completed or dropped. -/
theorem count_gone (t : Nat) (l : List Effect) :
    (gone l).count t = l.countP (Effect.completes t) + l.countP (Effect.dropsOne t) := by
  induction l with
  | nil => rfl
  | cons x l ih =>
    have hg : gone (x :: l) = gone [x] ++ gone l := List.filterMap_append (l := [x])
    rw [hg, List.count_append, ih, List.countP_cons, List.countP_cons]
    cases x with
    | complete u =>
      by_cases hu : u = t
      · simp [gone, Effect.completes, Effect.dropsOne, hu]
        omega
      · simp [gone, Effect.completes, Effect.dropsOne, hu]
    | drop u =>
      by_cases hu : u = t
      · simp [gone, Effect.completes, Effect.dropsOne, hu]
        omega
      · simp [gone, Effect.completes, Effect.dropsOne, hu]
    | _ => simp [gone, Effect.completes, Effect.dropsOne]

theorem Fifo.nodup {s : Tx σ} (h : Fifo s) : (enqueued s.log).Nodup := by
  rw [h.tickets]
  exact List.nodup_range

/-- What left by any moment, and who was waiting then. -/
theorem Fifo.at_any_time {s : Tx σ} (h : Fifo s) {l m : List Effect} (hl : s.log = l ++ m) :
    ∃ q, run play [] (ops l) = some q ∧ enqueued l = gone l ++ q := by
  have hp := h.played
  rw [hl, ops_append] at hp
  obtain ⟨q, hq, -⟩ := play_part hp
  refine ⟨q, hq, ?_⟩
  have hacc := play_account hq
  rwa [List.nil_append, entered_ops, left_ops] at hacc

theorem Fifo.served {s : Tx σ} (h : Fifo s) {l m : List Effect} {t : Nat} {f : Option UInt8}
    {b : List UInt8} (hl : s.log = l ++ .transmit t f b :: m) :
    (waiting l).head? = some t ∧ t ∉ gone l := by
  have hops : ops s.log = ops l ++ .serve t :: ops m := by
    rw [hl, ops_append]
    rfl
  have hp := h.played
  rw [hops] at hp
  constructor
  · obtain ⟨r, hr⟩ := served_at_front hp
    have hacc := play_account hr
    rw [List.nil_append, entered_ops, left_ops] at hacc
    simp [waiting, hacc]
  · have hn : (entered (ops l ++ .serve t :: ops m)).Nodup := by
      rw [← hops, entered_ops]
      exact h.nodup
    rw [← left_ops]
    exact not_served_after_left hp hn

theorem Fifo.queue_nodup {s : Tx σ} (h : Fifo s) : (s.requests.map Entry.ticket).Nodup := by
  have hn := h.nodup
  rw [h.account] at hn
  exact (List.nodup_append.mp hn).2.1

theorem Fifo.not_gone {s : Tx σ} (h : Fifo s) {e : Entry} (he : e ∈ s.requests) :
    e.ticket ∉ gone s.log := by
  have hn := h.nodup
  rw [h.account] at hn
  exact fun hg => (List.nodup_append.mp hn).2.2 _ hg _ (List.mem_map_of_mem he) rfl

/-- A request that was transmitted has left, or is the front. -/
theorem Fifo.left_or_front {s : Tx σ} (h : Fifo s) {t : Nat} (ht : t ∈ transmitted s.log) :
    t ∈ gone s.log ∨ (s.requests.map Entry.ticket).head? = some t := by
  obtain ⟨x, hx, hxt⟩ := List.mem_filterMap.mp ht
  obtain ⟨l, m, hl⟩ := List.append_of_mem hx
  have hops : ops s.log = ops l ++ .serve t :: ops m := by
    rw [hl, ops_append]
    cases x <;> simp only [Option.some.injEq, reduceCtorEq] at hxt
    rw [hxt]
    rfl
  have hp := h.played
  rw [hops] at hp
  rcases served_left_or_front hp with hleft | hfront
  · left
    rwa [← left_ops, hops]
  · exact Or.inr hfront

/-- The ticket of the next request was not transmitted. -/
theorem Fifo.fresh_not_transmitted {s : Tx σ} (h : Fifo s) : s.tickets ∉ transmitted s.log := by
  intro ht
  have hmem : s.tickets ∈ enqueued s.log := by
    rw [h.account, List.mem_append]
    exact (h.left_or_front ht).imp id fun hfront => List.mem_of_mem_head? hfront
  rw [h.tickets, List.mem_range] at hmem
  exact Nat.lt_irrefl _ hmem

/-- A request behind the front was never transmitted. -/
theorem Fifo.behind_front {s : Tx σ} (h : Fifo s) {front e : Entry} {rest : List Entry}
    (hr : s.requests = front :: rest) (he : e ∈ rest) : e.ticket ∉ transmitted s.log := by
  intro ht
  have hmem : e ∈ s.requests := by
    rw [hr]
    exact List.mem_cons_of_mem _ he
  rcases h.left_or_front ht with hg | hf
  · exact h.not_gone hmem hg
  · have hn := h.queue_nodup
    rw [hr] at hn hf
    simp only [List.map_cons, List.head?_cons, Option.some.injEq] at hf
    exact (List.nodup_cons.mp hn).1 (hf ▸ List.mem_map_of_mem he)

theorem Tidy.fifoOnce {s : Tx σ} (h : Tidy none s) : FifoOnce s := by
  refine ⟨h.fifo.account, h.fifo.nodup, ?_, ?_, ?_, h.reported, h.errors, ?_⟩
  · rintro l ⟨m, hm⟩
    obtain ⟨q, -, hq⟩ := h.fifo.at_any_time hm.symm
    exact ⟨q, hq.symm⟩
  · intro l m t f b hl
    exact h.fifo.served hl
  · intro t ht
    have hn := h.fifo.nodup
    rw [h.fifo.account] at hn
    rw [← count_gone]
    exact List.count_eq_one_of_mem (List.nodup_append.mp hn).1 ht
  · intro t r hr
    have ha := h.answered t r hr
    simpa using ha

/-- In every run, whatever the application, the reads and the timer do, requests go out and
leave first in, first out, and each one leaves once and is answered or reported once. -/
theorem requests_leave_once_in_order (env : Env σ) (a : σ) (txBuffer rxBuffer : Buffer)
    (es : List Event) :
    Always (step env) (fun s => FifoOnce s.tx) (init a txBuffer rxBuffer) es :=
  (tidy_always es).mono fun _ h => h.fifoOnce

end huasi.zwave
