-- The laws of the EnOcean request queue. Requests are sent and leave first in, first out. A
-- response has no number: it goes to the front of the queue, which was sent as long as no
-- request was given up in front of others.
import Huasi.EnOceanProgress
import Huasi.FifoLog

open huasi.receive_buffer huasi.runs huasi.fifo_log

namespace huasi.enocean

variable {σ : Type} {env : Env σ}

/-! ## The log of the queue -/

/-- What an effect says about the queue. Both a transmission and a response are of the front. -/
def Effect.op : Effect → Option (Op Nat)
  | .enqueue t _ => some (.enter t)
  | .transmit t _ => some (.serve t)
  | .onResponse t _ _ => some (.serve t)
  | .complete t => some (.leave t)
  | .drop t => some (.leave t)
  | _ => none

def ops (l : List Effect) : List (Op Nat) := l.filterMap Effect.op

/-- The requests that were enqueued, in order. -/
def accepted (l : List Effect) : List Nat :=
  l.filterMap fun | .enqueue t _ => some t | _ => none

/-- The requests that left the queue, in order: completed or dropped. -/
def gone (l : List Effect) : List Nat :=
  l.filterMap fun | .complete t => some t | .drop t => some t | _ => none

/-- The requests that were completed, in order. -/
def completed (l : List Effect) : List Nat :=
  l.filterMap fun | .complete t => some t | _ => none

/-- The requests that were dropped, in order. -/
def dropped (l : List Effect) : List Nat :=
  l.filterMap fun | .drop t => some t | _ => none

/-- The requests that got a response, in order. -/
def responded (l : List Effect) : List Nat :=
  l.filterMap fun | .onResponse t _ _ => some t | _ => none

/-- The requests in the queue after the effects of a log. -/
def queued (l : List Effect) : List Nat := (accepted l).drop (gone l).length

def Effect.drops : Effect → Prop
  | .drop _ => True
  | _ => False

/-- `onError` with the timeout. -/
def Effect.timesOut : Effect → Prop
  | .onError error => error = .enOceanCategory 2
  | _ => False

theorem entered_ops (l : List Effect) : entered (ops l) = accepted l := by
  unfold entered ops accepted
  rw [List.filterMap_filterMap]
  congr 1
  funext x
  cases x <;> rfl

theorem left_ops (l : List Effect) : left (ops l) = gone l := by
  unfold left ops gone
  rw [List.filterMap_filterMap]
  congr 1
  funext x
  cases x <;> rfl

theorem ops_append (l m : List Effect) : ops (l ++ m) = ops l ++ ops m := List.filterMap_append

theorem accepted_append (l m : List Effect) : accepted (l ++ m) = accepted l ++ accepted m :=
  List.filterMap_append

theorem responded_append (l m : List Effect) : responded (l ++ m) = responded l ++ responded m :=
  List.filterMap_append

theorem completed_append (l m : List Effect) : completed (l ++ m) = completed l ++ completed m :=
  List.filterMap_append

theorem transmitted_append (l m : List Effect) :
    transmitted (l ++ m) = transmitted l ++ transmitted m := List.filterMap_append

/-! ## The invariant -/

/-- The log can be played on a queue that ends as the queue of requests, and it knows the requests
there. The tickets count the requests. `owed` is the front while its response is handled. -/
structure Books (owed : Option Nat) (s : Tx σ) : Prop where
  played : run play [] (ops s.log) = some (s.requests.map Entry.ticket)
  tickets : accepted s.log = List.range s.tickets
  known : ∀ e ∈ s.requests, .enqueue e.ticket e.request ∈ s.log
  sent : ∀ t frame, .transmit t frame ∈ s.log →
    ∃ r : Request, .enqueue t r ∈ s.log ∧ frame = r.bytes
  answered : responded s.log = completed s.log ++ owed.toList
  reported : Followed Effect.drops Effect.timesOut s.log

/-- What the laws of the queue are about. Where a change leaves it alone, `rfl` says so. -/
def Tx.books (s : Tx σ) : List Entry × Nat × List Effect := (s.requests, s.tickets, s.log)

variable {owed : Option Nat} {s s' : Tx σ} {front : Entry} {rest : List Entry}

theorem books_init (a : σ) (txBuffer : Buffer UInt8 BUFFER_SIZE) :
    Books none (.init a txBuffer) where
  played := rfl
  tickets := rfl
  known _ he := by cases he
  sent _ _ h := by cases h
  answered := rfl
  reported := followed_nil

theorem Books.of_eq (h : Books owed s) (hsame : s'.books = s.books) : Books owed s' := by
  obtain ⟨hr, ht, hl⟩ : s'.requests = s.requests ∧ s'.tickets = s.tickets ∧ s'.log = s.log := by
    simpa only [Tx.books, Prod.mk.injEq] using hsame
  exact {
    played := by rw [hl, hr]; exact h.played
    tickets := by rw [hl, ht]; exact h.tickets
    known := by rw [hl, hr]; exact h.known
    sent := by rw [hl]; exact h.sent
    answered := by rw [hl]; exact h.answered
    reported := by rw [hl]; exact h.reported }

/-! ## What each change keeps -/

/-- The log goes on with effects that can be played on the queue. -/
theorem Books.extend {owed' : Option Nat} (h : Books owed s) {m : List Effect}
    (hlog : s'.log = s.log ++ m)
    (hplayed : run play (s.requests.map Entry.ticket) (ops m) =
      some (s'.requests.map Entry.ticket))
    (htickets : List.range s'.tickets = List.range s.tickets ++ accepted m)
    (hknown : ∀ e ∈ s'.requests, e ∈ s.requests ∨ .enqueue e.ticket e.request ∈ m)
    (hsent : ∀ t frame, .transmit t frame ∈ m →
      ∃ r : Request, .enqueue t r ∈ s.log ∧ frame = r.bytes)
    (hanswered : owed.toList ++ responded m = completed m ++ owed'.toList)
    (hreported : Followed Effect.drops Effect.timesOut m) : Books owed' s' := by
  refine ⟨?_, ?_, ?_, ?_, ?_, ?_⟩
  · rw [hlog, ops_append, run_append, h.played]
    exact hplayed
  · rw [hlog, accepted_append, h.tickets, htickets]
  · intro e he
    rw [hlog, List.mem_append]
    exact (hknown e he).imp (h.known e) id
  · intro t frame hmem
    rw [hlog, List.mem_append] at hmem
    obtain ⟨r, hr, hframe⟩ := hmem.elim (h.sent t frame) (hsent t frame)
    exact ⟨r, by rw [hlog]; exact List.mem_append_left _ hr, hframe⟩
  · rw [hlog, responded_append, completed_append, h.answered, List.append_assoc, hanswered,
      List.append_assoc]
  · rw [hlog]
    exact h.reported.append hreported

theorem Books.push (h : Books owed s) (r : Request) : Books owed (s.push r) := by
  apply h.extend (m := [.enqueue s.tickets r]) rfl
  · simp [ops, Effect.op, run, play]
  · exact List.range_succ
  · intro e he
    rw [push_requests, List.mem_append, List.mem_singleton] at he
    exact he.imp id fun he => by simp [he]
  · simp
  · simp [responded, completed]
  · exact followed_other id

theorem Books.transmit (h : Books owed s) (hr : s.requests = front :: rest) :
    Books owed (s.transmit env front) := by
  apply h.extend (transmit_log env s front)
  · simp [ops, Effect.op, run, play, hr, transmit_requests]
  · simp [accepted, Tx.transmit, Tx.emit]
  · intro e he
    exact Or.inl he
  · intro t frame hmem
    obtain ⟨rfl, rfl⟩ : t = front.ticket ∧ frame = front.request.bytes := by simpa using hmem
    exact ⟨_, h.known front (by simp [hr]), rfl⟩
  · simp [responded, completed]
  · exact followed_other id

/-- A response for the front: its completion is owed. -/
theorem Books.respond (h : Books none s) (hr : s.requests = front :: rest)
    (data optionalData : List UInt8) :
    Books front.ticket (s.emit (.onResponse front.ticket data optionalData)) := by
  apply h.extend (m := [.onResponse front.ticket data optionalData]) rfl
  · simp [ops, Effect.op, run, play, hr, Tx.emit]
  · simp [accepted, Tx.emit]
  · intro e he
    exact Or.inl he
  · simp
  · simp [responded, completed]
  · exact followed_other id

theorem Books.complete (h : Books front.ticket s) (hr : s.requests = front :: rest) :
    Books none (s.pop rest (.complete front.ticket)) := by
  apply h.extend (m := [.complete front.ticket]) rfl
  · simp [ops, Effect.op, run, play, hr, Tx.pop, Tx.emit]
  · simp [accepted, Tx.pop, Tx.emit]
  · intro e he
    exact Or.inl (hr ▸ List.mem_cons_of_mem front he)
  · simp
  · simp [responded, completed]
  · exact followed_other id

/-- The front is given up, and `onError` called. -/
theorem Books.drop (h : Books none s) (hr : s.requests = front :: rest) :
    Books none ((s.pop rest (.drop front.ticket)).emit (.onError (.enOceanCategory 2))) := by
  apply h.extend (m := [.drop front.ticket, .onError (.enOceanCategory 2)])
  · exact List.append_assoc _ _ _
  · show run play _ [.leave front.ticket] = some (rest.map Entry.ticket)
    simp [run, play, hr]
  · simp [accepted, Tx.pop, Tx.emit]
  · intro e he
    exact Or.inl (hr ▸ List.mem_cons_of_mem front he)
  · simp
  · simp [responded, completed]
  · exact followed_pair rfl id

/-- A callback that is not about a request of the queue. -/
theorem Books.note (h : Books owed s) {x : Effect} (hop : x.op = none) : Books owed (s.emit x) := by
  apply h.extend (m := [x]) rfl
  · simp [ops, hop, run, Tx.emit]
  · cases x <;> first | exact (List.append_nil _).symm | cases hop
  · intro e he
    exact Or.inl he
  · rintro t frame hmem
    rw [List.mem_singleton] at hmem
    subst hmem
    cases hop
  · cases x <;> first | exact List.append_nil _ | cases hop
  · exact followed_other fun hx => by cases x <;> first | exact hx | cases hop

/-! ## What each function keeps -/

theorem answer_books {out : σ × List Request} (h : Books owed s)
    (ha : s.answer env out = some s') : Books owed s' := by
  apply answer_keeps ha
  · exact h.of_eq rfl
  · intro t r ht hr
    have hone : (t.push r).requests = [⟨t.tickets, r⟩] := by simp [hr]
    exact (ht.push r).transmit hone
  · intro t r ht _
    exact ht.push r

theorem onError_books {value : Int} (h : Books none s)
    (he : s.onError env (.system value) = some s') : Books none s' :=
  answer_books (h.note rfl) he

theorem resendRequest_books (h : Books none s) (hre : s.resendRequest env 2 = some s') :
    Books none s' := by
  cases hr : s.requests with
  | nil => simp [Tx.resendRequest, Tx.sendRequest, hr] at hre
  | cons front rest =>
    rcases resendRequest_cases env 2 hr with ⟨-, heq⟩ | ⟨-, heq⟩
    · rw [heq, Option.some.injEq] at hre
      subst hre
      have hretry : Books none ({ s with txRetryCount := s.txRetryCount + 1 } : Tx σ) :=
        h.of_eq rfl
      exact hretry.transmit hr
    · rw [heq] at hre
      have hretry : Books none ({ s with txRetryCount := 0 } : Tx σ) := h.of_eq rfl
      exact answer_books (hretry.drop hr) hre

/-- The front before a callback is the front behind it. -/
theorem response_front {s₁ : Tx σ} {data optionalData : List UInt8}
    (hcall : (s.cancel env).onResponse env front data optionalData = some s₁)
    (hqueue : s.requests ≠ []) (hr : s₁.requests = front :: rest) :
    (s.cancel env).requests = front :: s.requests.tail := by
  obtain ⟨-, hhead, -, -⟩ := answer_waiting hcall hqueue
  obtain ⟨first, others, hcons⟩ := List.exists_cons_of_ne_nil hqueue
  obtain rfl : front = first := by
    rw [hr] at hhead
    simpa [Tx.emit, Tx.cancel, hcons] using hhead
  simp [Tx.cancel, hcons]

theorem receivePacket_books {packetType : UInt8} {data optionalData : List UInt8}
    (h : Books none s) (hp : s.receivePacket env packetType data optionalData = some s') :
    Books none s' := by
  have hcancel : Books none (s.cancel env) := h.of_eq rfl
  have hresponse : ∀ {front s₁ rest}, (s.cancel env).onResponse env front data optionalData =
      some s₁ → s.requests ≠ [] → s₁.requests = front :: rest → Books front.ticket s₁ :=
    fun hcall hqueue hr =>
      answer_books (hcancel.respond (response_front hcall hqueue hr) data optionalData) hcall
  cases packetCase_of_receive hp with
  | last htype hcall hqueue hr => exact (hresponse hcall hqueue hr).complete hr
  | next htype hcall hqueue hr => exact ((hresponse hcall hqueue hr).complete hr).transmit rfl
  | request hother hcall => exact answer_books (hcancel.note rfl) hcall

theorem tx_books {e : TxEvent} (h : Books none s) (he : s.step env e = some s') :
    Books none s' := by
  cases tx_cases he with
  | sendRequest hcall => exact answer_books h hcall
  | expire => exact h.of_eq rfl
  | timer hw hresend =>
    refine resendRequest_books ?_ hresend
    exact h.of_eq rfl
  | port tty hstarted => exact h.of_eq rfl
  | error tty hstarted hcall =>
    refine onError_books ?_ hcall
    exact h.of_eq rfl

theorem step_books (s : EnOceanProtocol σ) (e : Event) (t : EnOceanProtocol σ)
    (h : Books none s.tx) (ht : step env s e = some t) : Books none t.tx := by
  apply step_keeps ht h
  · intro x tx _ hx
    exact tx_books h hx
  · intro u tx packetType data optionalData hu hreceive
    exact receivePacket_books hu hreceive
  · intro tx value hcall
    exact onError_books h hcall

theorem books_always {a : σ} {txBuffer rxBuffer : Buffer UInt8 BUFFER_SIZE} (es : List Event) :
    Always (step env) (fun s => Books none s.tx) (init a txBuffer rxBuffer) es :=
  always_of_step step_books _ _ (books_init a txBuffer)

/-! ## First in, first out, exactly once -/

/-- What the queue of requests promises. -/
structure FifoOnce (s : Tx σ) : Prop where
  /-- Requests leave in the order in which they were enqueued, and those in the queue are the
  ones that did not leave. -/
  account : accepted s.log = gone s.log ++ s.requests.map Entry.ticket
  /-- No request is enqueued, and so none is in the queue or leaves it, twice. -/
  once : (accepted s.log).Nodup
  /-- At any time those that left are the first of those that were enqueued. -/
  order : ∀ l, l <+: s.log → gone l <+: accepted l
  /-- Every transmission is of the front, and it is the packet of the request, each time. -/
  front : ∀ l m t frame, s.log = l ++ .transmit t frame :: m →
    (queued l).head? = some t ∧ t ∉ gone l ∧
      ∃ r : Request, .enqueue t r ∈ s.log ∧ frame = r.bytes
  /-- Every response goes to the front. -/
  response : ∀ l m t data optionalData, s.log = l ++ .onResponse t data optionalData :: m →
    (queued l).head? = some t ∧ t ∉ gone l
  /-- One that left was completed once or dropped once, not both. -/
  leaves : ∀ t ∈ gone s.log, (completed s.log).count t + (dropped s.log).count t = 1
  /-- The requests that are completed are the ones that get a response. -/
  answered : responded s.log = completed s.log
  /-- A drop is reported at once. -/
  reported : ∀ i t, s.log[i]? = some (.drop t) →
    s.log[i + 1]? = some (.onError (.enOceanCategory 2))

/-- One leaves as often as it is completed or dropped. -/
theorem count_gone (t : Nat) (l : List Effect) :
    (gone l).count t = (completed l).count t + (dropped l).count t := by
  induction l with
  | nil => rfl
  | cons x l ih =>
    have hgone : gone (x :: l) = gone [x] ++ gone l := List.filterMap_append (l := [x])
    have hcompleted : completed (x :: l) = completed [x] ++ completed l :=
      List.filterMap_append (l := [x])
    have hdropped : dropped (x :: l) = dropped [x] ++ dropped l :=
      List.filterMap_append (l := [x])
    rw [hgone, hcompleted, hdropped, List.count_append, List.count_append, List.count_append, ih]
    cases x with
    | complete u =>
      simp only [gone, completed, dropped, List.filterMap_cons, List.filterMap_nil,
        List.count_nil]
      omega
    | drop u =>
      simp only [gone, completed, dropped, List.filterMap_cons, List.filterMap_nil,
        List.count_nil]
      omega
    | _ => simp [gone, completed, dropped]

theorem Books.nodup (h : Books owed s) : (accepted s.log).Nodup := by
  rw [h.tickets]
  exact List.nodup_range

theorem Books.account (h : Books owed s) :
    accepted s.log = gone s.log ++ s.requests.map Entry.ticket := by
  have hacc := play_account h.played
  rwa [List.nil_append, entered_ops, left_ops] at hacc

/-- Who left by any moment, and who was waiting then. -/
theorem Books.at_any_time (h : Books owed s) {l m : List Effect} (hl : s.log = l ++ m) :
    ∃ q, accepted l = gone l ++ q := by
  have hp := h.played
  rw [hl, ops_append] at hp
  obtain ⟨q, hq, -⟩ := play_part hp
  have hacc := play_account hq
  exact ⟨q, by rwa [List.nil_append, entered_ops, left_ops] at hacc⟩

/-- One that is served is the front at that moment. -/
theorem Books.served (h : Books owed s) {l m : List Effect} {x : Effect} {t : Nat}
    (hx : x.op = some (.serve t)) (hl : s.log = l ++ x :: m) :
    (queued l).head? = some t ∧ t ∉ gone l := by
  have hops : ops s.log = ops l ++ .serve t :: ops m := by
    rw [hl, ops_append]
    simp [ops, hx]
  have hp := h.played
  rw [hops] at hp
  constructor
  · obtain ⟨r, hr⟩ := served_at_front hp
    have hacc := play_account hr
    rw [List.nil_append, entered_ops, left_ops] at hacc
    simp [queued, hacc]
  · have hn : (entered (ops l ++ .serve t :: ops m)).Nodup := by
      rw [← hops, entered_ops]
      exact h.nodup
    rw [← left_ops]
    exact not_served_after_left hp hn

theorem Books.fifoOnce (h : Books none s) : FifoOnce s := by
  refine ⟨h.account, h.nodup, ?_, ?_, ?_, ?_, ?_, ?_⟩
  · rintro l ⟨m, hm⟩
    obtain ⟨q, hq⟩ := h.at_any_time hm.symm
    exact ⟨q, hq.symm⟩
  · intro l m t frame hl
    obtain ⟨hhead, hgone⟩ := h.served (x := .transmit t frame) rfl hl
    exact ⟨hhead, hgone, h.sent t frame (by simp [hl])⟩
  · intro l m t data optionalData hl
    exact h.served (x := .onResponse t data optionalData) rfl hl
  · intro t ht
    have hn := h.nodup
    rw [h.account] at hn
    rw [← count_gone]
    exact List.count_eq_one_of_mem (List.nodup_append.mp hn).1 ht
  · simpa using h.answered
  · intro i t hi
    obtain ⟨y, hy, hout⟩ := h.reported i _ hi trivial
    cases y with
    | onError error => rw [hy, hout]
    | _ => cases hout

/-- In every run, whatever the application, the reads and the timer do, requests are sent and leave
first in, first out, each one leaves once, and each transmission of a request is the same packet. -/
theorem packets_leave_once_in_order (env : Env σ) (a : σ)
    (txBuffer rxBuffer : Buffer UInt8 BUFFER_SIZE) (es : List Event) :
    Always (step env) (fun s => FifoOnce s.tx) (init a txBuffer rxBuffer) es :=
  (books_always es).mono fun _ h => h.fifoOnce

end huasi.enocean
