-- HttpChannel::onData (src/src/http/HttpChannel.cpp): the data of a connection goes to
-- http_parser_execute in reads of any length. Whatever arrives, the parser never fails, and its
-- callbacks are those of messages.
import Huasi.HttpParserTurns

open huasi.text huasi.runs huasi.http_channel

namespace huasi.http_execute

/-! ## The channel -/

/-- The parser of a channel, its callbacks so far, and the errors that `onError` was called with. -/
structure Input where
  parser : HttpParser
  calls : List Call
  errors : List Errno
deriving DecidableEq, Repr

/-- `onConnect`. -/
def Input.new : Input where
  parser := .init
  calls := []
  errors := []

/-- `onData`. -/
def onData (s : Input) (data : Text) : Option Input := do
  let r ← execute s.parser data
  some {
    parser := r.parser
    calls := s.calls ++ r.calls
    errors := if r.count ≠ data.length then s.errors ++ [r.parser.httpErrno] else s.errors }

/-! ## The loop -/

section Loop

variable {start place : Place} {s t : Cursor}

/-- What the loop ends with. -/
structure Looped (start : Place) (s t : Cursor) : Prop where
  ready : t.parser.httpErrno = .ok → t.Ready start
  calls : ∃ place, t.calls.foldlM follow start = some place
  going : t.returned = false → t.parser.httpErrno = .ok ∧ t.rest = []
  stopped : t.returned = true → t.parser.httpErrno = .ok →
    t.parser.upgrade = true ∧ t.mark = none
  suffix : t.rest <:+ s.rest

theorem loop_looped {n : Nat} (hready : s.Ready start) (hreturned : s.returned = false)
    (hn : s.rest.length ≤ n) :
    ∃ t, loop unfinished (fun s => (turn s).map .again) n s = some t ∧ Looped start s t := by
  have hdone : s.rest = [] → Looped start s s := by
    intro hnil
    obtain ⟨hsound, -, place, v, -, hshows, -⟩ := id hready
    exact ⟨fun _ => hready, ⟨place, hshows.calls⟩, fun _ => ⟨hsound.1, hnil⟩,
      fun h => absurd (hreturned.symm.trans h) (by simp), List.suffix_refl _⟩
  induction n generalizing s with
  | zero => exact ⟨s, rfl, hdone (List.length_eq_zero_iff.mp (by omega))⟩
  | succ n ih =>
    by_cases hrest : s.rest = []
    · exact ⟨s, loop_ends (Or.inl (by simp [unfinished, hrest])), hdone hrest⟩
    · obtain ⟨u, hturn, hturned⟩ := turn_turned hready hrest hreturned
      have hgoes : Goes unfinished (fun s => (turn s).map .again) s u :=
        ⟨by simp [unfinished, hreturned, hrest], by simp [hturn]⟩
      rw [loop_goes hgoes]
      cases hu : u.returned with
      | true =>
        refine ⟨u, loop_ends (Or.inl (by simp [unfinished, hu])), hturned.ready, hturned.calls, ?_,
          hturned.stopped, hturned.suffix⟩
        intro h
        exact absurd (hu.symm.trans h) (by simp)
      | false =>
        obtain ⟨hok, hlt⟩ := hturned.going hu
        have hreadyu := hturned.ready hok
        obtain ⟨t, ht, hlooped⟩ := ih hreadyu hu (by omega) fun hnil => by
          obtain ⟨-, -, place, v, -, hshows, -⟩ := id hreadyu
          exact ⟨fun _ => hreadyu, ⟨place, hshows.calls⟩, fun _ => ⟨hok, hnil⟩,
            fun h => absurd (hu.symm.trans h) (by simp), List.suffix_refl _⟩
        exact ⟨t, ht, hlooped.ready, hlooped.calls, hlooped.going, hlooped.stopped,
          hlooped.suffix.trans hturned.suffix⟩

/-- What a parser without an error relies on between two reads, the callbacks at `place`. -/
structure Waits (parser : HttpParser) (place : Place) : Prop where
  sound : parser.Sound
  ready : ReadyAt 0 parser
  at_place : parser.state.At parser.flags.trailing place

/-- A mark that goes on is that of data that goes on. -/
theorem enter_of_resumed {state : State} {trailing : Bool} {kind : Kind}
    (hat : state.At trailing place) (hkind : state.resumed = some kind) :
    place.enter kind = some place := by
  cases state with
  | headerField | headerValue =>
    obtain rfl := Option.some.inj hkind
    have hplace := hat
    simp only [State.At] at hplace
    rw [hplace]
    cases trailing <;> rfl
  | url s =>
    have hurl : place = .url ∧ kind = .url := by
      cases s <;> simp_all [State.resumed, State.At]
    rw [hurl.1, hurl.2]
    rfl
  | _ => cases hkind

theorem start_ready {parser : HttpParser} (h : Waits parser place) (data : Text) :
    (Cursor.start parser data).Ready place := by
  refine ⟨h.sound, h.ready, place, ⟨parser.state.resumed, place⟩, ⟨Or.inl rfl, h.at_place⟩, ?_, ?_⟩
  · refine ⟨rfl, by simp [Cursor.start, Function.comp_def], ?_⟩
    cases hkind : parser.state.resumed with
    | none => rfl
    | some kind => exact enter_of_resumed h.at_place hkind
  · exact fun _ _ => Or.inr (Or.inr rfl)

/-- The callback for a mark that is left. -/
theorem flush_calls (hready : s.Ready start) :
    ∃ place, s.flush.calls.foldlM follow start = some place ∧
      s.parser.state.At s.parser.flags.trailing place := by
  obtain ⟨-, -, place, v, hsees, hshows, hnamed⟩ := hready
  refine ⟨v.place, ?_, hsees.2⟩
  unfold Cursor.flush
  cases hmark : s.mark with
  | none =>
    have hv : v.mark = none := by rw [← hshows.mark, hmark, Option.map_none]
    rw [← hshows.place_eq hv]
    exact hshows.calls
  | some m => simp [List.foldlM_append, hshows.calls, hshows.follow hmark hnamed]

@[simp] theorem parser_flush (s : Cursor) : s.flush.parser = s.parser := by
  unfold Cursor.flush
  split <;> rfl

@[simp] theorem flush_rest (s : Cursor) : s.flush.rest = s.rest := by
  unfold Cursor.flush
  split <;> rfl

/-- What one call leaves. -/
structure Executed (place : Place) (data : Text) (r : Result) : Prop where
  calls : ∃ next, r.calls.foldlM follow place = some next ∧
    (r.parser.httpErrno = .ok → Waits r.parser next)
  count : r.count ≤ data.length
  short : r.count ≠ data.length → r.parser.httpErrno ≠ .ok ∨ r.parser.upgrade = true

theorem execute_executed {parser : HttpParser} (hwaits : parser.httpErrno = .ok → Waits parser place)
    {data : Text} (hdata : data ≠ []) :
    ∃ r, execute parser data = some r ∧ Executed place data r := by
  unfold execute
  split_ifs with herror
  · exact ⟨_, rfl, ⟨place, rfl, fun h => absurd h herror⟩, Nat.zero_le _, fun _ => Or.inl herror⟩
  · have hwaits := hwaits (by simpa using herror)
    obtain ⟨t, hloop, hlooped⟩ := loop_looped (start_ready hwaits data) rfl (Nat.le_refl data.length)
    simp only [hloop, Option.bind_eq_bind, Option.bind_some]
    have hle := hlooped.suffix.length_le
    refine ⟨_, rfl, ?_⟩
    cases hreturned : t.returned with
    | true =>
      rw [if_pos rfl]
      refine ⟨?_, by simp, fun _ => ?_⟩
      · obtain ⟨next, hnext⟩ := hlooped.calls
        refine ⟨next, hnext, fun hok => ?_⟩
        obtain ⟨hsound, hready, place', v, hsees, hshows, -⟩ := hlooped.ready hok
        have hmark := (hlooped.stopped hreturned hok).2
        have hv : v.mark = none := by rw [← hshows.mark, hmark, Option.map_none]
        have hplace : next = v.place :=
          (Option.some.inj (hnext.symm.trans hshows.calls)).trans (hshows.place_eq hv)
        refine ⟨hsound, hready, ?_⟩
        rw [hplace]
        exact hsees.2
      · by_cases hok : t.parser.httpErrno = .ok
        · exact Or.inr (hlooped.stopped hreturned hok).1
        · exact Or.inl hok
    | false =>
      obtain ⟨hok, hnil⟩ := hlooped.going hreturned
      have hready := hlooped.ready hok
      obtain ⟨next, hnext, hat⟩ := flush_calls hready
      rw [if_neg (by simp)]
      refine ⟨⟨next, hnext, fun _ => ?_⟩, by simp, fun h => ?_⟩
      · rw [parser_flush]
        exact ⟨hready.sound, hready.ready, hat⟩
      · simp [hnil] at h

end Loop

/-! ## Any reads -/

/-- What holds between two reads. -/
def Input.Lawful (s : Input) : Prop :=
  ∃ place, s.calls.foldlM follow .idle = some place ∧
    (s.parser.httpErrno = .ok → Waits s.parser place)

/-- What a read does: it is taken, or an error is reported, or the rest is left to another
protocol. Behind an error nothing is taken any more. -/
def Answers (s t : Input) : Prop :=
  if s.parser.httpErrno = .ok then
    t.errors = s.errors ∨ (t.errors = s.errors ++ [t.parser.httpErrno] ∧
      (t.parser.httpErrno ≠ .ok ∨ t.parser.upgrade = true))
  else t = { s with errors := s.errors ++ [s.parser.httpErrno] }

theorem new_lawful : Input.new.Lawful :=
  ⟨.idle, rfl, fun _ => ⟨⟨rfl, Nat.zero_le _⟩, trivial, rfl⟩⟩

/-- The end of the data is an error inside of a message. -/
theorem execute_nil (parser : HttpParser) :
    ∃ r, execute parser [] = some r ∧ r.calls = [] ∧
      (r.parser.httpErrno = .ok → r.parser = parser) := by
  unfold execute
  rw [if_pos rfl]
  split_ifs
  · exact ⟨_, rfl, rfl, fun _ => rfl⟩
  · exact ⟨_, rfl, rfl, fun _ => rfl⟩
  · exact ⟨_, rfl, rfl, nofun⟩

theorem onData_lawful {s : Input} (h : s.Lawful) (data : Text) :
    ∃ t, onData s data = some t ∧ t.Lawful := by
  obtain ⟨place, hplace, hwaits⟩ := h
  by_cases hdata : data = []
  · subst hdata
    obtain ⟨r, hr, hcalls, hparser⟩ := execute_nil s.parser
    refine ⟨_, by simp [onData, hr]; rfl, place, by simpa [hcalls] using hplace, fun hok => ?_⟩
    have hok : r.parser.httpErrno = .ok := hok
    show Waits r.parser place
    have heq := hparser hok
    rw [heq] at hok ⊢
    exact hwaits hok
  · obtain ⟨r, hr, hexecuted⟩ := execute_executed hwaits hdata
    obtain ⟨next, hnext, hwaits'⟩ := hexecuted.calls
    refine ⟨_, by simp [onData, hr]; rfl, next, ?_, hwaits'⟩
    simp [List.foldlM_append, hplace, hnext]

theorem onData_answers {s : Input} (h : s.Lawful) {data : Text} (hdata : data ≠ []) :
    ∃ t, onData s data = some t ∧ Answers s t := by
  obtain ⟨place, hplace, hwaits⟩ := h
  unfold Answers
  split_ifs with hok
  · obtain ⟨r, hr, hexecuted⟩ := execute_executed hwaits hdata
    refine ⟨_, by simp [onData, hr]; rfl, ?_⟩
    by_cases hcount : r.count = data.length
    · exact Or.inl (by simp [hcount])
    · exact Or.inr ⟨by simp [hcount], hexecuted.short hcount⟩
  · have hr : execute s.parser data = some ⟨s.parser, [], 0⟩ := by simp [execute, hok]
    have hlength : 0 ≠ data.length := (List.length_pos_iff.mpr hdata).ne
    exact ⟨_, by simp [onData, hr, hlength], rfl⟩

theorem run_lawful {s : Input} (h : s.Lawful) (reads : List Text) :
    ∃ t, run onData s reads = some t ∧ t.Lawful := by
  induction reads generalizing s with
  | nil => exact ⟨s, rfl, h⟩
  | cons data reads ih =>
    obtain ⟨t, ht, hlawful⟩ := onData_lawful h data
    obtain ⟨u, hu, hlawful'⟩ := ih hlawful
    exact ⟨u, by simp [run, ht, hu], hlawful'⟩

/-- Whatever arrives in whatever reads, no assertion fails, and no table is read outside. -/
theorem reads_never_fail (reads : List Text) :
    ∃ s, run onData .new reads = some s ∧
      ∀ data, data ≠ [] → ∃ t, onData s data = some t ∧ Answers s t := by
  obtain ⟨s, hs, hlawful⟩ := run_lawful new_lawful reads
  exact ⟨s, hs, fun data hdata => onData_answers hlawful hdata⟩

/-- The callbacks of any reads are those of whole messages, and of the beginning of one more. So
the channel receives these messages. -/
theorem reads_spell_messages (reads : List Text) :
    ∃ s, run onData .new reads = some s ∧ ∃ (ms : List Message) (part : List Callback) (m : Message),
      part <+: messageCalls m ∧
      s.calls.filterMap Call.callback = ms.flatMap messageCalls ++ part ∧
      channelAfter .new s.calls =
        (ms.foldl HttpChannel.receive HttpChannel.new).callbacks part := by
  obtain ⟨s, hs, place, hplace, -⟩ := run_lawful new_lawful reads
  obtain ⟨ms, part, hpart, hcalls⟩ := messages_of_follow hplace
  obtain ⟨m, hprefix⟩ := part_prefix hpart
  refine ⟨s, hs, ms, part, m, hprefix, hcalls, ?_⟩
  have hreceive : ∀ (c : HttpChannel) (ms : List Message),
      c.callbacks (ms.flatMap messageCalls) = ms.foldl HttpChannel.receive c := by
    intro c ms
    induction ms generalizing c with
    | nil => rfl
    | cons m ms ih =>
      rw [List.flatMap_cons, callbacks_append, ih, messageCalls, callbacks_append]
      rfl
  rw [channelAfter, hcalls, callbacks_append, hreceive]

end huasi.http_execute
