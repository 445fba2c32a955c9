-- http_parser_execute (src/src/http/http_parser.c) byte by byte. Its loops over names, values
-- and bodies, with memchr and COUNT_HEADER_SIZE, do what the same bytes do in calls of their own:
-- a stream that is accepted so is accepted in any reads, with the same callbacks joined.
import Huasi.HttpParserNear

open huasi.text huasi.runs huasi.http_parser

namespace huasi.http_execute

/-! ## One byte a call -/

/-- A call with one byte is accepted: there is no error, and no other protocol follows. -/
structure Byte (p : HttpParser) (ch : UInt8) (r : Result) : Prop where
  execute : execute p [ch] = some r
  ok : r.parser.httpErrno = .ok
  stays : r.parser.upgrade = false

/-- Each byte is accepted in a call of its own, up to the parser `q`, with these callbacks. -/
def Bytewise (p : HttpParser) (data : Text) (q : HttpParser) (calls : List Call) : Prop :=
  match data with
  | [] => q = p ∧ calls = []
  | ch :: rest => ∃ r more, Byte p ch r ∧ Bytewise r.parser rest q more ∧ calls = r.calls ++ more

theorem bytewise_append {p q : HttpParser} {data more : Text} {calls : List Call} :
    Bytewise p (data ++ more) q calls ↔ ∃ r c d, Bytewise p data r c ∧ Bytewise r more q d ∧
      calls = c ++ d := by
  induction data generalizing p calls with
  | nil =>
    constructor
    · intro h
      exact ⟨p, [], calls, ⟨rfl, rfl⟩, h, rfl⟩
    · rintro ⟨r, c, d, ⟨rfl, rfl⟩, h, rfl⟩
      exact h
  | cons ch rest ih =>
    constructor
    · rintro ⟨r, c, hbyte, hrest, rfl⟩
      obtain ⟨r', c', d, h, h', rfl⟩ := ih.mp hrest
      exact ⟨r', r.calls ++ c', d, ⟨r, c', hbyte, h, rfl⟩, h', by simp⟩
    · rintro ⟨r', c', d, ⟨r, c, hbyte, h, rfl⟩, h', rfl⟩
      exact ⟨r, c ++ d, hbyte, ih.mpr ⟨r', c, d, h, h', rfl⟩, by simp⟩

section Turns

variable {start place : Place} {s t u : Cursor} {p q : HttpParser} {ch : UInt8} {rest : Text}

/-- An accepted byte is one turn that goes on. -/
theorem byte_turn {r : Result} (hwaits : Waits p place) (h : Byte p ch r) :
    ∃ t, turn (.start p [ch]) = some t ∧ t.returned = false ∧ r.parser = t.parser ∧
      r.calls = t.flush.calls := by
  have hready := start_ready hwaits [ch]
  obtain ⟨t, ht, hturned⟩ := turn_turned hready (by simp [Cursor.start]) rfl
  have hgoes : Goes unfinished (fun s => (turn s).map .again) (.start p [ch]) t :=
    ⟨rfl, by simp [ht]⟩
  have hexecute := h.execute
  unfold execute at hexecute
  rw [if_neg (by simp [hwaits.sound.1]), if_neg (by simp)] at hexecute
  simp only [List.length_singleton, loop_goes hgoes, loop, Option.bind_eq_bind, Option.bind_some,
    Option.some.injEq] at hexecute
  have hreturned : t.returned = false := by
    by_contra hne
    have hne : t.returned = true := by simpa using hne
    rw [if_pos hne] at hexecute
    have hparser : r.parser = t.parser := by rw [← hexecute]
    have hupgrade := (hturned.stopped hne (hparser ▸ h.ok)).1
    rw [← hparser, h.stays] at hupgrade
    cases hupgrade
  rw [if_neg (by simp [hreturned])] at hexecute
  exact ⟨t, ht, hreturned, by rw [← hexecute, parser_flush], by rw [← hexecute]⟩

theorem byte_waits {r : Result} (hwaits : Waits p place) (h : Byte p ch r) :
    ∃ next, Waits r.parser next := by
  obtain ⟨r', hr', hexecuted⟩ := execute_executed (fun _ => hwaits) (List.cons_ne_nil ch [])
  obtain rfl := Option.some.inj (h.execute.symm.trans hr')
  obtain ⟨next, -, hnext⟩ := hexecuted.calls
  exact ⟨next, hnext h.ok⟩

theorem bytewise_waits {data : Text} {calls : List Call} (hwaits : ∃ place, Waits p place)
    (h : Bytewise p data q calls) : ∃ place, Waits q place := by
  induction data generalizing p calls with
  | nil =>
    obtain ⟨rfl, -⟩ := h
    exact hwaits
  | cons ch rest ih =>
    obtain ⟨r, more, hbyte, hrest, -⟩ := h
    obtain ⟨place, hwaits⟩ := hwaits
    exact ih (byte_waits hwaits hbyte) hrest

/-! ## The byte that is counted -/

/-- The parser in the switch. -/
def HttpParser.counted (p : HttpParser) : HttpParser :=
  if p.state.parsingHeader then { p with nread := p.nread + 1 } else p

@[simp] theorem counted_state (p : HttpParser) : p.counted.state = p.state := by
  unfold HttpParser.counted
  split_ifs <;> rfl

/-- There is room for another byte of the header. -/
def HttpParser.Counts (p : HttpParser) : Prop :=
  p.state.parsingHeader = true → p.nread + 1 ≤ HTTP_MAX_HEADER_SIZE

theorem counted_near (h : Near p q) : Near p.counted q.counted := by
  obtain ⟨n, hn, rfl⟩ := h
  unfold HttpParser.counted
  split_ifs
  · exact ⟨n + 1, Nat.add_le_add_right hn 1, rfl⟩
  · exact ⟨n, hn, rfl⟩

theorem counts_near (h : Near p q) (hcounts : p.Counts) : q.Counts := by
  obtain ⟨n, hn, rfl⟩ := h
  intro hheader
  exact Nat.le_trans (Nat.add_le_add_right hn 1) (hcounts hheader)

/-- A turn with room for the byte is a switch. -/
theorem turn_dispatch (hrest : s.rest = ch :: rest) (hreturned : s.returned = false)
    (hcounts : s.parser.Counts) :
    turn s = dispatch { s with parser := s.parser.counted } ch := by
  unfold turn
  simp only [hrest]
  unfold HttpParser.counted
  split_ifs with hheader hover hover
  · unfold Cursor.count at hover
    simp [hreturned, Nat.not_lt.mpr (hcounts hheader)] at hover
  · unfold Cursor.count
    simp [hrest, Nat.not_lt.mpr (hcounts hheader)]
  · simp [hreturned] at hover
  · rw [← hrest]

theorem counts_of_turn (hrest : s.rest = ch :: rest) (hturn : turn s = some t)
    (ht : t.returned = false) : s.parser.Counts := by
  intro hheader
  by_contra hover
  unfold turn at hturn
  simp only [hrest, hheader, if_true] at hturn
  have hreturned : (s.count 1).returned = true := by
    unfold Cursor.count
    simp [Nat.not_le.mp hover]
  rw [if_pos hreturned, Option.some.injEq] at hturn
  rw [← hturn, hreturned] at ht
  cases ht

/-- The locals in front of the switch, for a byte in a call of its own. -/
def Cursor.switched (p : HttpParser) (ch : UInt8) : Cursor :=
  { Cursor.start p [ch] with parser := p.counted }

/-- An accepted byte is a switch that goes on, with room for it. -/
theorem byte_dispatch {r : Result} (hwaits : Waits p place) (h : Byte p ch r) :
    p.Counts ∧ ∃ t, dispatch (.switched p ch) ch = some t ∧ t.returned = false ∧
      r.parser = t.parser ∧ r.calls = t.flush.calls := by
  obtain ⟨t, hturn, hgoes, hparser, hcalls⟩ := byte_turn hwaits h
  have hrest : (Cursor.start p [ch]).rest = [ch] := rfl
  have hcounts : p.Counts := counts_of_turn hrest hturn hgoes
  rw [turn_dispatch hrest rfl hcounts] at hturn
  exact ⟨hcounts, t, hturn, hgoes, hparser, hcalls⟩

/-! ## The same callbacks -/

theorem flush_calls_eq (s : Cursor) :
    s.flush.calls = s.calls ++ (s.mark.map fun m => Call.data m.1 m.2).toList := by
  unfold Cursor.flush
  cases hmark : s.mark <;> simp

/-- What was called up to `s` is what was called up to `base`, and behind it up to `u`. -/
structure Follows (base : List Call) (u s : Cursor) : Prop where
  calls : join s.flush.calls = join (base ++ u.flush.calls)
  mark : s.mark.map Prod.fst = u.mark.map Prod.fst

/-- The data behind a mark, with more of it. -/
theorem join_more {calls base : List Call} {kind : Kind} {a b : Text}
    (h : join (calls ++ [.data kind a]) = join (base ++ [.data kind b])) (more : Text) :
    join (calls ++ [.data kind (a ++ more)]) = join (base ++ [.data kind (b ++ more)]) := by
  rw [join_data_append, join_data_append]
  have hcons : ∀ c d : Text, [Call.data kind c, .data kind d] = [.data kind c] ++ [.data kind d] :=
    fun _ _ => rfl
  rw [hcons, hcons, ← List.append_assoc, ← List.append_assoc]
  exact join_append_congr h rfl

theorem join_data_nil (calls : List Call) (kind : Kind) (a : Text) :
    join (calls ++ [.data kind a, .data kind []]) = join (calls ++ [.data kind a]) := by
  rw [← join_data_append, List.append_nil]

theorem follows_with {base : List Call} (h : Follows base u s) (x y : HttpParser) :
    Follows base { u with parser := x } { s with parser := y } := by
  have hcalls := h.calls
  rw [flush_calls_eq, flush_calls_eq] at hcalls
  refine ⟨?_, h.mark⟩
  rw [flush_calls_eq, flush_calls_eq]
  exact hcalls

/-- In front of a byte in a call of its own, where the mark that is set goes on. -/
theorem start_follows (h : s.mark.map Prod.fst = p.state.resumed) :
    Follows s.flush.calls (.start p [ch]) s := by
  have hstart : (Cursor.start p [ch]).mark = p.state.resumed.map fun kind => (kind, []) := rfl
  refine ⟨?_, ?_⟩
  · rw [flush_calls_eq s, flush_calls_eq (.start p [ch]), hstart, ← h]
    cases hmark : s.mark with
    | none => simp [Cursor.start]
    | some m => simpa [Cursor.start] using (join_data_nil s.calls m.1 m.2).symm
  · rw [hstart, h]
    cases p.state.resumed <;> rfl

theorem advance_follows {base : List Call} {m n : Nat} (h : Follows base u s)
    (hbytes : s.rest.take n = u.rest.take m) : Follows base (u.advance m) (s.advance n) := by
  obtain ⟨hcalls, hmark⟩ := h
  rw [flush_calls_eq, flush_calls_eq] at hcalls
  refine ⟨?_, ?_⟩
  · rw [flush_calls_eq, flush_calls_eq]
    simp only [Cursor.advance]
    cases hu : u.mark with
    | none =>
      have hs : s.mark = none := by simpa [hu] using hmark
      simpa [hu, hs] using hcalls
    | some k =>
      obtain ⟨l, hs, hkind⟩ : ∃ l, s.mark = some l ∧ l.1 = k.1 := by simpa [hu] using hmark
      simp only [hu, hs, Option.map_some, Option.toList_some, ← List.append_assoc, hkind] at hcalls ⊢
      rw [hbytes]
      exact join_more hcalls _
  · simp only [Cursor.advance, Option.map_map]
    simpa [Function.comp_def] using hmark

/-- An action of both, where a notification comes when no mark is set. -/
theorem perform_follows {base : List Call} {a : Action} {v w : View} (h : Follows base u s)
    (hshows : u.Shows start place v) (hact : v.act a = some w) :
    ∃ u' s', u.perform a = some u' ∧ s.perform a = some s' ∧ Follows base u' s' ∧
      s'.parser = s.parser ∧ s'.rest = s.rest ∧ s'.returned = s.returned := by
  obtain ⟨hcalls, hmark⟩ := h
  obtain ⟨u', next, hu', -⟩ := perform_shows hshows hact
  have hview := hshows.mark
  refine ⟨u', ?_⟩
  cases hu : u.mark with
  | none =>
    have hs : s.mark = none := by simpa [hu] using hmark
    rw [flush_calls_eq, flush_calls_eq, hu, hs] at hcalls
    simp only [Option.map_none, Option.toList_none, List.append_nil] at hcalls
    cases a with
    | mark kind =>
      obtain rfl : { u with mark := some (kind, []) } = u' := by simpa [Cursor.perform, hu] using hu'
      refine ⟨{ s with mark := some (kind, []) }, hu', by simp [Cursor.perform, hs], ⟨?_, rfl⟩, rfl,
        rfl, rfl⟩
      rw [flush_calls_eq, flush_calls_eq]
      simp only [Option.map_some, Option.toList_some, ← List.append_assoc]
      exact join_append_congr hcalls rfl
    | callbackData kind =>
      obtain rfl : u = u' := by simpa [Cursor.perform, hu] using hu'
      refine ⟨s, hu', by simp [Cursor.perform, hs], ⟨?_, hmark⟩, rfl, rfl, rfl⟩
      rw [flush_calls_eq, flush_calls_eq, hu, hs]
      simpa using hcalls
    | notify call =>
      obtain rfl : { u with calls := u.calls ++ [call] } = u' := by
        simpa [Cursor.perform] using hu'
      refine ⟨{ s with calls := s.calls ++ [call] }, hu', rfl, ⟨?_, hmark⟩, rfl, rfl, rfl⟩
      rw [flush_calls_eq, flush_calls_eq]
      simp only [hu, hs, Option.map_none, Option.toList_none, List.append_nil, ← List.append_assoc]
      exact join_append_congr hcalls rfl
  | some k =>
    obtain ⟨l, hs, hkind⟩ : ∃ l, s.mark = some l ∧ l.1 = k.1 := by simpa [hu] using hmark
    cases a with
    | mark kind =>
      have hsame : k.1 = kind ∧ u = u' := by simpa [Cursor.perform, hu] using hu'
      obtain ⟨hk, rfl⟩ := hsame
      exact ⟨s, hu', by simp [Cursor.perform, hs, hkind, hk], ⟨hcalls, hmark⟩, rfl, rfl, rfl⟩
    | callbackData kind =>
      by_cases hk : k.1 = kind
      · obtain rfl : { u with mark := none, calls := u.calls ++ [.data kind k.2] } = u' := by
          simpa [Cursor.perform, hu, hk] using hu'
        refine ⟨{ s with mark := none, calls := s.calls ++ [.data kind l.2] }, hu',
          by simp [Cursor.perform, hs, hkind, hk], ⟨?_, rfl⟩, rfl, rfl, rfl⟩
        rw [flush_calls_eq, flush_calls_eq, hu, hs] at hcalls
        rw [flush_calls_eq, flush_calls_eq]
        simpa [hkind, hk] using hcalls
      · obtain rfl : u = u' := by simpa [Cursor.perform, hu, hk] using hu'
        exact ⟨s, hu', by simp [Cursor.perform, hs, hkind, hk], ⟨hcalls, hmark⟩, rfl, rfl, rfl⟩
    | notify call =>
      have hv : v.mark = some k.1 := by rw [← hview, hu, Option.map_some]
      simp [View.act, hv] at hact

theorem performAll_follows {base : List Call} {actions : List Action} {v w : View}
    (h : Follows base u s) (hshows : u.Shows start place v)
    (hact : actions.foldlM View.act v = some w) :
    ∃ u' s', actions.foldlM Cursor.perform u = some u' ∧
      actions.foldlM Cursor.perform s = some s' ∧ Follows base u' s' ∧
      s'.parser = s.parser ∧ s'.rest = s.rest ∧ s'.returned = s.returned := by
  induction actions generalizing u s v place with
  | nil => exact ⟨u, s, rfl, rfl, h, rfl, rfl, rfl⟩
  | cons a actions ih =>
    rw [List.foldlM_cons] at hact
    obtain ⟨x, hx, hact⟩ := Option.bind_eq_some_iff.mp hact
    obtain ⟨u', s', hu', hs', hfollows, hparser, hrest, hreturned⟩ := perform_follows h hshows hx
    obtain ⟨u'', next, hu'', hshows', -⟩ := perform_shows hshows hx
    obtain rfl := Option.some.inj (hu'.symm.trans hu'')
    obtain ⟨u2, s2, hu2, hs2, hfollows2, hparser2, hrest2, hreturned2⟩ :=
      ih hfollows hshows' hact
    refine ⟨u2, s2, ?_, ?_, hfollows2, hparser2.trans hparser, hrest2.trans hrest,
      hreturned2.trans hreturned⟩
    · rw [List.foldlM_cons, hu']
      exact hu2
    · rw [List.foldlM_cons, hs']
      exact hs2

/-! ## A state that looks at one byte -/

theorem dispatch_switch (hbulk : s.parser.state.bulk = false) :
    dispatch s ch = (switch s.parser ch).bind s.move := by
  unfold dispatch
  cases hstate : s.parser.state <;> first | rfl | simp [hstate, State.bulk] at hbulk

theorem counted_ready (h : ReadyAt 0 p) : ReadyAt 1 p.counted := by
  unfold HttpParser.counted
  split_ifs with hheader
  · exact readyAt_counted h
  · exact readyAt_uncounted h (by simpa using hheader)

theorem counted_sound (h : p.Sound) : p.counted.Sound := by
  unfold HttpParser.counted
  split_ifs <;> exact h

@[simp] theorem counted_flags (p : HttpParser) : p.counted.flags = p.flags := by
  unfold HttpParser.counted
  split_ifs <;> rfl

/-- The mark that is set goes on, except behind the data of a chunk. -/
theorem mark_resumed (hready : s.Ready start) (hbody : s.parser.state.inBody = false) :
    s.mark.map Prod.fst = s.parser.state.resumed := by
  obtain ⟨-, -, place, v, hsees, hshows, -⟩ := hready
  rw [hshows.mark]
  exact (hsees.1).resolve_right (by simp [hbody])

/-- Both switches do the same. -/
theorem switch_both {r : Result} (hwaits : Waits p place) (hnear : Near p s.parser)
    (hbulk : p.state.bulk = false) (hrest : s.rest = ch :: rest) (hreturned : s.returned = false)
    (hbyte : Byte p ch r) :
    ∃ m w, switch p.counted ch = some m ∧ Fine p.state p.flags.trailing m ∧ m.Near w ∧
      m.ending = .next ∧ turn s = Cursor.move { s with parser := s.parser.counted } w ∧
      ∃ u, m.actions.foldlM Cursor.perform { Cursor.start p [ch] with parser := m.parser } = some u ∧
        r.parser = m.parser ∧ r.calls = (u.advance 1).flush.calls := by
  obtain ⟨hcounts, t, hturn, hgoes, hparser, hcalls⟩ := byte_dispatch hwaits hbyte
  obtain ⟨m, hswitch, hfine⟩ := @switch_fine p.counted ch (counted_sound hwaits.sound)
    (counted_ready hwaits.ready) (by simpa using hbulk)
  have hsame : s.parser.state = p.state := by
    obtain ⟨n, -, heq⟩ := hnear
    rw [heq]
  have hcountedSize : p.counted.state = .chunkSizeStart →
      s.parser.counted.nread = p.counted.nread := by
    intro hstate
    have hsize : p.state = .chunkSizeStart := by simpa using hstate
    obtain ⟨n, hn, heq⟩ := hnear
    have hzero : p.nread = 0 := by
      have hready := hwaits.ready
      simp only [ReadyAt, hsize] at hready
      exact hready.1
    simp [heq, HttpParser.counted, hsize, State.parsingHeader]
    omega
  obtain ⟨w, hswitch', hnear'⟩ := switch_near (counted_near hnear) hcountedSize hswitch
  rw [counted_state, counted_flags] at hfine
  have hmoved : (Cursor.switched p ch).parser = p.counted := rfl
  rw [dispatch_switch (by simpa [hmoved] using hbulk), hmoved] at hturn
  simp only [hswitch, Option.bind_some, Cursor.move, Option.bind_eq_bind] at hturn
  obtain ⟨u, hu, hclose⟩ := Option.bind_eq_some_iff.mp hturn
  have hclose := Option.some.inj hclose
  obtain ⟨place', v, hsees, hshows, -⟩ := (start_ready hwaits [ch]).shows
  obtain ⟨x, hfold, -⟩ := hfine.follows v hsees
  obtain ⟨u', next, hu', -, hparser', -, hreturned'⟩ :=
    performAll_shows (shows_with m.parser hshows) hfold
  obtain rfl := Option.some.inj (hu.symm.trans hu')
  have hending : m.ending = .next := by
    cases hend : m.ending with
    | next => rfl
    | error | leave =>
      rw [← hclose, hend] at hgoes
      cases hgoes
  rw [hending] at hclose
  refine ⟨m, w, hswitch, hfine, hnear', hending, ?_, u, hu, ?_, ?_⟩
  · rw [turn_dispatch hrest hreturned (counts_near hnear hcounts),
      dispatch_switch (by simpa [hsame] using hbulk), hswitch', Option.bind_some]
  · rw [hparser, ← hclose]
    exact hparser'
  · rw [hcalls, ← hclose]
    rfl

/-- What a turn over some bytes does, where they were accepted one by one. -/
structure Joined (s : Cursor) (p : HttpParser) (data : Text) (t : Cursor) (q : HttpParser)
    (calls : List Call) : Prop where
  bytes : Bytewise p data q calls
  near : Near q t.parser
  calls : join t.flush.calls = join (s.flush.calls ++ calls)
  rest : s.rest = data ++ t.rest
  some : data ≠ []
  returned : t.returned = false

theorem bytewise_singleton {r : Result} (h : Byte p ch r) :
    Bytewise p [ch] r.parser r.calls :=
  ⟨r, [], h, ⟨rfl, rfl⟩, by simp⟩

theorem plain_joined {r : Result} (hwaits : Waits p place) (hnear : Near p s.parser)
    (hbulk : p.state.bulk = false) (hbody : p.state.inBody = false) (hready : s.Ready start)
    (hrest : s.rest = ch :: rest) (hreturned : s.returned = false) (hbyte : Byte p ch r) :
    ∃ t, turn s = some t ∧ Joined s p [ch] t r.parser r.calls := by
  have hsame : s.parser.state = p.state := by
    obtain ⟨n, -, heq⟩ := hnear
    rw [heq]
  obtain ⟨m, w, -, hfine, hmove, hending, hturn, u, hu, hparser, hcalls⟩ :=
    switch_both hwaits hnear hbulk hrest hreturned hbyte
  have hmark : s.mark.map Prod.fst = p.state.resumed := by
    rw [mark_resumed hready (by rw [hsame]; exact hbody), hsame]
  have hfollows := follows_with (@start_follows s p ch hmark) m.parser w.parser
  obtain ⟨place', v, hsees, hshows, -⟩ := (start_ready hwaits [ch]).shows
  obtain ⟨x, hfold, -⟩ := hfine.follows v hsees
  obtain ⟨u', t, hu', ht, hfollows', hparsert, hrestt, hreturnedt⟩ :=
    performAll_follows hfollows (shows_with m.parser hshows) hfold
  obtain rfl := Option.some.inj (hu.symm.trans hu')
  obtain ⟨u'', -, hu'', -, -, hrestu, -⟩ :=
    performAll_shows (shows_with m.parser hshows) hfold
  obtain rfl := Option.some.inj (hu.symm.trans hu'')
  refine ⟨t.advance 1, ?_, bytewise_singleton hbyte, ?_, ?_, ?_, by simp, hreturnedt.trans hreturned⟩
  · rw [hturn]
    unfold Cursor.move
    simp [hmove.actions, ht, hmove.ending, hending, Cursor.close]
  · rw [hparser]
    show Near m.parser t.parser
    rw [hparsert]
    exact hmove.parser
  · rw [hcalls]
    refine (advance_follows hfollows' ?_).calls
    rw [hrestt, hrestu]
    simp [hrest, Cursor.start]
  · show s.rest = [ch] ++ t.rest.drop 1
    rw [hrestt]
    simp [hrest]

/-- Behind the data of a chunk, it is handed over if it is not yet. -/
theorem chunkDataAlmostDone_joined {r : Result} (hwaits : Waits p place) (hnear : Near p s.parser)
    (hstate : p.state = .chunkDataAlmostDone) (hready : s.Ready start)
    (hrest : s.rest = ch :: rest) (hreturned : s.returned = false) (hbyte : Byte p ch r) :
    ∃ t, turn s = some t ∧ Joined s p [ch] t r.parser r.calls := by
  have hsame : s.parser.state = p.state := by
    obtain ⟨n, -, heq⟩ := hnear
    rw [heq]
  obtain ⟨m, w, hswitch, -, hmove, hending, hturn, u, hu, hparser, hcalls⟩ :=
    switch_both hwaits hnear (by rw [hstate]; rfl) hrest hreturned hbyte
  have hactions : m.actions = [.callbackData .body] := by
    unfold switch at hswitch
    rw [counted_state, hstate] at hswitch
    simp only [chunkDataAlmostDone] at hswitch
    split_ifs at hswitch
    · cases hswitch
      cases hending
    · cases hswitch
      rfl
  have hstart : (Cursor.start p [ch]).mark = none := by
    simp [Cursor.start, hstate, State.resumed]
  have hu' : u = { Cursor.start p [ch] with parser := m.parser } := by
    rw [hactions] at hu
    simpa [Cursor.perform, hstart] using hu.symm
  have hnone : (u.advance 1).flush.calls = [] := by
    rw [flush_calls_eq, hu']
    simp [Cursor.advance, hstart]
    rfl
  have hperform : ∃ t, Cursor.perform { s with parser := w.parser } (.callbackData .body) = some t ∧
      t.mark = none ∧ t.flush.calls = s.flush.calls ∧ t.parser = w.parser ∧ t.rest = s.rest ∧
      t.returned = s.returned := by
    obtain ⟨-, -, place', v, hsees, hshows, -⟩ := hready
    have hmark : v.mark = none ∨ v.mark = some .body := by
      simpa [hsame, hstate, State.Allows, State.resumed, State.inBody] using hsees.1
    rw [← hshows.mark, Option.map_eq_none_iff, Option.map_eq_some_iff] at hmark
    rcases hmark with hmark | ⟨k, hmark, hkind⟩
    · refine ⟨{ s with parser := w.parser }, by simp [Cursor.perform, hmark], hmark, ?_, rfl, rfl, rfl⟩
      rw [flush_calls_eq, flush_calls_eq]
    · refine ⟨{ s with parser := w.parser, mark := none, calls := s.calls ++ [.data .body k.2] },
        by simp [Cursor.perform, hmark, hkind], rfl, ?_, rfl, rfl, rfl⟩
      rw [flush_calls_eq, flush_calls_eq, hmark]
      simp [hkind]
  obtain ⟨t, ht, hmarkt, hcallst, hparsert, hrestt, hreturnedt⟩ := hperform
  refine ⟨t.advance 1, ?_, bytewise_singleton hbyte, ?_, ?_, ?_, by simp, hreturnedt.trans hreturned⟩
  · rw [hturn]
    unfold Cursor.move
    simp [hmove.actions, hactions, ht, hmove.ending, hending, Cursor.close]
  · rw [hparser]
    show Near m.parser t.parser
    rw [hparsert]
    exact hmove.parser
  · rw [flush_calls_eq] at hcallst
    rw [hcalls, hnone, flush_calls_eq, List.append_nil, ← hcallst, hmarkt]
    simp [Cursor.advance, hmarkt]
  · show s.rest = [ch] ++ t.rest.drop 1
    rw [hrestt]
    simp [hrest]

/-! ## Header names -/

/-- The parser with another number of bytes counted. -/
def HttpParser.recount (p : HttpParser) (n : Nat) : HttpParser := { p with nread := n }

theorem matchName_recount {name : Text} {waiting complete other : HeaderState} {c : UInt8}
    (n : Nat) : matchName name waiting complete other (p.recount n) c =
      (matchName name waiting complete other p c).map fun x => (x.1.recount n, x.2) := by
  have hnext : (p.recount n).nextIndex = p.nextIndex.recount n := rfl
  have hindex : (p.nextIndex.recount n).index = p.nextIndex.index := rfl
  unfold matchName
  simp only [hnext, hindex]
  by_cases hlong : name.length < p.nextIndex.index
  · rw [if_pos hlong, if_pos hlong]
    rfl
  · rw [if_neg hlong, if_neg hlong]
    cases (name ++ [0])[p.nextIndex.index]? with
    | none => rfl
    | some expected =>
      simp only [Option.bind_eq_bind, Option.bind_some]
      split_ifs <;> rfl

theorem fieldChar_recount {c : UInt8} (n : Nat) :
    fieldChar (p.recount n) ch c = (fieldChar p ch c).map fun x => (x.1.recount n, x.2) := by
  have hheader : (p.recount n).headerState = p.headerState := rfl
  unfold fieldChar
  rw [hheader]
  cases p.headerState <;> first | rfl | exact matchName_recount n

theorem scanField_recount (data : Text) (n : Nat) :
    scanField (p.recount n) data = (scanField p data).map fun x => (x.1.recount n, x.2) := by
  induction data generalizing p with
  | nil => rfl
  | cons ch rest ih =>
    unfold scanField
    by_cases htoken : token ch = 0
    · rw [if_pos htoken, if_pos htoken]
      rfl
    · rw [if_neg htoken, if_neg htoken, fieldChar_recount]
      cases fieldChar p ch (token ch) with
      | none => rfl
      | some x =>
        have hheader : ({ x.1.recount n with headerState := x.2 } : HttpParser) =
            HttpParser.recount { x.1 with headerState := x.2 } n := rfl
        simp only [Option.map_some, Option.bind_eq_bind, Option.bind_some, hheader, ih]
        cases scanField { x.1 with headerState := x.2 } rest <;> rfl

/-- The data from a mark, byte by byte. -/
def pieces (kind : Kind) (data : Text) : List Call := data.map fun c => .data kind [c]

theorem join_pieces (calls : List Call) (kind : Kind) (a data : Text) :
    join (calls ++ [.data kind a] ++ pieces kind data) = join (calls ++ [.data kind (a ++ data)]) := by
  induction data generalizing a with
  | nil => simp [pieces]
  | cons c data ih =>
    have hone : join (calls ++ [.data kind a] ++ [.data kind [c]]) =
        join (calls ++ [.data kind (a ++ [c])]) := by
      rw [List.append_assoc, join_data_append]
      rfl
    have hsplit : calls ++ [.data kind a] ++ pieces kind (c :: data) =
        calls ++ [.data kind a] ++ [.data kind [c]] ++ pieces kind data := by simp [pieces]
    rw [hsplit, join_append_congr hone rfl, ih]
    simp

theorem count_eq {n : Nat} (h : s.parser.nread + n ≤ HTTP_MAX_HEADER_SIZE) :
    s.count n = { s with parser := s.parser.recount (s.parser.nread + n) } := by
  unfold Cursor.count
  simp only
  rw [if_neg (Nat.not_lt.mpr h)]
  rfl

theorem count_over {n : Nat} (h : HTTP_MAX_HEADER_SIZE < s.parser.nread + n) :
    (s.count n).returned = true := by
  unfold Cursor.count
  simp only
  rw [if_pos h]

/-- Behind the characters of a header name, counted. -/
def Cursor.behind (u : Cursor) (x : HttpParser) (n : Nat) : Cursor :=
  { u with parser := x.recount (x.nread + n) }.advance n

/-- A turn over a header name with room for it. -/
theorem headerField_eq {x : HttpParser} {n : Nat} (hscan : scanField u.parser u.rest = some (x, n))
    (hroom : x.nread + n ≤ HTTP_MAX_HEADER_SIZE) (hreturned : u.returned = false) :
    headerField u = match u.rest.drop n with
      | [] => some (u.behind x n)
      | c :: _ => (u.behind x n).move (fieldEnd (u.behind x n).parser c) := by
  have hcount : ({ u with parser := x }.advance n).count n = u.behind x n := by
    rw [count_eq hroom]
    rfl
  unfold headerField
  simp only [hscan, Option.bind_eq_bind, Option.bind_some, hcount]
  unfold fieldRest
  have hbehind : (u.behind x n).returned = false := hreturned
  rw [if_neg (by simp [hbehind])]
  rfl

theorem headerField_room {x : HttpParser} {n : Nat} (hscan : scanField u.parser u.rest = some (x, n))
    (hturn : headerField u = some t) (ht : t.returned = false) :
    x.nread + n ≤ HTTP_MAX_HEADER_SIZE := by
  by_contra hover
  have hreturned : (({ u with parser := x }.advance n).count n).returned = true :=
    count_over (Nat.not_le.mp hover)
  unfold headerField at hturn
  simp only [hscan, Option.bind_eq_bind, Option.bind_some] at hturn
  unfold fieldRest at hturn
  rw [if_pos hreturned, Option.some.injEq] at hturn
  rw [← hturn, hreturned] at ht
  cases ht

/-- A header name goes on to its value if a colon follows. -/
theorem fieldEnd_move {bytes : Text} (hmark : u.mark = some (.headerField, bytes)) (c : UInt8) :
    u.move (fieldEnd u.parser c) = some (if c = 58 then
      Cursor.advance { u with
        parser := { u.parser with state := .headerValueDiscardWs }
        mark := none
        calls := u.calls ++ [.data .headerField bytes] } 1
      else { u with
        parser := { u.parser with httpErrno := .invalidHeaderToken }
        returned := true }) := by
  unfold fieldEnd
  split_ifs with hcolon
  · simp [Cursor.move, HttpParser.next, Cursor.perform, hmark, Cursor.close]
  · simp [Cursor.move, HttpParser.fail, Cursor.close]

/-- The data is handed over with a piece that is empty, where its last byte came before. -/
theorem join_handed {calls base : List Call} {kind : Kind} {data more : Text}
    (h : join (calls ++ [.data kind data]) = join (base ++ pieces kind more)) :
    join (calls ++ [.data kind data]) = join (base ++ (pieces kind more ++ [.data kind []])) := by
  rw [← List.append_assoc, ← join_append_congr h rfl, List.append_assoc]
  exact (join_data_nil _ _ _).symm

/-- A byte in a header name. -/
theorem field_byte {r : Result} (hwaits : Waits p place) (hstate : p.state = .headerField)
    (hbyte : Byte p ch r) :
    (token ch ≠ 0 ∧ p.nread + 2 ≤ HTTP_MAX_HEADER_SIZE ∧ r.calls = [.data .headerField [ch]] ∧
      ∃ x h, fieldChar p ch (token ch) = some (x, h) ∧
        r.parser = ({ x with headerState := h } : HttpParser).recount (p.nread + 2)) ∨
    (token ch = 0 ∧ p.nread + 1 ≤ HTTP_MAX_HEADER_SIZE ∧ ch = 58 ∧
      r.calls = [.data .headerField []] ∧
      r.parser = { p.recount (p.nread + 1) with state := .headerValueDiscardWs }) := by
  obtain ⟨hcounts, t, hturn, hgoes, hparser, hcalls⟩ := byte_dispatch hwaits hbyte
  have hroom : p.nread + 1 ≤ HTTP_MAX_HEADER_SIZE := hcounts (by rw [hstate]; rfl)
  have hcounted : (Cursor.switched p ch).parser = p.recount (p.nread + 1) := by
    simp [Cursor.switched, HttpParser.counted, hstate, State.parsingHeader, HttpParser.recount]
  have hmark : (Cursor.switched p ch).mark = some (.headerField, []) := by
    simp [Cursor.switched, Cursor.start, hstate, State.resumed]
  have hrest : (Cursor.switched p ch).rest = [ch] := rfl
  have hnone : (Cursor.switched p ch).calls = [] ∧ (Cursor.switched p ch).returned = false :=
    ⟨rfl, rfl⟩
  generalize Cursor.switched p ch = u at *
  have hturn : headerField u = some t := by
    unfold dispatch at hturn
    simpa [hcounted, HttpParser.recount, hstate] using hturn
  by_cases htoken : token ch = 0
  · have hscan : scanField u.parser u.rest = some (p.recount (p.nread + 1), 0) := by
      simp [scanField, hrest, htoken, hcounted]
    have hbehind : (u.behind (p.recount (p.nread + 1)) 0).mark = some (.headerField, []) := by
      simp [Cursor.behind, Cursor.advance, hmark]
    rw [headerField_eq hscan hroom hnone.2, hrest] at hturn
    have ht := Option.some.inj ((fieldEnd_move hbehind ch).symm.trans hturn)
    split_ifs at ht with hcolon
    · refine Or.inr ⟨htoken, hroom, hcolon, ?_, ?_⟩
      · rw [hcalls, ← ht, flush_calls_eq]
        simp [Cursor.advance, Cursor.behind, hnone.1]
      · rw [hparser, ← ht]
        rfl
    · rw [← ht] at hgoes
      cases hgoes
  · obtain ⟨x, h, hchar, -, hkeeps⟩ := @fieldChar_ok p ch (token ch) (by
      have hready := hwaits.ready
      simpa [ReadyAt, hstate] using hready)
    have hscan : scanField u.parser u.rest =
        some (({ x with headerState := h } : HttpParser).recount (p.nread + 1), 1) := by
      rw [hcounted, hrest, scanField_recount]
      simp [scanField, htoken, hchar]
    have hroom2 := headerField_room hscan hturn hgoes
    rw [headerField_eq hscan hroom2 hnone.2, hrest] at hturn
    have ht := Option.some.inj hturn
    refine Or.inl ⟨htoken, hroom2, ?_, x, h, hchar, ?_⟩
    · rw [hcalls, ← ht, flush_calls_eq]
      simp [Cursor.behind, Cursor.advance, hmark, hnone.1, hrest]
    · rw [hparser, ← ht]
      rfl

/-- The bytes of a header name: as far as the loop over them goes. -/
theorem field_bytes {data : Text} {calls : List Call} (hwaits : Waits p place)
    (hstate : p.state = .headerField) (h : Bytewise p data q calls) :
    ∃ x n more, scanField p data = some (x, n) ∧ x.state = .headerField ∧
      Bytewise p (data.take n) (x.recount (p.nread + 2 * n)) (pieces .headerField (data.take n)) ∧
      Bytewise (x.recount (p.nread + 2 * n)) (data.drop n) q more ∧
      calls = pieces .headerField (data.take n) ++ more ∧ n ≤ data.length ∧
      (0 < n → p.nread + 2 * n ≤ HTTP_MAX_HEADER_SIZE) ∧
      (∀ c rest, data.drop n = c :: rest → token c = 0) := by
  induction data generalizing p calls place with
  | nil => exact ⟨p, 0, calls, rfl, hstate, ⟨rfl, rfl⟩, h, rfl, Nat.le_refl 0, nofun, nofun⟩
  | cons ch rest ih =>
    obtain ⟨r, more, hbyte, hrest, rfl⟩ := id h
    rcases field_byte hwaits hstate hbyte with
      ⟨htoken, hroom, hcalls, x, h', hchar, hparser⟩ | ⟨htoken, -⟩
    · obtain ⟨next, hwaits'⟩ := byte_waits hwaits hbyte
      have hready := hwaits.ready
      simp only [ReadyAt, hstate] at hready
      obtain ⟨x', h'', hchar', -, hkeeps⟩ := @fieldChar_ok p ch (token ch) hready
      obtain ⟨rfl, rfl⟩ := Prod.mk.inj (Option.some.inj (hchar'.symm.trans hchar))
      have hstate' : r.parser.state = .headerField := by
        rw [hparser]
        exact hkeeps.state.trans hstate
      obtain ⟨y, n, more', hscan, hy, htake, hdrop, rfl, hle, hroom', hends⟩ :=
        ih hwaits' hstate' hrest
      have hcount : r.parser.nread = p.nread + 2 := by rw [hparser]; rfl
      have hsize : p.nread + 2 * (n + 1) = r.parser.nread + 2 * n := by omega
      rw [hparser, scanField_recount] at hscan
      cases hscan' : scanField { x' with headerState := h'' } rest with
      | none => simp [hscan'] at hscan
      | some z =>
        simp only [hscan', Option.map_some, Option.some.injEq] at hscan
        obtain ⟨rfl, rfl⟩ := Prod.mk.inj hscan
        refine ⟨z.1, z.2 + 1, more', ?_, hy, ?_, ?_, ?_, by simpa using hle, ?_, ?_⟩
        · simp [scanField, htoken, hchar, hscan']
        · refine ⟨r, pieces .headerField (rest.take z.2), hbyte, ?_, ?_⟩
          · rw [hsize]
            exact htake
          · rw [hcalls]
            rfl
        · rw [hsize]
          exact hdrop
        · rw [hcalls]
          rfl
        · intro _
          by_cases hn : 0 < z.2
          · rw [hsize]
            exact hroom' hn
          · omega
        · exact hends
    · refine ⟨p, 0, _, by simp [scanField, htoken], hstate, ⟨rfl, rfl⟩, h, rfl, Nat.zero_le _,
        nofun, ?_⟩
      intro c rest' heq
      obtain ⟨rfl, rfl⟩ := List.cons.inj heq
      exact htoken

/-- A turn over a header name. -/
theorem headerField_joined {calls : List Call} (hwaits : Waits p place)
    (hnear : Near p s.parser) (hstate : p.state = .headerField) (hready : s.Ready start)
    (hrest : s.rest = ch :: rest) (hreturned : s.returned = false)
    (hbytes : Bytewise p s.rest q calls) :
    ∃ t data r c, turn s = some t ∧ Joined s p data t r c := by
  obtain ⟨x, n, more, hscan, hx, htake, hdrop, rfl, hle, hroom, hends⟩ :=
    field_bytes hwaits hstate hbytes
  obtain ⟨k, hk, hparser⟩ := hnear
  have hstates : s.parser.state = .headerField := by rw [hparser, hstate]
  have hcounts : p.nread + 1 ≤ HTTP_MAX_HEADER_SIZE := by
    rw [hrest] at hbytes
    obtain ⟨r, -, hbyte, -⟩ := hbytes
    exact (byte_dispatch hwaits hbyte).1 (by rw [hstate]; rfl)
  have hcounted : s.parser.counted = p.recount (k + 1) := by
    simp [HttpParser.counted, hparser, hstate, State.parsingHeader, HttpParser.recount]
  have hturn : turn s = headerField { s with parser := p.recount (k + 1) } := by
    rw [turn_dispatch hrest hreturned (fun _ => by rw [hparser]; exact Nat.le_trans (by simpa using hk) hcounts),
      hcounted]
    unfold dispatch
    simp [HttpParser.recount, hstate]
  have hscans : scanField (p.recount (k + 1)) s.rest = some (x.recount (k + 1), n) := by
    rw [scanField_recount, hscan]
    rfl
  have hrooms : (x.recount (k + 1)).nread + n ≤ HTTP_MAX_HEADER_SIZE := by
    show k + 1 + n ≤ _
    by_cases hn : 0 < n
    · have := hroom hn
      omega
    · omega
  rw [headerField_eq (u := { s with parser := p.recount (k + 1) }) hscans hrooms hreturned] at hturn
  obtain ⟨bytes, hmark⟩ : ∃ bytes, s.mark = some (.headerField, bytes) := by
    have hkind := mark_resumed hready (by rw [hstates]; rfl)
    rw [hstates] at hkind
    obtain ⟨m, hm, hkind⟩ := Option.map_eq_some_iff.mp hkind
    exact ⟨m.2, by rw [hm, ← hkind]⟩
  have hbehind : ∀ u, u = Cursor.behind { s with parser := p.recount (k + 1) }
      (x.recount (k + 1)) n → u.mark = some (.headerField, bytes ++ s.rest.take n) ∧
        u.calls = s.calls ∧ u.rest = s.rest.drop n ∧ u.returned = false ∧
        u.parser = x.recount (k + 1 + n) := by
    rintro u rfl
    exact ⟨by simp [Cursor.behind, Cursor.advance, hmark], rfl, rfl, hreturned, rfl⟩
  obtain ⟨hmarku, hcallsu, hrestu, hreturnedu, hparseru⟩ := hbehind _ rfl
  generalize Cursor.behind { s with parser := p.recount (k + 1) } (x.recount (k + 1)) n = u at *
  have hcalls : join (s.calls ++ [.data .headerField (bytes ++ s.rest.take n)]) =
      join (s.flush.calls ++ pieces .headerField (s.rest.take n)) := by
    rw [flush_calls_eq, hmark]
    exact (join_pieces _ _ _ _).symm
  have hsplit : s.rest = s.rest.take n ++ s.rest.drop n := (List.take_append_drop n s.rest).symm
  cases hcase : s.rest.drop n with
  | nil =>
    have hn : n = s.rest.length := by
      have := List.drop_eq_nil_iff.mp hcase
      omega
    have hpos : 0 < n := by rw [hn, hrest]; simp
    rw [hcase] at hturn
    refine ⟨u, s.rest.take n, _, _, hturn, htake, ?_, ?_, by rw [hrestu]; exact hsplit, ?_,
      hreturnedu⟩
    · rw [hparseru]
      refine ⟨k + 1 + n, ?_, rfl⟩
      show k + 1 + n ≤ p.nread + 2 * n
      omega
    · rw [flush_calls_eq, hmarku, hcallsu]
      exact hcalls
    · rw [hn, List.take_length, hrest]
      simp
  | cons c rest' =>
    rw [hcase] at hturn hdrop
    obtain ⟨r, -, hbyte, -⟩ := hdrop
    obtain ⟨place', hwaits'⟩ := bytewise_waits ⟨place, hwaits⟩ htake
    have hx' : (x.recount (p.nread + 2 * n)).state = .headerField := hx
    rcases field_byte hwaits' hx' hbyte with ⟨htoken, -⟩ | ⟨-, -, hcolon, hcallsr, hparserr⟩
    · exact absurd (hends c rest' hcase) htoken
    have hmove := (fieldEnd_move hmarku c).symm.trans hturn.symm
    rw [if_pos hcolon] at hmove
    refine ⟨_, s.rest.take n ++ [c], r.parser, _, Eq.symm hmove, bytewise_append.mpr
      ⟨_, _, _, htake, bytewise_singleton hbyte, rfl⟩, ?_, ?_, ?_, by simp, hreturnedu⟩
    · rw [hparserr]
      refine ⟨k + 1 + n, ?_, ?_⟩
      · show k + 1 + n ≤ p.nread + 2 * n + 1
        omega
      · show ({ u.parser with state := .headerValueDiscardWs } : HttpParser) = _
        rw [hparseru]
        rfl
    · rw [hcallsr, flush_calls_eq, hcallsu]
      simp only [Cursor.advance, Option.map_none, Option.toList_none, List.append_nil]
      exact join_handed hcalls
    · show s.rest = s.rest.take n ++ [c] ++ u.rest.drop 1
      rw [hrestu, hcase]
      simpa [hcase] using hsplit

end Turns

end huasi.http_execute
