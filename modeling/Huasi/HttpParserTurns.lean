-- The loop of http_parser_execute (src/src/http/http_parser.c): each turn keeps what the parser
-- relies on, takes a byte at least or returns, and hands the callbacks over in their order.
import Huasi.HttpParserReady

open huasi.text huasi.runs huasi.http_parser

namespace huasi.http_execute

/-! ## The characters of a header line -/

section Characters

variable {parser : HttpParser} {ch c : UInt8}

/-- What the characters of a header line leave as it is. -/
structure Keeps (p q : HttpParser) : Prop where
  state : q.state = p.state
  sound : p.Sound → q.Sound
  nread : q.nread = p.nread
  upgrade : q.upgrade = p.upgrade
  trailing : q.flags.trailing = p.flags.trailing

theorem Keeps.refl (p : HttpParser) : Keeps p p := ⟨rfl, id, rfl, rfl, rfl⟩

theorem Keeps.trans {p q r : HttpParser} (h : Keeps p q) (h' : Keeps q r) : Keeps p r :=
  ⟨h'.state.trans h.state, fun hp => h'.sound (h.sound hp), h'.nread.trans h.nread,
    h'.upgrade.trans h.upgrade, h'.trailing.trans h.trailing⟩

theorem keeps_nextIndex (p : HttpParser) : Keeps p p.nextIndex := ⟨rfl, id, rfl, rfl, rfl⟩

/-- A name goes on, is complete, or is another one. It is not read behind its zero. -/
theorem matchName_ok {name : Text} (waiting complete other : HeaderState)
    (hlen : name.length < 100) (h : parser.index + 1 < name.length) :
    ∃ h', matchName name waiting complete other parser c = some (parser.nextIndex, h') ∧
      (h' = other ∨ h' = complete ∨
        (h' = waiting ∧ parser.nextIndex.index + 1 < name.length)) := by
  have hnext : parser.nextIndex.index = parser.index + 1 := nextIndex_index (by omega)
  have hlt : parser.nextIndex.index < (name ++ [0]).length := by
    rw [List.length_append, List.length_singleton]
    omega
  unfold matchName
  simp only
  rw [if_neg (by omega)]
  simp only [List.getElem?_eq_getElem hlt, Option.bind_eq_bind, Option.bind_some]
  split_ifs with hother hend
  · exact ⟨other, rfl, Or.inl rfl⟩
  · exact ⟨complete, rfl, Or.inr (Or.inl rfl)⟩
  · exact ⟨waiting, rfl, Or.inr (Or.inr ⟨rfl, by omega⟩)⟩

/-- A character of a header name is never looked up outside a name. -/
theorem fieldChar_ok (h : FieldOk parser.index parser.headerState) :
    ∃ q h', fieldChar parser ch c = some (q, h') ∧ FieldOk q.index h' ∧ Keeps parser q := by
  have hmatch : ∀ (name : Text) (waiting complete : HeaderState), name.length < 100 →
      parser.index + 1 < name.length → (∀ n, FieldOk n complete) →
      (∀ n, n + 1 < name.length → FieldOk n waiting) →
      ∃ q h', matchName name waiting complete .general parser c = some (q, h') ∧
        FieldOk q.index h' ∧ Keeps parser q := by
    intro name waiting complete hlen hindex hcomplete hwaiting
    obtain ⟨h', heq, hcases⟩ := matchName_ok waiting complete .general hlen hindex
    refine ⟨_, h', heq, ?_, keeps_nextIndex parser⟩
    rcases hcases with rfl | rfl | ⟨rfl, hlt⟩
    · trivial
    · exact hcomplete _
    · exact hwaiting _ hlt
  have hnext : ∀ n < 10, parser.index = n → parser.nextIndex.index = n + 1 := by
    intro n hn hindex
    rw [nextIndex_index (by omega), hindex]
  unfold fieldChar
  cases hh : parser.headerState with
  | general => exact ⟨_, _, rfl, trivial, Keeps.refl _⟩
  | c =>
    rw [hh] at h
    refine ⟨_, _, rfl, ?_, keeps_nextIndex _⟩
    split_ifs
    · exact hnext 0 (by omega) h
    · trivial
  | co =>
    rw [hh] at h
    refine ⟨_, _, rfl, ?_, keeps_nextIndex _⟩
    split_ifs
    · exact hnext 1 (by omega) h
    · trivial
  | con =>
    rw [hh] at h
    refine ⟨_, _, rfl, ?_, keeps_nextIndex _⟩
    rw [hnext 2 (by omega) h]
    split_ifs <;> simp only [FieldOk] <;> decide
  | matchingConnection | matchingProxyConnection | matchingContentLength
  | matchingTransferEncoding | matchingUpgrade =>
    rw [hh] at h
    exact hmatch _ _ _ (by decide) h (fun _ => trivial) fun _ h => h
  | connection | contentLength | transferEncoding | upgrade =>
    simp only
    refine ⟨_, _, rfl, ?_, Keeps.refl _⟩
    split_ifs
    · trivial
    · simp [FieldOk]
  | _ => simp [hh, FieldOk] at h

theorem scanField_ok (data : Text) (h : FieldOk parser.index parser.headerState) :
    ∃ q n, scanField parser data = some (q, n) ∧ FieldOk q.index q.headerState ∧
      Keeps parser q ∧ n ≤ data.length := by
  induction data generalizing parser with
  | nil => exact ⟨parser, 0, rfl, h, Keeps.refl _, Nat.le_refl 0⟩
  | cons ch rest ih =>
    unfold scanField
    by_cases htoken : token ch = 0
    · rw [if_pos htoken]
      exact ⟨parser, 0, rfl, h, Keeps.refl _, Nat.zero_le _⟩
    · rw [if_neg htoken]
      obtain ⟨p, h', hchar, hok, hkeeps⟩ := @fieldChar_ok parser ch (token ch) h
      have hset : Keeps p { p with headerState := h' } := ⟨rfl, id, rfl, rfl, rfl⟩
      obtain ⟨q, n, hscan, hok', hkeeps', hn⟩ := @ih { p with headerState := h' } hok
      refine ⟨q, n + 1, ?_, hok', ?_, ?_⟩
      · simp [hchar, hscan]
      · exact (hkeeps.trans hset).trans hkeeps'
      · simpa using hn

/-- What a character of a header value can do. -/
def CharOk (p : HttpParser) (r : Except Errno (HttpParser × HeaderState)) : Prop :=
  match r with
  | .ok (q, h) => ValueOk q.index h ∧ Keeps p q
  | .error e => e ≠ .ok

theorem contentLengthChar_ok : CharOk parser (contentLengthChar parser ch) := by
  unfold contentLengthChar
  split_ifs
  · exact ⟨trivial, Keeps.refl _⟩
  · simp [CharOk]
  · simp [CharOk]
  · refine ⟨trivial, rfl, fun h => ⟨h.1, ?_⟩, rfl, rfl, rfl⟩
    simp only [ULLONG_MAX]
    omega

theorem tokenEnd_ok {h : HeaderState} (hvalue : ∀ n, ValueOk n h) :
    CharOk parser (.ok (tokenEnd parser h ch)) := by
  unfold tokenEnd
  split_ifs
  · refine ⟨rfl, rfl, id, rfl, rfl, ?_⟩
    simp
  · exact ⟨trivial, Keeps.refl _⟩
  · exact ⟨hvalue _, Keeps.refl _⟩

theorem valueChar_ok {h : HeaderState} (hvalue : ValueOk parser.index h) :
    ∃ r, valueChar parser h ch = some r ∧ CharOk parser r := by
  have hmatch : ∀ (name : Text) (waiting complete other : HeaderState), name.length < 100 →
      parser.index + 1 < name.length → (∀ n, ValueOk n complete) → (∀ n, ValueOk n other) →
      (∀ n, n + 1 < name.length → ValueOk n waiting) →
      ∃ r, (matchName name waiting complete other parser (lower ch)).map .ok = some r ∧
        CharOk parser r := by
    intro name waiting complete other hlen hindex hcomplete hother hwaiting
    obtain ⟨h', heq, hcases⟩ := matchName_ok waiting complete other hlen hindex
    rw [heq]
    refine ⟨_, rfl, ?_, keeps_nextIndex parser⟩
    rcases hcases with rfl | rfl | ⟨rfl, hlt⟩
    · exact hother _
    · exact hcomplete _
    · exact hwaiting _ hlt
  unfold valueChar
  cases h with
  | general => exact ⟨_, rfl, trivial, Keeps.refl _⟩
  | contentLength => exact ⟨_, rfl, contentLengthChar_ok⟩
  | matchingTransferEncodingChunked =>
    exact hmatch _ _ _ _ (by decide) hvalue (fun _ => trivial) (fun _ => trivial) fun _ h => h
  | matchingConnectionKeepAlive | matchingConnectionClose | matchingConnectionUpgrade =>
    exact hmatch _ _ _ _ (by decide) hvalue (fun _ => trivial) (fun _ => trivial) fun _ h => h
  | matchingConnectionTokenStart =>
    refine ⟨_, rfl, ?_, Keeps.refl _⟩
    have hindex : parser.index = 0 := hvalue
    rw [hindex]
    split_ifs <;> simp only [ValueOk] <;> decide
  | matchingConnectionToken =>
    refine ⟨_, rfl, ?_⟩
    split_ifs
    · exact ⟨rfl, rfl, id, rfl, rfl, rfl⟩
    · exact ⟨trivial, Keeps.refl _⟩
  | transferEncodingChunked =>
    simp only
    refine ⟨_, rfl, ?_, Keeps.refl _⟩
    split_ifs <;> trivial
  | connectionKeepAlive | connectionClose | connectionUpgrade =>
    exact ⟨_, rfl, tokenEnd_ok fun _ => trivial⟩
  | _ => exact absurd hvalue (by simp [ValueOk])

/-- The value of a general header goes on to the next end of a line at most. -/
theorem generalLength_bounds {rest : Text} (hcr : ch ≠ CR) (hlf : ch ≠ LF) :
    0 < generalLength (ch :: rest) ∧ generalLength (ch :: rest) ≤ (ch :: rest).length := by
  have hfind : ∀ c ≠ ch, ∀ n, memchr c ((ch :: rest).take HTTP_MAX_HEADER_SIZE) = some n →
      0 < n ∧ n ≤ (ch :: rest).length := by
    intro c hc n hn
    obtain ⟨hlt, hat, -⟩ := List.findIdx?_eq_some_iff_getElem.mp hn
    have hle : n ≤ (ch :: rest).length := by
      rw [List.length_take] at hlt
      omega
    refine ⟨?_, hle⟩
    by_contra hzero
    obtain rfl : n = 0 := by omega
    simp only [List.getElem_take, List.getElem_cons_zero] at hat
    exact hc (of_decide_eq_true hat).symm
  unfold generalLength
  simp only
  cases hc : memchr CR ((ch :: rest).take HTTP_MAX_HEADER_SIZE) with
  | none =>
    cases hl : memchr LF ((ch :: rest).take HTTP_MAX_HEADER_SIZE) with
    | none => simp
    | some lf => exact hfind LF hlf.symm lf hl
  | some cr =>
    cases hl : memchr LF ((ch :: rest).take HTTP_MAX_HEADER_SIZE) with
    | none => exact hfind CR hcr.symm cr hc
    | some lf =>
      simp only
      split_ifs
      · exact hfind LF hlf.symm lf hl
      · exact hfind CR hcr.symm cr hc

/-- What the loop over a header value can end with. -/
structure ValueDone (p : HttpParser) (data : Text) (v : Value) : Prop where
  keeps : Keeps p v.parser
  short : v.length ≤ data.length
  value : ValueOk v.parser.index v.headerState
  out : v.stop = .out → v.length = data.length
  cr : v.stop = .cr → data[v.length]? = some CR
  lf : v.stop = .lf → data[v.length]? = some LF
  error : ∀ e h, v.stop = .error e h → e ≠ .ok

theorem ValueDone.longer {p q : HttpParser} {data : Text} {v : Value} {n : Nat}
    (h : ValueDone q (data.drop n) v) (hkeeps : Keeps p q) (hn : n ≤ data.length) :
    ValueDone p data (v.longer n) where
  keeps := hkeeps.trans h.keeps
  short := by
    have := h.short
    rw [List.length_drop] at this
    simp only [Value.longer]
    omega
  value := h.value
  out hout := by
    have := h.out hout
    rw [List.length_drop] at this
    simp only [Value.longer]
    omega
  cr hcr := by simpa [Value.longer] using h.cr hcr
  lf hlf := by simpa [Value.longer] using h.lf hlf
  error := h.error

theorem scanValue_ok {turns : Nat} {h : HeaderState} {data : Text} (hturns : data.length ≤ turns)
    (hvalue : ValueOk parser.index h) :
    ∃ v, scanValue turns parser h data = some v ∧ ValueDone parser data v := by
  have hstop : ∀ stop, (stop = .out → 0 = data.length) → (stop = .cr → data[0]? = some CR) →
      (stop = .lf → data[0]? = some LF) → (∀ e h, stop = .error e h → e ≠ .ok) →
      ValueDone parser data ⟨parser, h, 0, stop⟩ := fun stop hout hcr hlf herror =>
    ⟨Keeps.refl _, Nat.zero_le _, hvalue, hout, hcr, hlf, herror⟩
  induction turns generalizing parser h data with
  | zero =>
    obtain rfl : data = [] := List.length_eq_zero_iff.mp (by omega)
    exact ⟨_, rfl, hstop .out (fun _ => rfl) nofun nofun nofun⟩
  | succ turns ih =>
    cases data with
    | nil => exact ⟨_, rfl, hstop .out (fun _ => rfl) nofun nofun nofun⟩
    | cons ch rest =>
      have hnext : ∀ {q : HttpParser} {h' : HeaderState} {n : Nat}, Keeps parser q →
          ValueOk q.index h' → 0 < n → n ≤ (ch :: rest).length →
          ∃ v, (scanValue turns q h' ((ch :: rest).drop n)).map (·.longer n) = some v ∧
            ValueDone parser (ch :: rest) v := by
        intro q h' n hkeeps hvalue' hpos hle
        have hlen : ((ch :: rest).drop n).length ≤ turns := by
          rw [List.length_drop]
          omega
        obtain ⟨v, hv, hdone⟩ := ih hlen hvalue' fun _ hout hcr hlf herror =>
          ⟨Keeps.refl _, Nat.zero_le _, hvalue', hout, hcr, hlf, herror⟩
        rw [hv]
        exact ⟨_, rfl, hdone.longer hkeeps hle⟩
      unfold scanValue
      by_cases hcr : ch = CR
      · rw [if_pos hcr]
        exact ⟨_, rfl, hstop .cr nofun (fun _ => by simp [hcr]) nofun nofun⟩
      rw [if_neg hcr]
      by_cases hlf : ch = LF
      · rw [if_pos hlf]
        exact ⟨_, rfl, hstop .lf nofun nofun (fun _ => by simp [hlf]) nofun⟩
      rw [if_neg hlf]
      by_cases hchar : isHeaderChar ch = true
      · rw [if_neg (by simp [hchar])]
        by_cases hgeneral : h = .general
        · rw [if_pos hgeneral]
          obtain ⟨hpos, hle⟩ := @generalLength_bounds ch rest hcr hlf
          exact hnext (Keeps.refl _) hvalue hpos hle
        · rw [if_neg hgeneral]
          obtain ⟨r, hr, hok⟩ := @valueChar_ok parser ch h hvalue
          rw [hr]
          match r, hok with
          | .error e, he =>
            refine ⟨_, rfl, hstop (.error e h) nofun nofun nofun ?_⟩
            rintro e' h' heq
            cases heq
            exact he
          | .ok (q, h'), hq => exact hnext hq.2 hq.1 Nat.one_pos (by simp)
      · rw [if_pos (by simp [hchar])]
        refine ⟨_, rfl, hstop (.error .invalidHeaderToken parser.headerState) nofun nofun nofun ?_⟩
        rintro e' h' heq
        cases heq
        simp

end Characters

/-! ## The locals of the loop -/

/-- The calls lead from `start` to `place`, and the view has the mark that is set, with the data
behind it already handed over. -/
structure Cursor.Shows (start place : Place) (s : Cursor) (v : View) : Prop where
  calls : s.calls.foldlM follow start = some place
  mark : s.mark.map Prod.fst = v.mark
  place : match v.mark with
    | none => place = v.place
    | some kind => place.enter kind = some v.place

/-- The name behind a mark is not empty, if it does not go on. -/
def Cursor.Named (place : Place) (s : Cursor) (v : View) : Prop :=
  ∀ m, s.mark = some m → m.2 ≠ [] ∨ m.1 ≠ .headerField ∨ place = v.place

/-- What holds in front of each turn, the calls of `start` included. -/
structure Cursor.Ready (start : Place) (s : Cursor) : Prop where
  sound : s.parser.Sound
  ready : ReadyAt 0 s.parser
  shows : ∃ place v, s.parser.state.Sees s.parser.flags.trailing v ∧ s.Shows start place v ∧
    s.Named place v

/-- What a turn leads to. It is left early with an error, or for another protocol. -/
structure Turned (start : Place) (s t : Cursor) : Prop where
  ready : t.parser.httpErrno = .ok → t.Ready start
  calls : ∃ place, t.calls.foldlM follow start = some place
  going : t.returned = false → t.parser.httpErrno = .ok ∧ t.rest.length < s.rest.length
  stopped : t.returned = true → t.parser.httpErrno = .ok →
    t.parser.upgrade = true ∧ t.mark = none
  suffix : t.rest <:+ s.rest

section Turns

variable {start place : Place} {s t : Cursor} {v w : View}

/-- The data behind the mark may be handed over. -/
theorem Cursor.Shows.follow {m : Kind × Text} (h : s.Shows start place v) (hmark : s.mark = some m)
    (hnamed : s.Named place v) : follow place (.data m.1 m.2) = some v.place := by
  have hv : v.mark = some m.1 := by rw [← h.mark, hmark, Option.map_some]
  have hplace := h.place
  rw [hv] at hplace
  exact follow_of_enter hplace (hnamed m hmark)

theorem Cursor.Shows.place_eq (h : s.Shows start place v) (hmark : v.mark = none) :
    place = v.place := by
  have hplace := h.place
  rwa [hmark] at hplace

theorem perform_shows {a : Action} (h : s.Shows start place v) (hact : v.act a = some w) :
    ∃ t next, s.perform a = some t ∧ t.Shows start next w ∧ t.parser = s.parser ∧
      t.rest = s.rest ∧ t.returned = s.returned := by
  have hmark := h.mark
  cases a with
  | mark kind =>
    cases hv : v.mark with
    | none =>
      rw [hv, Option.map_eq_none_iff] at hmark
      simp only [View.act, hv, Option.map_eq_some_iff] at hact
      obtain ⟨next, henter, rfl⟩ := hact
      rw [← h.place_eq hv] at henter
      exact ⟨{ s with mark := some (kind, []) }, place, by simp [Cursor.perform, hmark],
        ⟨h.calls, rfl, henter⟩, rfl, rfl, rfl⟩
    | some k =>
      rw [hv, Option.map_eq_some_iff] at hmark
      obtain ⟨m, hm, rfl⟩ := hmark
      simp only [View.act, hv, Option.ite_none_right_eq_some] at hact
      obtain ⟨hkind, heq⟩ := hact
      obtain rfl := Option.some.inj heq
      exact ⟨s, place, by simp [Cursor.perform, hm, hkind], h, rfl, rfl, rfl⟩
  | callbackData kind =>
    cases hv : v.mark with
    | none =>
      rw [hv, Option.map_eq_none_iff] at hmark
      simp only [View.act, hv, Option.some.injEq] at hact
      subst hact
      exact ⟨s, place, by simp [Cursor.perform, hmark], h, rfl, rfl, rfl⟩
    | some k =>
      rw [hv, Option.map_eq_some_iff] at hmark
      obtain ⟨m, hm, rfl⟩ := hmark
      simp only [View.act, hv] at hact
      by_cases hkind : m.1 = kind
      · rw [if_pos hkind] at hact
        split at hact
        · cases hact
        · rename_i hfield
          obtain rfl := Option.some.inj hact
          have hdata : Cursor.Named place s v := by
            rintro m' hm'
            obtain rfl := Option.some.inj (hm.symm.trans hm')
            exact Or.inr (Or.inl (by rwa [hkind]))
          refine ⟨{ s with mark := none, calls := s.calls ++ [.data kind m.2] }, v.place,
            by simp [Cursor.perform, hm, hkind], ⟨?_, rfl, rfl⟩, rfl, rfl, rfl⟩
          have hfollow := h.follow hm hdata
          rw [hkind] at hfollow
          simp [List.foldlM_append, h.calls, hfollow]
      · rw [if_neg hkind, Option.some.injEq] at hact
        subst hact
        exact ⟨s, place, by simp [Cursor.perform, hm, hkind], h, rfl, rfl, rfl⟩
  | notify call =>
    cases hv : v.mark with
    | none =>
      rw [hv, Option.map_eq_none_iff] at hmark
      simp only [View.act, hv, Option.map_eq_some_iff] at hact
      obtain ⟨next, hfollow, rfl⟩ := hact
      rw [← h.place_eq hv] at hfollow
      refine ⟨{ s with calls := s.calls ++ [call] }, next, rfl, ⟨?_, ?_, rfl⟩, rfl, rfl, rfl⟩
      · simp [List.foldlM_append, h.calls, hfollow]
      · rw [hmark]
        rfl
    | some k => simp [View.act, hv] at hact

theorem performAll_shows {actions : List Action} (h : s.Shows start place v)
    (hact : actions.foldlM View.act v = some w) :
    ∃ t next, actions.foldlM Cursor.perform s = some t ∧ t.Shows start next w ∧
      t.parser = s.parser ∧ t.rest = s.rest ∧ t.returned = s.returned := by
  induction actions generalizing s v place with
  | nil =>
    cases hact
    exact ⟨s, place, rfl, h, rfl, rfl, rfl⟩
  | cons a actions ih =>
    rw [List.foldlM_cons] at hact
    obtain ⟨u, hu, hact⟩ := Option.bind_eq_some_iff.mp hact
    obtain ⟨t, next, hperform, hshows, hparser, hrest, hreturned⟩ := perform_shows h hu
    obtain ⟨t', next', hperforms, hshows', hparser', hrest', hreturned'⟩ := ih hshows hact
    refine ⟨t', next', ?_, hshows', hparser'.trans hparser, hrest'.trans hrest,
      hreturned'.trans hreturned⟩
    rw [List.foldlM_cons, hperform]
    exact hperforms

theorem shows_with (p : HttpParser) (h : s.Shows start place v) :
    Cursor.Shows start place { s with parser := p } v := ⟨h.calls, h.mark, h.place⟩

theorem advance_shows {n : Nat} (h : s.Shows start place v) :
    (s.advance n).Shows start place v := by
  refine ⟨h.calls, ?_, h.place⟩
  rw [← h.mark]
  cases hmark : s.mark <;> simp [Cursor.advance, hmark]

/-- Behind a byte, the name behind a mark is not empty. -/
theorem advance_named {n : Nat} (hn : s.rest.take n ≠ []) : (s.advance n).Named place v := by
  intro m hm
  simp only [Cursor.advance, Option.map_eq_some_iff] at hm
  obtain ⟨m', -, rfl⟩ := hm
  exact Or.inl (by simp [hn])

theorem named_of_advance {n : Nat} (hnamed : s.Named place v) : (s.advance n).Named place v := by
  intro m hm
  simp only [Cursor.advance, Option.map_eq_some_iff] at hm
  obtain ⟨m', hm', rfl⟩ := hm
  rcases hnamed m' hm' with h | h
  · exact Or.inl (by simp [h])
  · exact Or.inr h

/-- A turn that does what a case says. -/
theorem move_turned {m : Move} {state : State} {trailing : Bool} (hfine : Fine state trailing m)
    (hsees : state.Sees trailing v) (hshows : s.Shows start place v) (hrest : s.rest ≠ [])
    (hreturned : s.returned = false) : ∃ t, s.move m = some t ∧ Turned start s t := by
  obtain ⟨w, hfold, hnext⟩ := hfine.follows v hsees
  obtain ⟨t, next, hperform, hshows', hparser, hrest', hreturned'⟩ :=
    performAll_shows (shows_with m.parser hshows) hfold
  have hparser : t.parser = m.parser := hparser
  have hrest' : t.rest = s.rest := hrest'
  have htake : t.rest.take 1 ≠ [] := by
    rw [hrest']
    simpa using hrest
  have hlt : (t.rest.drop 1).length < s.rest.length := by
    rw [hrest', List.length_drop]
    have := List.length_pos_iff.mpr hrest
    omega
  refine ⟨t.close m.ending, by simp [Cursor.move, hperform], ?_⟩
  cases hending : m.ending with
  | error =>
    have herror := hfine.failed hending
    refine ⟨fun h => absurd (hparser ▸ h) herror, ⟨next, hshows'.calls⟩, nofun,
      fun _ h => absurd (hparser ▸ h) herror, ?_⟩
    show t.rest <:+ s.rest
    rw [hrest']
  | next =>
    obtain ⟨hok, hready⟩ := hfine.ready (by simp [hending])
    have hsees' := hnext (by simp [hending])
    have hready' : (t.advance 1).Ready start := by
      refine ⟨?_, ?_, next, w, ?_, advance_shows hshows', advance_named htake⟩
      · rwa [show (t.advance 1).parser = m.parser from hparser]
      · rwa [show (t.advance 1).parser = m.parser from hparser]
      · rwa [show (t.advance 1).parser = m.parser from hparser]
    refine ⟨fun _ => hready', ⟨next, hshows'.calls⟩, fun _ => ⟨?_, hlt⟩, fun h => ?_, ?_⟩
    · exact hready'.sound.1
    · exact absurd (hreturned'.symm.trans h) (by simp [hreturned])
    · show t.rest.drop 1 <:+ s.rest
      rw [hrest']
      exact List.drop_suffix 1 s.rest
  | leave =>
    obtain ⟨hok, hready⟩ := hfine.ready (by simp [hending])
    have hsees' := hnext (by simp [hending])
    obtain ⟨hupgrade, hquiet⟩ := hfine.leaves hending
    obtain ⟨heq, -⟩ := sees_quiet hquiet hsees'
    have hmark : t.mark = none := by
      have := hshows'.mark
      rw [heq] at this
      simpa using this
    refine ⟨fun _ => ⟨?_, ?_, next, w, ?_, ?_, advance_named htake⟩, ⟨next, hshows'.calls⟩, nofun,
      fun _ _ => ⟨?_, ?_⟩, ?_⟩
    · show t.parser.Sound
      rwa [hparser]
    · show ReadyAt 0 t.parser
      rwa [hparser]
    · show t.parser.state.Sees t.parser.flags.trailing w
      rwa [hparser]
    · exact ⟨hshows'.calls, (advance_shows hshows').mark, hshows'.place⟩
    · show t.parser.upgrade = true
      rwa [hparser]
    · show t.mark.map _ = none
      rw [hmark]
      rfl
    · show t.rest.drop 1 <:+ s.rest
      rw [hrest']
      exact List.drop_suffix 1 s.rest

/-- A turn that returns with an error. -/
theorem failed_turned (hcalls : ∃ place, t.calls.foldlM follow start = some place)
    (herror : t.parser.httpErrno ≠ .ok) (hreturned : t.returned = true)
    (hsuffix : t.rest <:+ s.rest) : Turned start s t :=
  ⟨fun h => absurd h herror, hcalls, fun h => absurd (hreturned.symm.trans h) (by simp),
    fun _ h => absurd h herror, hsuffix⟩

/-- A turn that goes on to the rest behind some bytes. -/
theorem gone_turned (hready : t.Ready start) (hreturned : t.returned = false) {n : Nat} (hn : 0 < n) (hrest : s.rest ≠ [])
    (heq : t.rest = s.rest.drop n) : Turned start s t := by
  obtain ⟨hsound, -, place, v, -, hshows, -⟩ := id hready
  refine ⟨fun _ => hready, ⟨place, hshows.calls⟩, fun _ => ⟨hsound.1, ?_⟩, fun h => ?_, ?_⟩
  · rw [heq, List.length_drop]
    have := List.length_pos_iff.mpr hrest
    omega
  · exact absurd (hreturned.symm.trans h) (by simp)
  · rw [heq]
    exact List.drop_suffix n s.rest

@[simp] theorem count_rest (s : Cursor) (n : Nat) : (s.count n).rest = s.rest := by
  unfold Cursor.count
  simp only
  split_ifs <;> rfl

@[simp] theorem count_mark (s : Cursor) (n : Nat) : (s.count n).mark = s.mark := by
  unfold Cursor.count
  simp only
  split_ifs <;> rfl

@[simp] theorem count_calls (s : Cursor) (n : Nat) : (s.count n).calls = s.calls := by
  unfold Cursor.count
  simp only
  split_ifs <;> rfl

/-- `COUNT_HEADER_SIZE` returns, or counts. -/
theorem count_cases (s : Cursor) (n : Nat) :
    ((s.count n).returned = true ∧ (s.count n).parser.httpErrno = .headerOverflow ∧
      HTTP_MAX_HEADER_SIZE < s.parser.nread + n) ∨
    ((s.count n).returned = s.returned ∧
      (s.count n).parser = { s.parser with nread := s.parser.nread + n } ∧
      s.parser.nread + n ≤ HTTP_MAX_HEADER_SIZE) := by
  unfold Cursor.count
  simp only
  split_ifs with hover
  · exact Or.inl ⟨rfl, rfl, hover⟩
  · exact Or.inr ⟨rfl, rfl, Nat.not_lt.mp hover⟩

theorem count_shows {n : Nat} (h : s.Shows start place v) : (s.count n).Shows start place v :=
  ⟨by simpa using h.calls, by simpa using h.mark, h.place⟩

theorem count_named {n : Nat} (h : s.Named place v) : (s.count n).Named place v := by
  intro m hm
  exact h m (by simpa using hm)

/-- The data behind the mark goes to its callback. -/
theorem handOver_shows {m : Kind × Text} (h : s.Shows start place v) (hmark : s.mark = some m)
    (hnamed : s.Named place v) :
    Cursor.Shows start v.place { s with mark := none, calls := s.calls ++ [.data m.1 m.2] }
      ⟨none, v.place⟩ := by
  refine ⟨?_, rfl, rfl⟩
  simp [List.foldlM_append, h.calls, h.follow hmark hnamed]

/-- In the states of a header name or value, the mark is set. -/
theorem mark_of_resumed {state : State} {trailing : Bool} {kind : Kind}
    (hsees : state.Sees trailing v) (hbody : state.inBody = false)
    (hkind : state.resumed = some kind) (hshows : s.Shows start place v) :
    ∃ bytes, s.mark = some (kind, bytes) := by
  obtain ⟨heq, -⟩ := sees_resumed hbody hkind hsees
  have hmark := hshows.mark
  rw [heq, Option.map_eq_some_iff] at hmark
  obtain ⟨⟨k, bytes⟩, hm, rfl⟩ := hmark
  exact ⟨bytes, hm⟩

theorem Turned.from {u : Cursor} (h : Turned start u t) (hsuffix : u.rest <:+ s.rest) :
    Turned start s t := by
  refine ⟨h.ready, h.calls, fun hreturned => ?_, h.stopped, h.suffix.trans hsuffix⟩
  obtain ⟨hok, hlt⟩ := h.going hreturned
  exact ⟨hok, Nat.lt_of_lt_of_le hlt hsuffix.length_le⟩

/-- A case that hands the data over and goes on, with the mark set by the calls before. -/
theorem data_turned {kind : Kind} {bytes : Text} {p : HttpParser}
    (hshows : s.Shows start place v) (hnamed : s.Named place v) (hmark : s.mark = some (kind, bytes))
    (hok : p.Sound) (hready : ReadyAt 0 p)
    (hsees : p.state.Sees p.flags.trailing ⟨none, v.place⟩) (hrest : s.rest ≠ [])
    (hreturned : s.returned = false) :
    ∃ t, s.move (p.next [.callbackData kind]) = some t ∧ Turned start s t := by
  have hnext : Cursor.Shows start v.place
      { s with mark := none, calls := s.calls ++ [.data kind bytes], parser := p }
      ⟨none, v.place⟩ := shows_with p (handOver_shows hshows hmark hnamed)
  refine ⟨_, by simp [Cursor.move, HttpParser.next, Cursor.perform, hmark]; rfl, ?_⟩
  refine gone_turned ⟨hok, hready, v.place, _, hsees, advance_shows hnext, ?_⟩ hreturned
    Nat.one_pos hrest rfl
  intro m hm
  exact absurd hm (Option.some_ne_none m).symm

/-- What follows on a header name. -/
theorem fieldEnd_turned {ch : UInt8} (hok : s.parser.Sound)
    (hsees : State.headerField.Sees s.parser.flags.trailing v) (hshows : s.Shows start place v)
    (hnamed : s.Named place v) (hrest : s.rest ≠ []) (hreturned : s.returned = false) :
    ∃ t, s.move (fieldEnd s.parser ch) = some t ∧ Turned start s t := by
  unfold fieldEnd
  split_ifs
  · obtain ⟨bytes, hmark⟩ := mark_of_resumed hsees rfl rfl hshows
    refine data_turned hshows hnamed hmark ?_ trivial ⟨Or.inl rfl, hsees.2⟩ hrest hreturned
    exact hok
  · exact move_turned (fail_fine _ (by simp)) hsees hshows hrest hreturned

/-- A turn over the characters of a header name. -/
theorem headerField_turned (hok : s.parser.Sound) (hstate : s.parser.state = .headerField)
    (hready : FieldOk s.parser.index s.parser.headerState)
    (hsees : State.headerField.Sees s.parser.flags.trailing v) (hshows : s.Shows start place v)
    (hnamed : s.Named place v) (hrest : s.rest ≠ []) (hreturned : s.returned = false) :
    ∃ t, headerField s = some t ∧ Turned start s t := by
  obtain ⟨q, n, hscan, hfield, hkeeps, hn⟩ := scanField_ok s.rest hready
  have hshows' := @count_shows _ _ _ _ n (@advance_shows _ _ _ _ n (shows_with q hshows))
  have hnamed' : Cursor.Named place (({ s with parser := q }.advance n).count n) v :=
    count_named (named_of_advance hnamed)
  have hdrop : (({ s with parser := q }.advance n).count n).rest = s.rest.drop n := count_rest _ _
  have hcases := count_cases ({ s with parser := q }.advance n) n
  unfold headerField
  simp only [hscan, Option.bind_eq_bind, Option.bind_some]
  generalize ({ s with parser := q }.advance n).count n = u at *
  have hsuffix : u.rest <:+ s.rest := hdrop ▸ List.drop_suffix n s.rest
  unfold fieldRest
  rcases hcases with ⟨hover, herror, -⟩ | ⟨hgoes, hparser, -⟩
  · rw [if_pos hover]
    exact ⟨u, rfl, failed_turned ⟨place, hshows'.calls⟩ (by simp [herror]) hover hsuffix⟩
  · have hreturned' : u.returned = false := hgoes.trans hreturned
    have hok' : u.parser.Sound := by
      rw [hparser]
      exact hkeeps.sound hok
    have hstate' : u.parser.state = .headerField := by
      rw [hparser]
      exact hkeeps.state.trans hstate
    have hsees' : State.headerField.Sees u.parser.flags.trailing v := by
      rw [hparser]
      exact hkeeps.trailing ▸ hsees
    rw [if_neg (by simp [hreturned'])]
    cases hsplit : u.rest with
    | nil =>
      refine ⟨u, rfl, gone_turned ⟨hok', ?_, place, v, ?_, hshows', hnamed'⟩ hreturned'
        (List.length_pos_iff.mpr hrest) hrest ?_⟩
      · simp only [ReadyAt, hstate']
        rw [hparser]
        exact hfield
      · rwa [hstate']
      · simp [hsplit]
    | cons ch rest =>
      obtain ⟨t, ht, hturned⟩ := @fieldEnd_turned start place u v ch hok' hsees' hshows' hnamed'
        (by simp [hsplit]) hreturned'
      exact ⟨t, ht, hturned.from hsuffix⟩

/-- A header value whose line has ended, with the data handed over to its callback. -/
theorem valueHandedOver {bytes : Text} (h : s.Shows start place v) (hnamed : s.Named place v)
    (hmark : s.mark = some (.headerValue, bytes)) :
    ∃ t, s.perform (.callbackData .headerValue) = some t ∧
      t.Shows start v.place ⟨none, v.place⟩ ∧ t.mark = none ∧ t.parser = s.parser ∧
      t.rest = s.rest ∧ t.returned = s.returned :=
  ⟨{ s with mark := none, calls := s.calls ++ [.data .headerValue bytes] },
    by simp [Cursor.perform, hmark], handOver_shows h hmark hnamed, rfl, rfl, rfl, rfl⟩

theorem valueCr_turned {n : Nat} (hok : s.parser.Sound)
    (hstate : s.parser.state = .headerAlmostDone)
    (hsees : State.headerValue.Sees s.parser.flags.trailing v) (hshows : s.Shows start place v)
    (hnamed : s.Named place v) (hrest : s.rest ≠ []) (hreturned : s.returned = false) :
    ∃ t, valueCr s n = some t ∧ Turned start s t := by
  obtain ⟨bytes, hmark⟩ := mark_of_resumed hsees rfl rfl hshows
  obtain ⟨t, hperform, hshows', hnone, hparser, hrest', hreturned'⟩ :=
    valueHandedOver hshows hnamed hmark
  have hcases := count_cases t n
  have hshows'' := @count_shows _ _ _ _ n hshows'
  have hdrop := (count_rest t n).trans hrest'
  have hnone' := (count_mark t n).trans hnone
  unfold valueCr
  simp only [hperform, Option.bind_eq_bind, Option.bind_some]
  generalize t.count n = u at *
  rcases hcases with ⟨hover, herror, -⟩ | ⟨hgoes, hparser', -⟩
  · rw [if_pos hover]
    exact ⟨u, rfl, failed_turned ⟨_, hshows''.calls⟩ (by simp [herror]) hover (by rw [hdrop])⟩
  · have hreturned'' : u.returned = false := (hgoes.trans hreturned').trans hreturned
    have hstate' : u.parser.state = .headerAlmostDone := by rw [hparser', hparser, hstate]
    have hsees' : u.parser.state.Sees u.parser.flags.trailing ⟨none, v.place⟩ := by
      rw [hstate', hparser', hparser]
      exact ⟨Or.inl rfl, hsees.2⟩
    rw [if_neg (by simp [hreturned''])]
    refine ⟨u.advance 1, rfl, gone_turned ⟨?_, ?_, v.place, ⟨none, v.place⟩, hsees',
      advance_shows hshows'', ?_⟩ hreturned'' Nat.one_pos hrest ?_⟩
    · show u.parser.Sound
      rw [hparser', hparser]
      exact hok
    · simp [ReadyAt, Cursor.advance, hstate']
    · intro m hm
      simp [Cursor.advance, hnone'] at hm
    · show u.rest.drop 1 = s.rest.drop 1
      rw [hdrop]

theorem valueLf_turned {headerState : HeaderState}
    (hgoes : s.returned = false → s.parser.Sound ∧
      State.headerValue.Sees s.parser.flags.trailing v)
    (herror : s.returned = true → s.parser.httpErrno ≠ .ok) (hshows : s.Shows start place v)
    (hnamed : s.Named place v) (hrest : s.rest ≠ []) :
    ∃ t, valueLf s headerState = some t ∧ Turned start s t := by
  unfold valueLf
  by_cases hreturned : s.returned = true
  · rw [if_pos hreturned]
    exact ⟨s, rfl, failed_turned ⟨place, hshows.calls⟩ (herror hreturned) hreturned
      (List.suffix_refl _)⟩
  · rw [if_neg hreturned]
    have hreturned := Bool.eq_false_iff.mpr hreturned
    obtain ⟨hok, hsees⟩ := hgoes hreturned
    obtain ⟨bytes, hmark⟩ := mark_of_resumed hsees rfl rfl hshows
    obtain ⟨t, hperform, hshows', -, hparser, hrest', hreturned'⟩ :=
      valueHandedOver (shows_with { s.parser with headerState } hshows) hnamed hmark
    simp only [hperform, Option.bind_eq_bind, Option.bind_some]
    have hfine : Fine .headerAlmostDone t.parser.flags.trailing (headerAlmostDone t.parser LF) := by
      apply headerAlmostDone_fine
      rw [hparser]
      exact hok
    have hsees' : State.headerAlmostDone.Sees t.parser.flags.trailing ⟨none, v.place⟩ := by
      refine ⟨Or.inl rfl, ?_⟩
      rw [hparser]
      exact hsees.2
    obtain ⟨u, hu, hturned⟩ := move_turned hfine hsees' hshows' (by simpa [hrest'] using hrest)
      (by rw [hreturned', hreturned])
    exact ⟨u, hu, hturned.from (by rw [hrest'])⟩

/-- A header value that goes on behind the data. -/
theorem valueOut_turned {n : Nat} (hok : t.parser.Sound)
    (hstate : t.parser.state = .headerValue)
    (hready : ValueOk t.parser.index t.parser.headerState)
    (hsees : State.headerValue.Sees t.parser.flags.trailing v) (hshows : t.Shows start place v)
    (hnamed : t.Named place v) (hrest : s.rest ≠ []) (hreturned : t.returned = false)
    (hnil : t.rest = []) : Turned start s (t.count n) := by
  have hcases := count_cases t n
  have hshows' := @count_shows _ _ _ _ n hshows
  have hnamed' := @count_named _ _ _ n hnamed
  have hdrop := (count_rest t n).trans hnil
  generalize t.count n = u at *
  rcases hcases with ⟨hover, herror, -⟩ | ⟨hgoes, hparser, -⟩
  · refine failed_turned ⟨_, hshows'.calls⟩ (by simp [herror]) hover ?_
    rw [hdrop]
    exact List.nil_suffix
  · refine gone_turned ⟨?_, ?_, place, v, ?_, hshows', hnamed'⟩ (hgoes.trans hreturned)
      (List.length_pos_iff.mpr hrest) hrest ?_
    · rw [hparser]
      exact hok
    · simp only [ReadyAt, hparser, hstate]
      exact hready
    · simpa [hparser, hstate] using hsees
    · simp [hdrop]

/-- A turn over the characters of a header value. -/
theorem headerValue_turned (hok : s.parser.Sound) (hstate : s.parser.state = .headerValue)
    (hready : ValueOk s.parser.index s.parser.headerState)
    (hsees : State.headerValue.Sees s.parser.flags.trailing v) (hshows : s.Shows start place v)
    (hnamed : s.Named place v) (hrest : s.rest ≠ []) (hreturned : s.returned = false) :
    ∃ t, headerValue s = some t ∧ Turned start s t := by
  obtain ⟨value, hscan, hdone⟩ := scanValue_ok (Nat.le_refl s.rest.length) hready
  have hok' : value.parser.Sound := hdone.keeps.sound hok
  have hstate' : value.parser.state = .headerValue := hdone.keeps.state.trans hstate
  have hsees' : State.headerValue.Sees value.parser.flags.trailing v :=
    hdone.keeps.trailing ▸ hsees
  -- behind the characters of the value
  generalize hbehind : ({ s with parser := value.parser } : Cursor).advance value.length = t
  have hsuffix : t.rest <:+ s.rest := hbehind ▸ List.drop_suffix _ _
  have hshows' : t.Shows start place v := hbehind ▸ advance_shows (shows_with _ hshows)
  have hnamed' : t.Named place v := hbehind ▸ named_of_advance hnamed
  have hparser : t.parser = value.parser := hbehind ▸ rfl
  have hreturned' : t.returned = false := hbehind ▸ hreturned
  have hdrop : t.rest = s.rest.drop value.length := hbehind ▸ rfl
  have hmore : ∀ c, s.rest[value.length]? = some c → t.rest ≠ [] := by
    intro c hc hnil
    have hlt := (List.getElem?_eq_some_iff.mp hc).1
    have := List.drop_eq_nil_iff.mp (hdrop.symm.trans hnil)
    omega
  unfold headerValue
  simp only [hscan, hbehind, Option.bind_eq_bind, Option.bind_some]
  cases hstop : value.stop with
  | out =>
    refine ⟨_, rfl, valueOut_turned ?_ ?_ ?_ ?_ (shows_with _ hshows') hnamed' hrest
      hreturned' ?_⟩
    · rwa [hparser]
    · rwa [hparser]
    · rw [hparser]
      exact hdone.value
    · rwa [hparser]
    · simp [hdrop, hdone.out hstop]
  | cr =>
    have hshows := shows_with { t.parser with
      state := .headerAlmostDone
      headerState := value.headerState } hshows'
    obtain ⟨u, hu, hturned⟩ := valueCr_turned (n := value.length) (by rwa [hparser]) rfl
      (by rwa [hparser]) hshows hnamed' (hmore CR (hdone.cr hstop)) hreturned'
    exact ⟨u, hu, hturned.from hsuffix⟩
  | lf =>
    have hshows := shows_with { t.parser with state := .headerAlmostDone } hshows'
    have hcases := count_cases { t with parser := { t.parser with
      state := .headerAlmostDone } } value.length
    have hshowsu := @count_shows _ _ _ _ value.length hshows
    have hnamedu : Cursor.Named place (Cursor.count { t with parser := { t.parser with
      state := .headerAlmostDone } } value.length) v := count_named hnamed'
    have hrestu := count_rest { t with parser := { t.parser with
      state := .headerAlmostDone } } value.length
    simp only
    generalize Cursor.count { t with parser := { t.parser with
      state := .headerAlmostDone } } value.length = u at *
    have hgoes : u.returned = false → u.parser.Sound ∧
        State.headerValue.Sees u.parser.flags.trailing v := by
      intro hu
      rcases hcases with ⟨hover, -⟩ | ⟨-, hparseru, -⟩
      · exact absurd (hover.symm.trans hu) (by simp)
      · rw [hparseru, hparser]
        exact ⟨hok', hsees'⟩
    have herror : u.returned = true → u.parser.httpErrno ≠ .ok := by
      intro hu
      rcases hcases with ⟨-, herror, -⟩ | ⟨hgoes, -⟩
      · simp [herror]
      · exact absurd ((hgoes.trans hreturned').symm.trans hu) (by simp)
    have hrestu : u.rest = t.rest := hrestu
    obtain ⟨w, hw, hturned⟩ := @valueLf_turned start place u v value.headerState hgoes herror hshowsu
      hnamedu (hrestu ▸ hmore LF (hdone.lf hstop))
    exact ⟨w, hw, hturned.from (hrestu ▸ hsuffix)⟩
  | error e headerState =>
    exact ⟨_, rfl, failed_turned ⟨place, hshows'.calls⟩ (hdone.error e headerState hstop) rfl
      hsuffix⟩

/-- The mark of a body is no name. -/
theorem named_body {next : Place} (hshows : s.Shows start place ⟨some .body, next⟩) :
    s.Named place w := by
  intro m hm
  have hkind : some m.1 = some Kind.body := by rw [← Option.map_some, ← hm, hshows.mark]
  exact Or.inr (Or.inl (by simp [Option.some.inj hkind]))

/-- The part of a turn that reads the body. -/
theorem readBody_spec (hlength : s.parser.contentLength ≠ 0 ∧ s.parser.contentLength ≠ ULLONG_MAX)
    (hmark : v.mark = none ∨ v.mark = some .body) (henter : v.place.enter .body = some v.place)
    (hshows : s.Shows start place v) :
    ∃ t next, readBody s = some t ∧ t.Shows start next ⟨some .body, v.place⟩ ∧
      t.parser = { s.parser with
        contentLength := s.parser.contentLength - min s.parser.contentLength s.rest.length } ∧
      t.rest = s.rest.drop (min s.parser.contentLength s.rest.length) ∧
      t.returned = s.returned := by
  have hact : v.act (.mark .body) = some ⟨some .body, v.place⟩ := by
    unfold View.act
    rcases v with ⟨mark, next⟩
    rcases hmark with rfl | rfl
    · simp [henter]
    · rfl
  obtain ⟨t, next, hperform, hshows', hparser, hrest, hreturned⟩ := perform_shows hshows hact
  unfold readBody
  rw [if_pos hlength]
  simp only [hperform, Option.bind_eq_bind, Option.bind_some, hparser]
  refine ⟨_, next, rfl, advance_shows (shows_with _ hshows'), rfl, ?_, hreturned⟩
  show t.rest.drop _ = _
  rw [hrest]

theorem min_length_pos (hlength : s.parser.contentLength ≠ 0) (hrest : s.rest ≠ []) :
    0 < min s.parser.contentLength s.rest.length := by
  have := List.length_pos_iff.mpr hrest
  omega

/-- The end of a body: `s_message_done` behind its last byte. -/
theorem bodyEnd_turned (hok : s.parser.Sound)
    (hshows : s.Shows start place ⟨some .body, .content⟩) :
    ∃ t m, s.perform (.callbackData .body) = some t ∧
      m = messageDone { t.parser with state := .messageDone } ∧
      ∃ u, m.actions.foldlM Cursor.perform { t with parser := m.parser } = some u ∧
        u.rest = s.rest ∧ u.mark = none ∧
        Cursor.Ready start { u with returned := m.ending = .leave } ∧
        (m.ending = .leave → u.parser.upgrade = true) := by
  obtain ⟨t, next, hdata, hshowst, hparser, hrest, -⟩ :=
    @perform_shows start place s ⟨some .body, .content⟩ ⟨none, .content⟩ (.callbackData .body)
      hshows rfl
  refine ⟨t, _, hdata, rfl, ?_⟩
  have hnew := newMessage_cases { t.parser with state := .messageDone }
  have hfine : Fine .messageDone t.parser.flags.trailing
      (messageDone { t.parser with state := .messageDone }) := by
    apply messageDone_fine
    rw [hparser]
    exact hok
  obtain ⟨u, next', hdone, hshowsu, hparseru, hrestu, -⟩ :=
    @performAll_shows start next _ ⟨none, .content⟩ ⟨none, .idle⟩ [.notify .onMessageComplete]
      (shows_with (messageDone { t.parser with state := .messageDone }).parser hshowst) rfl
  have hnone : u.mark = none := by simpa using hshowsu.mark
  refine ⟨u, hdone, hrestu.trans hrest, hnone, ⟨?_, ?_, next', ⟨none, .idle⟩, ?_, ?_, ?_⟩, ?_⟩
  · rw [hparseru]
    show t.parser.Sound
    rw [hparser]
    exact hok
  · rw [hparseru]
    exact @readyAt_newMessage { t.parser with state := .messageDone } 0 _ hnew
  · rw [hparseru]
    exact sees_newMessage hnew _
  · exact ⟨hshowsu.calls, hshowsu.mark, hshowsu.place⟩
  · intro m hm
    exact absurd (hnone.symm.trans hm) (by simp)
  · intro hleave
    rw [hparseru]
    exact (hfine.leaves hleave).1

/-- A turn over a part of a body. -/
theorem bodyIdentity_turned (hok : s.parser.Sound)
    (hstate : s.parser.state = .bodyIdentity)
    (hready : s.parser.contentLength ≠ 0 ∧ s.parser.contentLength < ULLONG_MAX)
    (hsees : State.bodyIdentity.Sees s.parser.flags.trailing v) (hshows : s.Shows start place v)
    (hrest : s.rest ≠ []) (hreturned : s.returned = false) :
    ∃ t, bodyIdentity s = some t ∧ Turned start s t := by
  obtain ⟨hmark, hplace⟩ := hsees
  have hplace : v.place = .content := hplace
  have hpos := min_length_pos hready.1 hrest
  obtain ⟨t, next, hread, hshows', hparser, hdrop, hreturned'⟩ :=
    readBody_spec ⟨hready.1, Nat.ne_of_lt hready.2⟩
      (by simpa [State.Allows, State.inBody, State.resumed] using hmark)
      (by rw [hplace]; rfl) hshows
  rw [hplace] at hshows'
  have hokt : t.parser.Sound := by
    rw [hparser]
    exact ⟨hok.1, Nat.le_trans (Nat.sub_le _ _) hok.2⟩
  have hreturnedt := hreturned'.trans hreturned
  unfold bodyIdentity
  simp only [hread, Option.bind_eq_bind, Option.bind_some]
  split_ifs with hzero
  · obtain ⟨u, m, hdata, hm, w, hdone, hrestw, hnone, hreadyw, hleave⟩ :=
      bodyEnd_turned hokt hshows'
    subst hm
    simp only [hdata, hdone, Option.bind_some]
    obtain ⟨hsound, -, place', v', -, hshowsw, -⟩ := id hreadyw
    refine ⟨_, rfl, fun _ => hreadyw, ⟨place', hshowsw.calls⟩, fun _ => ⟨hsound.1, ?_⟩,
      fun h _ => ⟨hleave (of_decide_eq_true h), hnone⟩, ?_⟩
    · show w.rest.length < s.rest.length
      rw [hrestw, hdrop, List.length_drop]
      have := List.length_pos_iff.mpr hrest
      omega
    · show w.rest <:+ s.rest
      rw [hrestw, hdrop]
      exact List.drop_suffix _ _
  · refine ⟨t, rfl, gone_turned ⟨hokt, ?_, next, _, ?_, hshows', named_body hshows'⟩ hreturnedt
      hpos hrest hdrop⟩
    · rw [hparser] at hzero
      simp only [hparser, ReadyAt, hstate]
      exact ⟨hzero, Nat.lt_of_le_of_lt (Nat.sub_le _ _) hready.2⟩
    · rw [hparser]
      simp only [hstate]
      exact ⟨Or.inr ⟨rfl, rfl⟩, rfl⟩

theorem chunkData_turned (hok : s.parser.Sound) (hstate : s.parser.state = .chunkData)
    (hready : s.parser.flags.chunked = true ∧ s.parser.contentLength ≠ 0 ∧
      s.parser.contentLength < ULLONG_MAX)
    (hsees : State.chunkData.Sees s.parser.flags.trailing v) (hshows : s.Shows start place v)
    (hrest : s.rest ≠ []) (hreturned : s.returned = false) :
    ∃ t, chunkData s = some t ∧ Turned start s t := by
  obtain ⟨hmark, htrailing, hplace⟩ := hsees
  have hpos := min_length_pos hready.2.1 hrest
  obtain ⟨t, next, hread, hshows', hparser, hdrop, hreturned'⟩ :=
    readBody_spec ⟨hready.2.1, Nat.ne_of_lt hready.2.2⟩
      (by simpa [State.Allows, State.inBody, State.resumed] using hmark)
      (by rw [hplace]; rfl) hshows
  rw [hplace] at hshows'
  have hsees' : ∀ state : State, state = .chunkData ∨ state = .chunkDataAlmostDone →
      state.Sees s.parser.flags.trailing ⟨some .body, .chunk⟩ := by
    rintro state (rfl | rfl) <;> exact ⟨Or.inr ⟨rfl, rfl⟩, htrailing, rfl⟩
  have hokt : t.parser.Sound := by
    rw [hparser]
    exact ⟨hok.1, Nat.le_trans (Nat.sub_le _ _) hok.2⟩
  unfold chunkData
  rw [if_pos hready.1]
  simp only [hread, Option.bind_eq_bind, Option.bind_some]
  split_ifs with hzero
  · have hshows'' := shows_with { t.parser with state := .chunkDataAlmostDone } hshows'
    refine ⟨_, rfl, gone_turned ⟨hokt, ?_, next, _, ?_, hshows'', named_body hshows''⟩
      (hreturned'.trans hreturned) hpos hrest hdrop⟩
    · refine ⟨?_, hzero⟩
      show t.parser.flags.chunked = true
      rw [hparser]
      exact hready.1
    · show State.chunkDataAlmostDone.Sees t.parser.flags.trailing _
      rw [hparser]
      exact hsees' _ (Or.inr rfl)
  · refine ⟨t, rfl, gone_turned ⟨hokt, ?_, next, _, ?_, hshows', named_body hshows'⟩
      (hreturned'.trans hreturned) hpos hrest hdrop⟩
    · rw [hparser] at hzero
      simp only [hparser, ReadyAt, hstate]
      exact ⟨hready.1, hzero, Nat.lt_of_le_of_lt (Nat.sub_le _ _) hready.2.2⟩
    · rw [hparser]
      exact hsees' _ (Or.inl hstate)

/-! ### One turn -/

/-- The cursor in front of the switch, with the byte counted. -/
def Cursor.counted (s : Cursor) : Cursor :=
  if s.parser.state.parsingHeader then s.count 1 else s

theorem readyAt_counted {p : HttpParser} (h : ReadyAt 0 p) :
    ReadyAt 1 { p with nread := p.nread + 1 } := by
  unfold ReadyAt at h ⊢
  simp only
  cases hstate : p.state <;> simp only [hstate] at h ⊢ <;> first | exact h | simpa using h

theorem readyAt_uncounted {p : HttpParser} (h : ReadyAt 0 p)
    (hheader : p.state.parsingHeader = false) : ReadyAt 1 p := by
  unfold ReadyAt at h ⊢
  cases hstate : p.state <;> simp only [hstate] at h ⊢ <;> first
    | exact h
    | simp [hstate, State.parsingHeader] at hheader

/-- Counting a byte returns, or leaves what the parser relies on. -/
theorem counted_cases (s : Cursor) :
    s.counted.rest = s.rest ∧ s.counted.mark = s.mark ∧ s.counted.calls = s.calls ∧
    ((s.counted.returned = true ∧ s.counted.parser.httpErrno = .headerOverflow) ∨
      (s.counted.returned = s.returned ∧ ∃ n, s.counted.parser = { s.parser with nread := n } ∧
        (ReadyAt 0 s.parser → ReadyAt 1 s.counted.parser)) ∨ s.returned = true) := by
  unfold Cursor.counted
  split_ifs with hheader
  · refine ⟨count_rest s 1, count_mark s 1, count_calls s 1, ?_⟩
    rcases count_cases s 1 with ⟨hover, herror, -⟩ | ⟨hgoes, hparser, -⟩
    · exact Or.inl ⟨hover, herror⟩
    · refine Or.inr (Or.inl ⟨hgoes, _, hparser, fun h => ?_⟩)
      rw [hparser]
      exact readyAt_counted h
  · refine ⟨rfl, rfl, rfl, Or.inr (Or.inl ⟨rfl, s.parser.nread, rfl, fun h => ?_⟩)⟩
    exact readyAt_uncounted h (by simpa using hheader)

/-- Every turn keeps what the parser relies on. -/
theorem turn_turned (hready : s.Ready start) (hrest : s.rest ≠ []) (hreturned : s.returned = false) :
    ∃ t, turn s = some t ∧ Turned start s t := by
  obtain ⟨hsound, hready, place, v, hsees, hshows, hnamed⟩ := hready
  obtain ⟨hrestu, hmarku, hcallsu, hcases⟩ := counted_cases s
  obtain ⟨ch, rest, hsplit⟩ := List.exists_cons_of_ne_nil hrest
  unfold turn
  simp only [hsplit]
  have hshowsu : s.counted.Shows start place v :=
    ⟨hcallsu ▸ hshows.calls, hmarku ▸ hshows.mark, hshows.place⟩
  have hnamedu : s.counted.Named place v := by
    intro m hm
    exact hnamed m (hmarku ▸ hm)
  have hturn : (if s.parser.state.parsingHeader = true then s.count 1 else s) = s.counted := rfl
  rw [hturn]
  generalize s.counted = u at *
  have hsuffix : u.rest <:+ s.rest := by rw [hrestu]
  have hrestu' : u.rest ≠ [] := by rwa [hrestu]
  rcases hcases with ⟨hover, herror⟩ | ⟨hgoes, n, hparser, hready'⟩ | habsurd
  · rw [if_pos hover]
    exact ⟨u, rfl, failed_turned ⟨place, hshowsu.calls⟩ (by simp [herror]) hover hsuffix⟩
  · have hreturnedu : u.returned = false := hgoes.trans hreturned
    rw [if_neg (by simp [hreturnedu])]
    have hready' := hready' hready
    have hsoundu : u.parser.Sound := by
      rw [hparser]
      exact hsound
    have hseesu : u.parser.state.Sees u.parser.flags.trailing v := by
      rw [hparser]
      exact hsees
    suffices h : ∃ t, dispatch u ch = some t ∧ Turned start u t by
      obtain ⟨t, ht, hturned⟩ := h
      exact ⟨t, ht, hturned.from hsuffix⟩
    unfold dispatch
    cases hstate : u.parser.state with
    | headerField =>
      simp only [ReadyAt, hstate] at hready'
      exact headerField_turned hsoundu hstate hready' (hstate ▸ hseesu) hshowsu hnamedu hrestu'
        hreturnedu
    | headerValue =>
      simp only [ReadyAt, hstate] at hready'
      exact headerValue_turned hsoundu hstate hready' (hstate ▸ hseesu) hshowsu hnamedu hrestu'
        hreturnedu
    | bodyIdentity =>
      simp only [ReadyAt, hstate] at hready'
      exact bodyIdentity_turned hsoundu hstate hready' (hstate ▸ hseesu) hshowsu hrestu' hreturnedu
    | chunkData =>
      simp only [ReadyAt, hstate] at hready'
      exact chunkData_turned hsoundu hstate hready' (hstate ▸ hseesu) hshowsu hrestu' hreturnedu
    | _ =>
      obtain ⟨m, hswitch, hfine⟩ := @switch_fine u.parser ch hsoundu hready' (by simp [hstate, State.bulk])
      obtain ⟨t, ht, hturned⟩ := move_turned hfine hseesu hshowsu hrestu' hreturnedu
      exact ⟨t, by simp [hswitch, ht], hturned⟩
  · exact absurd (habsurd.symm.trans hreturned) (by simp)

end Turns

end huasi.http_execute
