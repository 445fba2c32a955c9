-- The bodies in http_parser_execute (src/src/http/http_parser.c), which it takes as far as they
-- go, against the same bytes one by one, and with them every turn of its loop.
import Huasi.HttpParserValues

open huasi.text huasi.runs huasi.http_parser

namespace huasi.http_execute

section Turns

variable {start place : Place} {s t u : Cursor} {p q : HttpParser} {ch : UInt8} {rest : Text}

/-! ## A part of a body -/

/-- The parser with less of the body to come. -/
def HttpParser.left (p : HttpParser) (n : Nat) : HttpParser :=
  { p with contentLength := p.contentLength - n }

theorem left_left (n m : Nat) : (p.left n).left m = p.left (n + m) := by
  unfold HttpParser.left
  simp [Nat.sub_sub]

/-- The data behind the mark, if one is set. -/
def Cursor.marked (s : Cursor) : Text := (s.mark.map Prod.snd).getD []

/-- The state inside of a body. -/
def State.takesBody (state : State) : Prop := state = .bodyIdentity ∨ state = .chunkData

theorem body_mark (hready : s.Ready start) (hstate : s.parser.state.takesBody) :
    s.mark.map Prod.fst = none ∨ s.mark.map Prod.fst = some .body := by
  obtain ⟨-, -, place, v, hsees, hshows, -⟩ := hready
  rw [hshows.mark]
  rcases hstate with hstate | hstate <;>
    simpa [hstate, State.Allows, State.resumed, State.inBody] using hsees.1

theorem body_length (hready : ReadyAt 0 p) (hstate : p.state.takesBody) :
    p.contentLength ≠ 0 ∧ p.contentLength < ULLONG_MAX ∧
      (p.state = .chunkData → p.flags.chunked = true) := by
  unfold ReadyAt at hready
  rcases hstate with hstate | hstate <;> simp only [hstate] at hready
  · exact ⟨hready.1, hready.2, by simp [hstate]⟩
  · exact ⟨hready.2.1, hready.2.2, fun _ => hready.1⟩

/-- The part of the body in the data is behind the mark then. -/
def Cursor.taken (s : Cursor) : Cursor :=
  let toRead := min s.parser.contentLength s.rest.length
  { s with
    parser := s.parser.left toRead
    rest := s.rest.drop toRead
    mark := some (.body, s.marked ++ s.rest.take toRead) }

theorem readBody_eq (hlength : s.parser.contentLength ≠ 0 ∧ s.parser.contentLength < ULLONG_MAX)
    (hmark : s.mark.map Prod.fst = none ∨ s.mark.map Prod.fst = some .body) :
    readBody s = some s.taken := by
  have hperform : s.perform (.mark .body) = some { s with mark := some (.body, s.marked) } := by
    unfold Cursor.perform Cursor.marked
    cases hm : s.mark with
    | none => rfl
    | some m =>
      have hkind : m.1 = .body := by simpa [hm] using hmark
      rw [← hkind]
      simp
      rw [← hm]
  unfold readBody
  rw [if_pos ⟨hlength.1, Nat.ne_of_lt hlength.2⟩]
  simp only [hperform, Option.bind_eq_bind, Option.bind_some]
  rfl

/-- The data behind the mark, with some of a body. -/
theorem marked_pieces {xs : Text}
    (hmark : s.mark.map Prod.fst = none ∨ s.mark.map Prod.fst = some .body) (hxs : xs ≠ []) :
    join (s.calls ++ [.data .body (s.marked ++ xs)]) =
      join (s.flush.calls ++ pieces .body xs) := by
  rw [flush_calls_eq]
  unfold Cursor.marked
  cases hm : s.mark with
  | none =>
    obtain ⟨x, xs, rfl⟩ := List.exists_cons_of_ne_nil hxs
    have hfirst := join_pieces s.calls .body [x] xs
    simpa [pieces] using hfirst.symm
  | some m =>
    have hkind : m.1 = .body := by simpa [hm] using hmark
    have hmore := join_pieces s.calls .body m.2 xs
    simpa [hkind] using hmore.symm

/-- Behind the last byte of a body, or of the data of a chunk. -/
def Cursor.wholeBody (s : Cursor) : Cursor :=
  let left := s.parser.left s.parser.contentLength
  if s.parser.state = .chunkData then
    { s.taken with parser := { left with state := .chunkDataAlmostDone } }
  else
    let m := messageDone { left with state := .messageDone }
    { s.taken with
      parser := m.parser
      mark := none
      calls := s.calls ++ [.data .body (s.marked ++ s.rest.take s.parser.contentLength)] ++
        [.onMessageComplete]
      returned := m.ending = .leave }

theorem dispatch_body (hstate : s.parser.state.takesBody) (hready : ReadyAt 0 s.parser)
    (hmark : s.mark.map Prod.fst = none ∨ s.mark.map Prod.fst = some .body) :
    dispatch s ch =
      some (if s.taken.parser.contentLength = 0 then s.wholeBody else s.taken) := by
  obtain ⟨hzero, hbound, hchunked⟩ := body_length hready hstate
  have hread : readBody s = some s.taken := readBody_eq ⟨hzero, hbound⟩ hmark
  have hwhole : s.taken.parser.contentLength = 0 →
      min s.parser.contentLength s.rest.length = s.parser.contentLength := by
    intro hdone
    simp only [Cursor.taken, HttpParser.left] at hdone
    omega
  unfold dispatch
  rcases hstate with hstate | hstate
  · simp only [hstate]
    unfold bodyIdentity
    simp only [hread, Option.bind_eq_bind, Option.bind_some]
    by_cases hdone : s.taken.parser.contentLength = 0
    · rw [if_pos hdone, if_pos hdone]
      simp [Cursor.wholeBody, hstate, Cursor.taken, hwhole hdone, Cursor.perform, messageDone]
    · rw [if_neg hdone, if_neg hdone]
  · simp only [hstate]
    unfold chunkData
    rw [if_pos (hchunked hstate)]
    simp only [hread, Option.bind_eq_bind, Option.bind_some]
    by_cases hdone : s.taken.parser.contentLength = 0
    · rw [if_pos hdone, if_pos hdone]
      simp [Cursor.wholeBody, hstate, Cursor.taken, hwhole hdone]
    · rw [if_neg hdone, if_neg hdone]

/-- What `wholeBody` leaves. -/
theorem wholeBody_spec (hstate : s.parser.state.takesBody)
    (hlength : s.parser.contentLength ≤ s.rest.length) (hreturned : s.returned = false) :
    s.wholeBody.rest = s.rest.drop s.parser.contentLength ∧
    s.wholeBody.returned = (decide (s.parser.state = .bodyIdentity) && s.parser.upgrade) ∧
    s.wholeBody.flush.calls =
      s.calls ++ [.data .body (s.marked ++ s.rest.take s.parser.contentLength)] ++
        if s.parser.state = .bodyIdentity then [.onMessageComplete] else [] := by
  have hmin : min s.parser.contentLength s.rest.length = s.parser.contentLength := by omega
  unfold Cursor.wholeBody
  rcases hstate with hstate | hstate
  · refine ⟨by simp [hstate, Cursor.taken, hmin], ?_, by simp [hstate, flush_calls_eq]⟩
    cases hupgrade : s.parser.upgrade <;> simp [hstate, messageDone, HttpParser.left, hupgrade]
  · refine ⟨by simp [hstate, Cursor.taken, hmin], ?_, ?_⟩
    · simp [hstate, Cursor.taken, hreturned]
    · simp [hstate, flush_calls_eq, Cursor.taken, hmin]

theorem wholeBody_near {n l : Nat} (hn : n ≤ s.parser.nread)
    (hparser : u.parser = { s.parser with nread := n, contentLength := l }) :
    Near s.wholeBody.parser u.wholeBody.parser := by
  have hleft : u.parser.left u.parser.contentLength =
      { s.parser.left s.parser.contentLength with nread := n } := by
    rw [hparser]
    simp [HttpParser.left]
  have hstate : u.parser.state = s.parser.state := by rw [hparser]
  unfold Cursor.wholeBody
  rw [hleft, hstate]
  by_cases hchunk : s.parser.state = .chunkData
  · rw [if_pos hchunk, if_pos hchunk]
    exact ⟨n, hn, rfl⟩
  · rw [if_neg hchunk, if_neg hchunk]
    exact ⟨n, hn, rfl⟩

theorem body_uncounted (hstate : p.state.takesBody) : p.counted = p := by
  unfold HttpParser.counted
  rcases hstate with hstate | hstate <;> simp [hstate, State.parsingHeader]

/-- A byte of a body: there is more to come, or it is the last one. -/
theorem body_byte {r : Result} (hwaits : Waits p place) (hstate : p.state.takesBody)
    (hbyte : Byte p ch r) :
    (1 < p.contentLength ∧ r.parser = p.left 1 ∧ r.calls = [.data .body [ch]]) ∨
    (p.contentLength = 1 ∧ (Cursor.switched p ch).wholeBody.returned = false ∧
      r.parser = (Cursor.switched p ch).wholeBody.parser ∧
      r.calls = (Cursor.switched p ch).wholeBody.flush.calls) := by
  obtain ⟨-, t, hturn, hgoes, hparser, hcalls⟩ := byte_dispatch hwaits hbyte
  have hcounted : (Cursor.switched p ch).parser = p := body_uncounted hstate
  have hmark : (Cursor.switched p ch).mark = none := by
    rcases hstate with hstate | hstate <;> simp [Cursor.switched, Cursor.start, hstate, State.resumed]
  have hlength := (body_length hwaits.ready hstate).1
  rw [dispatch_body (by rwa [hcounted]) (by rw [hcounted]; exact hwaits.ready)
    (Or.inl (by simp [hmark])), Option.some.injEq] at hturn
  have hmin : min p.contentLength 1 = 1 := by omega
  have htaken : (Cursor.switched p ch).taken.parser = p.left 1 := by
    show (Cursor.switched p ch).parser.left (min _ 1) = p.left 1
    rw [hcounted, hmin]
  by_cases hone : p.contentLength = 1
  · rw [htaken, if_pos (by simp [HttpParser.left, hone])] at hturn
    rw [hturn]
    exact Or.inr ⟨hone, hgoes, hparser, hcalls⟩
  · have hmore : (p.left 1).contentLength ≠ 0 := by
      simp only [HttpParser.left]
      omega
    rw [htaken, if_neg hmore] at hturn
    refine Or.inl ⟨by omega, ?_, ?_⟩
    · rw [hparser, ← hturn, htaken]
    · rw [hcalls, ← hturn, flush_calls_eq]
      simp [Cursor.taken, Cursor.marked, hmark, hcounted]
      simp [Cursor.switched, Cursor.start]
      omega

/-- The bytes of a body in front of its last one. -/
theorem body_bytes {data : Text} {calls : List Call} {n : Nat} (hwaits : Waits p place)
    (hstate : p.state.takesBody) (hn : n < p.contentLength) (hle : n ≤ data.length)
    (h : Bytewise p data q calls) :
    Bytewise p (data.take n) (p.left n) (pieces .body (data.take n)) ∧
      ∃ more, Bytewise (p.left n) (data.drop n) q more := by
  induction n generalizing p data calls place with
  | zero => exact ⟨⟨rfl, rfl⟩, calls, h⟩
  | succ n ih =>
    cases data with
    | nil => exact absurd hle (Nat.not_succ_le_zero n)
    | cons ch rest =>
      obtain ⟨r, more, hbyte, hrest, -⟩ := h
      obtain ⟨next, hwaits'⟩ := byte_waits hwaits hbyte
      rcases body_byte hwaits hstate hbyte with ⟨-, hparser, hcalls⟩ | ⟨hone, -⟩
      · rw [hparser] at hwaits' hrest
        have hlength : n < (p.left 1).contentLength := by
          simp only [HttpParser.left]
          omega
        obtain ⟨htake, more', hdrop⟩ := ih hwaits' hstate hlength (by simpa using hle) hrest
        rw [left_left, Nat.add_comm] at htake hdrop
        refine ⟨⟨r, pieces .body (rest.take n), hbyte, ?_, ?_⟩, more', hdrop⟩
        · rw [hparser]
          exact htake
        · rw [hcalls]
          rfl
      · omega

/-- A turn over a body, or over the data of a chunk. -/
theorem body_joined {calls : List Call} (hwaits : Waits p place) (hnear : Near p s.parser)
    (hstate : p.state.takesBody) (hready : s.Ready start) (hrest : s.rest = ch :: rest)
    (hreturned : s.returned = false) (hbytes : Bytewise p s.rest q calls) :
    ∃ t data r c, turn s = some t ∧ Joined s p data t r c := by
  obtain ⟨k, hk, hparser⟩ := id hnear
  have hlength : s.parser.contentLength = p.contentLength := by rw [hparser]
  have hstates : s.parser.state.takesBody := by rw [hparser]; exact hstate
  have hmark := body_mark hready hstates
  have hturn : turn s = some (if s.taken.parser.contentLength = 0 then s.wholeBody else s.taken) := by
    have hcounts : s.parser.Counts := by
      intro hheader
      rcases hstates with h | h <;> simp [h, State.parsingHeader] at hheader
    rw [turn_dispatch hrest hreturned hcounts, body_uncounted hstates,
      ← dispatch_body hstates hready.ready hmark]
  have hsplit : ∀ n, s.rest = s.rest.take n ++ s.rest.drop n := fun n =>
    (List.take_append_drop n s.rest).symm
  have htaken : s.taken.parser = s.parser.left (min p.contentLength s.rest.length) := by
    rw [← hlength]
    rfl
  by_cases hdone : p.contentLength ≤ s.rest.length
  · have hpos := (body_length hwaits.ready hstate).1
    obtain ⟨htake, more, hdrop⟩ :=
      body_bytes (n := p.contentLength - 1) hwaits hstate (by omega) (by omega) hbytes
    have hlt : p.contentLength - 1 < s.rest.length := by omega
    rw [List.drop_eq_getElem_cons hlt] at hdrop
    have hlast : s.rest.take (p.contentLength - 1) ++ [s.rest[p.contentLength - 1]] =
        s.rest.take p.contentLength := by
      rw [← List.take_succ_eq_append_getElem hlt]
      congr 1
      omega
    generalize s.rest[p.contentLength - 1] = c at hdrop hlast
    obtain ⟨r, -, hbyte, -⟩ := hdrop
    obtain ⟨place', hwaits'⟩ := bytewise_waits ⟨place, hwaits⟩ htake
    have hone : (p.left (p.contentLength - 1)).contentLength = 1 := by
      simp only [HttpParser.left]
      omega
    rw [if_pos (by rw [htaken]; simp only [HttpParser.left]; omega)] at hturn
    rcases body_byte hwaits' hstate hbyte with ⟨h, -⟩ | ⟨-, hgoes, hparserr, hcallsr⟩
    · omega
    have hx : (Cursor.switched (p.left (p.contentLength - 1)) c).parser =
        p.left (p.contentLength - 1) := body_uncounted hstate
    have hmarkx : (Cursor.switched (p.left (p.contentLength - 1)) c).marked = [] := by
      rcases hstate with hstate | hstate <;>
        simp [Cursor.switched, Cursor.start, Cursor.marked, HttpParser.left, hstate, State.resumed]
    have hx' : (Cursor.switched (p.left (p.contentLength - 1)) c).rest = [c] ∧
        (Cursor.switched (p.left (p.contentLength - 1)) c).calls = [] ∧
        (Cursor.switched (p.left (p.contentLength - 1)) c).returned = false := ⟨rfl, rfl, rfl⟩
    generalize Cursor.switched (p.left (p.contentLength - 1)) c = x at *
    obtain ⟨hrestx, hcallsx, hreturnedx⟩ := hx'
    obtain ⟨-, hgoesx, hflushx⟩ := @wholeBody_spec x (by rw [hx]; exact hstate)
      (by rw [hx, hone, hrestx]; simp) hreturnedx
    obtain ⟨hresty, hgoesy, hflushy⟩ := @wholeBody_spec s hstates (by rwa [hlength]) hreturned
    refine ⟨s.wholeBody, s.rest.take p.contentLength, r.parser,
      pieces .body (s.rest.take (p.contentLength - 1)) ++ r.calls, hturn, ?_, ?_, ?_, ?_, ?_, ?_⟩
    · rw [← hlast]
      exact bytewise_append.mpr ⟨_, _, _, htake, bytewise_singleton hbyte, rfl⟩
    · rw [hparserr]
      refine wholeBody_near (n := k) (l := s.parser.contentLength) ?_ ?_
      · rw [hx]
        exact hk
      · rw [hx, hparser]
        rfl
    · have hsome : s.rest.take p.contentLength ≠ [] := by
        rw [hrest]
        simp [hpos]
      have hpieces := marked_pieces hmark hsome
      have hstatex : x.parser.state = s.parser.state := by
        rw [hx, hparser]
        rfl
      rw [hflushy, hcallsr, hflushx, hlength, hcallsx, hrestx, hmarkx, hx, hone, ← hx, hstatex]
      rw [join_append_congr hpieces rfl, ← hlast]
      simp [pieces]
    · rw [hresty, hlength]
      exact hsplit _
    · rw [hrest]
      simp [hpos]
    · rw [hgoesy, ← hgoes, hgoesx, hx, hparser]
      rfl
  · rw [if_neg (by rw [htaken]; simp only [HttpParser.left]; omega)] at hturn
    obtain ⟨htake, -⟩ := body_bytes (n := s.rest.length) hwaits hstate (by omega) (Nat.le_refl _) hbytes
    have hmin : min p.contentLength s.rest.length = s.rest.length := by omega
    refine ⟨_, _, _, _, hturn, htake, ?_, ?_, ?_, ?_, hreturned⟩
    · rw [htaken, hmin, hparser]
      exact ⟨k, hk, rfl⟩
    · rw [← marked_pieces hmark (by rw [List.take_length, hrest]; simp), flush_calls_eq]
      simp [Cursor.taken, hlength, hmin]
    · show s.rest = s.rest.take _ ++ s.rest.drop _
      rw [hlength, hmin]
      exact hsplit _
    · rw [List.take_length, hrest]
      simp

/-! ## Any turn -/

theorem turn_joined {calls : List Call} (hwaits : Waits p place) (hnear : Near p s.parser)
    (hready : s.Ready start) (hrest : s.rest = ch :: rest) (hreturned : s.returned = false)
    (hbytes : Bytewise p s.rest q calls) :
    ∃ t data r c, turn s = some t ∧ Joined s p data t r c := by
  obtain ⟨r, hbyte⟩ : ∃ r, Byte p ch r := by
    rw [hrest] at hbytes
    obtain ⟨r, -, hbyte, -⟩ := hbytes
    exact ⟨r, hbyte⟩
  cases hstate : p.state with
  | headerField => exact headerField_joined hwaits hnear hstate hready hrest hreturned hbytes
  | headerValue => exact headerValue_joined hwaits hnear hstate hready hrest hreturned hbytes
  | bodyIdentity =>
    exact body_joined hwaits hnear (Or.inl hstate) hready hrest hreturned hbytes
  | chunkData => exact body_joined hwaits hnear (Or.inr hstate) hready hrest hreturned hbytes
  | chunkDataAlmostDone =>
    obtain ⟨t, hturn, hjoined⟩ :=
      chunkDataAlmostDone_joined hwaits hnear hstate hready hrest hreturned hbyte
    exact ⟨t, [ch], _, _, hturn, hjoined⟩
  | _ =>
    obtain ⟨t, hturn, hjoined⟩ := plain_joined hwaits hnear (by rw [hstate]; rfl)
      (by rw [hstate]; rfl) hready hrest hreturned hbyte
    exact ⟨t, [ch], _, _, hturn, hjoined⟩

end Turns

end huasi.http_execute
