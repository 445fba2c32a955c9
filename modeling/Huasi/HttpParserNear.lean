-- Two parsers of src/src/http/http_parser.c that differ only in the bytes that they have counted
-- do the same with every byte. So what is counted twice does no harm until it is too much.
import Huasi.HttpInput

open huasi.text huasi.http_parser

namespace huasi.http_execute

/-! ## The same parser, with fewer bytes counted -/

def Near (p q : HttpParser) : Prop := ∃ n ≤ p.nread, q = { p with nread := n }

/-- The same move, of such parsers. -/
structure Move.Near (m w : Move) : Prop where
  parser : http_execute.Near m.parser w.parser
  actions : w.actions = m.actions
  ending : w.ending = m.ending

theorem Near.refl (p : HttpParser) : Near p p := ⟨p.nread, Nat.le_refl _, rfl⟩

section Moves

variable {p q : HttpParser} {ch : UInt8} {n : Nat}

theorem near_move {actions : List Action} {e : Ending} (hn : n ≤ p.nread) :
    Move.Near ⟨p, actions, e⟩ ⟨{ p with nread := n }, actions, e⟩ :=
  ⟨⟨n, hn, rfl⟩, rfl, rfl⟩

theorem Move.Near.after {m w : Move} (h : m.Near w) (actions : List Action) :
    (m.after actions).Near (w.after actions) :=
  ⟨h.parser, by simp [Move.after, h.actions], h.ending⟩

/-! ### The request line -/

theorem startReq_near (h : Near p q) : (startReq p ch).Near (startReq q ch) := by
  obtain ⟨n, hn, rfl⟩ := h
  unfold startReq
  by_cases hends : ch = CR ∨ ch = LF
  · rw [if_pos hends, if_pos hends]
    exact near_move hn
  · rw [if_neg hends, if_neg hends]
    simp only
    split_ifs
    · exact near_move hn
    · cases firstMethods.lookup ch <;> exact near_move hn

theorem reqMethod_near {m : Move} (h : Near p q) (hm : reqMethod p ch = some m) :
    ∃ w, reqMethod q ch = some w ∧ m.Near w := by
  obtain ⟨n, hn, rfl⟩ := h
  unfold reqMethod at hm ⊢
  by_cases hzero : ch = 0
  · rw [if_pos hzero] at hm ⊢
    cases hm
    exact ⟨_, rfl, near_move hn⟩
  · rw [if_neg hzero] at hm ⊢
    obtain ⟨name, hname, hm⟩ := Option.bind_eq_some_iff.mp hm
    obtain ⟨matcher, hmatcher, hm⟩ := Option.bind_eq_some_iff.mp hm
    simp only [hname, hmatcher, Option.bind_eq_bind, Option.bind_some]
    split_ifs at hm ⊢
    · cases hm
      exact ⟨_, rfl, near_move hn⟩
    · cases hm
      exact ⟨_, rfl, near_move hn⟩
    · cases hchange : methodChanges.lookup (p.method, p.index, ch) <;>
        rw [hchange] at hm <;> cases hm <;> exact ⟨_, rfl, near_move hn⟩
    · cases hm
      exact ⟨_, rfl, near_move hn⟩

theorem urlChar_near {s : UrlState} (h : Near p q) (actions : List Action) :
    (urlChar p s ch actions).Near (urlChar q s ch actions) := by
  obtain ⟨n, hn, rfl⟩ := h
  unfold urlChar
  simp only
  split_ifs
  · refine Move.Near.after ?_ actions
    exact near_move hn
  · exact near_move hn

theorem spacesBeforeUrl_near (h : Near p q) :
    (spacesBeforeUrl p ch).Near (spacesBeforeUrl q ch) := by
  obtain ⟨n, hn, rfl⟩ := h
  unfold spacesBeforeUrl
  by_cases hspace : ch = 32
  · rw [if_pos hspace, if_pos hspace]
    exact near_move hn
  · rw [if_neg hspace, if_neg hspace]
    exact urlChar_near ⟨n, hn, rfl⟩ _

theorem url_near {s : UrlState} (h : Near p q) : (url p s ch).Near (url q s ch) := by
  have hchar := fun actions => @urlChar_near p q ch s h actions
  have hspaces := @spacesBeforeUrl_near p q ch h
  obtain ⟨n, hn, rfl⟩ := h
  have hopen : (urlOpen p s ch).Near (urlOpen { p with nread := n } s ch) := by
    unfold urlOpen
    split_ifs
    · exact near_move hn
    · exact hchar []
  have hends : (urlEnds p s ch).Near (urlEnds { p with nread := n } s ch) := by
    unfold urlEnds
    split_ifs
    · exact near_move hn
    · exact near_move hn
    · exact near_move hn
    · exact hchar []
  unfold url
  cases s with
  | dead => exact near_move hn
  | spacesBeforeUrl => exact hspaces
  | schema | schemaSlash | schemaSlashSlash | serverStart => exact hopen
  | _ => exact hends

theorem strictChar_near (expected : UInt8) (state : State) (h : Near p q) :
    (strictChar p expected ch state).Near (strictChar q expected ch state) := by
  obtain ⟨n, hn, rfl⟩ := h
  unfold strictChar
  split_ifs <;> exact near_move hn

/-! ### Header lines -/

/-- Behind the headers, the counter begins again. -/
theorem headersDone_near (h : Near p q) : (headersDone p ch).Near (headersDone q ch) := by
  obtain ⟨n, hn, rfl⟩ := h
  unfold headersDone
  simp only
  by_cases hch : ch ≠ LF
  · rw [if_pos hch, if_pos hch]
    exact near_move hn
  · rw [if_neg hch, if_neg hch]
    exact ⟨Near.refl _, rfl, rfl⟩

theorem headersAlmostDone_near (h : Near p q) :
    (headersAlmostDone p ch).Near (headersAlmostDone q ch) := by
  obtain ⟨n, hn, rfl⟩ := h
  unfold headersAlmostDone
  split_ifs
  · exact near_move hn
  · refine Move.Near.after ?_ _
    exact near_move hn
  · exact near_move hn
  · simp only
    refine Move.Near.after (headersDone_near ?_) _
    exact ⟨n, hn, rfl⟩

theorem headerFieldStart_near (h : Near p q) :
    (headerFieldStart p ch).Near (headerFieldStart q ch) := by
  obtain ⟨n, hn, rfl⟩ := h
  unfold headerFieldStart
  split_ifs
  · exact near_move hn
  · refine headersAlmostDone_near ?_
    exact ⟨n, hn, rfl⟩
  · exact near_move hn
  · exact near_move hn

theorem headerValueStart_near (h : Near p q) :
    (headerValueStart p ch).Near (headerValueStart q ch) := by
  obtain ⟨n, hn, rfl⟩ := h
  unfold headerValueStart
  simp only
  cases p.headerState with
  | contentLength =>
    simp only
    split_ifs
    · refine Move.Near.after ?_ _
      exact near_move hn
    · refine Move.Near.after ?_ _
      exact near_move hn
    · exact near_move hn
  | _ => exact near_move hn

theorem headerValueDiscardWs_near (h : Near p q) :
    (headerValueDiscardWs p ch).Near (headerValueDiscardWs q ch) := by
  obtain ⟨n, hn, rfl⟩ := h
  unfold headerValueDiscardWs
  split_ifs
  · exact near_move hn
  · exact near_move hn
  · exact near_move hn
  · refine headerValueStart_near ?_
    exact ⟨n, hn, rfl⟩

theorem headerValueLws_near (h : Near p q) :
    (headerValueLws p ch).Near (headerValueLws q ch) := by
  obtain ⟨n, hn, rfl⟩ := h
  unfold headerValueLws
  split_ifs
  · refine headerValueStart_near ?_
    exact ⟨n, hn, rfl⟩
  · refine headerFieldStart_near ?_
    exact ⟨n, hn, rfl⟩

theorem headerValueDiscardLws_near (h : Near p q) :
    (headerValueDiscardLws p ch).Near (headerValueDiscardLws q ch) := by
  obtain ⟨n, hn, rfl⟩ := h
  unfold headerValueDiscardLws
  split_ifs
  · exact near_move hn
  · refine Move.Near.after (headerFieldStart_near ?_) _
    exact ⟨n, hn, rfl⟩

/-! ### Chunks -/

theorem chunkSize_near {m : Move} (h : Near p q) (hm : chunkSize p ch = some m) :
    ∃ w, chunkSize q ch = some w ∧ m.Near w := by
  obtain ⟨n, hn, rfl⟩ := h
  unfold chunkSize at hm ⊢
  split at hm
  · rw [if_pos ‹_›]
    by_cases hcr : ch = CR
    · rw [if_pos hcr] at hm ⊢
      cases hm
      exact ⟨_, rfl, near_move hn⟩
    · rw [if_neg hcr] at hm ⊢
      cases hvalue : unhex ch with
      | none =>
        simp only [hvalue] at hm ⊢
        split_ifs at hm ⊢ <;> cases hm <;> exact ⟨_, rfl, near_move hn⟩
      | some value =>
        simp only [hvalue] at hm ⊢
        split_ifs at hm ⊢ <;> cases hm <;> exact ⟨_, rfl, near_move hn⟩
  · cases hm

theorem chunkParameters_near {m : Move} (h : Near p q) (hm : chunkParameters p ch = some m) :
    ∃ w, chunkParameters q ch = some w ∧ m.Near w := by
  obtain ⟨n, hn, rfl⟩ := h
  unfold chunkParameters at hm ⊢
  split_ifs at hm ⊢ <;> cases hm <;> exact ⟨_, rfl, near_move hn⟩

theorem chunkSizeAlmostDone_near {m : Move} (h : Near p q)
    (hm : chunkSizeAlmostDone p ch = some m) :
    ∃ w, chunkSizeAlmostDone q ch = some w ∧ m.Near w := by
  obtain ⟨n, hn, rfl⟩ := h
  unfold chunkSizeAlmostDone at hm ⊢
  simp only at hm ⊢
  split_ifs at hm ⊢ <;> cases hm
  · exact ⟨_, rfl, near_move hn⟩
  · exact ⟨_, rfl, Near.refl _, rfl, rfl⟩
  · exact ⟨_, rfl, Near.refl _, rfl, rfl⟩

theorem chunkDataAlmostDone_near {m : Move} (h : Near p q)
    (hm : chunkDataAlmostDone p ch = some m) :
    ∃ w, chunkDataAlmostDone q ch = some w ∧ m.Near w := by
  obtain ⟨n, hn, rfl⟩ := h
  unfold chunkDataAlmostDone at hm ⊢
  simp only at hm ⊢
  split_ifs at hm ⊢ <;> cases hm <;> exact ⟨_, rfl, near_move hn⟩

theorem chunkDataDone_near {m : Move} (h : Near p q) (hm : chunkDataDone p ch = some m) :
    ∃ w, chunkDataDone q ch = some w ∧ m.Near w := by
  obtain ⟨n, hn, rfl⟩ := h
  unfold chunkDataDone at hm ⊢
  simp only at hm ⊢
  split_ifs at hm ⊢ <;> cases hm
  · exact ⟨_, rfl, near_move hn⟩
  · exact ⟨_, rfl, Near.refl _, rfl, rfl⟩

/-! ### The switch -/

/-- The size of a chunk begins with one byte counted, in both parsers. -/
theorem switch_near {m : Move} (h : Near p q)
    (hready : p.state = .chunkSizeStart → q.nread = p.nread) (hm : switch p ch = some m) :
    ∃ w, switch q ch = some w ∧ m.Near w := by
  have hsame : q.state = p.state := by
    obtain ⟨n, hn, rfl⟩ := h
    rfl
  unfold switch at hm ⊢
  rw [hsame]
  cases hstate : p.state with
  | dead =>
    rw [hstate] at hm
    cases hm
    refine ⟨_, rfl, ?_⟩
    obtain ⟨n, hn, rfl⟩ := h
    split_ifs <;> exact near_move hn
  | reqMethod =>
    rw [hstate] at hm
    exact reqMethod_near h hm
  | chunkSizeStart =>
    obtain ⟨n, hn, rfl⟩ := h
    obtain rfl : n = p.nread := hready hstate
    rw [hstate] at hm
    exact ⟨m, hm, Near.refl _, rfl, rfl⟩
  | chunkSize =>
    rw [hstate] at hm
    exact chunkSize_near h hm
  | chunkParameters =>
    rw [hstate] at hm
    exact chunkParameters_near h hm
  | chunkSizeAlmostDone =>
    rw [hstate] at hm
    exact chunkSizeAlmostDone_near h hm
  | chunkDataAlmostDone =>
    rw [hstate] at hm
    exact chunkDataAlmostDone_near h hm
  | chunkDataDone =>
    rw [hstate] at hm
    exact chunkDataDone_near h hm
  | startReq =>
    rw [hstate] at hm
    cases hm
    exact ⟨_, rfl, startReq_near h⟩
  | url s =>
    rw [hstate] at hm
    cases hm
    exact ⟨_, rfl, url_near h⟩
  | headerFieldStart =>
    rw [hstate] at hm
    cases hm
    exact ⟨_, rfl, headerFieldStart_near h⟩
  | headerValueDiscardWs =>
    rw [hstate] at hm
    cases hm
    exact ⟨_, rfl, headerValueDiscardWs_near h⟩
  | headerValueDiscardLws =>
    rw [hstate] at hm
    cases hm
    exact ⟨_, rfl, headerValueDiscardLws_near h⟩
  | headerValueStart =>
    rw [hstate] at hm
    cases hm
    exact ⟨_, rfl, headerValueStart_near h⟩
  | headerValueLws =>
    rw [hstate] at hm
    cases hm
    exact ⟨_, rfl, headerValueLws_near h⟩
  | headersAlmostDone =>
    rw [hstate] at hm
    cases hm
    exact ⟨_, rfl, headersAlmostDone_near h⟩
  | headersDone =>
    rw [hstate] at hm
    cases hm
    exact ⟨_, rfl, headersDone_near h⟩
  | reqHttpH | reqHttpHT | reqHttpHTT | reqHttpHTTP | headerValueDiscardWsAlmostDone =>
    rw [hstate] at hm
    cases hm
    exact ⟨_, rfl, strictChar_near _ _ h⟩
  | messageDone =>
    rw [hstate] at hm
    cases hm
    obtain ⟨n, hn, rfl⟩ := h
    exact ⟨_, rfl, near_move hn⟩
  | reqHttpStart | reqHttpMajor | reqHttpDot | reqHttpMinor | reqHttpEnd | reqLineAlmostDone
  | headerAlmostDone =>
    rw [hstate] at hm
    cases hm
    refine ⟨_, rfl, ?_⟩
    obtain ⟨n, hn, rfl⟩ := h
    first
      | unfold reqHttpStart
      | unfold reqHttpMajor
      | unfold reqHttpDot
      | unfold reqHttpMinor
      | unfold reqHttpEnd
      | unfold reqLineAlmostDone
      | unfold headerAlmostDone
    split_ifs <;> exact near_move hn
  | headerField | headerValue | chunkData | bodyIdentity =>
    rw [hstate] at hm
    cases hm

end Moves

end huasi.http_execute
