-- What follows on the header lines in http_parser_execute (src/src/http/http_parser.c): the end of
-- the headers, a body of a known length, and the chunks of a body.
import Huasi.HttpLines

open huasi.text huasi.runs huasi.http_parser

namespace huasi.http_execute

section Bodies

variable {p : HttpParser} {known : Known} {n : Nat} {ch : UInt8} {data : Text}

/-! ## The end of the headers -/

/-- A request of HTTP/1.1 that stays with the protocol and keeps the connection. -/
structure Known.Stays (known : Known) : Prop where
  method : known.method ≠ HTTP_CONNECT
  upgrade : known.flags.upgrade = false
  close : known.flags.connectionClose = false
  skipbody : known.flags.skipbody = false
  framing : (known.flags.chunked && known.flags.contentlength) = false

/-- The state behind the headers, and the callback if there is no body. -/
def Known.body (known : Known) : State × List Call :=
  if known.flags.chunked then (.chunkSizeStart, [])
  else if known.contentLength = 0 ∨ known.contentLength = ULLONG_MAX then
    (.startReq, [.onMessageComplete])
  else (.bodyIdentity, [])

theorem newMessage_stays (hmajor : p.httpMajor = 1) (hminor : p.httpMinor = 1)
    (hclose : p.flags.connectionClose = false) :
    p.shouldKeepAlive = true ∧ p.newMessage = .startReq := by
  have hkeep : p.shouldKeepAlive = true := by
    simp [HttpParser.shouldKeepAlive, hmajor, hminor, hclose]
  exact ⟨hkeep, by simp [HttpParser.newMessage, hkeep]⟩

theorem headersDone_stays (hversion : p.httpMajor = 1 ∧ p.httpMinor = 1)
    (hclose : p.flags.connectionClose = false) (hskip : p.flags.skipbody = false)
    (hupgrade : p.upgrade = false) :
    headersDone p LF =
      HttpParser.next { p with
        nread := 0
        state := (Known.body ⟨p.method, p.flags, p.contentLength⟩).1 }
        ((Known.body ⟨p.method, p.flags, p.contentLength⟩).2.map .notify) := by
  unfold headersDone Known.body
  rw [if_neg (by simp)]
  simp only [hupgrade, hskip, Bool.false_and]
  by_cases hchunked : p.flags.chunked = true
  · simp [hchunked, HttpParser.goTo]
  · by_cases hzero : p.contentLength = 0
    · simp [hchunked, hzero, HttpParser.newMessage, HttpParser.shouldKeepAlive, hversion, hclose]
    · by_cases hmax : p.contentLength = ULLONG_MAX
      · simp [hchunked, hmax, HttpParser.newMessage, HttpParser.shouldKeepAlive, hversion, hclose]
      · simp [hchunked, hzero, hmax, HttpParser.goTo]

/-- The line feed behind the headers. -/
theorem headersAlmostDone_stays (hstays : known.Stays) (hcarries : Carries p known n)
    (htrailing : known.flags.trailing = false) :
    headersAlmostDone p LF = HttpParser.next { p with nread := 0, state := known.body.1 }
      ((Call.onHeadersComplete known.method true :: known.body.2).map .notify) := by
  obtain ⟨hmethod, hupgrade, hclose, hskip, hframing⟩ := hstays
  have hknown : (⟨p.method, p.flags, p.contentLength⟩ : Known) = known := by
    rw [hcarries.method, hcarries.flags, hcarries.contentLength]
  rw [← hcarries.flags] at htrailing hupgrade hclose hskip hframing
  rw [← hcarries.method] at hmethod ⊢
  have hstill : (p.flags.upgrade && p.flags.connectionUpgrade || decide (p.method = HTTP_CONNECT)) =
      p.upgrade := by
    rw [hcarries.running.2]
    simp [hupgrade, hmethod]
  have hkeep := (newMessage_stays hcarries.version.1 hcarries.version.2 hclose).1
  unfold headersAlmostDone
  rw [if_neg (by simp), if_neg (by simp [htrailing]), if_neg (by simp [hframing])]
  simp only [hstill]
  rw [headersDone_stays (p := { p with state := .headersDone }) hcarries.version hclose hskip
    hcarries.running.2]
  simp only [hknown]
  have hkeep' : HttpParser.shouldKeepAlive { p with state := .headersDone } = true := hkeep
  rw [hkeep']
  rfl

/-- The end of the headers. -/
theorem headers_end (h : AtLine p known n) (hstays : known.Stays)
    (htrailing : known.flags.trailing = false) (hroom : n + 2 ≤ HTTP_MAX_HEADER_SIZE) :
    Takes p [CR, LF] { p.finished with nread := 0, state := known.body.1 }
      (.onHeadersComplete known.method true :: known.body.2) := by
  have hcarries := h.carries
  have hp : p.Running := hcarries.running
  have hcount : p.nread ≤ n := hcarries.count
  have hcr := lines_end hp h.state (by omega)
  have hpending : HttpParser.pending { p.finished with nread := 0, state := known.body.1 } = [] := by
    unfold HttpParser.pending
    rw [if_neg]
    show known.body.1 ≠ _
    unfold Known.body
    split_ifs <;> nofun
  have hlf : Takes { p.finished with nread := p.nread + 1, state := .headersAlmostDone } [LF]
      { p.finished with nread := 0, state := known.body.1 }
      (.onHeadersComplete known.method true :: known.body.2) := by
    refine takes_notified hp rfl rfl rfl hpending (fun _ => ?_) ?_ hp
    · show p.nread + 1 + 1 ≤ _
      omega
    · have hmoved : Carries { p.finished with nread := p.nread + 2, state := .headersAlmostDone }
          known (n + 2) :=
        ⟨hp, hcarries.method, hcarries.flags, hcarries.contentLength, hcarries.version,
          by show p.nread + 2 ≤ _; omega⟩
      have hmove := headersAlmostDone_stays hstays hmoved htrailing
      exact congrArg some hmove
  exact takes_append hcr hlf

/-! ## The data of a body -/

/-- In front of data of a body that has `m` bytes to come. -/
structure AtBody (p : HttpParser) (m : Nat) : Prop where
  running : p.Running
  state : p.state.takesBody
  chunked : p.state = .chunkData → p.flags.chunked = true
  length : p.contentLength = m
  bound : m < ULLONG_MAX

theorem AtBody.pending (h : AtBody p n) : p.pending = [] := by
  unfold HttpParser.pending
  rcases h.state with hstate | hstate <;> simp [hstate]

theorem AtBody.ready (h : AtBody p (n + 1)) : ReadyAt 0 p := by
  have hlength := h.length
  have hbound := h.bound
  unfold ReadyAt
  rcases h.state with hstate | hstate
  · simp only [hstate]
    omega
  · simp only [hstate]
    exact ⟨h.chunked hstate, by omega, by omega⟩

theorem AtBody.left {m : Nat} (h : AtBody p (m + 1)) : AtBody (p.left 1) m where
  running := h.running
  state := h.state
  chunked := h.chunked
  length := by
    have := h.length
    show p.contentLength - 1 = m
    omega
  bound := by
    have := h.bound
    omega

/-- The turn of the loop for a byte of a body. -/
theorem body_dispatch (h : AtBody p (n + 1)) :
    dispatch (.switched p ch) ch = some (if n = 0 then (Cursor.switched p ch).wholeBody
      else { Cursor.switched p ch with
        parser := p.left 1
        rest := []
        mark := some (.body, [ch]) }) ∧ p.Counts ∧ p.state.resumed = none := by
  have hcounted : (Cursor.switched p ch).parser = p := body_uncounted h.state
  have hresumed : p.state.resumed = none := by
    rcases h.state with hstate | hstate <;> rw [hstate] <;> rfl
  have hmark : (Cursor.switched p ch).mark = none := by
    simp [Cursor.switched, Cursor.start, hresumed]
  have hlength := h.length
  have hmin : min p.contentLength 1 = 1 := by omega
  have htaken : (Cursor.switched p ch).taken =
      { Cursor.switched p ch with
        parser := p.left 1
        rest := []
        mark := some (.body, [ch]) } := by
    unfold Cursor.taken Cursor.marked
    rw [hcounted, hmark]
    have hrest : (Cursor.switched p ch).rest = [ch] := rfl
    simp [hrest, hmin]
  refine ⟨?_, ?_, hresumed⟩
  · rw [dispatch_body (by rw [hcounted]; exact h.state) (by rw [hcounted]; exact h.ready)
      (Or.inl (by simp [hmark])), htaken]
    have hleft : (p.left 1).contentLength = n := h.left.length
    simp only [hleft]
  · intro hheader
    rcases h.state with hstate | hstate <;> simp [hstate, State.parsingHeader] at hheader

/-- A byte of a body that is not the last one. -/
theorem bodyByte_takes (h : AtBody p (n + 2)) : Takes p [ch] (p.left 1) [.data .body [ch]] := by
  obtain ⟨hdispatch, hcounts, -⟩ := @body_dispatch p (n + 1) ch h
  rw [if_neg (by omega)] at hdispatch
  refine takes_byte (byte_of_dispatch h.running hcounts hdispatch rfl rfl h.running) rfl ?_
  rw [flush_calls_eq, h.pending, h.left.pending]
  simp [Cursor.switched, Cursor.start]

/-- The bytes of a body in front of its last one. -/
theorem bodyBytes_take {m : Nat} (h : AtBody p (data.length + m + 1)) :
    Takes p data (p.left data.length) (pieces .body data) ∧ AtBody (p.left data.length) (m + 1) := by
  induction data generalizing p with
  | nil =>
    have hall : AtBody p (m + 1) := by simpa using h
    exact ⟨takes_nil p, hall⟩
  | cons ch data ih =>
    have hsize : (ch :: data).length + m + 1 = data.length + m + 1 + 1 := by
      rw [List.length_cons]
      omega
    rw [hsize] at h
    obtain ⟨hrest, hend⟩ := ih h.left
    rw [left_left, Nat.add_comm] at hrest hend
    exact ⟨takes_append (bodyByte_takes h) hrest, hend⟩

/-- The last byte of a body. -/
theorem lastByte_takes (h : AtBody p 1) (hversion : p.httpMajor = 1 ∧ p.httpMinor = 1)
    (hclose : p.flags.connectionClose = false) :
    Takes p [ch] { p.left 1 with
      state := if p.state = .chunkData then .chunkDataAlmostDone else .startReq }
      (.data .body [ch] :: if p.state = .chunkData then [] else [.onMessageComplete]) := by
  obtain ⟨hdispatch, hcounts, hresumed⟩ := @body_dispatch p 0 ch h
  rw [if_pos rfl] at hdispatch
  have hcounted : (Cursor.switched p ch).parser = p := body_uncounted h.state
  have hlength := h.length
  have hmarked : (Cursor.switched p ch).marked = [] := by
    simp [Cursor.marked, Cursor.switched, Cursor.start, hresumed]
  obtain ⟨hrest, hgoes, hcalls⟩ := @wholeBody_spec (.switched p ch) (by rw [hcounted]; exact h.state)
    (by rw [hcounted, hlength]; exact Nat.le_refl 1) rfl
  rw [hcounted, hlength] at hrest hcalls
  rw [hcounted, h.running.2, Bool.and_false] at hgoes
  have hparser : (Cursor.switched p ch).wholeBody.parser = { p.left 1 with
      state := if p.state = .chunkData then .chunkDataAlmostDone else .startReq } := by
    unfold Cursor.wholeBody
    rw [hcounted, hlength]
    by_cases hchunk : p.state = .chunkData
    · rw [if_pos hchunk, if_pos hchunk]
    · rw [if_neg hchunk, if_neg hchunk]
      have hnew : HttpParser.newMessage { p.left 1 with state := .messageDone } = .startReq :=
        (newMessage_stays (p := { p.left 1 with state := .messageDone }) hversion.1 hversion.2 hclose).2
      simp only [messageDone, hnew]
  refine takes_byte (byte_of_dispatch h.running hcounts hdispatch hgoes hrest
    (by rw [hparser]; exact h.running)) hparser ?_
  have hpending : HttpParser.pending { p.left 1 with
      state := if p.state = .chunkData then .chunkDataAlmostDone else .startReq } = [] := by
    unfold HttpParser.pending
    split_ifs <;> simp_all
  rw [hcalls, h.pending, hpending, hmarked]
  rcases h.state with hstate | hstate <;> simp [hstate, Cursor.switched, Cursor.start]

/-- The whole data of a body, or of a chunk. -/
theorem data_takes (hdata : data ≠ []) (h : AtBody p data.length)
    (hversion : p.httpMajor = 1 ∧ p.httpMinor = 1) (hclose : p.flags.connectionClose = false) :
    Takes p data { p.left data.length with
      state := if p.state = .chunkData then .chunkDataAlmostDone else .startReq }
      (.data .body data :: if p.state = .chunkData then [] else [.onMessageComplete]) := by
  obtain ⟨front, last, rfl⟩ := List.eq_nil_or_concat data |>.resolve_left hdata
  rw [List.concat_eq_append] at h ⊢
  have hlength : (front ++ [last]).length = front.length + 0 + 1 := by simp
  rw [hlength] at h ⊢
  obtain ⟨hfront, hend⟩ := @bodyBytes_take p front 0 h
  have hlast := @lastByte_takes (p.left front.length) last hend hversion hclose
  rw [left_left] at hlast
  refine (takes_append hfront hlast).joined ?_
  have hpieces : join (pieces .body front ++ [.data .body [last]]) =
      join [.data .body (front ++ [last])] := by
    cases front with
    | nil => rfl
    | cons first front =>
      have hjoin := join_pieces [] .body [first] (front ++ [last])
      simpa [pieces] using hjoin
  have hsplit : ∀ calls : List Call, pieces .body front ++ (.data .body [last] :: calls) =
      pieces .body front ++ [.data .body [last]] ++ calls := by simp
  rw [hsplit]
  exact join_append_congr hpieces rfl

/-! ## The size of a chunk -/

/-- The number that hex digits stand for. -/
def hexNumber (digits : Text) : Nat := digits.foldl (fun n c => 16 * n + (unhex c).getD 0) 0

theorem hexNumber_snoc (digits : Text) (c : UInt8) :
    hexNumber (digits ++ [c]) = 16 * hexNumber digits + (unhex c).getD 0 := by
  simp [hexNumber]

theorem hexNumber_le_of_prefix {s t : Text} (h : s <+: t) : hexNumber s ≤ hexNumber t := by
  obtain ⟨u, rfl⟩ := h
  induction u generalizing s with
  | nil => rw [List.append_nil]
  | cons c u ih =>
    have hle := @ih (s ++ [c])
    rw [hexNumber_snoc] at hle
    rw [List.append_cons]
    omega

/-- What may stand in front of another digit of a size. -/
def SIZE_LIMIT : Nat := (ULLONG_MAX - 16) / 16

theorem unhex_ne_cr {v : Nat} (h : unhex ch = some v) : ch ≠ CR := by
  rintro rfl
  have hnone : unhex CR = none := by decide
  rw [hnone] at h
  cases h

/-- In the size of a chunk, `n` bytes of the line counted. -/
def HttpParser.sized (p : HttpParser) (state : State) (n size : Nat) : HttpParser :=
  { p with state, nread := n, contentLength := size }

theorem firstDigit_takes {v : Nat} (hp : p.Running) (hchunked : p.flags.chunked = true)
    (h : unhex ch = some v) (size : Nat) :
    Takes (p.sized .chunkSizeStart 0 size) [ch] (p.sized .chunkSize 1 v) [] := by
  refine takes_plain hp rfl rfl (by show 0 + 1 ≤ _; decide) ?_ hp
  have hswitch : chunkSizeStart (p.sized .chunkSizeStart 1 size) ch =
      some ((p.sized .chunkSize 1 v).next []) := by
    unfold chunkSizeStart
    rw [if_pos ⟨rfl, hchunked⟩, h]
    rfl
  exact hswitch

theorem sizeDigit_takes {v size : Nat} (hp : p.Running) (hchunked : p.flags.chunked = true)
    (h : unhex ch = some v) (hlimit : size ≤ SIZE_LIMIT) (hroom : n + 1 ≤ HTTP_MAX_HEADER_SIZE) :
    Takes (p.sized .chunkSize n size) [ch] (p.sized .chunkSize (n + 1) (16 * size + v)) [] := by
  have hv := unhex_lt h
  have hcr := unhex_ne_cr h
  refine takes_plain hp rfl rfl hroom ?_ hp
  have hsmall : size * 16 + v < ULLONG_MAX + 1 := by
    simp only [SIZE_LIMIT, ULLONG_MAX] at hlimit ⊢
    omega
  have hswitch : chunkSize (p.sized .chunkSize (n + 1) size) ch =
      some ((p.sized .chunkSize (n + 1) (16 * size + v)).next []) := by
    have hlength : (p.sized .chunkSize (n + 1) size).contentLength = size := rfl
    have hover : ¬ (ULLONG_MAX - 16) / 16 < size := Nat.not_lt.mpr hlimit
    unfold chunkSize
    rw [if_pos (by exact hchunked), if_neg hcr, h]
    simp only [hlength]
    rw [if_neg hover, Nat.mod_eq_of_lt hsmall, Nat.mul_comm]
    rfl
  exact hswitch

theorem sizeDigits_take {pre digits : Text} (hp : p.Running) (hchunked : p.flags.chunked = true)
    (hdigits : ∀ c ∈ digits, (unhex c).isSome = true)
    (hlimit : hexNumber (pre ++ digits) / 16 ≤ SIZE_LIMIT)
    (hroom : n + digits.length ≤ HTTP_MAX_HEADER_SIZE) :
    Takes (p.sized .chunkSize n (hexNumber pre)) digits
      (p.sized .chunkSize (n + digits.length) (hexNumber (pre ++ digits))) [] := by
  induction digits generalizing n pre with
  | nil =>
    rw [List.append_nil]
    exact takes_nil _
  | cons ch digits ih =>
    have hsplit : pre ++ ch :: digits = pre ++ [ch] ++ digits := by simp
    rw [List.length_cons] at hroom ⊢
    rw [hsplit] at hlimit ⊢
    obtain ⟨v, hv⟩ := Option.isSome_iff_exists.mp (hdigits ch (by simp))
    have hnumber : hexNumber (pre ++ [ch]) = 16 * hexNumber pre + v := by
      rw [hexNumber_snoc, hv, Option.getD_some]
    have hprefix := hexNumber_le_of_prefix (List.prefix_append (pre ++ [ch]) digits)
    have hfirst := @sizeDigit_takes p n ch v (hexNumber pre) hp hchunked hv (by omega) (by omega)
    rw [← hnumber] at hfirst
    have hrest := @ih (n + 1) (pre ++ [ch]) (fun c hc => hdigits c (by simp [hc])) hlimit (by omega)
    have hsize : n + (digits.length + 1) = n + 1 + digits.length := by omega
    rw [hsize]
    exact takes_append hfirst hrest

/-- What follows on a size is skipped. -/
theorem parameters_take {size : Nat} (hp : p.Running) (hchunked : p.flags.chunked = true)
    (hinside : ∀ c ∈ data, c ≠ CR) (hroom : n + data.length ≤ HTTP_MAX_HEADER_SIZE) :
    Takes (p.sized .chunkParameters n size) data
      (p.sized .chunkParameters (n + data.length) size) [] := by
  induction data generalizing n with
  | nil => exact takes_nil _
  | cons ch data ih =>
    have hcr := hinside ch (by simp)
    rw [List.length_cons] at hroom ⊢
    have hfirst : Takes (p.sized .chunkParameters n size) [ch]
        (p.sized .chunkParameters (n + 1) size) [] := by
      refine takes_plain hp rfl rfl (by show n + 1 ≤ _; omega) ?_ hp
      have hswitch : chunkParameters (p.sized .chunkParameters (n + 1) size) ch =
          some ((p.sized .chunkParameters (n + 1) size).next []) := by
        unfold chunkParameters
        rw [if_pos (by exact hchunked), if_neg hcr]
      exact hswitch
    have hsize : n + (data.length + 1) = n + 1 + data.length := by omega
    rw [hsize]
    exact takes_append hfirst (@ih (n + 1) (fun c hc => hinside c (by simp [hc])) (by omega))

/-- The line with the size of a chunk. -/
structure SizeLine where
  digits : Text
  extension : Text
  some : digits ≠ []
  hex : ∀ c ∈ digits, (unhex c).isSome = true
  begins : ∀ c ∈ extension.head?, c = 59 ∨ c = 32
  inside : ∀ c ∈ extension, c ≠ CR
  limit : hexNumber digits / 16 ≤ SIZE_LIMIT
  fits : digits.length + extension.length + 2 ≤ HTTP_MAX_HEADER_SIZE

def SizeLine.size (l : SizeLine) : Nat := hexNumber l.digits

def SizeLine.encode (l : SizeLine) : Text := l.digits ++ l.extension ++ [CR, LF]

/-- The end of the line, behind a size or behind what follows on it. -/
theorem sizeEnd_takes {size : Nat} {state : State} (hp : p.Running)
    (hchunked : p.flags.chunked = true) (hstate : state = .chunkSize ∨ state = .chunkParameters)
    (hroom : n + 2 ≤ HTTP_MAX_HEADER_SIZE) :
    Takes (p.sized state n size) [CR, LF]
      (if size = 0 then HttpParser.sized { p with flags := { p.flags with trailing := true } }
        .headerFieldStart 0 0 else p.sized .chunkData 0 size) [.onChunkHeader] := by
  have hcr : Takes (p.sized state n size) [CR] (p.sized .chunkSizeAlmostDone (n + 1) size) [] := by
    refine takes_plain hp ?_ rfl (by show n + 1 ≤ _; omega) ?_ hp
    · show state.plain = true
      rcases hstate with rfl | rfl <;> rfl
    · rcases hstate with rfl | rfl
      · have hswitch : chunkSize (p.sized .chunkSize (n + 1) size) CR =
            some ((p.sized .chunkSizeAlmostDone (n + 1) size).next []) := by
          unfold chunkSize
          rw [if_pos (by exact hchunked), if_pos rfl]
          rfl
        exact hswitch
      · have hswitch : chunkParameters (p.sized .chunkParameters (n + 1) size) CR =
            some ((p.sized .chunkSizeAlmostDone (n + 1) size).next []) := by
          unfold chunkParameters
          rw [if_pos (by exact hchunked), if_pos rfl]
          rfl
        exact hswitch
  have hswitch : switch (p.sized .chunkSizeAlmostDone (n + 1) size).counted LF =
      some (HttpParser.next (if size = 0 then
        HttpParser.sized { p with flags := { p.flags with trailing := true } } .headerFieldStart 0 0
        else p.sized .chunkData 0 size) [.notify .onChunkHeader]) := by
    have hmove : chunkSizeAlmostDone (p.sized .chunkSizeAlmostDone (n + 2) size) LF = _ := rfl
    refine (Eq.trans ?_ hmove : switch _ _ = _).trans ?_
    · rfl
    · unfold chunkSizeAlmostDone
      rw [if_pos (by exact hchunked), if_neg (by simp)]
      by_cases hzero : size = 0
      · rw [if_pos hzero, if_pos (by exact hzero), hzero]
        rfl
      · rw [if_neg hzero, if_neg (by exact hzero)]
        rfl
  have hlf : Takes (p.sized .chunkSizeAlmostDone (n + 1) size) [LF]
      (if size = 0 then HttpParser.sized { p with flags := { p.flags with trailing := true } }
        .headerFieldStart 0 0 else p.sized .chunkData 0 size) [.onChunkHeader] := by
    refine takes_notified hp rfl rfl rfl ?_ (fun _ => ?_) hswitch ?_
    · split_ifs <;> rfl
    · show n + 1 + 1 ≤ _
      omega
    · split_ifs <;> exact hp
  exact takes_append hcr hlf

/-- The line with the size of a chunk, as a whole. -/
theorem sizeLine_takes (l : SizeLine) (size : Nat) (hp : p.Running)
    (hchunked : p.flags.chunked = true) :
    Takes (p.sized .chunkSizeStart 0 size) l.encode
      (if l.size = 0 then HttpParser.sized { p with flags := { p.flags with trailing := true } }
        .headerFieldStart 0 0 else p.sized .chunkData 0 l.size) [.onChunkHeader] := by
  obtain ⟨digits, extension, hsome, hhex, hbegins, hinside, hlimit, hfits⟩ := l
  unfold SizeLine.encode SizeLine.size
  simp only
  cases digits with
  | nil => exact absurd rfl hsome
  | cons first digits =>
    obtain ⟨v, hv⟩ := Option.isSome_iff_exists.mp (hhex first (by simp))
    have hnumber : hexNumber [first] = v := by simp [hexNumber, hv]
    have hfirst := firstDigit_takes hp hchunked hv size
    rw [← hnumber] at hfirst
    rw [List.length_cons] at hfits
    have hdigits := @sizeDigits_take p 1 [first] digits hp hchunked
      (fun c hc => hhex c (by simp [hc])) hlimit (by omega)
    have hboth := takes_append hfirst hdigits
    cases extension with
    | nil =>
      rw [List.append_nil]
      exact takes_append hboth (sizeEnd_takes hp hchunked (Or.inl rfl) (by simp at hfits; omega))
    | cons ch extension =>
      rw [List.length_cons] at hfits
      have hopens : Takes (p.sized .chunkSize (1 + digits.length) (hexNumber ([first] ++ digits))) [ch]
          (p.sized .chunkParameters (1 + digits.length + 1) (hexNumber ([first] ++ digits))) [] := by
        refine takes_plain hp rfl rfl (by show 1 + digits.length + 1 ≤ _; omega) ?_ hp
        have hswitch : ∀ n size, chunkSize (p.sized .chunkSize n size) ch =
            some ((p.sized .chunkParameters n size).next []) := by
          intro n size
          have hch := hbegins ch rfl
          unfold chunkSize
          rw [if_pos (by exact hchunked)]
          rcases hch with rfl | rfl <;> rfl
        exact hswitch _ _
      have hskips := @parameters_take p (1 + digits.length + 1) extension
        (hexNumber ([first] ++ digits)) hp hchunked (fun c hc => hinside c (by simp [hc])) (by omega)
      have hline := takes_append (takes_append hboth (takes_append hopens hskips))
        (sizeEnd_takes hp hchunked (Or.inr rfl) (by omega))
      simpa using hline

/-! ## The chunks of a body -/

/-- A chunk with data. -/
structure Chunk where
  line : SizeLine
  data : Text
  some : data ≠ []
  length : line.size = data.length

def Chunk.encode (c : Chunk) : Text := c.line.encode ++ c.data ++ [CR, LF]

def Chunk.calls (c : Chunk) : List Call := [.onChunkHeader, .data .body c.data, .onChunkComplete]

/-- What stands behind the data of a chunk. -/
theorem chunkEnd_takes (hp : p.Running) (hchunked : p.flags.chunked = true) :
    Takes (p.sized .chunkDataAlmostDone 0 0) [CR, LF] (p.sized .chunkSizeStart 0 0)
      [.onChunkComplete] := by
  have hcr : Takes (p.sized .chunkDataAlmostDone 0 0) [CR] (p.sized .chunkDataDone 0 0) [] := by
    have hswitch : chunkDataAlmostDone (p.sized .chunkDataAlmostDone 0 0) CR =
        some ((p.sized .chunkDataDone 0 0).next [.callbackData .body]) := by
      unfold chunkDataAlmostDone
      rw [if_pos ⟨hchunked, rfl⟩, if_neg (by simp)]
      rfl
    refine takes_byte (byte_of_switch hp (fun h => by cases h) rfl hswitch rfl hp) rfl ?_
    rfl
  have hlf : Takes (p.sized .chunkDataDone 0 0) [LF] (p.sized .chunkSizeStart 0 0)
      [.onChunkComplete] := by
    have hswitch : chunkDataDone (p.sized .chunkDataDone 0 0) LF =
        some ((p.sized .chunkSizeStart 0 0).next [.notify .onChunkComplete]) := by
      unfold chunkDataDone
      rw [if_pos (by exact hchunked), if_neg (by simp)]
      rfl
    exact takes_notified hp rfl rfl rfl rfl (fun h => by cases h) hswitch hp
  exact takes_append hcr hlf

theorem chunk_takes (c : Chunk) (size : Nat) (hp : p.Running) (hchunked : p.flags.chunked = true)
    (hversion : p.httpMajor = 1 ∧ p.httpMinor = 1) (hclose : p.flags.connectionClose = false) :
    Takes (p.sized .chunkSizeStart 0 size) c.encode (p.sized .chunkSizeStart 0 0) c.calls := by
  have hpos := List.length_pos_iff.mpr c.some
  have hline := sizeLine_takes c.line size hp hchunked
  rw [if_neg (by rw [c.length]; omega), c.length] at hline
  have hbound : c.data.length < ULLONG_MAX := by
    have hlimit := c.line.limit
    have hlength : hexNumber c.line.digits = c.data.length := c.length
    rw [hlength] at hlimit
    simp only [SIZE_LIMIT, ULLONG_MAX] at hlimit ⊢
    omega
  have hdata := data_takes c.some (p := p.sized .chunkData 0 c.data.length)
    ⟨hp, Or.inr rfl, fun _ => hchunked, rfl, hbound⟩ hversion hclose
  have hleft : { (p.sized .chunkData 0 c.data.length).left c.data.length with
      state := .chunkDataAlmostDone } = p.sized .chunkDataAlmostDone 0 0 := by
    simp [HttpParser.left, HttpParser.sized]
  have hstate : (p.sized .chunkData 0 c.data.length).state = .chunkData := rfl
  rw [if_pos hstate, if_pos hstate, hleft] at hdata
  exact takes_append (takes_append hline hdata) (chunkEnd_takes hp hchunked)

theorem chunks_take (chunks : List Chunk) (size : Nat) (hp : p.Running)
    (hchunked : p.flags.chunked = true) (hversion : p.httpMajor = 1 ∧ p.httpMinor = 1)
    (hclose : p.flags.connectionClose = false) :
    ∃ rest, Takes (p.sized .chunkSizeStart 0 size) (chunks.flatMap Chunk.encode)
      (p.sized .chunkSizeStart 0 rest) (chunks.flatMap Chunk.calls) := by
  induction chunks generalizing size with
  | nil => exact ⟨size, takes_nil _⟩
  | cons c chunks ih =>
    obtain ⟨rest, hrest⟩ := ih 0
    exact ⟨rest, takes_append (chunk_takes c size hp hchunked hversion hclose) hrest⟩

/-- The end of the trailer fields. -/
theorem trailers_end (h : AtLine p known n) (htrailing : known.flags.trailing = true)
    (hclose : known.flags.connectionClose = false) (hroom : n + 2 ≤ HTTP_MAX_HEADER_SIZE) :
    Takes p [CR, LF] { p.finished with nread := p.nread + 2, state := .startReq }
      [.onChunkComplete, .onMessageComplete] := by
  have hcarries := h.carries
  have hp : p.Running := hcarries.running
  have hcount : p.nread ≤ n := hcarries.count
  rw [← hcarries.flags] at htrailing hclose
  have hcr := lines_end hp h.state (by omega)
  have hlf : Takes { p.finished with nread := p.nread + 1, state := .headersAlmostDone } [LF]
      { p.finished with nread := p.nread + 2, state := .startReq }
      [.onChunkComplete, .onMessageComplete] := by
    refine takes_notified hp rfl rfl rfl rfl (fun _ => ?_) ?_ hp
    · show p.nread + 1 + 1 ≤ _
      omega
    · have hnew := (newMessage_stays (p := { p.finished with
        nread := p.nread + 2, state := .messageDone }) hcarries.version.1 hcarries.version.2 hclose).2
      have hmove : headersAlmostDone { p.finished with
            nread := p.nread + 2, state := .headersAlmostDone } LF =
          HttpParser.next { p.finished with nread := p.nread + 2, state := .startReq }
            [.notify .onChunkComplete, .notify .onMessageComplete] := by
        unfold headersAlmostDone
        rw [if_neg (by simp), if_pos (by exact htrailing)]
        unfold messageDone
        simp only [hnew]
        rw [if_neg (by simp [hcarries.running.2])]
        rfl
      exact congrArg some hmove
  exact takes_append hcr hlf

end Bodies

end huasi.http_execute
