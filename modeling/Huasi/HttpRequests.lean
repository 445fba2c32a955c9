-- Requests on the wire, and what HttpChannel makes of them (src/src/http/HttpChannel.cpp and
-- http_parser.c): requests that are sent one after the other arrive as they were sent, in any
-- reads.
import Huasi.HttpBodies

open huasi.text huasi.runs huasi.http_parser huasi.decimal huasi.http_channel huasi.sorted_map

namespace huasi.http_execute

/-! ## Requests on the wire -/

/-- A header line. -/
def encodeLine (e : Text × Text) : Text := e.1 ++ [58, 32] ++ e.2 ++ [CR, LF]

def lineCalls (e : Text × Text) : List Call := [.data .headerField e.1, .data .headerValue e.2]

/-- A header line that means nothing to the parser. -/
structure Field where
  entry : Text × Text
  some : entry.1 ≠ []
  letters : ∀ c ∈ entry.1, token c ≠ 0
  plain : entry.1.map token ∉ fieldNames.map Prod.fst
  visible : ∀ c ∈ entry.2, isHeaderChar c = true ∧ c ≠ CR ∧ c ≠ LF
  start : ∀ c ∈ entry.2.head?, c ≠ 32 ∧ c ≠ 9

/-- A body of a known length, with `Content-Length` in any case. -/
structure Sized where
  name : Text
  digits : Text
  data : Text
  named : name.map token = ascii "content-length"
  some : digits ≠ []
  numeral : ∀ c ∈ digits, isNum c = true
  length : number digits = data.length
  limit : data.length / 10 ≤ LENGTH_LIMIT

/-- A body in chunks, with `Transfer-Encoding` and `chunked` in any case, and trailer fields. -/
structure Chunked where
  name : Text
  coding : Text
  chunks : List Chunk
  last : SizeLine
  trailers : List Field
  named : name.map token = ascii "transfer-encoding"
  coded : coding.map lower = ascii "chunked"
  zero : last.size = 0

/-- A name that is a word of the parser has characters, all of them of a name. -/
theorem name_of_word {name word : Text} (h : name.map token = word) (hsome : word ≠ [])
    (hword : (0 : UInt8) ∉ word) : name ≠ [] ∧ ∀ c ∈ name, token c ≠ 0 := by
  rw [← h] at hsome hword
  refine ⟨fun hnil => hsome (by rw [hnil]; rfl), fun c hc hzero => ?_⟩
  exact hword (hzero ▸ List.mem_map_of_mem hc)

theorem Sized.name_of (s : Sized) : s.name ≠ [] ∧ ∀ c ∈ s.name, token c ≠ 0 :=
  name_of_word s.named (by decide) (by decide)

theorem Chunked.name_of (c : Chunked) : c.name ≠ [] ∧ ∀ ch ∈ c.name, token ch ≠ 0 :=
  name_of_word c.named (by decide) (by decide)

inductive Body where
  | none
  | sized (s : Sized)
  | chunked (c : Chunked)

/-- The header line that announces a body. -/
def Body.header : Body → List (Text × Text)
  | .none => []
  | .sized s => [(s.name, s.digits)]
  | .chunked c => [(c.name, c.coding)]

/-- The trailer fields, up to the end of the message. -/
def Body.trailer : Body → Text
  | .chunked c => (c.trailers.map Field.entry).flatMap encodeLine ++ [CR, LF]
  | _ => []

def Body.encode : Body → Text
  | .none => []
  | .sized s => s.data
  | .chunked c => c.chunks.flatMap Chunk.encode ++ c.last.encode ++ Body.trailer (.chunked c)

def Body.calls : Body → List Call
  | .none => [.onMessageComplete]
  | .sized s => (if s.data = [] then [] else [.data .body s.data]) ++ [.onMessageComplete]
  | .chunked c => c.chunks.flatMap Chunk.calls ++ [.onChunkHeader] ++
      ((c.trailers.map Field.entry).flatMap lineCalls ++ [.onChunkComplete, .onMessageComplete])

/-- A request of HTTP/1.1. Its headers take a quarter of the space that the parser grants, and so
do its trailer fields: in a read of its own, a byte may be counted twice. -/
structure WireRequest where
  method : Nat
  name : Text
  target : Text
  before : List Field
  body : Body
  after : List Field
  named : methodStrings[method]? = some name
  notConnect : method ≠ HTTP_CONNECT
  url : mayEnd (target.foldl parseUrlChar .spacesBeforeUrl) = true

namespace WireRequest

def headers (r : WireRequest) : List (Text × Text) :=
  r.before.map Field.entry ++ r.body.header ++ r.after.map Field.entry

/-- The request line. -/
def line (r : WireRequest) : Text := r.name ++ [32] ++ (r.target ++ [32]) ++ ascii "HTTP/1.1\r\n"

def head (r : WireRequest) : Text := r.line ++ r.headers.flatMap encodeLine ++ [CR, LF]

def encode (r : WireRequest) : Text := r.head ++ r.body.encode

def calls (r : WireRequest) : List Call :=
  .onMessageBegin :: .data .url r.target :: r.headers.flatMap lineCalls ++
    .onHeadersComplete r.method true :: r.body.calls

/-- The headers and the trailer fields fit, where every byte may come in a read of its own. -/
def Fits (r : WireRequest) : Prop :=
  4 * r.head.length ≤ HTTP_MAX_HEADER_SIZE ∧ 4 * r.body.trailer.length ≤ HTTP_MAX_HEADER_SIZE

instance : DecidablePred Fits := fun r =>
  inferInstanceAs (Decidable (4 * r.head.length ≤ HTTP_MAX_HEADER_SIZE ∧
    4 * r.body.trailer.length ≤ HTTP_MAX_HEADER_SIZE))

end WireRequest

/-! ## The headers -/

section Takes

variable {p : HttpParser} {known : Known} {n : Nat}

theorem encodeLine_length (e : Text × Text) :
    (encodeLine e).length = e.1.length + e.2.length + 4 := by
  unfold encodeLine
  simp
  omega

theorem field_taken (f : Field) (h : AtLine p known n)
    (hroom : n + 2 * (encodeLine f.entry).length ≤ HTTP_MAX_HEADER_SIZE) :
    ∃ q, Takes p (encodeLine f.entry) q (lineCalls f.entry) ∧
      AtLine q known (n + 2 * (encodeLine f.entry).length) := by
  obtain ⟨⟨name, value⟩, hsome, hletters, hplain, hvisible, hstart⟩ := f
  rw [encodeLine_length] at hroom ⊢
  simp only at hsome hletters hplain hvisible hstart hroom ⊢
  obtain ⟨q, i, hname, hstate, hcarries, hspelled⟩ := name_takes h hsome hletters (by omega)
  have hmeans : ∀ k, (name.map token, k) ∉ fieldNames := fun k hk =>
    hplain (List.mem_map_of_mem hk)
  obtain ⟨r, hvalue, hline⟩ := plainValue_takes hcarries hstate hspelled hmeans hvisible hstart
    (by omega)
  refine ⟨r, ?_, hline.state, hline.carries.mono (by omega)⟩
  have hboth := takes_append hname hvalue
  unfold encodeLine
  rw [List.append_assoc _ value]
  exact hboth

theorem fields_taken (fields : List Field) (h : AtLine p known n)
    (hroom : n + 2 * ((fields.map Field.entry).flatMap encodeLine).length ≤ HTTP_MAX_HEADER_SIZE) :
    ∃ q, Takes p ((fields.map Field.entry).flatMap encodeLine) q
        ((fields.map Field.entry).flatMap lineCalls) ∧
      AtLine q known (n + 2 * ((fields.map Field.entry).flatMap encodeLine).length) := by
  induction fields generalizing p n with
  | nil => exact ⟨p, takes_nil p, h⟩
  | cons f fields ih =>
    rw [List.map_cons, List.flatMap_cons, List.length_append] at hroom ⊢
    obtain ⟨q, hfirst, hline⟩ := field_taken f h (by omega)
    obtain ⟨r, hrest, hline'⟩ := ih hline (by omega)
    refine ⟨r, takes_append hfirst hrest, ?_⟩
    rw [Nat.mul_add, ← Nat.add_assoc]
    exact hline'

/-- What the parser knows behind the header line that announces a body. -/
def Body.announce (body : Body) (known : Known) : Known :=
  match body with
  | .none => known
  | .sized s => { known with
      flags := { known.flags with contentlength := true }
      contentLength := s.data.length }
  | .chunked _ => { known with flags := { known.flags with chunked := true } }

theorem body_announced (body : Body) (h : AtLine p known n)
    (hnone : known.flags.contentlength = false)
    (hroom : n + 2 * (body.header.flatMap encodeLine).length ≤ HTTP_MAX_HEADER_SIZE) :
    ∃ q, Takes p (body.header.flatMap encodeLine) q (body.header.flatMap lineCalls) ∧
      AtLine q (body.announce known) (n + 2 * (body.header.flatMap encodeLine).length) := by
  cases body with
  | none => exact ⟨p, takes_nil p, h⟩
  | sized s =>
    simp only [Body.header, List.flatMap_singleton, encodeLine_length] at hroom ⊢
    obtain ⟨hsome, hletters⟩ := s.name_of
    obtain ⟨q, i, htakes, hstate, hcarries, hspelled⟩ := name_takes h hsome hletters (by omega)
    rw [s.named] at hspelled
    have hheader : q.headerState = .contentLength :=
      (spelled_iff hspelled (by decide)).mpr (by decide)
    obtain ⟨r, hvalue, hline⟩ := lengthValue_takes hcarries hstate hheader hnone s.some s.numeral
      (by rw [s.length]; exact s.limit) (by omega)
    rw [s.length] at hline
    refine ⟨r, ?_, hline.state, hline.carries.mono (by omega)⟩
    have hboth := takes_append htakes hvalue
    unfold encodeLine
    rw [List.append_assoc _ s.digits]
    exact hboth
  | chunked c =>
    simp only [Body.header, List.flatMap_singleton, encodeLine_length] at hroom ⊢
    obtain ⟨hsome, hletters⟩ := c.name_of
    obtain ⟨q, i, htakes, hstate, hcarries, hspelled⟩ := name_takes h hsome hletters (by omega)
    rw [c.named] at hspelled
    have hheader : q.headerState = .transferEncoding :=
      (spelled_iff hspelled (by decide)).mpr (by decide)
    obtain ⟨r, hvalue, hline⟩ := codingValue_takes hcarries hstate hheader c.coded (by omega)
    refine ⟨r, ?_, hline.state, hline.carries.mono (by omega)⟩
    have hboth := takes_append htakes hvalue
    unfold encodeLine
    rw [List.append_assoc _ c.coding]
    exact hboth

/-! ## The request line -/

theorem version_takes (hp : p.Running) (hstate : p.state = .reqHttpStart)
    (hroom : p.nread + 10 ≤ HTTP_MAX_HEADER_SIZE) :
    Takes p (ascii "HTTP/1.1\r\n") { p with
      state := .headerFieldStart
      nread := p.nread + 10
      httpMajor := 1
      httpMinor := 1 } [] := by
  have hglide := version_glides p
  have hlength : (ascii "HTTP/1.1\r\n").length = 10 := by decide
  rw [← running_eq hp hstate] at hglide
  have htakes := glide_takes hp hglide (by rw [hlength]; exact hroom)
  have heq : ({ p with
      state := .headerFieldStart
      nread := p.nread + 10
      httpMajor := 1
      httpMinor := 1 } : HttpParser) = { p with
      state := .headerFieldStart
      nread := p.nread + 10
      httpMajor := 1
      httpMinor := 1
      httpErrno := .ok
      upgrade := false } := by
    rw [← hp.1, ← hp.2]
  rw [heq]
  exact htakes

theorem line_takes (r : WireRequest) (hp : p.Running) (hstate : p.state = .startReq)
    (hcount : p.nread ≤ n) (hroom : n + r.line.length ≤ HTTP_MAX_HEADER_SIZE) :
    ∃ q, Takes p r.line q [.onMessageBegin, .data .url r.target] ∧
      AtLine q ⟨r.method, .none, ULLONG_MAX⟩ (n + r.line.length) := by
  have hlength : r.line.length = r.name.length + 1 + (r.target.length + 1) + 10 := by
    have hten : (ascii "HTTP/1.1\r\n").length = 10 := by decide
    unfold WireRequest.line
    simp only [List.length_append, List.length_singleton, hten]
  rw [hlength] at hroom ⊢
  have hmethod := method_takes hp hstate r.named (by omega)
  have htarget := @target_takes { p with
      flags := .none
      index := r.name.length + 1
      contentLength := ULLONG_MAX
      method := r.method } (p.nread + r.name.length + 1) r.target hp r.notConnect r.url (by omega)
  have hversion := @version_takes { p with
      flags := .none
      state := .reqHttpStart
      index := r.name.length + 1
      nread := p.nread + r.name.length + 1 + r.target.length + 1
      contentLength := ULLONG_MAX
      method := r.method } hp rfl (by
    show p.nread + r.name.length + 1 + r.target.length + 1 + 10 ≤ _
    omega)
  refine ⟨_, takes_append (takes_append hmethod htarget) hversion, Or.inl rfl, hp, rfl, rfl, rfl,
    ⟨rfl, rfl⟩, ?_⟩
  show p.nread + r.name.length + 1 + r.target.length + 1 + 10 ≤ _
  omega

/-! ## One request -/

/-- What the parser knows at the end of the headers. -/
def WireRequest.learned (r : WireRequest) : Known := r.body.announce ⟨r.method, .none, ULLONG_MAX⟩

theorem learned_stays (r : WireRequest) : r.learned.Stays ∧ r.learned.flags.trailing = false := by
  obtain ⟨method, name, target, before, body, after, named, notConnect, url⟩ := r
  unfold WireRequest.learned
  cases body <;> exact ⟨⟨notConnect, rfl, rfl, rfl, rfl⟩, rfl⟩

/-- Behind the headers of a request. -/
structure AtBodyOf (p : HttpParser) (known : Known) : Prop where
  carries : Carries p known 0
  state : p.state = known.body.1

theorem head_takes (r : WireRequest) (hp : p.Running) (hstate : p.state = .startReq)
    (hroom : p.nread + 2 * r.head.length ≤ HTTP_MAX_HEADER_SIZE) :
    ∃ q, Takes p r.head q ((.onMessageBegin :: .data .url r.target :: r.headers.flatMap lineCalls) ++
      (.onHeadersComplete r.method true :: r.learned.body.2)) ∧ AtBodyOf q r.learned := by
  have hlength : r.head.length = r.line.length +
      (((r.before.map Field.entry).flatMap encodeLine).length +
        (r.body.header.flatMap encodeLine).length +
        ((r.after.map Field.entry).flatMap encodeLine).length) + 2 := by
    unfold WireRequest.head WireRequest.headers
    simp only [List.flatMap_append, List.length_append]
    rfl
  obtain ⟨hstays, htrailing⟩ := learned_stays r
  obtain ⟨q1, hline, hat1⟩ := line_takes r hp hstate (Nat.le_refl _) (by omega)
  obtain ⟨q2, hbefore, hat2⟩ := fields_taken r.before hat1 (by omega)
  obtain ⟨q3, hbody, hat3⟩ := body_announced r.body hat2 rfl (by omega)
  obtain ⟨q4, hafter, hat4⟩ := fields_taken r.after hat3 (by omega)
  have hend := headers_end hat4 hstays htrailing (by omega)
  have hmethod : r.learned.method = r.method := by
    unfold WireRequest.learned
    cases r.body <;> rfl
  have hcarries := hat4.carries
  refine ⟨{ q4.finished with nread := 0, state := r.learned.body.1 }, ?_, ⟨hcarries.running,
    hcarries.method, hcarries.flags, hcarries.contentLength, hcarries.version, Nat.le_refl 0⟩, rfl⟩
  have hall := takes_append (takes_append hline (takes_append (takes_append hbefore hbody) hafter)) hend
  rw [← hmethod]
  simpa [WireRequest.head, WireRequest.headers, WireRequest.learned] using hall

/-- The state in front of a request. -/
structure AtRequest (p : HttpParser) (n : Nat) : Prop where
  running : p.Running
  state : p.state = .startReq
  count : p.nread ≤ n

theorem body_taken (body : Body) {known : Known} (hnew : known.flags = .none)
    (hlength : known.contentLength = ULLONG_MAX) (h : AtBodyOf p (body.announce known))
    (hfits : 4 * body.trailer.length ≤ HTTP_MAX_HEADER_SIZE) :
    ∃ q calls, Takes p body.encode q calls ∧ (body.announce known).body.2 ++ calls = body.calls ∧
      AtRequest q (2 * body.trailer.length) := by
  obtain ⟨hcarries, hstate⟩ := h
  have hp := hcarries.running
  cases body with
  | none =>
    have hbody : (Body.none.announce known).body = (.startReq, [.onMessageComplete]) := by
      simp [Body.announce, Known.body, hnew, hlength, Flags.none]
    rw [hbody] at hstate ⊢
    exact ⟨p, [], takes_nil p, rfl, hp, hstate, hcarries.count⟩
  | sized s =>
    by_cases hempty : s.data = []
    · have hbody : ((Body.sized s).announce known).body = (.startReq, [.onMessageComplete]) := by
        simp [Body.announce, Known.body, hnew, hempty, Flags.none]
      rw [hbody] at hstate ⊢
      refine ⟨p, [], ?_, by simp [Body.calls, hempty], hp, hstate, hcarries.count⟩
      simp only [Body.encode, hempty]
      exact takes_nil p
    · have hpos := List.length_pos_iff.mpr hempty
      have hlimit := s.limit
      have hbound : s.data.length < ULLONG_MAX := by
        simp only [LENGTH_LIMIT, ULLONG_MAX] at hlimit ⊢
        omega
      have hbody : ((Body.sized s).announce known).body = (.bodyIdentity, []) := by
        simp only [Body.announce, Known.body, hnew, Flags.none]
        rw [if_neg (by simp), if_neg (by omega)]
      rw [hbody] at hstate ⊢
      have hclose : p.flags.connectionClose = false := by
        rw [hcarries.flags]
        simp [Body.announce, hnew, Flags.none]
      have hchunk : p.state ≠ .chunkData := by
        simp [hstate]
      have hdata := data_takes hempty (p := p) ⟨hp, Or.inl hstate, fun h => absurd h hchunk,
        hcarries.contentLength, hbound⟩ hcarries.version hclose
      rw [if_neg hchunk, if_neg hchunk] at hdata
      exact ⟨_, _, hdata, by simp [Body.calls, hempty], hp, rfl, hcarries.count⟩
  | chunked c =>
    have hbody : ((Body.chunked c).announce known).body = (.chunkSizeStart, []) := by
      simp [Body.announce, Known.body]
    rw [hbody] at hstate ⊢
    have hflags : p.flags = { Flags.none with chunked := true } := by
      rw [hcarries.flags]
      simp [Body.announce, hnew]
    have hchunked : p.flags.chunked = true := by rw [hflags]
    have hclose : p.flags.connectionClose = false := by
      rw [hflags]
      rfl
    have hstart : p = p.sized .chunkSizeStart 0 p.contentLength := by
      have hzero : p.nread = 0 := Nat.le_zero.mp hcarries.count
      have hstate : p.state = .chunkSizeStart := hstate
      unfold HttpParser.sized
      rw [← hzero, ← hstate]
    obtain ⟨rest, hchunks⟩ :=
      chunks_take c.chunks p.contentLength hp hchunked hcarries.version hclose
    rw [← hstart] at hchunks
    have hlast := sizeLine_takes c.last rest hp hchunked
    rw [if_pos c.zero] at hlast
    have hat : AtLine (HttpParser.sized { p with flags := { p.flags with trailing := true } }
        .headerFieldStart 0 0) ⟨p.method, { p.flags with trailing := true }, 0⟩ 0 :=
      ⟨Or.inl rfl, hp, rfl, rfl, rfl, hcarries.version, Nat.le_refl 0⟩
    have htrailer : (Body.chunked c).trailer.length =
        ((c.trailers.map Field.entry).flatMap encodeLine).length + 2 := by
      simp [Body.trailer]
    rw [htrailer] at hfits ⊢
    obtain ⟨q, htrailers, hat'⟩ := fields_taken c.trailers hat (by omega)
    have hend := trailers_end hat' rfl hclose (by omega)
    have hcount := hat'.carries.count
    refine ⟨_, _, takes_append (takes_append hchunks hlast) (takes_append htrailers hend), ?_,
      hat'.carries.running, rfl, ?_⟩
    · simp [Body.calls]
    · show q.nread + 2 ≤ _
      have hq : q.nread ≤ 0 + 2 * ((c.trailers.map Field.entry).flatMap encodeLine).length := hcount
      omega

/-- A request, in front of another one. -/
theorem request_takes (r : WireRequest) (h : AtRequest p n)
    (hroom : n + 2 * r.head.length ≤ HTTP_MAX_HEADER_SIZE)
    (hfits : 4 * r.body.trailer.length ≤ HTTP_MAX_HEADER_SIZE) :
    ∃ q, Takes p r.encode q r.calls ∧ AtRequest q (2 * r.body.trailer.length) := by
  have hcount := h.count
  obtain ⟨q, hhead, hbody⟩ := head_takes r h.running h.state (by omega)
  obtain ⟨u, calls, hrest, hcalls, hat⟩ := body_taken r.body rfl rfl hbody hfits
  refine ⟨u, ?_, hat⟩
  have hboth := takes_append hhead hrest
  unfold WireRequest.calls WireRequest.encode
  rw [← hcalls]
  simpa [WireRequest.learned] using hboth

/-- Requests one after the other. -/
theorem requests_take (requests : List WireRequest) (h : AtRequest p n)
    (hn : 2 * n ≤ HTTP_MAX_HEADER_SIZE) (hfits : ∀ r ∈ requests, r.Fits) :
    ∃ q m, Takes p (requests.flatMap WireRequest.encode) q (requests.flatMap WireRequest.calls) ∧
      AtRequest q m := by
  induction requests generalizing p n with
  | nil => exact ⟨p, n, takes_nil p, h⟩
  | cons r requests ih =>
    obtain ⟨hhead, htrailer⟩ := hfits r (by simp)
    obtain ⟨q, hfirst, hat⟩ := request_takes r h (by omega) htrailer
    obtain ⟨u, m, hrest, hend⟩ := ih hat (by omega) fun x hx => hfits x (by simp [hx])
    exact ⟨u, m, takes_append hfirst hrest, hend⟩

end Takes

/-! ## What the channel makes of them -/

def Field.line (f : Field) : Line := .whole f.entry.1 f.entry.2 f.some

def Body.lines : Body → List Line
  | .none => []
  | .sized s => [.whole s.name s.digits s.name_of.1]
  | .chunked c => [.whole c.name c.coding c.name_of.1]

def Body.pieces : Body → List Text
  | .none => []
  | .sized s => if s.data = [] then [] else [s.data]
  | .chunked c => c.chunks.map Chunk.data

def Body.trailers : Body → List Line
  | .chunked c => c.trailers.map Field.line
  | _ => []

/-- The message of a request on the wire. -/
def WireRequest.message (r : WireRequest) : Message where
  method := r.method
  url := [r.target]
  lines := r.before.map Field.line ++ r.body.lines ++ r.after.map Field.line
  body := r.body.pieces
  trailers := r.body.trailers

theorem requests_taken {requests : List WireRequest} {reads : List Text}
    (hfits : ∀ r ∈ requests, r.Fits) (hreads : ∀ data ∈ reads, data ≠ [])
    (hstream : reads.flatten = requests.flatMap WireRequest.encode) :
    ∃ s, run onData .new reads = some s ∧ s.errors = [] ∧ s.parser.state = .startReq ∧
      join s.calls = join (requests.flatMap WireRequest.calls) := by
  have hat : AtRequest .init 0 := ⟨⟨rfl, rfl⟩, rfl, Nat.le_refl 0⟩
  obtain ⟨q, m, ⟨calls, hbytes, hcalls⟩, hend⟩ := requests_take requests hat (Nat.zero_le _) hfits
  rw [← hstream] at hbytes
  obtain ⟨s, hs, htogether⟩ := run_together together_new hreads hbytes
  have hpending : q.pending = [] := by
    unfold HttpParser.pending
    rw [if_neg]
    simp [hend.state]
  rw [hpending, List.append_nil] at hcalls
  exact ⟨s, hs, htogether.errors, (near_state htogether.near).trans hend.state,
    htogether.calls.trans hcalls⟩

end huasi.http_execute
