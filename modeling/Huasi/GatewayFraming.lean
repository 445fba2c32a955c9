-- The responses of the gateway on a kept connection: which of them say where they end,
-- and exactly when a row of responses splits again into the responses of its requests.
import Huasi.Gateway
import Huasi.HttpFraming

open huasi.text huasi.decimal huasi.sorted_map huasi.network huasi.http_framing

namespace huasi.gateway

/-! ## One request -/

/-- A request on a kept connection, with the network in the state that it finds. -/
structure Exchange where
  network : ZWaveNetwork
  method : Method
  path : Text
  query : Text

def Exchange.outcome (e : Exchange) : Outcome := onRequest e.network e.method e.path e.query true

/-- The handler sends the head first, and then the body if there is one. -/
def Exchange.head (e : Exchange) : Text := e.outcome.sent.headD []

def Exchange.body (e : Exchange) : Text := (e.outcome.sent.drop 1).flatten

def Exchange.toHead (e : Exchange) : Bool := decide (e.method = .HEAD)

/-- The path names a node that the network has objects for. -/
def KnownNode (network : ZWaveNetwork) (path : Text) : Prop :=
  ∃ n, nodeOf path = some n ∧ n < 256 ∧ (network.nodes (UInt8.ofNat n)).commands.entries ≠ []

/-- The client knows where the response ends. -/
def Exchange.Sized (e : Exchange) : Prop :=
  e.method = .HEAD ∨ e.method = .GET ∧ KnownNode e.network e.path

/-! ## The heads -/

def serverLine : Text := ascii "Server: huasi"

/-- The lines of a response without content. -/
def plainLines (statusLine : Text) : List Text := [statusLine, serverLine]

/-- The lines of a response with content. -/
def contentLines (length : Nat) : List Text :=
  [ascii "HTTP/1.1 200 OK", serverLine, ascii "Content-Type: application/x-www-form-urlencoded",
    ascii "Content-Length: " ++ numeral length]

/-- The head of every response, in front of the end of headers. -/
theorem response_s (status : Nat) (message : Text) :
    (response status message true).s =
      ascii "HTTP/1.1 " ++ numeral status ++ [32] ++ message ++ crlf ++ (serverLine ++ crlf) := by
  have hserver : ascii "Server" ++ ascii ": " ++ ascii "huasi" = serverLine := by decide +kernel
  have hheaders : defaultHeaders.entries = [(ascii "Server", ascii "huasi")] := rfl
  unfold response Response.new Response.addHeaders Response.addHeader
  simp only [hheaders, List.foldl_cons, List.foldl_nil, if_true, hserver]

theorem data_plain (status : Nat) (message : Text) :
    (response status message true).data =
      writeLines (plainLines (ascii "HTTP/1.1 " ++ numeral status ++ [32] ++ message)) := by
  unfold Response.data writeLines plainLines
  rw [response_s]
  simp only [List.flatMap_cons, List.flatMap_nil, List.append_assoc, List.nil_append]

theorem data_content (length : Nat) :
    ((response 200 (ascii "OK") true).addContent (ascii "application/x-www-form-urlencoded")
      length).data = writeLines (contentLines length) := by
  have hstatus : ascii "HTTP/1.1 " ++ numeral 200 ++ [32] ++ ascii "OK" =
      ascii "HTTP/1.1 200 OK" := by decide +kernel
  have htype : ascii "Content-Type: " ++ ascii "application/x-www-form-urlencoded" =
      ascii "Content-Type: application/x-www-form-urlencoded" := by decide +kernel
  unfold Response.data writeLines contentLines Response.addContent
  rw [response_s, hstatus, htype]
  simp only [List.flatMap_cons, List.flatMap_nil, List.append_assoc, List.nil_append]

theorem plainLines_ok {statusLine : Text} (hne : statusLine ≠ []) (h13 : 13 ∉ statusLine) :
    ∀ line ∈ plainLines statusLine, line ≠ [] ∧ 13 ∉ line := by
  have hserver : serverLine ≠ [] ∧ 13 ∉ serverLine := by decide
  intro line hline
  rcases List.mem_cons.mp hline with rfl | hline
  · exact ⟨hne, h13⟩
  · rw [List.mem_singleton] at hline
    exact hline ▸ hserver

theorem contentLines_ok (length : Nat) :
    ∀ line ∈ contentLines length, line ≠ [] ∧ 13 ∉ line := by
  have hnumeral : 13 ∉ numeral length := fun h => absurd (isDigit_of_mem_numeral h) (by decide)
  have hfixed : ∀ line ∈ [ascii "HTTP/1.1 200 OK", serverLine,
      ascii "Content-Type: application/x-www-form-urlencoded"], line ≠ [] ∧ 13 ∉ line := by decide
  intro line hline
  simp only [contentLines, List.mem_cons, List.not_mem_nil, or_false] at hline
  rcases hline with rfl | rfl | rfl | rfl
  · exact hfixed _ (by simp)
  · exact hfixed _ (by simp)
  · exact hfixed _ (by simp)
  · refine ⟨fun h => numeral_ne_nil length (List.append_eq_nil_iff.mp h).2, ?_⟩
    rw [List.mem_append, not_or]
    exact ⟨by decide, hnumeral⟩

/-- The fields of a response with content. -/
def contentFields (length : Nat) : List (Text × Text) :=
  [(ascii "Server", ascii "huasi"),
    (ascii "Content-Type", ascii "application/x-www-form-urlencoded"),
    (ascii "Content-Length", numeral length)]

theorem parseField_length (length : Nat) :
    parseField (ascii "Content-Length: " ++ numeral length) =
      some (ascii "Content-Length", numeral length) := by
  have hname : ascii "Content-Length: " = ascii "Content-Length" ++ [58, 32] := by decide
  have hspace : (numeral length).head? ≠ some 32 := fun h =>
    absurd (isDigit_of_mem_numeral (List.mem_of_mem_head? h)) (by decide)
  rw [hname, List.append_assoc]
  exact parseField_field (by decide) hspace

theorem contentLines_fields (length : Nat) :
    ((contentLines length).drop 1).mapM parseField = some (contentFields length) := by
  have hserver : parseField serverLine = some (ascii "Server", ascii "huasi") := by decide +kernel
  have htype : parseField (ascii "Content-Type: application/x-www-form-urlencoded") =
      some (ascii "Content-Type", ascii "application/x-www-form-urlencoded") := by decide +kernel
  unfold contentLines
  simp only [List.drop_one, List.tail_cons, List.mapM_cons, List.mapM_nil, hserver, htype,
    parseField_length, Option.bind_eq_bind, Option.bind_some, Option.pure_def]
  rfl

theorem get_some_iff (network : ZWaveNetwork) (nodeId : Nat) (p : Parameters) :
    (∃ parameters, network.get nodeId p = some parameters) ↔
      nodeId < 256 ∧ (network.nodes (UInt8.ofNat nodeId)).commands.entries ≠ [] := by
  unfold ZWaveNetwork.get
  by_cases hlt : nodeId < 256
  · by_cases hne : (network.nodes (UInt8.ofNat nodeId)).commands.entries ≠ []
    · simp [hlt, hne]
    · simp [hlt, hne]
  · simp [hlt]

/-! ## The responses -/

/-- A GET of a known node is answered with content. -/
theorem sent_content {e : Exchange} (hmethod : e.method = .GET)
    (hknown : KnownNode e.network e.path) :
    ∃ data, e.outcome.sent = [writeLines (contentLines data.length), data] := by
  obtain ⟨n, hn, hknown⟩ := hknown
  obtain ⟨parameters, hget⟩ := (get_some_iff e.network n .empty).mpr hknown
  refine ⟨formData parameters, ?_⟩
  unfold Exchange.outcome onRequest
  simp only [hn, hmethod, reduceCtorEq, if_false, if_true, hget, data_content]

/-- Every other request is answered with a head only. -/
theorem sent_plain {e : Exchange} (h : ¬ (e.method = .GET ∧ KnownNode e.network e.path)) :
    ∃ statusLine, statusLine ≠ [] ∧ 13 ∉ statusLine ∧
      e.outcome.sent = [writeLines (plainLines statusLine)] := by
  have hfound : ∀ status message, (ascii "HTTP/1.1 " ++ numeral status ++ [32] ++ message) ≠ [] :=
    fun status message => by simp
  have hnotFound : ∃ statusLine, statusLine ≠ [] ∧ 13 ∉ statusLine ∧
      (notFound e.network true).sent = [writeLines (plainLines statusLine)] :=
    ⟨_, hfound 404 (ascii "Not Found"), by decide +kernel,
      congrArg ([·]) (data_plain 404 (ascii "Not Found"))⟩
  unfold Exchange.outcome onRequest
  cases hn : nodeOf e.path with
  | none => exact hnotFound
  | some nodeId =>
    simp only
    split
    · cases e.network.sendSet nodeId (parseQuery e.query) with
      | none => exact hnotFound
      | some r =>
        exact ⟨_, hfound 200 (ascii "OK"), by decide +kernel,
          congrArg ([·]) (data_plain 200 (ascii "OK"))⟩
    · split
      · rename_i hmethod
        cases hget : e.network.get nodeId .empty with
        | none => exact hnotFound
        | some parameters =>
          have hknown := (get_some_iff e.network nodeId .empty).mp ⟨parameters, hget⟩
          exact absurd ⟨hmethod, nodeId, hn, hknown⟩ h
      · exact hnotFound

theorem head_eq {e : Exchange} {head : Text} {rest : List Text}
    (h : e.outcome.sent = head :: rest) : e.head = head ∧ e.body = rest.flatten := by
  unfold Exchange.head Exchange.body
  rw [h]
  exact ⟨rfl, rfl⟩

/-- The fields of a response without content. -/
def plainFields : List (Text × Text) := [(ascii "Server", ascii "huasi")]

theorem plainLines_fields (statusLine : Text) :
    ((plainLines statusLine).drop 1).mapM parseField = some plainFields := by
  show [serverLine].mapM parseField = _
  decide +kernel

theorem sized_reads {e : Exchange} (h : e.Sized) (more : Text) :
    readResponse e.toHead (e.head ++ e.body ++ more) =
      some ({ head := e.head, body := e.body }, more) := by
  rcases h with hmethod | ⟨hmethod, hknown⟩
  · have htoHead : e.toHead = true := decide_eq_true hmethod
    obtain ⟨statusLine, hne, h13, hsent⟩ := sent_plain (e := e) fun h => by
      rw [hmethod] at h
      cases h.1
    obtain ⟨hhead, hbody⟩ := head_eq hsent
    rw [htoHead, hhead, hbody, List.flatten_nil, List.append_nil]
    exact readResponse_toHead (plainLines_ok hne h13) (plainLines_fields statusLine) more
  · have htoHead : e.toHead = false := by
      unfold Exchange.toHead
      rw [hmethod]
      rfl
    obtain ⟨data, hsent⟩ := sent_content hmethod hknown
    obtain ⟨hhead, hbody⟩ := head_eq hsent
    have hdata : [data].flatten = data := by simp
    rw [htoHead, hhead, hbody, hdata, List.append_assoc]
    exact readResponse_sized (contentLines_ok _) (contentLines_fields _) rfl rfl
      (parseNumber_numeral _) rfl more

theorem open_reads {e : Exchange} (h : ¬ e.Sized) :
    e.body = [] ∧ ∀ more, readResponse e.toHead (e.head ++ more) =
      some ({ head := e.head, body := more }, []) := by
  obtain ⟨hmethod, hget⟩ := not_or.mp h
  have htoHead : e.toHead = false := decide_eq_false hmethod
  obtain ⟨statusLine, hne, h13, hsent⟩ := sent_plain hget
  obtain ⟨hhead, hbody⟩ := head_eq hsent
  refine ⟨hbody, fun more => ?_⟩
  rw [htoHead, hhead]
  exact readResponse_open (plainLines_ok hne h13) (plainLines_fields statusLine) (by decide +kernel)
    (by decide +kernel) more

theorem head_ne_nil (e : Exchange) : e.head ≠ [] := by
  have hlines : ∀ lines, writeLines lines ≠ [] := fun lines =>
    List.ne_nil_of_length_pos (Nat.zero_lt_of_lt (length_writeLines lines))
  by_cases h : e.method = .GET ∧ KnownNode e.network e.path
  · obtain ⟨data, hsent⟩ := sent_content h.1 h.2
    rw [(head_eq hsent).1]
    exact hlines _
  · obtain ⟨statusLine, -, -, hsent⟩ := sent_plain h
    rw [(head_eq hsent).1]
    exact hlines _

theorem sent_flatten (e : Exchange) : e.outcome.sent.flatten = e.head ++ e.body := by
  unfold Exchange.head Exchange.body
  cases e.outcome.sent with
  | nil => rfl
  | cons head rest => rfl

/-- The bytes of a row of requests split into one response for each of them exactly if every
request but the last is sized: POST and not found do not say how long their response is. -/
theorem responses_delimited_iff (es : List Exchange) :
    readResponses (es.map Exchange.toHead) (es.flatMap fun e => e.outcome.sent.flatten) =
        some (es.map fun e => { head := e.head, body := e.body }) ↔
      ∀ e ∈ es.dropLast, e.Sized := by
  simp only [sent_flatten]
  exact delimited_iff head_ne_nil (fun _ he => sized_reads he) (fun _ he => open_reads he) es

/-- A network in which every node is a dimmer at 50. -/
def dimmers : ZWaveNetwork := { nodes := fun _ => Node.new.track BASIC (.basic 50) }

/-- A POST sets the dimmer, and a GET asks for it. -/
def setAndGet : List Exchange :=
  [{ network := dimmers, method := .POST, path := ascii "/node/5", query := ascii "dim=70" },
    { network := dimmers, method := .GET, path := ascii "/node/5", query := [] }]

/-- The response to the POST swallows the response to the GET. -/
theorem post_swallows_next :
    readResponses (setAndGet.map Exchange.toHead)
        (setAndGet.flatMap fun e => e.outcome.sent.flatten) ≠
      some (setAndGet.map fun e => { head := e.head, body := e.body }) := by
  decide +kernel

end huasi.gateway
