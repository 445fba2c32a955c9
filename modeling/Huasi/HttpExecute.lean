-- http_parser_execute (src/src/http/http_parser.c) over the data of one call: the loop with
-- its marks, and the header names, header values and bodies that it reads in one go.
import Huasi.HttpParser
import Huasi.Runs

open huasi.text huasi.runs

namespace huasi.http_execute

/-! ## The loop over the data -/

/-- The locals of `http_parser_execute`: the bytes from `p` on, and the mark that is set, with the
bytes from it up to `p`. Another mark cannot be set then. -/
structure Cursor where
  parser : HttpParser
  rest : Text
  mark : Option (Kind × Text)
  calls : List Call
  returned : Bool
deriving DecidableEq, Repr

/-- `p += n`. -/
def Cursor.advance (s : Cursor) (n : Nat) : Cursor :=
  { s with rest := s.rest.drop n, mark := s.mark.map fun m => (m.1, m.2 ++ s.rest.take n) }

def Cursor.perform (s : Cursor) : Action → Option Cursor
  | .mark kind =>
    match s.mark with
    | none => some { s with mark := some (kind, []) }
    | some m => if m.1 = kind then some s else none
  | .callbackData kind =>
    match s.mark with
    | none => some s
    | some m =>
      if m.1 = kind then some { s with mark := none, calls := s.calls ++ [.data kind m.2] }
      else some s
  | .notify call => some { s with calls := s.calls ++ [call] }

/-- The end of a case. -/
def Cursor.close (s : Cursor) : Ending → Cursor
  | .next => s.advance 1
  | .error => { s with returned := true }
  | .leave => { s.advance 1 with returned := true }

def Cursor.move (s : Cursor) (m : Move) : Option Cursor := do
  let s ← m.actions.foldlM Cursor.perform { s with parser := m.parser }
  some (s.close m.ending)

/-- `COUNT_HEADER_SIZE`. -/
def Cursor.count (s : Cursor) (n : Nat) : Cursor :=
  let parser := { s.parser with nread := s.parser.nread + n }
  if HTTP_MAX_HEADER_SIZE < parser.nread then
    { s with parser := { parser with httpErrno := .headerOverflow }, returned := true }
  else { s with parser }

/-- What follows on the characters of a header name. -/
def fieldRest (s : Cursor) : Option Cursor :=
  if s.returned then some s
  else
    match s.rest with
    | [] => some s
    | ch :: _ => s.move (fieldEnd s.parser ch)

def headerField (s : Cursor) : Option Cursor := do
  let (parser, n) ← scanField s.parser s.rest
  fieldRest (({ s with parser }.advance n).count n)

/-- What follows on a header value that ends with CR. -/
def valueCr (s : Cursor) (n : Nat) : Option Cursor := do
  let s ← s.perform (.callbackData .headerValue)
  let s := s.count n
  if s.returned then some s else some (s.advance 1)

/-- What follows on a header value that ends with LF, the state of the header included. -/
def valueLf (s : Cursor) (headerState : HeaderState) : Option Cursor :=
  if s.returned then some s
  else do
    let s ← { s with parser := { s.parser with headerState } }.perform
      (.callbackData .headerValue)
    s.move (headerAlmostDone s.parser LF)

def headerValue (s : Cursor) : Option Cursor := do
  let v ← scanValue s.rest.length s.parser s.parser.headerState s.rest
  let s := { s with parser := v.parser }.advance v.length
  match v.stop with
  | .out => some ({ s with parser := { s.parser with headerState := v.headerState } }.count v.length)
  | .cr =>
    valueCr { s with parser := { s.parser with
      state := .headerAlmostDone
      headerState := v.headerState } } v.length
  | .lf =>
    valueLf ({ s with parser := { s.parser with state := .headerAlmostDone } }.count v.length)
      v.headerState
  | .error e headerState =>
    some { s with parser := { s.parser with headerState, httpErrno := e }, returned := true }

/-- The part of `s_body_identity` and `s_chunk_data` that reads the body, up to the byte behind
it. -/
def readBody (s : Cursor) : Option Cursor :=
  if s.parser.contentLength ≠ 0 ∧ s.parser.contentLength ≠ ULLONG_MAX then do
    let toRead := min s.parser.contentLength s.rest.length
    let s ← s.perform (.mark .body)
    some ({ s with parser := { s.parser with
      contentLength := s.parser.contentLength - toRead } }.advance toRead)
  else none

def bodyIdentity (s : Cursor) : Option Cursor := do
  let s ← readBody s
  if s.parser.contentLength = 0 then
    let s ← s.perform (.callbackData .body)
    -- `s_message_done` sees the last byte again, and goes on behind it
    let m := messageDone { s.parser with state := .messageDone }
    let s ← m.actions.foldlM Cursor.perform { s with parser := m.parser }
    some { s with returned := m.ending = .leave }
  else some s

def chunkData (s : Cursor) : Option Cursor :=
  if s.parser.flags.chunked then do
    let s ← readBody s
    if s.parser.contentLength = 0 then
      some { s with parser := { s.parser with state := .chunkDataAlmostDone } }
    else some s
  else none

/-- The switch on the state, with the states that look at more than one byte. -/
def dispatch (s : Cursor) (ch : UInt8) : Option Cursor :=
  match s.parser.state with
  | .headerField => headerField s
  | .headerValue => headerValue s
  | .bodyIdentity => bodyIdentity s
  | .chunkData => chunkData s
  | _ => (switch s.parser ch).bind s.move

/-- One turn of the loop. -/
def turn (s : Cursor) : Option Cursor :=
  match s.rest with
  | [] => some s
  | ch :: _ =>
    let s := if s.parser.state.parsingHeader then s.count 1 else s
    if s.returned then some s else dispatch s ch

/-- The guard of the loop. -/
def unfinished (s : Cursor) : Bool := !s.returned && !s.rest.isEmpty

/-- The mark that a part of a message goes on with. -/
def State.resumed : State → Option Kind
  | .headerField => some .headerField
  | .headerValue => some .headerValue
  | .url .spacesBeforeUrl | .url .dead => none
  | .url _ => some .url
  | _ => none

/-- The locals in front of the loop. -/
def Cursor.start (parser : HttpParser) (data : Text) : Cursor where
  parser := parser
  rest := data
  mark := parser.state.resumed.map fun kind => (kind, [])
  calls := []
  returned := false

/-- The callbacks for a mark that is left. -/
def Cursor.flush (s : Cursor) : Cursor :=
  match s.mark with
  | none => s
  | some m => { s with mark := none, calls := s.calls ++ [.data m.1 m.2] }

/-- The parser afterwards, the callbacks, and the value that is returned. -/
structure Result where
  parser : HttpParser
  calls : List Call
  count : Nat
deriving DecidableEq, Repr

/-- `http_parser_execute`. Each turn takes a byte away at least, or returns. -/
def execute (parser : HttpParser) (data : Text) : Option Result :=
  if parser.httpErrno ≠ .ok then some ⟨parser, [], 0⟩
  else if data = [] then
    if parser.state = .dead ∨ parser.state = .startReq then some ⟨parser, [], 0⟩
    else some ⟨{ parser with httpErrno := .invalidEofState }, [], 1⟩
  else do
    let s ← loop unfinished (fun s => (turn s).map .again) data.length (.start parser data)
    let s := if s.returned then s else s.flush
    some ⟨s.parser, s.calls, data.length - s.rest.length⟩

end huasi.http_execute
