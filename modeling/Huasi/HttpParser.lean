-- The parser of requests in src/src/http/http_parser.c, with HTTP_PARSER_STRICT: its tables,
-- its states, and what each case of the switch in http_parser_execute does with a byte. The
-- callbacks are those of HttpChannel: they return 0, and none of them touches the parser.
-- `none` stands for an assertion that fails and for a read behind a table.
import Huasi.UrlParser

open huasi.text huasi.http_parser

namespace huasi.http_execute

/-! ## Tables -/

def CR : UInt8 := 13
def LF : UInt8 := 10

def HTTP_MAX_HEADER_SIZE : Nat := 80 * 1024
def ULLONG_MAX : Nat := 0xffffffffffffffff

/-- `method_strings`, by the numbers of the methods. -/
def methodStrings : List Text := [
  ascii "DELETE", ascii "GET", ascii "HEAD", ascii "POST", ascii "PUT", ascii "CONNECT",
  ascii "OPTIONS", ascii "TRACE", ascii "COPY", ascii "LOCK", ascii "MKCOL", ascii "MOVE",
  ascii "PROPFIND", ascii "PROPPATCH", ascii "SEARCH", ascii "UNLOCK", ascii "BIND",
  ascii "REBIND", ascii "UNBIND", ascii "ACL", ascii "REPORT", ascii "MKACTIVITY",
  ascii "CHECKOUT", ascii "MERGE", ascii "M-SEARCH", ascii "NOTIFY", ascii "SUBSCRIBE",
  ascii "UNSUBSCRIBE", ascii "PATCH", ascii "PURGE", ascii "MKCALENDAR", ascii "LINK",
  ascii "UNLINK"]

def HTTP_CONNECT : Nat := 5

/-- The method that the first letter stands for, until another letter says otherwise. -/
def firstMethods : List (UInt8 × Nat) := [
  (65, 19), (66, 16), (67, 5), (68, 0), (71, 1), (72, 2), (76, 9), (77, 10), (78, 25), (79, 6),
  (80, 3), (82, 20), (83, 26), (84, 7), (85, 15)]

/-- Method, index and letter that lead to another method. -/
def methodChanges : List ((Nat × Nat × UInt8) × Nat) := [
  ((3, 1, 85), 4), ((3, 1, 65), 28), ((3, 1, 82), 12), ((4, 2, 82), 29), ((5, 1, 72), 22),
  ((5, 2, 80), 8), ((10, 1, 79), 11), ((10, 1, 69), 23), ((10, 1, 45), 24), ((10, 2, 65), 21),
  ((10, 3, 65), 30), ((26, 1, 69), 14), ((20, 2, 66), 17), ((12, 4, 80), 13), ((9, 1, 73), 31),
  ((15, 2, 83), 27), ((15, 2, 66), 18), ((15, 3, 73), 32)]

/-- `tokens`: lower case of the characters of a token, 0 for the others. The second half of the
table is 0. -/
def tokens : List UInt8 := [
  0, 0, 0, 0, 0, 0, 0, 0, 0, 0, 0, 0, 0, 0, 0, 0,
  0, 0, 0, 0, 0, 0, 0, 0, 0, 0, 0, 0, 0, 0, 0, 0,
  0, 33, 0, 35, 36, 37, 38, 39, 0, 0, 42, 43, 0, 45, 46, 0,
  48, 49, 50, 51, 52, 53, 54, 55, 56, 57, 0, 0, 0, 0, 0, 0,
  0, 97, 98, 99, 100, 101, 102, 103, 104, 105, 106, 107, 108, 109, 110, 111,
  112, 113, 114, 115, 116, 117, 118, 119, 120, 121, 122, 0, 0, 0, 94, 95,
  96, 97, 98, 99, 100, 101, 102, 103, 104, 105, 106, 107, 108, 109, 110, 111,
  112, 113, 114, 115, 116, 117, 118, 119, 120, 121, 122, 0, 124, 0, 126, 0]

/-- `TOKEN` and `STRICT_TOKEN`. -/
def token (ch : UInt8) : UInt8 := tokens.getD ch.toNat 0

/-- `unhex`. The table says nothing of the bytes from 128 on, so they are 0. -/
def unhexTable : List Int := [
  -1, -1, -1, -1, -1, -1, -1, -1, -1, -1, -1, -1, -1, -1, -1, -1,
  -1, -1, -1, -1, -1, -1, -1, -1, -1, -1, -1, -1, -1, -1, -1, -1,
  -1, -1, -1, -1, -1, -1, -1, -1, -1, -1, -1, -1, -1, -1, -1, -1,
  0, 1, 2, 3, 4, 5, 6, 7, 8, 9, -1, -1, -1, -1, -1, -1,
  -1, 10, 11, 12, 13, 14, 15, -1, -1, -1, -1, -1, -1, -1, -1, -1,
  -1, -1, -1, -1, -1, -1, -1, -1, -1, -1, -1, -1, -1, -1, -1, -1,
  -1, 10, 11, 12, 13, 14, 15, -1, -1, -1, -1, -1, -1, -1, -1, -1,
  -1, -1, -1, -1, -1, -1, -1, -1, -1, -1, -1, -1, -1, -1, -1, -1]

/-- The value of a hex digit, `none` for -1. -/
def unhex (ch : UInt8) : Option Nat :=
  let value := unhexTable.getD ch.toNat 0
  if value = -1 then none else some value.toNat

def isHeaderChar (ch : UInt8) : Bool := ch = CR ∨ ch = LF ∨ ch = 9 ∨ (31 < ch ∧ ch ≠ 127)

/-! ## The parser -/

/-- The states that `parse_url_char` has for the parts of a URL. -/
abbrev UrlState := huasi.http_parser.State

/-- `enum state`, without the states of a parser of responses. -/
inductive State where
  | dead
  | startReq
  | reqMethod
  | url (s : UrlState)
  | reqHttpStart
  | reqHttpH
  | reqHttpHT
  | reqHttpHTT
  | reqHttpHTTP
  | reqHttpMajor
  | reqHttpDot
  | reqHttpMinor
  | reqHttpEnd
  | reqLineAlmostDone
  | headerFieldStart
  | headerField
  | headerValueDiscardWs
  | headerValueDiscardWsAlmostDone
  | headerValueDiscardLws
  | headerValueStart
  | headerValue
  | headerValueLws
  | headerAlmostDone
  | chunkSizeStart
  | chunkSize
  | chunkParameters
  | chunkSizeAlmostDone
  | headersAlmostDone
  | headersDone
  | chunkData
  | chunkDataAlmostDone
  | chunkDataDone
  | bodyIdentity
  | messageDone
deriving DecidableEq, Repr

/-- `PARSING_HEADER`: the states up to `s_headers_done`. -/
def State.parsingHeader : State → Bool
  | .chunkData | .chunkDataAlmostDone | .chunkDataDone | .bodyIdentity | .messageDone => false
  | _ => true

/-- `enum header_states`. -/
inductive HeaderState where
  | general
  | c
  | co
  | con
  | matchingConnection
  | matchingProxyConnection
  | matchingContentLength
  | matchingTransferEncoding
  | matchingUpgrade
  | connection
  | contentLength
  | transferEncoding
  | upgrade
  | matchingTransferEncodingChunked
  | matchingConnectionTokenStart
  | matchingConnectionKeepAlive
  | matchingConnectionClose
  | matchingConnectionUpgrade
  | matchingConnectionToken
  | transferEncodingChunked
  | connectionKeepAlive
  | connectionClose
  | connectionUpgrade
deriving DecidableEq, Repr

/-- `enum flags`, a `Bool` for each bit. -/
structure Flags where
  chunked : Bool
  connectionKeepAlive : Bool
  connectionClose : Bool
  connectionUpgrade : Bool
  trailing : Bool
  upgrade : Bool
  skipbody : Bool
  contentlength : Bool
deriving DecidableEq, Repr

def Flags.none : Flags := ⟨false, false, false, false, false, false, false, false⟩

/-- `enum http_errno`, with the errors that a parser of requests can have. -/
inductive Errno where
  | ok
  | invalidEofState
  | headerOverflow
  | closedConnection
  | invalidVersion
  | invalidMethod
  | invalidUrl
  | lfExpected
  | invalidHeaderToken
  | invalidContentLength
  | unexpectedContentLength
  | invalidChunkSize
  | invalidConstant
  | strict
deriving DecidableEq, Repr

/-- `http_parser`. `index` has seven bits and `content_length` 64. Reads are shorter than the 32
bits of `nread`. -/
structure HttpParser where
  flags : Flags
  state : State
  headerState : HeaderState
  index : Nat
  nread : Nat
  contentLength : Nat
  httpMajor : Nat
  httpMinor : Nat
  method : Nat
  httpErrno : Errno
  upgrade : Bool
deriving DecidableEq, Repr

/-- `http_parser_init` for requests. -/
def HttpParser.init : HttpParser where
  flags := .none
  state := .startReq
  headerState := .general
  index := 0
  nread := 0
  contentLength := 0
  httpMajor := 0
  httpMinor := 0
  method := 0
  httpErrno := .ok
  upgrade := false

/-- `http_should_keep_alive`. A parser of requests never needs the end of the connection. -/
def HttpParser.shouldKeepAlive (parser : HttpParser) : Bool :=
  if 0 < parser.httpMajor ∧ 0 < parser.httpMinor then !parser.flags.connectionClose
  else parser.flags.connectionKeepAlive

/-- `NEW_MESSAGE`. -/
def HttpParser.newMessage (parser : HttpParser) : State :=
  if parser.shouldKeepAlive then .startReq else .dead

/-- `parser->index++`. -/
def HttpParser.nextIndex (parser : HttpParser) : HttpParser :=
  { parser with index := (parser.index + 1) % 128 }

/-! ## Callbacks -/

/-- The callbacks that get a part of the data. -/
inductive Kind where
  | url
  | headerField
  | headerValue
  | body
deriving DecidableEq, Repr

/-- A callback. `onHeadersComplete` sees the method, and whether the connection stays. -/
inductive Call where
  | onMessageBegin
  | data (kind : Kind) (bytes : Text)
  | onHeadersComplete (method : Nat) (keepAlive : Bool)
  | onMessageComplete
  | onChunkHeader
  | onChunkComplete
deriving DecidableEq, Repr

/-- What a case of the switch does with marks and callbacks: `MARK`, `CALLBACK_DATA` and
`CALLBACK_NOTIFY`. -/
inductive Action where
  | mark (kind : Kind)
  | callbackData (kind : Kind)
  | notify (call : Call)
deriving DecidableEq, Repr

/-- How a case ends: with `break`, with `goto error`, or with `RETURN` behind the byte. -/
inductive Ending where
  | next
  | error
  | leave
deriving DecidableEq, Repr

/-- What a case of the switch does. -/
structure Move where
  parser : HttpParser
  actions : List Action
  ending : Ending

/-- On to the next byte. -/
def HttpParser.next (parser : HttpParser) (actions : List Action) : Move :=
  { parser, actions, ending := .next }

def HttpParser.goTo (parser : HttpParser) (state : State) : Move :=
  { parser with state }.next []

/-- `SET_ERRNO(e); goto error`. -/
def HttpParser.fail (parser : HttpParser) (e : Errno) : Move :=
  { parser := { parser with httpErrno := e }, actions := [], ending := .error }

/-- Actions in front of those of a case that is executed again. -/
def Move.after (m : Move) (actions : List Action) : Move :=
  { m with actions := actions ++ m.actions }

/-! ## The request line -/

def startReq (parser : HttpParser) (ch : UInt8) : Move :=
  if ch = CR ∨ ch = LF then parser.next []
  else
    let parser := { parser with flags := .none, contentLength := ULLONG_MAX }
    if !isAlpha ch then parser.fail .invalidMethod
    else
      match firstMethods.lookup ch with
      | none => { parser with method := 0, index := 1 }.fail .invalidMethod
      | some method =>
        { parser with method, index := 1, state := .reqMethod }.next [.notify .onMessageBegin]

def reqMethod (parser : HttpParser) (ch : UInt8) : Option Move :=
  if ch = 0 then some (parser.fail .invalidMethod)
  else do
    let name ← methodStrings[parser.method]?
    -- the name ends with a zero
    let matcher ← (name ++ [0])[parser.index]?
    if ch = 32 ∧ matcher = 0 then
      some ({ parser with state := .url .spacesBeforeUrl }.nextIndex.next [])
    else if ch = matcher then some (parser.nextIndex.next [])
    else if (65 ≤ ch ∧ ch ≤ 90) ∨ ch = 45 then
      match methodChanges.lookup (parser.method, parser.index, ch) with
      | some method => some ({ parser with method }.nextIndex.next [])
      | none => some (parser.fail .invalidMethod)
    else some (parser.fail .invalidMethod)

/-- `UPDATE_STATE(parse_url_char(..))`. -/
def urlChar (parser : HttpParser) (s : UrlState) (ch : UInt8) (actions : List Action) :
    Move :=
  let parser := { parser with state := .url (parseUrlChar s ch) }
  if parseUrlChar s ch = .dead then (parser.fail .invalidUrl).after actions
  else parser.next actions

def spacesBeforeUrl (parser : HttpParser) (ch : UInt8) : Move :=
  if ch = 32 then parser.next []
  else
    urlChar parser (if parser.method = HTTP_CONNECT then .serverStart else .spacesBeforeUrl) ch
      [.mark .url]

/-- The states of a URL that must go on. -/
def urlOpen (parser : HttpParser) (s : UrlState) (ch : UInt8) : Move :=
  if ch = 32 ∨ ch = CR ∨ ch = LF then parser.fail .invalidUrl
  else urlChar parser s ch []

/-- The states of a URL that may end. -/
def urlEnds (parser : HttpParser) (s : UrlState) (ch : UInt8) : Move :=
  if ch = 32 then { parser with state := .reqHttpStart }.next [.callbackData .url]
  else if ch = CR ∨ ch = LF then
    { parser with
      httpMajor := 0
      httpMinor := 9
      state := if ch = CR then .reqLineAlmostDone else .headerFieldStart }.next
        [.callbackData .url]
  else urlChar parser s ch []

def url (parser : HttpParser) (s : UrlState) (ch : UInt8) : Move :=
  match s with
  | .spacesBeforeUrl => spacesBeforeUrl parser ch
  | .schema | .schemaSlash | .schemaSlashSlash | .serverStart => urlOpen parser s ch
  | .server | .serverWithAt | .path | .queryStringStart | .queryString | .fragmentStart
  | .fragment => urlEnds parser s ch
  | .dead => parser.fail .invalidUrl

def reqHttpStart (parser : HttpParser) (ch : UInt8) : Move :=
  if ch = 72 then parser.goTo .reqHttpH
  else if ch = 32 then parser.next []
  else parser.fail .invalidConstant

/-- `STRICT_CHECK` for one character, then the next state. -/
def strictChar (parser : HttpParser) (expected ch : UInt8) (state : State) : Move :=
  if ch ≠ expected then parser.fail .strict else parser.goTo state

def reqHttpMajor (parser : HttpParser) (ch : UInt8) : Move :=
  if !isNum ch then parser.fail .invalidVersion
  else { parser with httpMajor := ch.toNat - 48 }.goTo .reqHttpDot

def reqHttpDot (parser : HttpParser) (ch : UInt8) : Move :=
  if ch ≠ 46 then parser.fail .invalidVersion else parser.goTo .reqHttpMinor

def reqHttpMinor (parser : HttpParser) (ch : UInt8) : Move :=
  if !isNum ch then parser.fail .invalidVersion
  else { parser with httpMinor := ch.toNat - 48 }.goTo .reqHttpEnd

def reqHttpEnd (parser : HttpParser) (ch : UInt8) : Move :=
  if ch = CR then parser.goTo .reqLineAlmostDone
  else if ch = LF then parser.goTo .headerFieldStart
  else parser.fail .invalidVersion

def reqLineAlmostDone (parser : HttpParser) (ch : UInt8) : Move :=
  if ch ≠ LF then parser.fail .lfExpected else parser.goTo .headerFieldStart

/-! ## The end of the headers, and of a message -/

/-- `s_message_done`. -/
def messageDone (parser : HttpParser) : Move where
  parser := { parser with state := parser.newMessage }
  actions := [.notify .onMessageComplete]
  -- exit, the rest of the message is in a different protocol
  ending := if parser.upgrade then .leave else .next

def headersDone (parser : HttpParser) (ch : UInt8) : Move :=
  if ch ≠ LF then parser.fail .strict
  else
    let parser := { parser with nread := 0 }
    let hasBody := parser.flags.chunked ||
      (0 < parser.contentLength && parser.contentLength ≠ ULLONG_MAX)
    let ended := { parser with state := parser.newMessage }.next [.notify .onMessageComplete]
    if parser.upgrade && (parser.method = HTTP_CONNECT || parser.flags.skipbody || !hasBody) then
      -- exit, the rest of the message is in a different protocol
      { ended with ending := .leave }
    else if parser.flags.skipbody then ended
    else if parser.flags.chunked then parser.goTo .chunkSizeStart
    else if parser.contentLength = 0 then ended
    else if parser.contentLength ≠ ULLONG_MAX then parser.goTo .bodyIdentity
    else ended

def headersAlmostDone (parser : HttpParser) (ch : UInt8) : Move :=
  if ch ≠ LF then parser.fail .strict
  else if parser.flags.trailing then
    -- end of a chunked request
    (messageDone { parser with state := .messageDone }).after [.notify .onChunkComplete]
  else if parser.flags.chunked && parser.flags.contentlength then
    parser.fail .unexpectedContentLength
  else
    let parser := { parser with
      state := .headersDone
      upgrade := (parser.flags.upgrade && parser.flags.connectionUpgrade) ||
        parser.method = HTTP_CONNECT }
    (headersDone parser ch).after
      [.notify (.onHeadersComplete parser.method parser.shouldKeepAlive)]

/-! ## Header lines -/

def firstHeaderState (c : UInt8) : HeaderState :=
  if c = 99 then .c
  else if c = 112 then .matchingProxyConnection
  else if c = 116 then .matchingTransferEncoding
  else if c = 117 then .matchingUpgrade
  else .general

def headerFieldStart (parser : HttpParser) (ch : UInt8) : Move :=
  if ch = CR then parser.goTo .headersAlmostDone
  else if ch = LF then
    -- they might be just sending \n instead of \r\n
    headersAlmostDone { parser with state := .headersAlmostDone } ch
  else if token ch = 0 then parser.fail .invalidHeaderToken
  else
    { parser with
      index := 0
      state := .headerField
      headerState := firstHeaderState (token ch) }.next [.mark .headerField]

/-- A character that should go on with `name`, which has the state `complete` at its end, and
where not, the state `other`. -/
def matchName (name : Text) (waiting complete other : HeaderState) (parser : HttpParser)
    (c : UInt8) : Option (HttpParser × HeaderState) := do
  let parser := parser.nextIndex
  if name.length < parser.index then some (parser, other)
  else
    -- the name ends with a zero
    let expected ← (name ++ [0])[parser.index]?
    if c ≠ expected then some (parser, other)
    else if parser.index = name.length - 1 then some (parser, complete)
    else some (parser, waiting)

/-- The switch for a character of a header name. -/
def fieldChar (parser : HttpParser) (ch c : UInt8) : Option (HttpParser × HeaderState) :=
  match parser.headerState with
  | .general => some (parser, .general)
  | .c => some (parser.nextIndex, if c = 111 then .co else .general)
  | .co => some (parser.nextIndex, if c = 110 then .con else .general)
  | .con =>
    some (parser.nextIndex, if c = 110 then .matchingConnection
      else if c = 116 then .matchingContentLength else .general)
  | .matchingConnection =>
    matchName (ascii "connection") .matchingConnection .connection .general parser c
  | .matchingProxyConnection =>
    matchName (ascii "proxy-connection") .matchingProxyConnection .connection .general parser c
  | .matchingContentLength =>
    matchName (ascii "content-length") .matchingContentLength .contentLength .general parser c
  | .matchingTransferEncoding =>
    matchName (ascii "transfer-encoding") .matchingTransferEncoding .transferEncoding .general
      parser c
  | .matchingUpgrade => matchName (ascii "upgrade") .matchingUpgrade .upgrade .general parser c
  | .connection | .contentLength | .transferEncoding | .upgrade =>
    some (parser, if ch ≠ 32 then .general else parser.headerState)
  | _ => none

/-- The loop over the characters of a header name: the parser afterwards, and how many there
are. -/
def scanField (parser : HttpParser) : Text → Option (HttpParser × Nat)
  | [] => some (parser, 0)
  | ch :: rest =>
    if token ch = 0 then some (parser, 0)
    else do
      let (parser, headerState) ← fieldChar parser ch (token ch)
      let (parser, n) ← scanField { parser with headerState } rest
      some (parser, n + 1)

/-- What follows on a header name. -/
def fieldEnd (parser : HttpParser) (ch : UInt8) : Move :=
  if ch = 58 then { parser with state := .headerValueDiscardWs }.next [.callbackData .headerField]
  else parser.fail .invalidHeaderToken

def headerValueStart (parser : HttpParser) (ch : UInt8) : Move :=
  let parser := { parser with state := .headerValue, index := 0 }
  let c := lower ch
  match parser.headerState with
  | .upgrade =>
    { parser with
      flags := { parser.flags with upgrade := true }
      headerState := .general }.next [.mark .headerValue]
  | .transferEncoding =>
    -- looking for 'Transfer-Encoding: chunked'
    { parser with
      headerState := if c = 99 then .matchingTransferEncodingChunked else .general }.next
        [.mark .headerValue]
  | .contentLength =>
    if !isNum ch then (parser.fail .invalidContentLength).after [.mark .headerValue]
    else if parser.flags.contentlength then
      (parser.fail .unexpectedContentLength).after [.mark .headerValue]
    else
      { parser with
        flags := { parser.flags with contentlength := true }
        contentLength := ch.toNat - 48 }.next [.mark .headerValue]
  | .connection =>
    { parser with
      headerState :=
        if c = 107 then .matchingConnectionKeepAlive
        else if c = 99 then .matchingConnectionClose
        else if c = 117 then .matchingConnectionUpgrade
        else .matchingConnectionToken }.next [.mark .headerValue]
  | .matchingConnectionTokenStart => parser.next [.mark .headerValue]
  | _ => { parser with headerState := .general }.next [.mark .headerValue]

def headerValueDiscardWs (parser : HttpParser) (ch : UInt8) : Move :=
  if ch = 32 ∨ ch = 9 then parser.next []
  else if ch = CR then parser.goTo .headerValueDiscardWsAlmostDone
  else if ch = LF then parser.goTo .headerValueDiscardLws
  else headerValueStart parser ch

/-- The flags after a header with this state at its end. -/
def Flags.finish (flags : Flags) : HeaderState → Flags
  | .connectionKeepAlive => { flags with connectionKeepAlive := true }
  | .connectionClose => { flags with connectionClose := true }
  | .transferEncodingChunked => { flags with chunked := true }
  | .connectionUpgrade => { flags with connectionUpgrade := true }
  | _ => flags

def headerAlmostDone (parser : HttpParser) (ch : UInt8) : Move :=
  if ch ≠ LF then parser.fail .lfExpected else parser.goTo .headerValueLws

def headerValueLws (parser : HttpParser) (ch : UInt8) : Move :=
  if ch = 32 ∨ ch = 9 then headerValueStart { parser with state := .headerValueStart } ch
  else
    -- finished the header
    headerFieldStart { parser with
      flags := parser.flags.finish parser.headerState
      state := .headerFieldStart } ch

def headerValueDiscardLws (parser : HttpParser) (ch : UInt8) : Move :=
  if ch = 32 ∨ ch = 9 then parser.goTo .headerValueDiscardWs
  else
    -- header value was empty
    (headerFieldStart { parser with
      flags := parser.flags.finish parser.headerState
      state := .headerFieldStart } ch).after [.mark .headerValue, .callbackData .headerValue]

/-- A digit of `Content-Length`. -/
def contentLengthChar (parser : HttpParser) (ch : UInt8) : Except Errno (HttpParser × HeaderState) :=
  if ch = 32 then .ok (parser, .contentLength)
  else if !isNum ch then .error .invalidContentLength
  else if (ULLONG_MAX - 10) / 10 < parser.contentLength then .error .invalidContentLength
  else
    .ok ({ parser with
      contentLength := (parser.contentLength * 10 + (ch.toNat - 48)) % (ULLONG_MAX + 1) },
      .contentLength)

/-- A token of `Connection` that is complete, with `flags` if it ends here. -/
def tokenEnd (parser : HttpParser) (h : HeaderState) (ch : UInt8) : HttpParser × HeaderState :=
  if ch = 44 then
    ({ parser with flags := parser.flags.finish h, index := 0 }, .matchingConnectionTokenStart)
  else (parser, if ch ≠ 32 then .matchingConnectionToken else h)

/-- The switch for a character of a header value. The characters of a general header are not
looked at. -/
def valueChar (parser : HttpParser) (h : HeaderState) (ch : UInt8) :
    Option (Except Errno (HttpParser × HeaderState)) :=
  let c := lower ch
  match h with
  | .connection | .transferEncoding => none
  | .contentLength => some (contentLengthChar parser ch)
  | .matchingTransferEncodingChunked =>
    (matchName (ascii "chunked") h .transferEncodingChunked .general parser c).map .ok
  | .matchingConnectionTokenStart =>
    some (.ok (parser,
      if c = 107 then .matchingConnectionKeepAlive
      else if c = 99 then .matchingConnectionClose
      else if c = 117 then .matchingConnectionUpgrade
      else if token c ≠ 0 then .matchingConnectionToken
      else if c = 32 ∨ c = 9 then h
      else .general))
  | .matchingConnectionKeepAlive =>
    (matchName (ascii "keep-alive") h .connectionKeepAlive .matchingConnectionToken parser c).map .ok
  | .matchingConnectionClose =>
    (matchName (ascii "close") h .connectionClose .matchingConnectionToken parser c).map .ok
  | .matchingConnectionUpgrade =>
    (matchName (ascii "upgrade") h .connectionUpgrade .matchingConnectionToken parser c).map .ok
  | .matchingConnectionToken =>
    some (.ok (if ch = 44 then ({ parser with index := 0 }, .matchingConnectionTokenStart)
      else (parser, h)))
  | .transferEncodingChunked => some (.ok (parser, if ch ≠ 32 then .general else h))
  | .connectionKeepAlive | .connectionClose | .connectionUpgrade =>
    some (.ok (tokenEnd parser h ch))
  | _ => some (.ok (parser, .general))

def memchr (c : UInt8) (bytes : Text) : Option Nat := bytes.findIdx? (· = c)

/-- How far the value of a general header goes: to the first CR or LF, or to the end. -/
def generalLength (rest : Text) : Nat :=
  let limited := rest.take HTTP_MAX_HEADER_SIZE
  match memchr CR limited, memchr LF limited with
  | some cr, some lf => if lf ≤ cr then lf else cr
  | some cr, none => cr
  | none, some lf => lf
  | none, none => rest.length

/-- What ends the loop over a header value. -/
inductive ValueEnd where
  | cr
  | lf
  | out
  | error (e : Errno) (headerState : HeaderState)

/-- The result of the loop over a header value. -/
structure Value where
  parser : HttpParser
  headerState : HeaderState
  length : Nat
  stop : ValueEnd

def Value.longer (v : Value) (n : Nat) : Value := { v with length := n + v.length }

/-- The loop over a header value, for the number of turns given at most. -/
def scanValue : Nat → HttpParser → HeaderState → Text → Option Value
  | 0, parser, h, _ | _, parser, h, [] => some ⟨parser, h, 0, .out⟩
  | turns + 1, parser, h, ch :: rest =>
    if ch = CR then some ⟨parser, h, 0, .cr⟩
    else if ch = LF then some ⟨parser, h, 0, .lf⟩
    else if !isHeaderChar ch then
      some ⟨parser, h, 0, .error .invalidHeaderToken parser.headerState⟩
    else if h = .general then
      let n := generalLength (ch :: rest)
      (scanValue turns parser h ((ch :: rest).drop n)).map (·.longer n)
    else
      match valueChar parser h ch with
      | none => none
      | some (.error e) => some ⟨parser, h, 0, .error e h⟩
      | some (.ok (parser, h)) => (scanValue turns parser h rest).map (·.longer 1)

/-! ## Chunks -/

def chunkSizeStart (parser : HttpParser) (ch : UInt8) : Option Move :=
  if parser.nread = 1 ∧ parser.flags.chunked = true then
    match unhex ch with
    | none => some (parser.fail .invalidChunkSize)
    | some value => some ({ parser with contentLength := value }.goTo .chunkSize)
  else none

def chunkSize (parser : HttpParser) (ch : UInt8) : Option Move :=
  if parser.flags.chunked then
    if ch = CR then some (parser.goTo .chunkSizeAlmostDone)
    else
      match unhex ch with
      | none =>
        if ch = 59 ∨ ch = 32 then some (parser.goTo .chunkParameters)
        else some (parser.fail .invalidChunkSize)
      | some value =>
        if (ULLONG_MAX - 16) / 16 < parser.contentLength then
          some (parser.fail .invalidContentLength)
        else
          some ({ parser with
            contentLength := (parser.contentLength * 16 + value) % (ULLONG_MAX + 1) }.next [])
  else none

def chunkParameters (parser : HttpParser) (ch : UInt8) : Option Move :=
  if parser.flags.chunked then
    some (if ch = CR then parser.goTo .chunkSizeAlmostDone else parser.next [])
  else none

def chunkSizeAlmostDone (parser : HttpParser) (ch : UInt8) : Option Move :=
  if parser.flags.chunked then
    if ch ≠ LF then some (parser.fail .strict)
    else
      let parser := { parser with nread := 0 }
      if parser.contentLength = 0 then
        some ({ parser with
          flags := { parser.flags with trailing := true }
          state := .headerFieldStart }.next [.notify .onChunkHeader])
      else some ({ parser with state := .chunkData }.next [.notify .onChunkHeader])
  else none

def chunkDataAlmostDone (parser : HttpParser) (ch : UInt8) : Option Move :=
  if parser.flags.chunked = true ∧ parser.contentLength = 0 then
    if ch ≠ CR then some (parser.fail .strict)
    else some ({ parser with state := .chunkDataDone }.next [.callbackData .body])
  else none

def chunkDataDone (parser : HttpParser) (ch : UInt8) : Option Move :=
  if parser.flags.chunked then
    if ch ≠ LF then some (parser.fail .strict)
    else
      some ({ parser with nread := 0, state := .chunkSizeStart }.next [.notify .onChunkComplete])
  else none

/-! ## One byte -/

/-- The switch, for the states that look at one byte. The others look at what follows too. -/
def switch (parser : HttpParser) (ch : UInt8) : Option Move :=
  match parser.state with
  | .dead =>
    -- the parser will error out if it reads another message
    some (if ch = CR ∨ ch = LF then parser.next [] else parser.fail .closedConnection)
  | .startReq => some (startReq parser ch)
  | .reqMethod => reqMethod parser ch
  | .url s => some (url parser s ch)
  | .reqHttpStart => some (reqHttpStart parser ch)
  | .reqHttpH => some (strictChar parser 84 ch .reqHttpHT)
  | .reqHttpHT => some (strictChar parser 84 ch .reqHttpHTT)
  | .reqHttpHTT => some (strictChar parser 80 ch .reqHttpHTTP)
  | .reqHttpHTTP => some (strictChar parser 47 ch .reqHttpMajor)
  | .reqHttpMajor => some (reqHttpMajor parser ch)
  | .reqHttpDot => some (reqHttpDot parser ch)
  | .reqHttpMinor => some (reqHttpMinor parser ch)
  | .reqHttpEnd => some (reqHttpEnd parser ch)
  | .reqLineAlmostDone => some (reqLineAlmostDone parser ch)
  | .headerFieldStart => some (headerFieldStart parser ch)
  | .headerValueDiscardWs => some (headerValueDiscardWs parser ch)
  | .headerValueDiscardWsAlmostDone => some (strictChar parser LF ch .headerValueDiscardLws)
  | .headerValueDiscardLws => some (headerValueDiscardLws parser ch)
  | .headerValueStart => some (headerValueStart parser ch)
  | .headerValueLws => some (headerValueLws parser ch)
  | .headerAlmostDone => some (headerAlmostDone parser ch)
  | .chunkSizeStart => chunkSizeStart parser ch
  | .chunkSize => chunkSize parser ch
  | .chunkParameters => chunkParameters parser ch
  | .chunkSizeAlmostDone => chunkSizeAlmostDone parser ch
  | .headersAlmostDone => some (headersAlmostDone parser ch)
  | .headersDone => some (headersDone parser ch)
  | .chunkDataAlmostDone => chunkDataAlmostDone parser ch
  | .chunkDataDone => chunkDataDone parser ch
  | .messageDone => some (messageDone parser)
  | .headerField | .headerValue | .chunkData | .bodyIdentity => none

end huasi.http_execute
