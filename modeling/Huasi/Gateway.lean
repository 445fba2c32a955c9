-- Gateway (src/src/Gateway.cpp) with the responses of HttpChannel
-- (src/src/http/HttpChannel.cpp): how a request becomes calls of the network and a
-- response. The url comes as the path and the query that http_parser finds in it.
import Huasi.Query
import Huasi.ZWaveNetwork

open huasi.text huasi.decimal huasi.sorted_map huasi.network

namespace huasi.gateway

/-! ## Responses -/

/-- `HttpChannel::Response`: the text of status line and headers so far. -/
structure Response where
  s : Text

def Response.new (status : Nat) (message : Text) : Response :=
  ⟨ascii "HTTP/1.1 " ++ numeral status ++ [32] ++ message ++ crlf⟩

def Response.addHeader (r : Response) (key value : Text) : Response :=
  ⟨r.s ++ (key ++ ascii ": " ++ value ++ crlf)⟩

def Response.addHeaders (r : Response) (headers : SortedMap Text Text) : Response :=
  headers.entries.foldl (fun r p => r.addHeader p.1 p.2) r

def Response.addClose (r : Response) : Response :=
  ⟨r.s ++ (ascii "Connection: close" ++ crlf)⟩

def Response.addContent (r : Response) (contentType : Text) (contentLength : Nat) : Response :=
  ⟨r.s ++ (ascii "Content-Type: " ++ contentType ++ crlf) ++
    (ascii "Content-Length: " ++ numeral contentLength ++ crlf)⟩

/-- What `sendResponse` sends: the head and the end of headers. -/
def Response.data (r : Response) : Text := r.s ++ crlf

/-! ## Requests -/

/-- The request methods of http_parser. -/
inductive Method where
  | DELETE | GET | HEAD | POST | PUT | CONNECT | OPTIONS | TRACE | COPY | LOCK | MKCOL | MOVE
  | PROPFIND | PROPPATCH | SEARCH | UNLOCK | BIND | REBIND | UNBIND | ACL | REPORT | MKACTIVITY
  | CHECKOUT | MERGE | MSEARCH | NOTIFY | SUBSCRIBE | UNSUBSCRIBE | PATCH | PURGE | MKCALENDAR
  | LINK | UNLINK
deriving DecidableEq, Repr

/-- `atoi`: the value of `strtol`, a `long` of 64 bits at most, as an `int` of 32 bits. -/
def atoi (s : Text) : Int :=
  let s := s.dropWhile isSpace
  let digits := if s.head? = some 45 ∨ s.head? = some 43 then s.drop 1 else s
  let value : Int := number (digits.takeWhile fun ch => decide (IsDigit ch))
  let value := if s.head? = some 45 then max (-value) (-2 ^ 63) else min value (2 ^ 63 - 1)
  value.bmod (2 ^ 32)

/-- The node that a path names, as the `uint32_t` that the network gets. -/
def nodeOf (path : Text) : Option Nat :=
  if (ascii "/node/").isPrefixOf path then
    some ((atoi (path.drop 6)) % 2 ^ 32).toNat
  else none

def defaultHeaders : SortedMap Text Text := SortedMap.empty.insert (ascii "Server") (ascii "huasi")

/-- Status line and the headers of every response. -/
def response (status : Nat) (message : Text) (keepAlive : Bool) : Response :=
  let r := (Response.new status message).addHeaders defaultHeaders
  if keepAlive then r else r.addClose

/-- What a request does: the network afterwards, the requests for the controller, and the calls of
`sendData`. -/
structure Outcome where
  network : ZWaveNetwork
  enqueued : List SendData
  sent : List Text

def notFound (network : ZWaveNetwork) (keepAlive : Bool) : Outcome :=
  { network, enqueued := [], sent := [(response 404 (ascii "Not Found") keepAlive).data] }

/-- `onRequest`. -/
def onRequest (network : ZWaveNetwork) (method : Method) (path query : Text) (keepAlive : Bool) :
    Outcome :=
  match nodeOf path with
  | some nodeId =>
    if method = .POST then
      match network.sendSet nodeId (parseQuery query) with
      | some (network, enqueued) =>
        { network, enqueued, sent := [(response 200 (ascii "OK") keepAlive).data] }
      | none => notFound network keepAlive
    else if method = .GET then
      -- get tracked parameters from node
      match network.get nodeId .empty with
      | some parameters =>
        let data := formData parameters
        { network
          enqueued := []
          sent := [((response 200 (ascii "OK") keepAlive).addContent
            (ascii "application/x-www-form-urlencoded") data.length).data, data] }
      | none => notFound network keepAlive
    else notFound network keepAlive
  | none => notFound network keepAlive

end huasi.gateway
