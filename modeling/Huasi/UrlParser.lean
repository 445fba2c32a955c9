-- The parser for the parts of a URL (http_parser_parse_url in src/src/http/http_parser.c,
-- with HTTP_PARSER_STRICT, as the header sets it). It leaves the fields that it has found, also
-- where it rejects the URL.
import Huasi.Text
import Mathlib.Logic.Function.Basic

open huasi.text

namespace huasi.http_parser

/-! ## Characters -/

def lower (c : UInt8) : UInt8 := c ||| 0x20

def isAlpha (c : UInt8) : Bool := 97 ≤ lower c ∧ lower c ≤ 122

def isNum (c : UInt8) : Bool := 48 ≤ c ∧ c ≤ 57

def isAlphanum (c : UInt8) : Bool := isAlpha c || isNum c

def isHex (c : UInt8) : Bool := isNum c || (97 ≤ lower c ∧ lower c ≤ 102)

def isMark (c : UInt8) : Bool := (ascii "-_.!~*'()").contains c

def isUserinfoChar (c : UInt8) : Bool :=
  isAlphanum c || isMark c || (ascii "%;:&=+$,").contains c

/-- One bit for each character. -/
def normalUrlChar : List UInt8 :=
  [0, 0, 0, 0,
   2 ||| 4 ||| 16 ||| 32 ||| 64 ||| 128, 255, 255, 127,
   255, 255, 255, 255, 255, 255, 255, 127,
   0, 0, 0, 0, 0, 0, 0, 0,
   0, 0, 0, 0, 0, 0, 0, 0]

def isUrlChar (c : UInt8) : Bool :=
  normalUrlChar.getD (c >>> 3).toNat 0 &&& 1 <<< (c &&& 7) ≠ 0

def isHostChar (c : UInt8) : Bool := isAlphanum c || c = 46 || c = 45

/-! ## The parts of a URL -/

/-- `http_parser_url_fields` -/
inductive UrlField where
  | schema
  | host
  | port
  | path
  | query
  | fragment
  | userinfo
deriving DecidableEq, Repr

def UrlField.all : List UrlField := [.schema, .host, .port, .path, .query, .fragment, .userinfo]

structure FieldData where
  off : UInt16
  len : UInt16
deriving DecidableEq, Repr

/-- `http_parser_url`. The bits of `field_set` are read one by one. -/
structure HttpParserUrl where
  fieldSet : UrlField → Bool
  port : UInt16
  fieldData : UrlField → FieldData

/-- `http_parser_url_init` -/
def HttpParserUrl.init : HttpParserUrl where
  fieldSet _ := false
  port := 0
  fieldData _ := { off := 0, len := 0 }

/-- A field starts at `off`. -/
def HttpParserUrl.start (u : HttpParserUrl) (uf : UrlField) (off : Nat) (len : UInt16) :
    HttpParserUrl :=
  { u with
    fieldSet := Function.update u.fieldSet uf true
    fieldData := Function.update u.fieldData uf { off := .ofNat off, len } }

/-- `u->field_data[uf].len++` -/
def HttpParserUrl.extend (u : HttpParserUrl) (uf : UrlField) : HttpParserUrl :=
  { u with
    fieldData :=
      Function.update u.fieldData uf { u.fieldData uf with len := (u.fieldData uf).len + 1 } }

/-! ## The loop over the URL -/

/-- The states of `parse_url_char`. -/
inductive State where
  | dead
  | spacesBeforeUrl
  | schema
  | schemaSlash
  | schemaSlashSlash
  | serverStart
  | server
  | serverWithAt
  | path
  | queryStringStart
  | queryString
  | fragmentStart
  | fragment
deriving DecidableEq, Repr

/-- The part of `parse_url_char` that three states of the server share. -/
def parseServerChar (ch : UInt8) : State :=
  if ch = 47 then .path
  else if ch = 63 then .queryStringStart
  else if ch = 64 then .serverWithAt
  else if isUserinfoChar ch ∨ ch = 91 ∨ ch = 93 then .server
  else .dead

def parseUrlChar (s : State) (ch : UInt8) : State :=
  if ch = 32 ∨ ch = 13 ∨ ch = 10 ∨ ch = 9 ∨ ch = 12 then .dead
  else
    match s with
    | .dead => .dead
    | .spacesBeforeUrl =>
      if ch = 47 ∨ ch = 42 then .path
      else if isAlpha ch then .schema
      else .dead
    | .schema =>
      if isAlpha ch then .schema
      else if ch = 58 then .schemaSlash
      else .dead
    | .schemaSlash => if ch = 47 then .schemaSlashSlash else .dead
    | .schemaSlashSlash => if ch = 47 then .serverStart else .dead
    | .serverWithAt => if ch = 64 then .dead else parseServerChar ch
    | .serverStart | .server => parseServerChar ch
    | .path =>
      if isUrlChar ch then .path
      else if ch = 63 then .queryStringStart
      else if ch = 35 then .fragmentStart
      else .dead
    | .queryStringStart | .queryString =>
      if isUrlChar ch then .queryString
      else if ch = 63 then .queryString
      else if ch = 35 then .fragmentStart
      else .dead
    | .fragmentStart =>
      if isUrlChar ch then .fragment
      else if ch = 63 then .fragment
      else if ch = 35 then .fragmentStart
      else .dead
    | .fragment => if isUrlChar ch ∨ ch = 63 ∨ ch = 35 then .fragment else .dead

/-- What the loop makes of a state. -/
inductive Character where
  | reject
  | delimiter
  | field (uf : UrlField)

def State.character : State → Character
  | .dead | .spacesBeforeUrl => .reject
  | .schemaSlash | .schemaSlashSlash | .serverStart | .queryStringStart | .fragmentStart =>
    .delimiter
  | .schema => .field .schema
  | .serverWithAt | .server => .field .host
  | .path => .field .path
  | .queryString => .field .query
  | .fragment => .field .fragment

/-- The variables of the loop. -/
structure Scan where
  s : State
  oldUf : Option UrlField
  foundAt : Bool
  u : HttpParserUrl

/-- One turn of the loop, for the character at `p`. -/
def Scan.next (l : Scan) (p : Nat) (ch : UInt8) : Option Scan :=
  let s := parseUrlChar l.s ch
  let l := { l with s, foundAt := l.foundAt ∨ s = .serverWithAt }
  match s.character with
  | .reject => none
  | .delimiter => some l
  | .field uf =>
    if some uf = l.oldUf then some { l with u := l.u.extend uf }
    else some { l with oldUf := some uf, u := l.u.start uf p 1 }

/-- The loop, and whether it came to the end of the URL. A character that is rejected leaves the
fields as they are. -/
def Scan.run (l : Scan) (p : Nat) : Text → Bool × Scan
  | [] => (true, l)
  | ch :: rest =>
    match l.next p ch with
    | none => (false, l)
    | some l => l.run (p + 1) rest

/-! ## The host -/

/-- `http_host_state` -/
inductive HostState where
  | dead
  | userinfoStart
  | userinfo
  | hostStart
  | hostV6Start
  | host
  | hostV6
  | hostV6End
  | hostV6ZoneStart
  | hostV6Zone
  | hostPortStart
  | hostPort
deriving DecidableEq, Repr

/-- The part of `http_parse_host_char` that two states share. -/
def parseZoneChar (ch : UInt8) : HostState :=
  if isAlphanum ch ∨ ch = 37 ∨ ch = 46 ∨ ch = 45 ∨ ch = 95 ∨ ch = 126 then .hostV6Zone else .dead

def httpParseHostChar (s : HostState) (ch : UInt8) : HostState :=
  match s with
  | .userinfo | .userinfoStart =>
    if ch = 64 then .hostStart
    else if isUserinfoChar ch then .userinfo
    else .dead
  | .hostStart =>
    if ch = 91 then .hostV6Start
    else if isHostChar ch then .host
    else .dead
  | .host =>
    if isHostChar ch then .host
    else if ch = 58 then .hostPortStart
    else .dead
  | .hostV6End => if ch = 58 then .hostPortStart else .dead
  | .hostV6 =>
    if ch = 93 then .hostV6End
    else if isHex ch ∨ ch = 58 ∨ ch = 46 then .hostV6
    else if ch = 37 then .hostV6ZoneStart
    else .dead
  | .hostV6Start => if isHex ch ∨ ch = 58 ∨ ch = 46 then .hostV6 else .dead
  | .hostV6Zone => if ch = 93 then .hostV6End else parseZoneChar ch
  | .hostV6ZoneStart => parseZoneChar ch
  | .hostPort | .hostPortStart => if isNum ch then .hostPort else .dead
  | .dead => .dead

/-- What a turn of `http_parse_host` does to the fields when it goes from `s` to `new`. -/
def HttpParserUrl.hostTurn (u : HttpParserUrl) (s new : HostState) (p : Nat) : HttpParserUrl :=
  -- the first character of the host moves its offset and leaves its length
  let u := if (new = .host ∨ new = .hostV6) ∧ s ≠ new then
    u.start .host p (u.fieldData .host).len else u
  match new with
  | .host | .hostV6 | .hostV6ZoneStart | .hostV6Zone => u.extend .host
  | .hostPort => (if s ≠ .hostPort then u.start .port p 0 else u).extend .port
  | .userinfo => (if s ≠ .userinfo then u.start .userinfo p 0 else u).extend .userinfo
  | _ => u

/-- The loop of `http_parse_host`. There is no state behind a character that is rejected. -/
def hostRun (s : HostState) (u : HttpParserUrl) (p : Nat) :
    Text → Option HostState × HttpParserUrl
  | [] => (some s, u)
  | ch :: rest =>
    let new := httpParseHostChar s ch
    if new = .dead then (none, u) else hostRun new (u.hostTurn s new p) (p + 1) rest

/-- The states in which a host may end. -/
def HostState.ends : HostState → Bool
  | .hostStart | .hostV6Start | .hostV6 | .hostV6ZoneStart | .hostV6Zone | .hostPortStart
  | .userinfo | .userinfoStart => false
  | .dead | .host | .hostV6End | .hostPort => true

/-- What a function returns that fills in `u`: 0 where it accepts, and the fields that it
leaves. -/
structure Parsed where
  accepted : Bool
  u : HttpParserUrl

def httpParseHost (buf : Text) (u : HttpParserUrl) (foundAt : Bool) : Parsed :=
  let host := u.fieldData .host
  let u := { u with fieldData := Function.update u.fieldData .host { host with len := 0 } }
  let s := if foundAt then .userinfoStart else .hostStart
  let r := hostRun s u host.off.toNat ((buf.drop host.off.toNat).take host.len.toNat)
  { accepted := r.1.any HostState.ends, u := r.2 }

/-! ## The port -/

/-- The number that the digits in front say. -/
def digits (s : Text) : Nat :=
  (s.takeWhile isNum).foldl (fun n c => 10 * n + (c.toNat - 48)) 0

def ULONG_MAX : Nat := 0xffffffffffffffff

/-- `strtoul` with base 10 and a 64 bit `unsigned long`: `ULONG_MAX` when the number is out of
range, and a minus sign negates. -/
def strtoul (s : Text) : Nat :=
  let s := s.dropWhile isSpace
  let n := digits (if s.head? = some 43 ∨ s.head? = some 45 then s.drop 1 else s)
  if ULONG_MAX < n then ULONG_MAX
  else if s.head? = some 45 then (ULONG_MAX + 1 - n) % (ULONG_MAX + 1)
  else n

/-! ## The function -/

/-- A schema needs a host, and a host is parsed once more. -/
def parseHostPart (buf : Text) (l : Scan) : Parsed :=
  if l.u.fieldSet .schema ∧ ¬l.u.fieldSet .host then { accepted := false, u := l.u }
  else if l.u.fieldSet .host then httpParseHost buf l.u l.foundAt
  else { accepted := true, u := l.u }

def parsePortPart (buf : Text) (u : HttpParserUrl) : Parsed :=
  if u.fieldSet .port then
    let v := strtoul (buf.drop (u.fieldData .port).off.toNat)
    if 0xffff < v then { accepted := false, u }
    else { accepted := true, u := { u with port := .ofNat v } }
  else { accepted := true, u }

/-- `http_parser_parse_url` -/
def httpParserParseUrl (buf : Text) (isConnect : Bool) : Parsed :=
  let s := if isConnect then .serverStart else .spacesBeforeUrl
  let (done, l) := Scan.run { s, oldUf := none, foundAt := false, u := .init } 0 buf
  if done then
    let r := parseHostPart buf l
    if r.accepted then
      if isConnect ∧ ¬UrlField.all.all fun uf => r.u.fieldSet uf = (uf = .host || uf = .port) then
        { accepted := false, u := r.u }
      else parsePortPart buf r.u
    else r
  else { accepted := false, u := l.u }

/-! ## What the characters do -/

/-- How far the loop over the URL is. -/
inductive Phase where
  | start
  | authority
  | path
  | question
  | query
  | fragment
deriving DecidableEq

def State.phase : State → Option Phase
  | .dead => none
  | .spacesBeforeUrl => some .start
  | .schema | .schemaSlash | .schemaSlashSlash | .serverStart | .server | .serverWithAt =>
    some .authority
  | .path => some .path
  | .queryStringStart => some .question
  | .queryString => some .query
  | .fragmentStart | .fragment => some .fragment

/-- The phases that follow each other, with the character that leads from one to the next. -/
inductive Phase.Next : Phase → UInt8 → Phase → Prop where
  | schema {ch : UInt8} : ch ≠ 63 → Next .start ch .authority
  | root {ch : UInt8} : ch ≠ 63 → Next .start ch .path
  | authority {ch : UInt8} : ch ≠ 63 → Next .authority ch .authority
  | slash {ch : UInt8} : ch ≠ 63 → Next .authority ch .path
  | noPath : Next .authority 63 .question
  | path {ch : UInt8} : ch ≠ 63 → Next .path ch .path
  | question : Next .path 63 .question
  | pathHash {ch : UInt8} : Next .path ch .fragment
  | first {ch : UInt8} : Next .question ch .query
  | emptyHash {ch : UInt8} : Next .question ch .fragment
  | query {ch : UInt8} : Next .query ch .query
  | queryHash {ch : UInt8} : Next .query ch .fragment
  | fragment {ch : UInt8} : Next .fragment ch .fragment

theorem isAlpha_question {c : UInt8} (h : isAlpha c = true) : c ≠ 63 := by
  rintro rfl
  exact absurd h (by decide)

theorem isUrlChar_question {c : UInt8} (h : isUrlChar c = true) : c ≠ 63 := by
  rintro rfl
  exact absurd h (by decide)

theorem parseServerChar_phase (ch : UInt8) {b : Phase}
    (h : (parseServerChar ch).phase = some b) : Phase.Next .authority ch b := by
  unfold parseServerChar at h
  split_ifs at h with hslash hquestion hat hserver
  · cases h
    exact .slash (by rintro rfl; simp at hslash)
  · cases h
    subst hquestion
    exact .noPath
  · cases h
    exact .authority hquestion
  · cases h
    exact .authority hquestion
  · cases h

theorem parseUrlChar_phase {s : State} {ch : UInt8} {a b : Phase} (ha : s.phase = some a)
    (hb : (parseUrlChar s ch).phase = some b) : Phase.Next a ch b := by
  unfold parseUrlChar at hb
  by_cases hspace : ch = 32 ∨ ch = 13 ∨ ch = 10 ∨ ch = 9 ∨ ch = 12
  · rw [if_pos hspace] at hb
    cases hb
  rw [if_neg hspace] at hb
  cases s with
  | dead => cases ha
  | spacesBeforeUrl =>
    cases ha
    dsimp only at hb
    split_ifs at hb with hroot halpha
    · cases hb
      exact .root (by rintro rfl; simp at hroot)
    · cases hb
      exact .schema (isAlpha_question halpha)
    · cases hb
  | schema =>
    cases ha
    dsimp only at hb
    split_ifs at hb with halpha hcolon
    · cases hb
      exact .authority (isAlpha_question halpha)
    · cases hb
      exact .authority (by rintro rfl; simp at hcolon)
    · cases hb
  | schemaSlash | schemaSlashSlash =>
    cases ha
    dsimp only at hb
    split_ifs at hb with hslash
    · cases hb
      exact .authority (by rintro rfl; simp at hslash)
    · cases hb
  | serverStart | server =>
    cases ha
    exact parseServerChar_phase ch hb
  | serverWithAt =>
    cases ha
    dsimp only at hb
    split_ifs at hb
    · cases hb
    · exact parseServerChar_phase ch hb
  | path =>
    cases ha
    dsimp only at hb
    split_ifs at hb with hurl hquestion hhash
    · cases hb
      exact .path (isUrlChar_question hurl)
    · cases hb
      subst hquestion
      exact .question
    · cases hb
      exact .pathHash
    · cases hb
  | queryStringStart =>
    cases ha
    dsimp only at hb
    split_ifs at hb <;> cases hb
    · exact .first
    · exact .first
    · exact .emptyHash
  | queryString =>
    cases ha
    dsimp only at hb
    split_ifs at hb <;> cases hb
    · exact .query
    · exact .query
    · exact .queryHash
  | fragmentStart =>
    cases ha
    dsimp only at hb
    split_ifs at hb <;> cases hb <;> exact .fragment
  | fragment =>
    cases ha
    dsimp only at hb
    split_ifs at hb <;> cases hb
    exact .fragment

/-! ## The fields -/

namespace HttpParserUrl

/-- `u'` has the field `uf` as `u` has it. -/
def Keeps (u u' : HttpParserUrl) (uf : UrlField) : Prop :=
  u'.fieldSet uf = u.fieldSet uf ∧ u'.fieldData uf = u.fieldData uf

def Absent (u : HttpParserUrl) (uf : UrlField) : Prop :=
  u.fieldSet uf = false ∧ u.fieldData uf = { off := 0, len := 0 }

/-- The field `uf` says that `s` follows `front`, as far as 16 bits go. -/
def Holds (u : HttpParserUrl) (uf : UrlField) (front s : Text) : Prop :=
  u.fieldSet uf = true ∧ u.fieldData uf = { off := .ofNat front.length, len := .ofNat s.length }

/-- `pre` ends with the path, if there is one. -/
def EndsWithPath (u : HttpParserUrl) (pre : Text) : Prop :=
  u.Absent .path ∨ ∃ front path, pre = front ++ path ∧ u.Holds .path front path

/-- `rest` begins with a '?' and the query, if there is one. -/
def BeginsWithQuery (u : HttpParserUrl) (pre rest : Text) : Prop :=
  u.Absent .query ∨
    ∃ query more, rest = 63 :: (query ++ more) ∧ u.Holds .query (pre ++ [63]) query

theorem Keeps.refl (u : HttpParserUrl) (uf : UrlField) : u.Keeps u uf := ⟨rfl, rfl⟩

theorem Keeps.trans {u v w : HttpParserUrl} {uf : UrlField} (h : u.Keeps v uf)
    (h' : v.Keeps w uf) : u.Keeps w uf := ⟨h'.1.trans h.1, h'.2.trans h.2⟩

theorem Keeps.absent {u u' : HttpParserUrl} {uf : UrlField} (h : u.Keeps u' uf)
    (ha : u.Absent uf) : u'.Absent uf := ⟨h.1.trans ha.1, h.2.trans ha.2⟩

theorem Keeps.holds {u u' : HttpParserUrl} {uf : UrlField} {front s : Text}
    (h : u.Keeps u' uf) (hs : u.Holds uf front s) : u'.Holds uf front s :=
  ⟨h.1.trans hs.1, h.2.trans hs.2⟩

theorem Keeps.endsWithPath {u u' : HttpParserUrl} {pre : Text} (h : u.Keeps u' .path)
    (hp : u.EndsWithPath pre) : u'.EndsWithPath pre := by
  rcases hp with ha | ⟨front, path, hpre, hpath⟩
  · exact Or.inl (h.absent ha)
  · exact Or.inr ⟨front, path, hpre, h.holds hpath⟩

theorem Keeps.beginsWithQuery {u u' : HttpParserUrl} {pre rest : Text} (h : u.Keeps u' .query)
    (hq : u.BeginsWithQuery pre rest) : u'.BeginsWithQuery pre rest := by
  rcases hq with ha | ⟨query, more, hrest, hquery⟩
  · exact Or.inl (h.absent ha)
  · exact Or.inr ⟨query, more, hrest, h.holds hquery⟩

theorem keeps_start (u : HttpParserUrl) {uf uf' : UrlField} (off : Nat) (len : UInt16)
    (h : uf ≠ uf') : u.Keeps (u.start uf' off len) uf := by
  unfold Keeps start
  exact ⟨Function.update_of_ne h _ _, Function.update_of_ne h _ _⟩

theorem keeps_extend (u : HttpParserUrl) {uf uf' : UrlField} (h : uf ≠ uf') :
    u.Keeps (u.extend uf') uf := by
  unfold Keeps extend
  exact ⟨rfl, Function.update_of_ne h _ _⟩

theorem holds_start (u : HttpParserUrl) (uf : UrlField) (front : Text) (ch : UInt8) :
    (u.start uf front.length 1).Holds uf front [ch] := by
  unfold Holds start
  exact ⟨Function.update_self .., Function.update_self ..⟩

theorem Holds.extend {u : HttpParserUrl} {uf : UrlField} {front s : Text}
    (h : u.Holds uf front s) (ch : UInt8) : (u.extend uf).Holds uf front (s ++ [ch]) := by
  unfold Holds HttpParserUrl.extend
  refine ⟨h.1, ?_⟩
  dsimp only
  rw [Function.update_self, h.2, List.length_append, UInt16.ofNat_add]
  rfl

end HttpParserUrl

open HttpParserUrl

/-- Where the fields stand in the part of the URL that the loop has read. -/
def Scan.Inv (l : Scan) (done : Text) : Option Phase → Prop
  | none => False
  | some .start => done = [] ∧ l.oldUf = none ∧ l.u.Absent .path ∧ l.u.Absent .query
  | some .authority =>
    done ≠ [] ∧ 63 ∉ done ∧ l.oldUf ≠ some .path ∧ l.oldUf ≠ some .query ∧
      l.u.Absent .path ∧ l.u.Absent .query
  | some .path =>
    done ≠ [] ∧ 63 ∉ done ∧ l.oldUf = some .path ∧
      (∃ front path, done = front ++ path ∧ l.u.Holds .path front path) ∧ l.u.Absent .query
  | some .question =>
    ∃ pre, done = pre ++ [63] ∧ pre ≠ [] ∧ 63 ∉ pre ∧ l.oldUf ≠ some .query ∧
      l.u.EndsWithPath pre ∧ l.u.Absent .query
  | some .query =>
    ∃ pre query, done = pre ++ 63 :: query ∧ pre ≠ [] ∧ 63 ∉ pre ∧ l.oldUf = some .query ∧
      l.u.EndsWithPath pre ∧ l.u.Holds .query (pre ++ [63]) query
  | some .fragment =>
    ∃ pre rest, done = pre ++ rest ∧ pre ≠ [] ∧ 63 ∉ pre ∧
      l.u.EndsWithPath pre ∧ l.u.BeginsWithQuery pre rest

/-- What a turn does to the variables. -/
theorem Scan.next_cases {l l' : Scan} {p : Nat} {ch : UInt8} (h : l.next p ch = some l') :
    l'.s = parseUrlChar l.s ch ∧
      ((l'.s.character = .delimiter ∧ l'.oldUf = l.oldUf ∧ l'.u = l.u) ∨
        ∃ uf, l'.s.character = .field uf ∧ l'.oldUf = some uf ∧
          ((l.oldUf = some uf ∧ l'.u = l.u.extend uf) ∨
            (l.oldUf ≠ some uf ∧ l'.u = l.u.start uf p 1))) := by
  unfold Scan.next at h
  dsimp only at h
  cases hc : (parseUrlChar l.s ch).character with
  | reject =>
    rw [hc] at h
    cases h
  | delimiter =>
    rw [hc] at h
    cases h
    exact ⟨rfl, Or.inl ⟨hc, rfl, rfl⟩⟩
  | field uf =>
    rw [hc] at h
    dsimp only at h
    split_ifs at h with hold
    · cases h
      exact ⟨rfl, Or.inr ⟨uf, hc, hold.symm, Or.inl ⟨hold.symm, rfl⟩⟩⟩
    · cases h
      exact ⟨rfl, Or.inr ⟨uf, hc, rfl, Or.inr ⟨Ne.symm hold, rfl⟩⟩⟩

/-- A turn keeps every field that the character is not of. -/
theorem Scan.next_keeps {l l' : Scan} {p : Nat} {ch : UInt8} (h : l.next p ch = some l')
    {uf : UrlField} (hc : l'.s.character ≠ .field uf) :
    l.u.Keeps l'.u uf ∧ (l.oldUf ≠ some uf → l'.oldUf ≠ some uf) := by
  obtain ⟨-, ⟨-, hold, hu⟩ | ⟨uf', hfield, hold, ⟨-, hu⟩ | ⟨-, hu⟩⟩⟩ := next_cases h
  · rw [hu, hold]
    exact ⟨Keeps.refl _ _, id⟩
  · have hne : uf ≠ uf' := by
      rintro rfl
      exact hc hfield
    rw [hu, hold]
    exact ⟨keeps_extend _ hne, fun _ heq => hne (Option.some.inj heq).symm⟩
  · have hne : uf ≠ uf' := by
      rintro rfl
      exact hc hfield
    rw [hu, hold]
    exact ⟨keeps_start _ _ _ hne, fun _ heq => hne (Option.some.inj heq).symm⟩

theorem character_path (s : State) : s.character = .field .path ↔ s.phase = some .path := by
  cases s <;> simp [State.character, State.phase]

theorem character_query (s : State) : s.character = .field .query ↔ s.phase = some .query := by
  cases s <;> simp [State.character, State.phase]

theorem Scan.next_phase {l l' : Scan} {p : Nat} {ch : UInt8} {a : Phase}
    (h : l.next p ch = some l') (ha : l.s.phase = some a) :
    ∃ b, l'.s.phase = some b ∧ a.Next ch b := by
  obtain ⟨hs, hc⟩ := next_cases h
  cases hb : l'.s.phase with
  | none =>
    have hdead : l'.s = .dead := by
      cases hl : l'.s <;> rw [hl] at hb <;> first | rfl | cases hb
    rw [hdead] at hc
    obtain ⟨hc, -⟩ | ⟨uf, hc, -⟩ := hc <;> cases hc
  | some b =>
    rw [hs] at hb
    exact ⟨b, rfl, parseUrlChar_phase ha hb⟩

/-- The first character of a field. -/
theorem Scan.next_start {l l' : Scan} {done : Text} {ch : UInt8} {uf : UrlField}
    (h : l.next done.length ch = some l') (hc : l'.s.character = .field uf)
    (hold : l.oldUf ≠ some uf) : l'.oldUf = some uf ∧ l'.u.Holds uf done [ch] := by
  obtain ⟨-, ⟨hd, -⟩ | ⟨uf', hfield, hnew, ⟨heq, -⟩ | ⟨-, hu⟩⟩⟩ := next_cases h
  · rw [hd] at hc
    cases hc
  · rw [hfield] at hc
    cases hc
    exact absurd heq hold
  · rw [hfield] at hc
    cases hc
    rw [hu]
    exact ⟨hnew, holds_start l.u uf done ch⟩

/-- A character that continues a field. -/
theorem Scan.next_extend {l l' : Scan} {p : Nat} {front s : Text} {ch : UInt8} {uf : UrlField}
    (h : l.next p ch = some l') (hc : l'.s.character = .field uf)
    (hold : l.oldUf = some uf) (hs : l.u.Holds uf front s) :
    l'.oldUf = some uf ∧ l'.u.Holds uf front (s ++ [ch]) := by
  obtain ⟨-, ⟨hd, -⟩ | ⟨uf', hfield, hnew, ⟨-, hu⟩ | ⟨hne, -⟩⟩⟩ := next_cases h
  · rw [hd] at hc
    cases hc
  · rw [hfield] at hc
    cases hc
    rw [hu]
    exact ⟨hnew, hs.extend ch⟩
  · rw [hfield] at hc
    cases hc
    exact absurd hold hne

theorem Scan.inv_next {l l' : Scan} {done : Text} {ch : UInt8} {a : Phase}
    (h : l.next done.length ch = some l') (ha : l.s.phase = some a)
    (hi : l.Inv done (some a)) : ∃ b, l'.s.phase = some b ∧ l'.Inv (done ++ [ch]) (some b) := by
  obtain ⟨b, hb, hnext⟩ := next_phase h ha
  refine ⟨b, hb, ?_⟩
  have hpath (hne : b ≠ .path) :
      l.u.Keeps l'.u .path ∧ (l.oldUf ≠ some .path → l'.oldUf ≠ some .path) := by
    apply next_keeps h
    rw [ne_eq, character_path, hb]
    exact fun heq => hne (Option.some.inj heq)
  have hquery (hne : b ≠ .query) :
      l.u.Keeps l'.u .query ∧ (l.oldUf ≠ some .query → l'.oldUf ≠ some .query) := by
    apply next_keeps h
    rw [ne_eq, character_query, hb]
    exact fun heq => hne (Option.some.inj heq)
  have hnone : done ++ [ch] ≠ [] := List.append_ne_nil_of_right_ne_nil _ (List.cons_ne_nil _ _)
  have hmem (hd : 63 ∉ done) (hch : ch ≠ 63) : 63 ∉ done ++ [ch] := by
    rw [List.mem_append, List.mem_singleton]
    exact not_or.mpr ⟨hd, hch.symm⟩
  cases hnext with
  | schema hch =>
    obtain ⟨rfl, hold, hp, hq⟩ := hi
    refine ⟨hnone, hmem List.not_mem_nil hch, ?_, ?_, ?_, ?_⟩
    · exact (hpath (by decide)).2 (by rw [hold]; exact (Option.some_ne_none _).symm)
    · exact (hquery (by decide)).2 (by rw [hold]; exact (Option.some_ne_none _).symm)
    · exact (hpath (by decide)).1.absent hp
    · exact (hquery (by decide)).1.absent hq
  | root hch =>
    obtain ⟨rfl, hold, hp, hq⟩ := hi
    have hne : l.oldUf ≠ some .path := by
      rw [hold]
      exact (Option.some_ne_none _).symm
    obtain ⟨hnew, hholds⟩ := next_start h ((character_path _).mpr hb) hne
    exact ⟨hnone, hmem List.not_mem_nil hch, hnew, ⟨[], [ch], rfl, hholds⟩,
      (hquery (by decide)).1.absent hq⟩
  | authority hch =>
    obtain ⟨-, hd, hop, hoq, hp, hq⟩ := hi
    exact ⟨hnone, hmem hd hch, (hpath (by decide)).2 hop, (hquery (by decide)).2 hoq,
      (hpath (by decide)).1.absent hp, (hquery (by decide)).1.absent hq⟩
  | slash hch =>
    obtain ⟨-, hd, hop, -, -, hq⟩ := hi
    obtain ⟨hnew, hholds⟩ := next_start h ((character_path _).mpr hb) hop
    exact ⟨hnone, hmem hd hch, hnew, ⟨done, [ch], rfl, hholds⟩, (hquery (by decide)).1.absent hq⟩
  | noPath =>
    obtain ⟨hne, hd, -, hoq, hp, hq⟩ := hi
    exact ⟨done, rfl, hne, hd, (hquery (by decide)).2 hoq,
      Or.inl ((hpath (by decide)).1.absent hp), (hquery (by decide)).1.absent hq⟩
  | path hch =>
    obtain ⟨-, hd, hold, ⟨front, path, rfl, hp⟩, hq⟩ := hi
    obtain ⟨hnew, hholds⟩ := next_extend h ((character_path _).mpr hb) hold hp
    exact ⟨hnone, hmem hd hch, hnew, ⟨front, path ++ [ch], List.append_assoc .., hholds⟩,
      (hquery (by decide)).1.absent hq⟩
  | question =>
    obtain ⟨hne, hd, hold, ⟨front, path, heq, hp⟩, hq⟩ := hi
    refine ⟨done, rfl, hne, hd, (hquery (by decide)).2 ?_, ?_, (hquery (by decide)).1.absent hq⟩
    · rw [hold]
      decide
    · exact Or.inr ⟨front, path, heq, (hpath (by decide)).1.holds hp⟩
  | pathHash =>
    obtain ⟨hne, hd, -, ⟨front, path, heq, hp⟩, hq⟩ := hi
    exact ⟨done, [ch], rfl, hne, hd, Or.inr ⟨front, path, heq, (hpath (by decide)).1.holds hp⟩,
      Or.inl ((hquery (by decide)).1.absent hq)⟩
  | first =>
    obtain ⟨pre, rfl, hne, hd, hold, hp, -⟩ := hi
    obtain ⟨hnew, hholds⟩ := next_start h ((character_query _).mpr hb) hold
    exact ⟨pre, [ch], List.append_assoc .., hne, hd, hnew,
      (hpath (by decide)).1.endsWithPath hp, hholds⟩
  | emptyHash =>
    obtain ⟨pre, rfl, hne, hd, -, hp, hq⟩ := hi
    exact ⟨pre, [63, ch], List.append_assoc .., hne, hd, (hpath (by decide)).1.endsWithPath hp,
      Or.inl ((hquery (by decide)).1.absent hq)⟩
  | query =>
    obtain ⟨pre, query, rfl, hne, hd, hold, hp, hq⟩ := hi
    obtain ⟨hnew, hholds⟩ := next_extend h ((character_query _).mpr hb) hold hq
    exact ⟨pre, query ++ [ch], List.append_assoc .., hne, hd, hnew,
      (hpath (by decide)).1.endsWithPath hp, hholds⟩
  | queryHash =>
    obtain ⟨pre, query, rfl, hne, hd, -, hp, hq⟩ := hi
    exact ⟨pre, 63 :: (query ++ [ch]), List.append_assoc .., hne, hd,
      (hpath (by decide)).1.endsWithPath hp,
      Or.inr ⟨query, [ch], rfl, (hquery (by decide)).1.holds hq⟩⟩
  | fragment =>
    obtain ⟨pre, rest, rfl, hne, hd, hp, hq⟩ := hi
    refine ⟨pre, rest ++ [ch], List.append_assoc .., hne, hd,
      (hpath (by decide)).1.endsWithPath hp, ?_⟩
    obtain ha | ⟨query, more, rfl, hholds⟩ := (hquery (by decide)).1.beginsWithQuery hq
    · exact Or.inl ha
    · exact Or.inr ⟨query, more ++ [ch], by rw [List.cons_append, List.append_assoc], hholds⟩

theorem Scan.run_cons {l m : Scan} {p : Nat} {ch : UInt8} (h : l.next p ch = some m)
    (rest : Text) : l.run p (ch :: rest) = m.run (p + 1) rest := by
  conv_lhs => unfold Scan.run
  rw [h]

theorem Scan.run_reject {l : Scan} {p : Nat} {ch : UInt8} (h : l.next p ch = none)
    (rest : Text) : l.run p (ch :: rest) = (false, l) := by
  unfold Scan.run
  rw [h]

/-- The loop takes a part of the URL, all of it if nothing is rejected. -/
theorem Scan.inv_run {l : Scan} {done : Text} {a : Phase} (buf : Text)
    (ha : l.s.phase = some a) (hi : l.Inv done (some a)) :
    ∃ taken rest b, buf = taken ++ rest ∧ (l.run done.length buf).2.Inv (done ++ taken) (some b) ∧
      ((l.run done.length buf).1 = true → rest = []) := by
  induction buf generalizing l done a with
  | nil => exact ⟨[], [], a, rfl, by rwa [List.append_nil], fun _ => rfl⟩
  | cons ch buf ih =>
    cases hnext : l.next done.length ch with
    | none =>
      rw [run_reject hnext]
      exact ⟨[], ch :: buf, a, rfl, by rwa [List.append_nil], fun h => by cases h⟩
    | some l₁ =>
      obtain ⟨b, hb, hi₁⟩ := inv_next hnext ha hi
      obtain ⟨taken, rest, c, rfl, hinv, hall⟩ := ih hb hi₁
      rw [List.length_append] at hinv hall
      rw [run_cons hnext]
      refine ⟨ch :: taken, rest, c, rfl, ?_, hall⟩
      rw [List.append_cons done ch taken]
      exact hinv

/-! ## Path and query -/

/-- What the fields of the path and of the query say about a URL. -/
def HttpParserUrl.Splits (u : HttpParserUrl) (buf : Text) : Prop :=
  ∃ pre rest, buf = pre ++ rest ∧ (rest ≠ [] → pre ≠ []) ∧ 63 ∉ pre ∧
    u.EndsWithPath pre ∧ u.BeginsWithQuery pre rest

theorem Scan.Inv.splits {l : Scan} {buf : Text} {a : Phase} (h : l.Inv buf (some a)) :
    l.u.Splits buf := by
  cases a with
  | start =>
    obtain ⟨rfl, -, hp, hq⟩ := h
    exact ⟨[], [], rfl, id, List.not_mem_nil, Or.inl hp, Or.inl hq⟩
  | authority =>
    obtain ⟨hne, hd, -, -, hp, hq⟩ := h
    exact ⟨buf, [], (List.append_nil _).symm, fun _ => hne, hd, Or.inl hp, Or.inl hq⟩
  | path =>
    obtain ⟨hne, hd, -, hp, hq⟩ := h
    exact ⟨buf, [], (List.append_nil _).symm, fun _ => hne, hd, Or.inr hp, Or.inl hq⟩
  | question =>
    obtain ⟨pre, rfl, hne, hd, -, hp, hq⟩ := h
    exact ⟨pre, [63], rfl, fun _ => hne, hd, hp, Or.inl hq⟩
  | query =>
    obtain ⟨pre, query, rfl, hne, hd, -, hp, hq⟩ := h
    exact ⟨pre, 63 :: query, rfl, fun _ => hne, hd, hp,
      Or.inr ⟨query, [], by rw [List.append_nil], hq⟩⟩
  | fragment =>
    obtain ⟨pre, rest, rfl, hne, hd, hp, hq⟩ := h
    exact ⟨pre, rest, rfl, fun _ => hne, hd, hp, hq⟩

/-- The fields that `http_parse_host` leaves as they are. -/
def UrlField.OfHost : UrlField → Prop
  | .host | .port | .userinfo => True
  | .schema | .path | .query | .fragment => False

theorem keeps_hostTurn (u : HttpParserUrl) (s new : HostState) (p : Nat) {uf : UrlField}
    (h : ¬uf.OfHost) : u.Keeps (u.hostTurn s new p) uf := by
  have hhost : uf ≠ .host := by
    rintro rfl
    exact h trivial
  have hport : uf ≠ .port := by
    rintro rfl
    exact h trivial
  have huserinfo : uf ≠ .userinfo := by
    rintro rfl
    exact h trivial
  have hmoved (v : HttpParserUrl) (c : Prop) [Decidable c] {uf' : UrlField} (len : UInt16)
      (hne : uf ≠ uf') : v.Keeps (if c then v.start uf' p len else v) uf := by
    by_cases hc : c
    · rw [if_pos hc]
      exact keeps_start v p len hne
    · rw [if_neg hc]
      exact Keeps.refl v uf
  unfold hostTurn
  dsimp only
  refine (hmoved u ((new = .host ∨ new = .hostV6) ∧ s ≠ new) (u.fieldData .host).len hhost).trans ?_
  cases new with
  | host | hostV6 | hostV6ZoneStart | hostV6Zone => exact keeps_extend _ hhost
  | hostPort => exact (hmoved _ _ 0 hport).trans (keeps_extend _ hport)
  | userinfo => exact (hmoved _ _ 0 huserinfo).trans (keeps_extend _ huserinfo)
  | dead | userinfoStart | hostStart | hostV6Start | hostV6End | hostPortStart =>
    exact Keeps.refl _ uf

theorem keeps_hostRun (s : HostState) (u : HttpParserUrl) (p : Nat) {uf : UrlField}
    (buf : Text) (hf : ¬uf.OfHost) : u.Keeps (hostRun s u p buf).2 uf := by
  induction buf generalizing s u p with
  | nil => exact Keeps.refl _ uf
  | cons ch rest ih =>
    unfold hostRun
    dsimp only
    split_ifs
    · exact Keeps.refl _ uf
    · exact (keeps_hostTurn u _ _ p hf).trans (ih _ _ _)

theorem keeps_httpParseHost (buf : Text) (u : HttpParserUrl) (foundAt : Bool) {uf : UrlField}
    (hf : ¬uf.OfHost) : u.Keeps (httpParseHost buf u foundAt).u uf := by
  have hhost : uf ≠ .host := by
    rintro rfl
    exact hf trivial
  have hzero : u.Keeps { u with
      fieldData := Function.update u.fieldData .host { u.fieldData .host with len := 0 } } uf :=
    ⟨rfl, Function.update_of_ne hhost _ _⟩
  exact hzero.trans (keeps_hostRun _ _ _ _ hf)

theorem HttpParserUrl.Keeps.splits {u u' : HttpParserUrl} {buf : Text} (hpath : u.Keeps u' .path)
    (hquery : u.Keeps u' .query) (h : u.Splits buf) : u'.Splits buf := by
  obtain ⟨pre, rest, hbuf, hne, hd, hp, hq⟩ := h
  exact ⟨pre, rest, hbuf, hne, hd, hpath.endsWithPath hp, hquery.beginsWithQuery hq⟩

theorem keeps_parseHostPart (buf : Text) (l : Scan) {uf : UrlField} (hf : ¬uf.OfHost) :
    l.u.Keeps (parseHostPart buf l).u uf := by
  unfold parseHostPart
  split_ifs
  · exact Keeps.refl l.u uf
  · exact keeps_httpParseHost buf l.u l.foundAt hf
  · exact Keeps.refl l.u uf

theorem keeps_parsePortPart (buf : Text) (u : HttpParserUrl) (uf : UrlField) :
    u.Keeps (parsePortPart buf u).u uf := by
  unfold parsePortPart
  dsimp only
  split_ifs <;> exact ⟨rfl, rfl⟩

/-- Only the loop over the URL finds the path and the query. -/
theorem keeps_parse (buf : Text) {l : Scan} {done : Bool} {uf : UrlField} (hf : ¬uf.OfHost)
    (hrun : Scan.run ⟨.spacesBeforeUrl, none, false, .init⟩ 0 buf = (done, l)) :
    l.u.Keeps (httpParserParseUrl buf false).u uf ∧
      ((httpParserParseUrl buf false).accepted = true → done = true) := by
  unfold httpParserParseUrl
  simp only [Bool.false_eq_true, if_false, hrun, false_and]
  have hhost := keeps_parseHostPart buf l hf
  cases done with
  | false => exact ⟨Keeps.refl l.u uf, id⟩
  | true =>
    refine ⟨?_, fun _ => rfl⟩
    simp only [if_true]
    split_ifs
    · exact hhost.trans (keeps_parsePortPart buf _ uf)
    · exact hhost

/-- The fields are about a part of the URL, and about all of it if it is accepted. -/
theorem splits_of_parse (buf : Text) :
    ∃ taken rest, buf = taken ++ rest ∧ (httpParserParseUrl buf false).u.Splits taken ∧
      ((httpParserParseUrl buf false).accepted = true → rest = []) := by
  obtain ⟨taken, rest, b, hbuf, hinv, hall⟩ :=
    @Scan.inv_run ⟨.spacesBeforeUrl, none, false, .init⟩ [] .start buf rfl
      ⟨rfl, rfl, ⟨rfl, rfl⟩, ⟨rfl, rfl⟩⟩
  obtain ⟨hpath, hdone⟩ := @keeps_parse buf _ _ .path id rfl
  obtain ⟨hquery, -⟩ := @keeps_parse buf _ _ .query id rfl
  exact ⟨taken, rest, hbuf, hpath.splits hquery hinv.splits, fun h => hall (hdone h)⟩

end huasi.http_parser
