-- The parts of a URL (src/src/http/Url.hpp): path and query for a request are cut out
-- of the URL in one piece, so they have to stand next to each other.
import Huasi.UrlParser

open huasi.text huasi.http_parser

namespace huasi.http

/-- `std::string::substr`. It throws when the position is behind the end. -/
def substr (s : Text) (pos n : Nat) : Option Text :=
  if pos ≤ s.length then some ((s.drop pos).take n) else none

structure Url where
  url : Text
  parsedUrl : HttpParserUrl

/-- The constructor. It does not ask whether the parser accepts the URL. -/
def Url.new (url : Text) : Url := { url, parsedUrl := (httpParserParseUrl url false).u }

/-- A URL that the parser accepts. -/
def Url.parse (url : Text) : Option Url :=
  if (httpParserParseUrl url false).accepted then some (.new url) else none

namespace Url

def hasPath (u : Url) : Bool := u.parsedUrl.fieldSet .path

def hasQuery (u : Url) : Bool := u.parsedUrl.fieldSet .query

def getField (u : Url) (uf : UrlField) : Option Text :=
  let f := u.parsedUrl.fieldData uf
  substr u.url f.off.toNat f.len.toNat

def getPath (u : Url) : Option Text := u.getField .path

def getQuery (u : Url) : Option Text := u.getField .query

/-- Path and query. The sign bit of the negated length counts the '?'. -/
def getOrigin (u : Url) : Option Text :=
  let f := u.parsedUrl.fieldData .path
  let g := u.parsedUrl.fieldData .query
  let len := f.len.toNat + g.len.toNat + ((-g.len) >>> 15).toNat
  substr u.url f.off.toNat len

/-- What `getOrigin` is for. -/
def OriginIsPathAndQuery (u : Url) : Prop :=
  ∃ path query, u.getPath = some path ∧ u.getQuery = some query ∧
    u.getOrigin = some (if query = [] then path else path ++ 63 :: query)

/-- A query that follows a path starts one character after the path's end. -/
def QueryFollowsPath (u : Url) : Prop :=
  u.hasPath → u.hasQuery →
    (u.parsedUrl.fieldData .query).off.toNat =
      (u.parsedUrl.fieldData .path).off.toNat + (u.parsedUrl.fieldData .path).len.toNat + 1

end Url

open Url

/-! ## What the fields say -/

theorem holds_le {u : HttpParserUrl} {uf : UrlField} {front s : Text} (h : u.Holds uf front s) :
    (u.fieldData uf).off.toNat ≤ front.length ∧ (u.fieldData uf).len.toNat ≤ s.length := by
  rw [h.2]
  constructor
  · rw [UInt16.toNat_ofNat']
    exact Nat.mod_le ..
  · rw [UInt16.toNat_ofNat']
    exact Nat.mod_le ..

theorem absent_zero {u : HttpParserUrl} {uf : UrlField} (h : u.Absent uf) :
    (u.fieldData uf).off.toNat = 0 ∧ (u.fieldData uf).len.toNat = 0 := by
  rw [h.2]
  exact ⟨rfl, rfl⟩

/-- The path ends in front of the '?' at the latest. -/
theorem path_le {u : HttpParserUrl} {pre : Text} (h : u.EndsWithPath pre) :
    (u.fieldData .path).off.toNat + (u.fieldData .path).len.toNat ≤ pre.length := by
  rcases h with ha | ⟨front, path, rfl, hp⟩
  · obtain ⟨hoff, hlen⟩ := absent_zero ha
    omega
  · obtain ⟨hoff, hlen⟩ := holds_le hp
    rw [List.length_append]
    omega

theorem query_le {u : HttpParserUrl} {pre rest : Text} (h : u.BeginsWithQuery pre rest) :
    (u.fieldData .query).off.toNat + (u.fieldData .query).len.toNat ≤ (pre ++ rest).length := by
  rcases h with ha | ⟨query, more, rfl, hq⟩
  · obtain ⟨hoff, hlen⟩ := absent_zero ha
    omega
  · obtain ⟨hoff, hlen⟩ := holds_le hq
    simp only [List.length_append, List.length_cons, List.length_nil] at hoff ⊢
    omega

/-- A path ends at the '?' when 16 bits hold its end. -/
theorem path_end {u : HttpParserUrl} {pre : Text} (hset : u.fieldSet .path = true)
    (h : u.EndsWithPath pre) (hlt : pre.length < 65536) :
    (u.fieldData .path).off.toNat + (u.fieldData .path).len.toNat = pre.length := by
  rcases h with ha | ⟨front, path, rfl, hp⟩
  · rw [ha.1] at hset
    cases hset
  · rw [List.length_append] at hlt
    rw [hp.2, List.length_append, UInt16.toNat_ofNat', UInt16.toNat_ofNat',
      Nat.mod_eq_of_lt (by omega), Nat.mod_eq_of_lt (by omega)]

theorem begins_question {u : HttpParserUrl} {pre rest : Text}
    (hset : u.fieldSet .query = true) (h : u.BeginsWithQuery pre rest) :
    ∃ more, rest = 63 :: more ∧
      (u.fieldData .query).off = .ofNat (pre.length + 1) := by
  rcases h with ha | ⟨query, more, rfl, hq⟩
  · rw [ha.1] at hset
    cases hset
  · refine ⟨query ++ more, rfl, ?_⟩
    rw [hq.2, List.length_append]
    rfl

theorem idxOf_question {pre more : Text} (h : 63 ∉ pre) :
    (pre ++ 63 :: more).idxOf 63 = pre.length := by
  rw [List.idxOf_append_of_notMem h, List.idxOf_cons_self, Nat.add_zero]

/-- The fields of a URL that the parser accepts are about all of it. -/
theorem splits_of_accepted {text : Text} {u : Url} (h : Url.parse text = some u) :
    ∃ p, u = ⟨text, p⟩ ∧ p.Splits text := by
  unfold Url.parse at h
  split_ifs at h with haccepted
  cases h
  obtain ⟨taken, rest, htext, hsplits, hall⟩ := splits_of_parse text
  rw [hall haccepted, List.append_nil] at htext
  exact ⟨_, rfl, htext ▸ hsplits⟩

/-- Only a URL with its '?' behind 16 bits tears query and path apart. -/
theorem query_follows_path {text : Text} {u : Url} (h : Url.parse text = some u)
    (hlt : text.idxOf 63 < 65535) : u.QueryFollowsPath := by
  obtain ⟨p, rfl, pre, rest, rfl, -, hd, hp, hq⟩ := splits_of_accepted h
  intro hpath hquery
  obtain ⟨more, rfl, hoff⟩ := begins_question hquery hq
  rw [idxOf_question hd] at hlt
  dsimp only
  rw [path_end hpath hp (by omega), hoff, UInt16.toNat_ofNat', Nat.mod_eq_of_lt (by omega)]

/-! ## What the pieces are -/

/-- The sign bit of the negated length is set for the lengths from 1 to 32768. -/
theorem sign_bit (n : UInt16) :
    ((-n) >>> 15).toNat = if n.toNat = 0 ∨ 32768 < n.toNat then 0 else 1 := by
  have hlt : n.toNat < 65536 := n.toNat_lt
  rw [UInt16.toNat_shiftRight, UInt16.toNat_neg, Nat.shiftRight_eq_div_pow]
  change (65536 - n.toNat) % 65536 / 32768 = _
  split_ifs with h <;> omega

theorem getField_eq {u : Url} {uf : UrlField}
    (h : (u.parsedUrl.fieldData uf).off.toNat ≤ u.url.length) :
    u.getField uf = some ((u.url.drop (u.parsedUrl.fieldData uf).off.toNat).take
      (u.parsedUrl.fieldData uf).len.toNat) := by
  unfold getField substr
  exact if_pos h

/-- Path and query can be cut out of any URL, accepted or not. -/
theorem getPath_some (text : Text) : ∃ path, (Url.new text).getPath = some path := by
  obtain ⟨taken, rest, htext, ⟨pre, more, rfl, -, -, hp, -⟩, -⟩ := splits_of_parse text
  have hlength := congrArg List.length htext
  rw [List.length_append, List.length_append] at hlength
  have hpath := path_le hp
  exact ⟨_, getField_eq (u := Url.new text) (by dsimp only [Url.new]; omega)⟩

theorem getQuery_some (text : Text) : ∃ query, (Url.new text).getQuery = some query := by
  obtain ⟨taken, rest, htext, ⟨pre, more, rfl, -, -, -, hq⟩, -⟩ := splits_of_parse text
  have hlength := congrArg List.length htext
  rw [List.length_append] at hlength
  have hquery := query_le hq
  exact ⟨_, getField_eq (u := Url.new text) (by dsimp only [Url.new]; omega)⟩

/-- The origin is the path and what stands behind it. -/
theorem getOrigin_eq {u : Url}
    (h : (u.parsedUrl.fieldData .path).off.toNat ≤ u.url.length) :
    u.getOrigin = some ((u.url.drop (u.parsedUrl.fieldData .path).off.toNat).take
        (u.parsedUrl.fieldData .path).len.toNat ++
      (u.url.drop ((u.parsedUrl.fieldData .path).off.toNat +
        (u.parsedUrl.fieldData .path).len.toNat)).take
        ((u.parsedUrl.fieldData .query).len.toNat +
          ((-(u.parsedUrl.fieldData .query).len) >>> 15).toNat)) := by
  unfold getOrigin substr
  dsimp only
  rw [if_pos h, Nat.add_assoc, List.take_add, List.drop_drop]

/-- With a query, the origin is as it should be when a '?' and the query stand behind the path. -/
theorem originIsPathAndQuery_iff {u : Url} {e q : Nat}
    (hoff : (u.parsedUrl.fieldData .path).off.toNat ≤ u.url.length)
    (hquery : (u.parsedUrl.fieldData .query).off.toNat +
      (u.parsedUrl.fieldData .query).len.toNat ≤ u.url.length)
    (he : (u.parsedUrl.fieldData .path).off.toNat +
      (u.parsedUrl.fieldData .path).len.toNat = e)
    (hq : (u.parsedUrl.fieldData .query).len.toNat = q) (hne : q ≠ 0) :
    u.OriginIsPathAndQuery ↔
      (u.url.drop e).take (q + if 32768 < q then 0 else 1) =
        63 :: (u.url.drop (u.parsedUrl.fieldData .query).off.toNat).take q := by
  have hpiece : (u.url.drop (u.parsedUrl.fieldData .query).off.toNat).take q ≠ [] := by
    apply List.ne_nil_of_length_pos
    rw [List.length_take, List.length_drop]
    omega
  unfold OriginIsPathAndQuery getPath getQuery
  rw [getField_eq hoff, getField_eq (by omega), getOrigin_eq hoff, sign_bit, he, hq]
  simp only [hne, false_or]
  constructor
  · rintro ⟨path, query, hpath, hquery, horigin⟩
    cases hpath
    cases hquery
    rw [if_neg hpiece] at horigin
    exact List.append_cancel_left (Option.some.inj horigin)
  · intro heq
    exact ⟨_, _, rfl, rfl, by rw [if_neg hpiece, heq]⟩

/-- Without a query, the origin is the path. -/
theorem originIsPathAndQuery_of_no_query {u : Url}
    (hoff : (u.parsedUrl.fieldData .path).off.toNat ≤ u.url.length)
    (hquery : (u.parsedUrl.fieldData .query).off.toNat ≤ u.url.length)
    (hlen : (u.parsedUrl.fieldData .query).len = 0) : u.OriginIsPathAndQuery := by
  refine ⟨_, _, getField_eq hoff, getField_eq hquery, ?_⟩
  rw [getOrigin_eq hoff, hlen, if_pos]
  · exact congrArg some (List.append_nil _)
  · exact List.take_zero

/-- A '?' in front of the query's first character, where the path ends. -/
theorem question_at_end {pre more : Text} {e q : Nat} {query : Text} (hd : 63 ∉ pre)
    (hle : e ≤ pre.length) (h : ((pre ++ 63 :: more).drop e).take q = 63 :: query) :
    e = pre.length := by
  by_contra hne
  have hlt : e < pre.length := by omega
  have hpos : 0 < q := by
    apply Nat.pos_of_ne_zero
    rintro rfl
    cases h
  have hget := congrArg (·[0]?) h
  rw [List.getElem?_take_of_lt hpos, List.getElem?_drop, Nat.add_zero,
    List.getElem?_append_left hlt] at hget
  exact hd (List.mem_of_getElem? hget)

theorem origin_is_path_and_query_iff {text : Text} {u : Url} (h : Url.parse text = some u)
    (hf : u.QueryFollowsPath) :
    u.OriginIsPathAndQuery ↔
      (u.parsedUrl.fieldData .query).len = 0 ∨
        (u.hasPath ∧ text.idxOf 63 < 65535 ∧
          (u.parsedUrl.fieldData .query).len.toNat ≤ 32768) := by
  obtain ⟨p, rfl, pre, rest, rfl, hfront, hd, hp, hq⟩ := splits_of_accepted h
  have hpath := path_le hp
  have hquery := query_le hq
  have hoff : (p.fieldData .path).off.toNat ≤ (pre ++ rest).length := by
    rw [List.length_append]
    omega
  by_cases hlen : (p.fieldData .query).len = 0
  · exact iff_of_true (originIsPathAndQuery_of_no_query hoff (by dsimp only; omega) hlen)
      (Or.inl hlen)
  have hne : (p.fieldData .query).len.toNat ≠ 0 := fun heq => hlen (UInt16.toNat_inj.mp heq)
  have hset : p.fieldSet .query = true := by
    rcases hq with ha | ⟨query, more, -, hholds⟩
    · exact absurd (absent_zero ha).2 hne
    · exact hholds.1
  obtain ⟨more, rfl, hqoff⟩ := begins_question hset hq
  rw [originIsPathAndQuery_iff hoff hquery rfl rfl hne, idxOf_question hd]
  dsimp only
  constructor
  · intro heq
    have hend := question_at_end hd hpath heq
    -- without a path, it would end at the first character
    have hhas : p.fieldSet .path = true := by
      rcases hp with ha | ⟨front, path, -, hholds⟩
      · obtain ⟨hoff0, hlen0⟩ := absent_zero ha
        rw [hoff0, hlen0] at hend
        exact absurd (List.length_eq_zero_iff.mp hend.symm) (hfront (List.cons_ne_nil _ _))
      · exact hholds.1
    have hfollows := hf hhas hset
    have hlt := (p.fieldData .query).off.toNat_lt
    refine Or.inr ⟨hhas, ?_, ?_⟩
    · dsimp only at hfollows
      omega
    · by_contra hlong
      have hlength := congrArg List.length heq
      rw [if_pos (Nat.lt_of_not_le hlong), List.length_cons, List.length_take,
        List.length_take, List.length_drop, List.length_drop] at hlength
      omega
  · rintro (hzero | ⟨hhas, hlt, hle⟩)
    · exact absurd hzero hlen
    rw [if_neg (Nat.not_lt.mpr hle), path_end hhas hp (by omega), hqoff, UInt16.toNat_ofNat',
      Nat.mod_eq_of_lt (by omega), List.drop_left, ← List.drop_drop, List.drop_left]
    rfl

theorem origin_is_path_and_query_iff_example :
    ∃ u, Url.parse (ascii "/foo?bar=1") = some u ∧ u.QueryFollowsPath ∧
      u.OriginIsPathAndQuery := by
  have hsome : (Url.parse (ascii "/foo?bar=1")).isSome := by decide
  obtain ⟨u, h⟩ := Option.isSome_iff_exists.mp hsome
  have hf := query_follows_path h (by decide)
  have heval : (Url.parse (ascii "/foo?bar=1")).map (fun u =>
      (u.hasPath, (u.parsedUrl.fieldData .query).len)) = some (true, 5) := by decide
  rw [h] at heval
  obtain ⟨hpath, hlen⟩ := Prod.mk.inj (Option.some.inj heval)
  refine ⟨u, h, hf, (origin_is_path_and_query_iff h hf).mpr (Or.inr ⟨hpath, by decide, ?_⟩)⟩
  rw [hlen]
  decide

/-- The start of the schema is sent when there is no path. -/
theorem origin_without_path :
    ¬∀ (text : Text) (u : Url), Url.parse text = some u → u.QueryFollowsPath →
      u.OriginIsPathAndQuery := by
  intro h
  have heval : (Url.parse (ascii "http://a?b")).map (fun u =>
      (u.hasPath, u.getPath, u.getQuery, u.getOrigin)) =
      some (false, some [], some (ascii "b"), some (ascii "ht")) := by decide
  obtain ⟨u, hparse, heq⟩ := Option.map_eq_some_iff.mp heval
  obtain ⟨hpath, hvalues⟩ := Prod.mk.inj heq
  obtain ⟨hgetPath, hvalues⟩ := Prod.mk.inj hvalues
  obtain ⟨hgetQuery, hgetOrigin⟩ := Prod.mk.inj hvalues
  obtain ⟨path, query, hp, hq, ho⟩ := h _ u hparse (fun hhas => by rw [hpath] at hhas; cases hhas)
  rw [hgetPath] at hp
  rw [hgetQuery] at hq
  rw [hgetOrigin] at ho
  cases hp
  cases hq
  exact absurd ho (by decide)

/-! ## The target of a request -/

open HttpParserUrl

/-- A path from the root and a query, as the line of a request has them. -/
structure OriginForm (target path query : Text) : Prop where
  root : ∃ rest, path = 47 :: rest ∧ ∀ c ∈ rest, isUrlChar c = true
  asked : ∀ c ∈ query, isUrlChar c = true ∨ c = 63
  target : target = path ∧ query = [] ∨ target = path ++ 63 :: query

theorem run_append {l m : Scan} {p : Nat} {s : Text} (h : l.run p s = (true, m)) (more : Text) :
    l.run p (s ++ more) = m.run (p + s.length) more := by
  induction s generalizing l p with
  | nil =>
    cases h
    rfl
  | cons ch s ih =>
    rw [List.cons_append, List.length_cons, Nat.add_comm s.length, ← Nat.add_assoc]
    cases hnext : l.next p ch with
    | none =>
      rw [Scan.run_reject hnext] at h
      cases h
    | some k =>
      rw [Scan.run_cons hnext] at h ⊢
      exact ih h

/-- Characters that the loop adds to the field that it is in. -/
theorem run_field {l : Scan} {uf : UrlField} {front s data : Text}
    (hstate : l.s.character = .field uf) (hold : l.oldUf = some uf) (hat : l.s ≠ .serverWithAt)
    (hsame : ∀ c ∈ data, parseUrlChar l.s c = l.s) (h : l.u.Holds uf front s) (p : Nat) :
    ∃ u, l.run p data = (true, { l with u }) ∧ u.Holds uf front (s ++ data) ∧
      ∀ uf', uf' ≠ uf → l.u.Keeps u uf' := by
  induction data generalizing l s p with
  | nil => exact ⟨l.u, rfl, by simpa using h, fun uf' _ => Keeps.refl _ uf'⟩
  | cons ch data ih =>
    have hnext : l.next p ch = some { l with u := l.u.extend uf } := by
      unfold Scan.next
      simp only [hsame ch (by simp), hstate, hold, hat, if_true, or_false, Bool.decide_eq_true]
    obtain ⟨u, hrun, hholds, hkeeps⟩ := @ih { l with u := l.u.extend uf } (s ++ [ch]) hstate hold hat
      (fun c hc => hsame c (by simp [hc])) (h.extend ch) (p + 1)
    refine ⟨u, by simpa [Scan.run, hnext] using hrun, by simpa using hholds, fun uf' hne => ?_⟩
    exact (keeps_extend _ hne).trans (hkeeps uf' hne)

theorem urlChar_stays {c : UInt8} (h : isUrlChar c = true) :
    parseUrlChar .path c = .path ∧ parseUrlChar .queryStringStart c = .queryString ∧
      parseUrlChar .queryString c = .queryString := by
  have hspace : ¬ (c = 32 ∨ c = 13 ∨ c = 10 ∨ c = 9 ∨ c = 12) := by
    rintro (rfl | rfl | rfl | rfl | rfl) <;> exact absurd h (by decide)
  unfold parseUrlChar
  simp [if_neg hspace, h]

theorem asked_stays {c : UInt8} (h : isUrlChar c = true ∨ c = 63) :
    parseUrlChar .queryStringStart c = .queryString ∧
      parseUrlChar .queryString c = .queryString := by
  rcases h with h | rfl
  · exact (urlChar_stays h).2
  · decide

/-- The loop over a path. -/
theorem run_path {path : Text}
    (hroot : ∃ rest, path = 47 :: rest ∧ ∀ c ∈ rest, isUrlChar c = true) :
    ∃ u, (⟨.spacesBeforeUrl, none, false, .init⟩ : Scan).run 0 path =
        (true, ⟨.path, some .path, false, u⟩) ∧ u.Holds .path [] path ∧
      ∀ uf, uf ≠ .path → HttpParserUrl.init.Keeps u uf := by
  obtain ⟨rest, rfl, hrest⟩ := hroot
  have hfirst : (⟨.spacesBeforeUrl, none, false, .init⟩ : Scan).next 0 47 =
      some ⟨.path, some .path, false, HttpParserUrl.init.start .path 0 1⟩ := by
    unfold Scan.next
    rfl
  obtain ⟨u, hrun, hholds, hkeeps⟩ := @run_field
    ⟨.path, some .path, false, HttpParserUrl.init.start .path 0 1⟩ .path [] [47] rest rfl rfl
    (by simp) (fun c hc => (urlChar_stays (hrest c hc)).1) (holds_start _ .path [] 47) 1
  refine ⟨u, by simpa [Scan.run, hfirst] using hrun, hholds, fun uf hne => ?_⟩
  exact (keeps_start _ 0 1 hne).trans (hkeeps uf hne)

/-- The loop over the '?' and a query. -/
theorem run_query {u : HttpParserUrl} {query : Text} (habsent : u.Absent .query)
    (hquery : ∀ c ∈ query, isUrlChar c = true ∨ c = 63) (front : Text) :
    ∃ l, (⟨.path, some .path, false, u⟩ : Scan).run front.length (63 :: query) = (true, l) ∧
      (query = [] ∧ l.u.Absent .query ∨ l.u.Holds .query (front ++ [63]) query) ∧
      ∀ uf, uf ≠ .query → u.Keeps l.u uf := by
  have hfirst : (⟨.path, some .path, false, u⟩ : Scan).next front.length 63 =
      some ⟨.queryStringStart, some .path, false, u⟩ := by
    unfold Scan.next
    rfl
  cases query with
  | nil =>
    exact ⟨⟨.queryStringStart, some .path, false, u⟩, by simp [Scan.run, hfirst],
      Or.inl ⟨rfl, habsent⟩, fun uf _ => Keeps.refl u uf⟩
  | cons ch query =>
    obtain ⟨hstart, -⟩ := asked_stays (hquery ch (by simp))
    have hnext : (⟨.queryStringStart, some .path, false, u⟩ : Scan).next (front.length + 1) ch =
        some ⟨.queryString, some .query, false, u.start .query (front ++ [63]).length 1⟩ := by
      unfold Scan.next
      simp [hstart, State.character]
    obtain ⟨v, hrun, hholds, hkeeps⟩ := @run_field
      ⟨.queryString, some .query, false, u.start .query (front ++ [63]).length 1⟩ .query
      (front ++ [63]) [ch] query rfl rfl (by simp)
      (fun c hc => (asked_stays (hquery c (by simp [hc]))).2) (holds_start _ .query _ ch)
      (front.length + 1 + 1)
    refine ⟨_, by simpa [Scan.run, hfirst, hnext] using hrun, Or.inr hholds, fun uf hne => ?_⟩
    exact (keeps_start _ _ 1 hne).trans (hkeeps uf hne)

theorem getField_holds {u : Url} {uf : UrlField} {front s more : Text}
    (hurl : u.url = front ++ s ++ more) (h : u.parsedUrl.Holds uf front s)
    (hshort : u.url.length < 65536) : u.getField uf = some s := by
  have hlength : u.url.length = front.length + s.length + more.length := by
    rw [hurl, List.length_append, List.length_append]
  have hoff : (u.parsedUrl.fieldData uf).off.toNat = front.length := by
    rw [h.2, UInt16.toNat_ofNat', Nat.mod_eq_of_lt (by omega)]
  have hlen : (u.parsedUrl.fieldData uf).len.toNat = s.length := by
    rw [h.2, UInt16.toNat_ofNat', Nat.mod_eq_of_lt (by omega)]
  rw [getField_eq (by omega), hoff, hlen, hurl, List.append_assoc, List.drop_left, List.take_left]

theorem getField_absent {u : Url} {uf : UrlField} (h : u.parsedUrl.Absent uf) :
    u.getField uf = some [] := by
  obtain ⟨hoff, hlen⟩ := absent_zero h
  rw [getField_eq (by omega), hlen, List.take_zero]

/-- A URL of a path and a query falls into these again. -/
theorem parse_origin {target path query : Text} (h : OriginForm target path query)
    (hshort : target.length < 65536) :
    Url.parse target = some (.new target) ∧ (Url.new target).getPath = some path ∧
      (Url.new target).getQuery = some query := by
  obtain ⟨u, hpath, hholds, hkeeps⟩ := run_path h.root
  have hnone : ∀ uf, HttpParserUrl.init.Absent uf := fun uf => ⟨rfl, rfl⟩
  obtain ⟨l, more, hrun, htarget, hpath', hquery, hother⟩ : ∃ l more,
      (⟨.spacesBeforeUrl, none, false, .init⟩ : Scan).run 0 target = (true, l) ∧
      target = path ++ more ∧ l.u.Holds .path [] path ∧
      (query = [] ∧ l.u.Absent .query ∨ ∃ rest, more = 63 :: query ++ rest ∧
        l.u.Holds .query (path ++ [63]) query) ∧
      ∀ uf, uf ≠ .path → uf ≠ .query → l.u.fieldSet uf = false := by
    rcases h.target with ⟨htarget, hquery⟩ | htarget
    · exact ⟨_, [], htarget ▸ hpath, by simp [htarget], hholds,
        Or.inl ⟨hquery, (hkeeps .query (by simp)).absent (hnone _)⟩,
        fun uf hne _ => (hkeeps uf hne).1⟩
    · obtain ⟨l, hrun, hquery, hkeeps'⟩ :=
        run_query ((hkeeps .query (by simp)).absent (hnone _)) h.asked path
      refine ⟨l, 63 :: query, ?_, htarget, (hkeeps' .path (by simp)).holds hholds,
        hquery.imp_right fun hquery => ⟨[], by simp, hquery⟩,
        fun uf hne hne' => (hkeeps' uf hne').1.trans (hkeeps uf hne).1⟩
      rw [htarget, run_append hpath]
      simpa using hrun
  have hparse : httpParserParseUrl target false = ⟨true, l.u⟩ := by
    unfold httpParserParseUrl
    simp [hrun, parseHostPart, parsePortPart, hother]
  have hnew : Url.new target = ⟨target, l.u⟩ := by rw [Url.new, hparse]
  refine ⟨by rw [Url.parse, hparse, if_pos rfl], ?_, ?_⟩
  · rw [hnew]
    exact getField_holds (by simpa using htarget) hpath' hshort
  · rw [hnew]
    rcases hquery with ⟨rfl, habsent⟩ | ⟨rest, hmore, hquery⟩
    · exact getField_absent habsent
    · exact @getField_holds ⟨target, l.u⟩ .query (path ++ [63]) query rest
        (by simp [htarget, hmore]) hquery hshort

end huasi.http
