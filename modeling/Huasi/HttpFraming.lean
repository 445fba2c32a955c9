-- Where a response ends on a kept connection, as HTTP/1.1 defines it: the head ends at
-- the empty line, a response to HEAD has no body, a Content-Length gives the size of the
-- body, and without it the body goes up to the end of the connection.
import Mathlib.Data.List.Basic
import Huasi.Decimal
import Huasi.Text

open huasi.text huasi.decimal

namespace huasi.http_framing

/-! ## The reader -/

/-- A line and what follows it. -/
def readLine : Text → Option (Text × Text)
  | [] => none
  | b :: rest =>
    if b = 13 ∧ rest.head? = some 10 then some ([], rest.drop 1)
    else (readLine rest).map fun p => (b :: p.1, p.2)

/-- The lines up to the empty one, and what follows it, for the number of lines given at most. -/
def readLines : Nat → Text → Option (List Text × Text)
  | 0, _ => none
  | n + 1, s => do
    let (line, rest) ← readLine s
    if line = [] then some ([], rest)
    else (readLines n rest).map fun p => (line :: p.1, p.2)

/-- Name and value of a header line. -/
def parseField (line : Text) : Option (Text × Text) :=
  if 58 ∈ line then
    some (line.takeWhile (· ≠ 58), ((line.dropWhile (· ≠ 58)).drop 1).dropWhile (· = 32))
  else none

def toLower (b : UInt8) : UInt8 := if 65 ≤ b ∧ b ≤ 90 then b + 32 else b

/-- The value of the first field with a name, whatever its case. -/
def field (name : Text) (fields : List (Text × Text)) : Option Text :=
  (fields.find? fun f => f.1.map toLower = name).map Prod.snd

def parseNumber (value : Text) : Option Nat :=
  if value ≠ [] ∧ value.all (fun b => IsDigit b) then some (number value) else none

structure Reply where
  head : Text
  body : Text
deriving DecidableEq

/-- One response, and what follows it. Transfer codings are not read. -/
def readResponse (toHead : Bool) (s : Text) : Option (Reply × Text) := do
  let (lines, rest) ← readLines s.length s
  let head := s.take (s.length - rest.length)
  -- the first line is the status line
  let fields ← (lines.drop 1).mapM parseField
  if toHead then some ({ head, body := [] }, rest)
  else if (field (ascii "transfer-encoding") fields).isSome then none
  else
    match field (ascii "content-length") fields with
    | some value =>
      let n ← parseNumber value
      if n ≤ rest.length then some ({ head, body := rest.take n }, rest.drop n) else none
    | none => some ({ head, body := rest }, [])

/-- One response after the other up to the end of the connection, a flag for each request. -/
def readResponses : List Bool → Text → Option (List Reply)
  | [], s => if s = [] then some [] else none
  | toHead :: flags, s => do
    let (reply, rest) ← readResponse toHead s
    let replies ← readResponses flags rest
    some (reply :: replies)

/-! ## Written heads -/

/-- Lines and the empty line. -/
def writeLines (lines : List Text) : Text := lines.flatMap (· ++ crlf) ++ crlf

theorem readLine_line {line : Text} (h : 13 ∉ line) (more : Text) :
    readLine (line ++ crlf ++ more) = some (line, more) := by
  induction line with
  | nil => rfl
  | cons b line ih =>
    obtain ⟨hb, hline⟩ := not_or.mp (List.mem_cons.not.mp h)
    rw [List.cons_append, List.cons_append, readLine, if_neg fun hb' => hb hb'.1.symm, ih hline]
    rfl

/-- Lines that are not empty come back. -/
theorem readLines_lines {lines : List Text} (h : ∀ line ∈ lines, line ≠ [] ∧ 13 ∉ line) {n : Nat}
    (hn : lines.length < n) (more : Text) :
    readLines n (writeLines lines ++ more) = some (lines, more) := by
  unfold writeLines
  induction lines generalizing n with
  | nil =>
    obtain ⟨n, rfl⟩ : ∃ n', n = n' + 1 := ⟨n - 1, by omega⟩
    rfl
  | cons line lines ih =>
    obtain ⟨n, rfl⟩ : ∃ n', n = n' + 1 := ⟨n - 1, by omega⟩
    obtain ⟨hne, hline⟩ := h line List.mem_cons_self
    have hrest := ih (fun l hl => h l (List.mem_cons_of_mem _ hl)) (n := n)
      (by simpa using hn)
    rw [List.flatMap_cons, List.append_assoc, List.append_assoc, ← List.append_assoc _ crlf more,
      readLines, readLine_line hline]
    simp only [Option.bind_eq_bind, Option.bind_some, if_neg hne, hrest, Option.map_some]

theorem length_writeLines (lines : List Text) : lines.length < (writeLines lines).length := by
  unfold writeLines
  induction lines with
  | nil => decide
  | cons line lines ih =>
    have hcrlf : crlf.length = 2 := rfl
    rw [List.flatMap_cons, List.length_cons]
    simp only [List.length_append] at ih ⊢
    omega

theorem parseNumber_numeral (n : Nat) : parseNumber (numeral n) = some n := by
  have hdigits : (numeral n).all (fun b => IsDigit b) := by
    rw [List.all_eq_true]
    exact fun b hb => decide_eq_true (isDigit_of_mem_numeral hb)
  unfold parseNumber
  rw [if_pos ⟨numeral_ne_nil n, hdigits⟩, number_numeral]

theorem parseField_field {name value : Text} (hname : 58 ∉ name)
    (hvalue : value.head? ≠ some 32) :
    parseField (name ++ 58 :: 32 :: value) = some (name, value) := by
  obtain ⟨htake, hdrop⟩ := takeWhile_separator (32 :: value) hname
  have htrim : (32 :: value).dropWhile (fun b => decide (b = 32)) = value := by
    rw [List.dropWhile_cons_of_pos (by decide)]
    cases value with
    | nil => rfl
    | cons b value =>
      apply List.dropWhile_cons_of_neg
      simpa using hvalue
  unfold parseField
  rw [if_pos (by simp), htake, hdrop, List.drop_one, List.tail_cons, htrim]

section Response

variable {lines : List Text} {fields : List (Text × Text)}
  (hlines : ∀ line ∈ lines, line ≠ [] ∧ 13 ∉ line)
  (hfields : (lines.drop 1).mapM parseField = some fields)

include hlines

theorem readHead (more : Text) :
    readLines (writeLines lines ++ more).length (writeLines lines ++ more) =
        some (lines, more) ∧
      (writeLines lines ++ more).take ((writeLines lines ++ more).length - more.length) =
        writeLines lines := by
  constructor
  · apply readLines_lines hlines
    have := length_writeLines lines
    rw [List.length_append]
    omega
  · rw [List.length_append, Nat.add_sub_cancel, List.take_left]

include hfields

theorem readResponse_toHead (more : Text) :
    readResponse true (writeLines lines ++ more) =
      some ({ head := writeLines lines, body := [] }, more) := by
  obtain ⟨hread, hhead⟩ := readHead hlines more
  unfold readResponse
  simp only [hread, hhead, hfields, Option.bind_eq_bind, Option.bind_some, if_true]

/-- A response with a Content-Length ends with its body. -/
theorem readResponse_sized {value : Text} {n : Nat}
    (hcoding : field (ascii "transfer-encoding") fields = none)
    (hlength : field (ascii "content-length") fields = some value)
    (hvalue : parseNumber value = some n) {body : Text} (hbody : body.length = n) (more : Text) :
    readResponse false (writeLines lines ++ (body ++ more)) =
      some ({ head := writeLines lines, body }, more) := by
  obtain ⟨hread, hhead⟩ := readHead hlines (body ++ more)
  have hfits : n ≤ (body ++ more).length := by
    rw [List.length_append]
    omega
  unfold readResponse
  simp only [hread, hhead, hfields, hcoding, hlength, hvalue, Option.bind_eq_bind,
    Option.bind_some, Option.isSome_none, Bool.false_eq_true, if_false, if_pos hfits]
  rw [← hbody, List.take_left, List.drop_left]

/-- A response without a length takes all that follows for its body. -/
theorem readResponse_open (hcoding : field (ascii "transfer-encoding") fields = none)
    (hlength : field (ascii "content-length") fields = none) (more : Text) :
    readResponse false (writeLines lines ++ more) =
      some ({ head := writeLines lines, body := more }, []) := by
  obtain ⟨hread, hhead⟩ := readHead hlines more
  unfold readResponse
  simp only [hread, hhead, hfields, hcoding, hlength, Option.bind_eq_bind,
    Option.bind_some, Option.isSome_none, Bool.false_eq_true, if_false]

end Response

/-! ## A row of responses -/

section Row

variable {E : Type} (toHead : E → Bool) (head body : E → Text)

/-- What is sent for each of a row of requests. -/
def stream (es : List E) : Text := es.flatMap fun e => head e ++ body e

/-- The stream splits into one response for each request, with its head and its body. -/
def Delimited (es : List E) : Prop :=
  readResponses (es.map toHead) (stream head body es) =
    some (es.map fun e => { head := head e, body := body e })

variable {toHead head body} {Sized : E → Prop}

theorem stream_cons (e : E) (es : List E) :
    stream head body (e :: es) = head e ++ body e ++ stream head body es := by
  unfold stream
  rw [List.flatMap_cons]

/-- A sized response stands for itself. -/
theorem delimited_sized {e : E} (hread : ∀ more, readResponse (toHead e)
      (head e ++ body e ++ more) = some ({ head := head e, body := body e }, more))
    (es : List E) : Delimited toHead head body (e :: es) ↔ Delimited toHead head body es := by
  unfold Delimited
  rw [stream_cons, List.map_cons, readResponses]
  simp only [hread, Option.bind_eq_bind, Option.bind_some]
  cases readResponses (es.map toHead) (stream head body es) with
  | none => simp
  | some replies => simp

/-- A response that takes all that follows swallows the others. -/
theorem not_delimited_open (hhead : ∀ e, head e ≠ []) {e : E} (hbody : body e = [])
    (hread : ∀ more, readResponse (toHead e) (head e ++ more) =
      some ({ head := head e, body := more }, [])) (d : E) (es : List E) :
    ¬ Delimited toHead head body (e :: d :: es) := by
  unfold Delimited
  rw [stream_cons, hbody, List.append_nil, List.map_cons, readResponses]
  simp only [hread, Option.bind_eq_bind, Option.bind_some]
  intro heq
  obtain ⟨replies, -, hsome⟩ := Option.bind_eq_some_iff.mp heq
  have hreplies := Option.some.inj hsome
  simp only [List.map_cons, List.cons.injEq, Reply.mk.injEq, true_and] at hreplies
  have hall : stream head body (d :: es) = [] := by rw [hreplies.1, hbody]
  rw [stream_cons, List.append_eq_nil_iff, List.append_eq_nil_iff] at hall
  exact hhead d hall.1.1

theorem delimited_singleton_open {e : E} (hbody : body e = [])
    (hread : ∀ more, readResponse (toHead e) (head e ++ more) =
      some ({ head := head e, body := more }, [])) : Delimited toHead head body [e] := by
  unfold Delimited
  rw [stream_cons, hbody, List.append_nil, List.map_cons, readResponses]
  simp only [hread, Option.bind_eq_bind, Option.bind_some]
  simp [stream, readResponses, hbody]

/-- Where each response is sized, or else has no body and takes what follows for it, the stream
splits exactly if all responses but the last are sized. -/
theorem delimited_iff (hhead : ∀ e, head e ≠ [])
    (hsized : ∀ e, Sized e → ∀ more, readResponse (toHead e) (head e ++ body e ++ more) =
      some ({ head := head e, body := body e }, more))
    (hopen : ∀ e, ¬ Sized e → body e = [] ∧ ∀ more, readResponse (toHead e) (head e ++ more) =
      some ({ head := head e, body := more }, [])) (es : List E) :
    Delimited toHead head body es ↔ ∀ e ∈ es.dropLast, Sized e := by
  induction es with
  | nil => exact iff_of_true rfl fun e he => by cases he
  | cons e es ih =>
    by_cases he : Sized e
    · rw [delimited_sized (hsized e he), ih]
      cases es with
      | nil => simp
      | cons d es =>
        rw [List.dropLast_cons_cons, List.forall_mem_cons]
        exact (and_iff_right he).symm
    · obtain ⟨hbody, hread⟩ := hopen e he
      cases es with
      | nil => exact iff_of_true (delimited_singleton_open hbody hread) fun e he => by cases he
      | cons d es =>
        rw [List.dropLast_cons_cons, List.forall_mem_cons]
        exact iff_of_false (not_delimited_open hhead hbody hread d es) fun h => he h.1

end Row

end huasi.http_framing
