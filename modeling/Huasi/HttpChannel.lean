-- HttpChannel (src/src/http/HttpChannel.cpp): how the callbacks of http_parser put
-- url and headers of a request together. Names and values come in pieces, and a
-- header is filed when the next name begins or the headers end.
import Huasi.Runs
import Huasi.SortedMap
import Huasi.Text

open huasi.runs huasi.sorted_map huasi.text

namespace huasi.http_channel

/-! ## The callbacks -/

abbrev Headers := SortedMap Text Text

/-- The arguments of a call of `onRequest`. -/
structure Request where
  method : Nat
  url : Text
  headers : Headers
deriving DecidableEq

/-- The parser state of a channel, and the calls of `onRequest` so far. -/
structure HttpChannel where
  field : Text
  value : Text
  valueValid : Bool
  headers : Headers
  urlOrStatus : Text
  requests : List Request
deriving DecidableEq

/-- A channel as its constructor leaves it. -/
def HttpChannel.new : HttpChannel where
  field := []
  value := []
  valueValid := false
  headers := .empty
  urlOrStatus := []
  requests := []

/-- `moveHeader`. The map takes the moved key only if it does not have it yet. -/
def HttpChannel.moveHeader (c : HttpChannel) : HttpChannel :=
  if c.valueValid then
    { c with
      field := if c.headers.contains c.field then c.field else []
      value := []
      valueValid := false
      headers := c.headers.insert c.field c.value }
  else c

/-- The callbacks of http_parser that a server does something in. -/
inductive Callback where
  | onUrl (data : Text)
  | onHeaderField (data : Text)
  | onHeaderValue (data : Text)
  | onHeadersComplete (method : Nat)
  | onBody (data : Text)
  | onMessageComplete
deriving DecidableEq

/-- One callback. The arguments of `onRequest` take url and headers over, so both are empty
afterwards. What `onBody` and `onEnd` do is up to the derived class. -/
def HttpChannel.callback (c : HttpChannel) : Callback → HttpChannel
  | .onUrl data => { c with urlOrStatus := c.urlOrStatus ++ data }
  | .onHeaderField data => { c.moveHeader with field := c.moveHeader.field ++ data }
  | .onHeaderValue data => { c with valueValid := true, value := c.value ++ data }
  | .onHeadersComplete method =>
    let c := c.moveHeader
    { c with
      urlOrStatus := []
      headers := .empty
      requests := c.requests ++ [{ method, url := c.urlOrStatus, headers := c.headers }] }
  | .onBody _ | .onMessageComplete => c

def HttpChannel.callbacks (c : HttpChannel) (calls : List Callback) : HttpChannel :=
  calls.foldl HttpChannel.callback c

/-! ## Messages -/

/-- A header line as http_parser delivers it: a name that is not empty and a value, both in one
piece or more, of which some may be empty. -/
structure Line where
  name : List Text
  value : List Text
  named : name.flatten ≠ []
  valued : value ≠ []

def Line.entry (l : Line) : Text × Text := (l.name.flatten, l.value.flatten)

def Line.callbacks (l : Line) : List Callback :=
  l.name.map .onHeaderField ++ l.value.map .onHeaderValue

/-- A request message, in pieces. Only a chunked body has trailer fields. -/
structure Message where
  method : Nat
  url : List Text
  lines : List Line
  body : List Text
  trailers : List Line

def Message.entries (m : Message) : List (Text × Text) := m.lines.map Line.entry

/-- The callbacks up to the end of the headers. -/
def Message.head (m : Message) : List Callback :=
  m.url.map .onUrl ++ m.lines.flatMap Line.callbacks ++ [.onHeadersComplete m.method]

/-- What follows the headers. Trailer fields come without another `onHeadersComplete`. -/
def Message.rest (m : Message) : List Callback :=
  m.body.map .onBody ++ m.trailers.flatMap Line.callbacks ++ [.onMessageComplete]

def HttpChannel.receive (c : HttpChannel) (m : Message) : HttpChannel :=
  (c.callbacks m.head).callbacks m.rest

/-- Nothing is left over of an earlier message. -/
structure Clean (c : HttpChannel) : Prop where
  field : c.field = []
  value : c.value = []
  valueValid : c.valueValid = false
  headers : c.headers = .empty
  urlOrStatus : c.urlOrStatus = []

/-! ## Where a header is filed -/

/-- The key of a line, behind the name that a line before it has left in `field`. -/
def key (glue : Text) (e : Text × Text) : Text := glue ++ e.1

/-- What a line leaves in `field`: a key that was filed before stays there. -/
def leftover (seen : List Text) (key : Text) : Text := if key ∈ seen then key else []

/-- Where the code files each line: under its name, behind what the line before has left. -/
def filed (seen : List Text) (glue : Text) : List (Text × Text) → List (Text × Text)
  | [] => []
  | e :: rest =>
    (key glue e, e.2) :: filed (key glue e :: seen) (leftover seen (key glue e)) rest

/-- What the last line leaves. -/
def lastLeftover (seen : List Text) (glue : Text) : List (Text × Text) → Text
  | [] => glue
  | e :: rest => lastLeftover (key glue e :: seen) (leftover seen (key glue e)) rest

/-- Lines whose names are new, the last one perhaps excepted, are all filed under their names. -/
theorem filed_of_distinct {seen : List Text} {lines : List (Text × Text)}
    (hnodup : (lines.map Prod.fst).dropLast.Nodup)
    (hnew : ∀ name ∈ (lines.map Prod.fst).dropLast, name ∉ seen) : filed seen [] lines = lines := by
  induction lines generalizing seen with
  | nil => rfl
  | cons e rest ih =>
    cases rest with
    | nil => rfl
    | cons d rest =>
      simp only [List.map_cons, List.dropLast_cons_cons] at hnodup hnew ih
      obtain ⟨hnot, hnodup⟩ := List.nodup_cons.mp hnodup
      have hleft : leftover seen (key [] e) = [] := if_neg (hnew e.1 List.mem_cons_self)
      rw [filed, hleft, ih hnodup]
      · rfl
      · intro name hname hmem
        rcases List.mem_cons.mp hmem with rfl | hmem
        · exact hnot hname
        · exact hnew name (List.mem_cons_of_mem e.1 hname) hmem

/-- The line behind a name that is not new is filed under both names. -/
theorem filed_of_repeated {seen : List Text} {front : List (Text × Text)} {e d : Text × Text}
    (hnodup : (front.map Prod.fst).Nodup) (hnew : ∀ name ∈ front.map Prod.fst, name ∉ seen)
    (hrepeated : e.1 ∈ front.map Prod.fst ∨ e.1 ∈ seen) :
    filed seen [] (front ++ [e, d]) = front ++ [e, (e.1 ++ d.1, d.2)] := by
  induction front generalizing seen with
  | nil =>
    have hseen : e.1 ∈ seen := hrepeated.resolve_left List.not_mem_nil
    have hleft : leftover seen (key [] e) = e.1 := if_pos hseen
    rw [List.nil_append, filed, hleft]
    rfl
  | cons f front ih =>
    simp only [List.map_cons, List.mem_cons] at hnodup hnew hrepeated
    obtain ⟨hnot, hnodup⟩ := List.nodup_cons.mp hnodup
    have hleft : leftover seen (key [] f) = [] := if_neg (hnew f.1 (Or.inl rfl))
    rw [List.cons_append, filed, hleft, ih hnodup]
    · rfl
    · intro name hname hmem
      rcases List.mem_cons.mp hmem with rfl | hmem
      · exact hnot hname
      · exact hnew name (Or.inr hname) hmem
    · rcases hrepeated with (heq | hmem) | hmem
      · exact Or.inr (List.mem_cons.mpr (Or.inl heq))
      · exact Or.inl hmem
      · exact Or.inr (List.mem_cons_of_mem _ hmem)

theorem lastLeftover_of_distinct {seen : List Text} {lines : List (Text × Text)}
    (hnodup : (lines.map Prod.fst).Nodup) (hnew : ∀ name ∈ lines.map Prod.fst, name ∉ seen) :
    lastLeftover seen [] lines = [] := by
  induction lines generalizing seen with
  | nil => rfl
  | cons e rest ih =>
    simp only [List.map_cons] at hnodup hnew
    obtain ⟨hnot, hnodup⟩ := List.nodup_cons.mp hnodup
    have hleft : leftover seen (key [] e) = [] := if_neg (hnew e.1 List.mem_cons_self)
    rw [lastLeftover, hleft, ih hnodup]
    intro name hname hmem
    rcases List.mem_cons.mp hmem with rfl | hmem
    · exact hnot hname
    · exact hnew name (List.mem_cons_of_mem e.1 hname) hmem

/-! ## What the callbacks do -/

section Callbacks

variable {c : HttpChannel}

theorem callbacks_append (calls more : List Callback) :
    c.callbacks (calls ++ more) = (c.callbacks calls).callbacks more :=
  List.foldl_append

theorem moveHeader_valueValid : c.moveHeader.valueValid = false := by
  unfold HttpChannel.moveHeader
  split
  · rfl
  · simpa using ‹¬ c.valueValid = true›

theorem moveHeader_of_not_valid (h : c.valueValid = false) : c.moveHeader = c := by
  simp [HttpChannel.moveHeader, h]

theorem callbacks_url (pieces : List Text) :
    c.callbacks (pieces.map .onUrl) = { c with urlOrStatus := c.urlOrStatus ++ pieces.flatten } := by
  induction pieces generalizing c with
  | nil => simp [HttpChannel.callbacks]
  | cons piece pieces ih =>
    have hrest : c.callbacks ((piece :: pieces).map .onUrl) =
        (c.callback (.onUrl piece)).callbacks (pieces.map .onUrl) := rfl
    rw [hrest, ih]
    simp [HttpChannel.callback]

theorem callbacks_name_more (h : c.valueValid = false) (pieces : List Text) :
    c.callbacks (pieces.map .onHeaderField) = { c with field := c.field ++ pieces.flatten } := by
  induction pieces generalizing c with
  | nil => simp [HttpChannel.callbacks]
  | cons piece pieces ih =>
    have hrest : c.callbacks ((piece :: pieces).map .onHeaderField) =
        (c.callback (.onHeaderField piece)).callbacks (pieces.map .onHeaderField) := rfl
    have hfirst : c.callback (.onHeaderField piece) = { c with field := c.field ++ piece } := by
      simp [HttpChannel.callback, moveHeader_of_not_valid h]
    rw [hrest, hfirst, ih (c := { c with field := c.field ++ piece }) h]
    simp

/-- The first piece of a name files the header before it. -/
theorem callbacks_name {pieces : List Text} (h : pieces ≠ []) :
    c.callbacks (pieces.map .onHeaderField) =
      { c.moveHeader with field := c.moveHeader.field ++ pieces.flatten } := by
  cases pieces with
  | nil => exact absurd rfl h
  | cons piece pieces =>
    have hrest : c.callbacks ((piece :: pieces).map .onHeaderField) =
        (c.callback (.onHeaderField piece)).callbacks (pieces.map .onHeaderField) := rfl
    rw [hrest, callbacks_name_more (by exact moveHeader_valueValid)]
    simp [HttpChannel.callback]

theorem callbacks_value {pieces : List Text} (h : pieces ≠ []) :
    c.callbacks (pieces.map .onHeaderValue) =
      { c with valueValid := true, value := c.value ++ pieces.flatten } := by
  induction pieces generalizing c with
  | nil => exact absurd rfl h
  | cons piece pieces ih =>
    have hrest : c.callbacks ((piece :: pieces).map .onHeaderValue) =
        (c.callback (.onHeaderValue piece)).callbacks (pieces.map .onHeaderValue) := rfl
    rw [hrest]
    cases pieces with
    | nil => simp [HttpChannel.callbacks, HttpChannel.callback]
    | cons next pieces =>
      rw [ih (List.cons_ne_nil _ _)]
      simp [HttpChannel.callback]

theorem callbacks_body (pieces : List Text) : c.callbacks (pieces.map .onBody) = c := by
  induction pieces with
  | nil => rfl
  | cons piece pieces ih => exact ih

theorem Line.name_ne_nil (l : Line) : l.name ≠ [] := by
  intro h
  exact l.named (by rw [h]; rfl)

/-- A line files the one before it, and waits to be filed. -/
theorem callbacks_line (l : Line) :
    c.callbacks l.callbacks =
      { c.moveHeader with
        field := c.moveHeader.field ++ l.entry.1
        value := c.moveHeader.value ++ l.entry.2
        valueValid := true } := by
  rw [Line.callbacks, callbacks_append, callbacks_name l.name_ne_nil, callbacks_value l.valued]
  rfl

/-- To file a line when nothing waits. -/
def HttpChannel.file (c : HttpChannel) (e : Text × Text) : HttpChannel :=
  { c with
    field := if c.headers.contains (c.field ++ e.1) then c.field ++ e.1 else []
    headers := c.headers.insert (c.field ++ e.1) e.2 }

theorem moveHeader_line (hvalue : c.moveHeader.value = []) (l : Line) :
    (c.callbacks l.callbacks).moveHeader = c.moveHeader.file l.entry := by
  have hvalid : c.moveHeader.valueValid = false := moveHeader_valueValid
  rw [callbacks_line, HttpChannel.moveHeader, if_pos rfl]
  simp [HttpChannel.file, hvalue, hvalid]

theorem moveHeader_lines (hvalue : c.moveHeader.value = []) (lines : List Line) :
    (c.callbacks (lines.flatMap Line.callbacks)).moveHeader =
      (lines.map Line.entry).foldl HttpChannel.file c.moveHeader := by
  induction lines generalizing c with
  | nil => rfl
  | cons l lines ih =>
    have hfile := moveHeader_line hvalue l
    have hvalue' : (c.callbacks l.callbacks).moveHeader.value = [] := by
      rw [hfile]
      exact hvalue
    rw [List.flatMap_cons, callbacks_append, ih hvalue', hfile]
    rfl

/-- Lines filed one after the other. -/
theorem foldl_file (seen : List Text) (hseen : ∀ k, c.headers.contains k ↔ k ∈ seen)
    (entries : List (Text × Text)) :
    entries.foldl HttpChannel.file c =
      { c with
        field := lastLeftover seen c.field entries
        headers := c.headers.insertAll (filed seen c.field entries) } := by
  induction entries generalizing c seen with
  | nil => rfl
  | cons e rest ih =>
    have hfield : (c.file e).field = leftover seen (key c.field e) :=
      if_congr (hseen _) rfl rfl
    have hseen' : ∀ k, (c.file e).headers.contains k ↔ k ∈ key c.field e :: seen := by
      intro k
      have := hseen k
      simp only [HttpChannel.file, SortedMap.contains, lookup_insert, key, List.mem_cons] at this ⊢
      by_cases hk : c.field ++ e.1 = k
      · simp [hk]
      · simp [hk, this, Ne.symm hk]
    rw [List.foldl_cons, ih _ hseen', hfield]
    rfl

theorem callbacks_lines_keep (lines : List Line) :
    (c.callbacks (lines.flatMap Line.callbacks)).requests = c.requests ∧
      (c.callbacks (lines.flatMap Line.callbacks)).urlOrStatus = c.urlOrStatus := by
  induction lines generalizing c with
  | nil => exact ⟨rfl, rfl⟩
  | cons l lines ih =>
    have hline : (c.callbacks l.callbacks).requests = c.requests ∧
        (c.callbacks l.callbacks).urlOrStatus = c.urlOrStatus := by
      rw [callbacks_line, HttpChannel.moveHeader]
      split <;> exact ⟨rfl, rfl⟩
    rw [List.flatMap_cons, callbacks_append, ih.1, ih.2]
    exact hline

/-- After a line, a header waits to be filed. -/
theorem callbacks_lines_valueValid {lines : List Line} (h : lines ≠ []) :
    (c.callbacks (lines.flatMap Line.callbacks)).valueValid = true := by
  obtain ⟨front, l, rfl⟩ := List.eq_nil_or_concat lines |>.resolve_left h
  rw [List.concat_eq_append, List.flatMap_append, callbacks_append, List.flatMap_singleton,
    callbacks_line]

/-- The request that the code makes of a message. -/
def Message.filedRequest (m : Message) : Request where
  method := m.method
  url := m.url.flatten
  headers := SortedMap.empty.insertAll (filed [] [] m.entries)

theorem callbacks_head (hc : Clean c) (m : Message) :
    c.callbacks m.head =
      { c with
        field := lastLeftover [] [] m.entries
        requests := c.requests ++ [m.filedRequest] } := by
  obtain ⟨hfield, hvalue, hvalid, hheaders, hurl⟩ := hc
  have hmove : { c with urlOrStatus := c.urlOrStatus ++ m.url.flatten }.moveHeader =
      { c with urlOrStatus := c.urlOrStatus ++ m.url.flatten } := moveHeader_of_not_valid hvalid
  have hlines := moveHeader_lines (c := { c with urlOrStatus := c.urlOrStatus ++ m.url.flatten })
    (by rw [hmove]; exact hvalue) m.lines
  rw [hmove, foldl_file [] (by simp [hheaders, SortedMap.contains])] at hlines
  rw [Message.head, callbacks_append, callbacks_append, callbacks_url]
  simp only [HttpChannel.callbacks, List.foldl_cons, List.foldl_nil, HttpChannel.callback]
  simp only [HttpChannel.callbacks] at hlines
  rw [hlines]
  simp [Message.filedRequest, Message.entries, hfield, hheaders, hurl]

theorem receive_requests (hc : Clean c) (m : Message) :
    (c.receive m).requests = c.requests ++ [m.filedRequest] := by
  have hrest : ∀ d : HttpChannel, (d.callbacks m.rest).requests = d.requests := fun d => by
    rw [Message.rest, callbacks_append, callbacks_append, callbacks_body]
    exact (callbacks_lines_keep m.trailers).1
  rw [HttpChannel.receive, hrest, callbacks_head hc]

end Callbacks

/-! ## One message -/

/-- `onRequest` is called once, with the url and with the value of the last line of each name. -/
def Assembled (c : HttpChannel) (m : Message) : Prop :=
  ∃ r, (c.receive m).requests = c.requests ++ [r] ∧ r.method = m.method ∧
    r.url = m.url.flatten ∧ ∀ name, r.headers.lookup name = lastValue name m.entries

theorem assembled_iff_filed {c : HttpChannel} (hc : Clean c) (m : Message) :
    Assembled c m ↔ ∀ name, lastValue name (filed [] [] m.entries) = lastValue name m.entries := by
  have hlookup : ∀ name, m.filedRequest.headers.lookup name =
      lastValue name (filed [] [] m.entries) := fun name => by
    rw [Message.filedRequest, lookup_insertAll, lookup_empty, Option.or_none]
  unfold Assembled
  rw [receive_requests hc]
  constructor
  · rintro ⟨r, hr, -, -, hheaders⟩ name
    obtain rfl : m.filedRequest = r := by simpa using hr
    rw [← hlookup, hheaders]
  · intro h
    exact ⟨m.filedRequest, rfl, rfl, rfl, fun name => (hlookup name).trans (h name)⟩

/-- The first element that has been there before, and the one behind it. -/
theorem exists_repeated {α β : Type} [DecidableEq β] (f : α → β) {l : List α}
    (h : ¬ (l.map f).dropLast.Nodup) :
    ∃ front e d rest, l = front ++ e :: d :: rest ∧ (front.map f).Nodup ∧ f e ∈ front.map f := by
  have hfirst : ∀ l : List α, ¬ (l.map f).Nodup →
      ∃ front e rest, l = front ++ e :: rest ∧ (front.map f).Nodup ∧ f e ∈ front.map f := by
    intro l
    induction l using List.reverseRecOn with
    | nil => exact fun h => absurd List.nodup_nil h
    | append_singleton l x ih =>
      intro h
      by_cases hnodup : (l.map f).Nodup
      · refine ⟨l, x, [], rfl, hnodup, ?_⟩
        by_contra hx
        apply h
        rw [List.map_append, List.map_singleton]
        exact List.nodup_append.mpr ⟨hnodup, List.nodup_singleton _, by
          rintro a ha b hb rfl
          exact hx (List.mem_singleton.mp hb ▸ ha)⟩
      · obtain ⟨front, e, rest, rfl, hfront⟩ := ih hnodup
        exact ⟨front, e, rest ++ [x], by simp, hfront⟩
  rw [← List.map_dropLast] at h
  obtain ⟨front, e, rest, hdrop, hfront⟩ := hfirst l.dropLast h
  have hne : l ≠ [] := by
    rintro rfl
    simp at hdrop
  have hl : l = front ++ e :: (rest ++ [l.getLast hne]) := by
    conv_lhs => rw [← List.dropLast_append_getLast hne, hdrop]
    simp
  cases rest with
  | nil => exact ⟨front, e, _, [], hl, hfront⟩
  | cons d rest => exact ⟨front, e, d, _, hl, hfront⟩

/-- A line with another value, in one piece. -/
def Line.withValue (l : Line) (value : Text) : Line :=
  { l with value := [value], valued := List.cons_ne_nil value [] }

theorem withValue_names (ls : List Line) (value : Text) :
    (ls.map fun l => (l.withValue value).entry).map Prod.fst = ls.map fun l => l.entry.1 := by
  rw [List.map_map]
  rfl

/-- The line behind a repeated name gets lost, where its value is not one of those before it. -/
theorem exists_not_assembled {c : HttpChannel} (hc : Clean c) {m : Message}
    (h : ¬ (m.entries.map Prod.fst).dropLast.Nodup) :
    ∃ n : Message, n.entries.map Prod.fst <+: m.entries.map Prod.fst ∧ ¬ Assembled c n := by
  rw [Message.entries, List.map_map] at h
  obtain ⟨front, e, d, rest, hlines, hnodup, hmem⟩ := exists_repeated (Prod.fst ∘ Line.entry) h
  let n : Message := { m with
    lines := front.map (Line.withValue · []) ++ [e.withValue [], d.withValue [0]] }
  have hentries : n.entries = (front.map fun l => (l.withValue []).entry) ++
      [(e.entry.1, []), (d.entry.1, [0])] := by
    simp [n, Message.entries, Line.entry, Line.withValue]
  refine ⟨n, ?_, ?_⟩
  · rw [hentries, Message.entries, hlines, List.map_append, withValue_names]
    exact ⟨rest.map (Prod.fst ∘ Line.entry), by simp [Function.comp_def]⟩
  · rw [assembled_iff_filed hc, hentries, filed_of_repeated (by rwa [withValue_names])
      (by simp) (Or.inl (by rwa [withValue_names]))]
    intro hall
    have hname : e.entry.1 ++ d.entry.1 ≠ d.entry.1 := fun heq =>
      e.named (List.append_left_eq_self.mp heq)
    have hglued : lastValue (e.entry.1 ++ d.entry.1) ((front.map fun l => (l.withValue []).entry) ++
        [(e.entry.1, []), (e.entry.1 ++ d.entry.1, [0])]) = some [0] := by
      simp [lastValue_append, lastValue]
    have hmem := mem_of_lastValue ((hall _).symm.trans hglued)
    rw [List.mem_append, List.mem_pair, Prod.mk.injEq, Prod.mk.injEq] at hmem
    rcases hmem with hmem | ⟨-, hvalue⟩ | ⟨heq, -⟩
    · obtain ⟨l, -, hl⟩ := List.mem_map.mp hmem
      cases (Prod.mk.inj hl).2
    · cases hvalue
    · exact hname heq

/-- A message in which no line but the last one repeats an earlier name is assembled, whatever its
values are and however it is cut. Any other list of names is the beginning of a message, with some
values, that is not. -/
theorem headers_assembled_of_distinct (m : Message) (c : HttpChannel) (hc : Clean c) :
    ((m.entries.map Prod.fst).dropLast.Nodup → Assembled c m) ∧
      (¬ (m.entries.map Prod.fst).dropLast.Nodup →
        ∃ n : Message, n.entries.map Prod.fst <+: m.entries.map Prod.fst ∧ ¬ Assembled c n) := by
  refine ⟨fun hnodup => ?_, exists_not_assembled hc⟩
  rw [assembled_iff_filed hc]
  intro name
  rw [filed_of_distinct hnodup (by simp)]

/-- A line of a request, each part in one piece. -/
def Line.whole (name value : Text) (h : name ≠ []) : Line where
  name := [name]
  value := [value]
  named := by simpa using h
  valued := List.cons_ne_nil value []

/-- A name in two pieces and an empty value; the last line repeats the first name. -/
def hostTwice : Message where
  method := 1
  url := [ascii "/no", [], ascii "de/1"]
  lines := [.whole (ascii "Host") (ascii "a") (by decide),
    { name := [ascii "Acc", ascii "ept"], value := [[], []]
      named := by decide, valued := by decide },
    .whole (ascii "Host") (ascii "b") (by decide)]
  body := []
  trailers := []

theorem headers_assembled_of_distinct_host :
    Assembled HttpChannel.new hostTwice ∧
      (¬ (hostTwice.entries.map Prod.fst).dropLast.Nodup → ∃ n : Message,
        n.entries.map Prod.fst <+: hostTwice.entries.map Prod.fst ∧ ¬ Assembled .new n) := by
  obtain ⟨hassembled, hlost⟩ :=
    headers_assembled_of_distinct hostTwice HttpChannel.new ⟨rfl, rfl, rfl, rfl, rfl⟩
  exact ⟨hassembled (by decide), hlost⟩

-- A repeated name alone does not decide. Here the glued name is the name of a later line, and so is
-- the name that was lost.
example : Assembled .new {
    method := 1
    url := [ascii "/"]
    lines := [.whole (ascii "a") (ascii "1") (by decide),
      .whole (ascii "a") (ascii "2") (by decide),
      .whole (ascii "b") (ascii "3") (by decide), .whole (ascii "b") (ascii "4") (by decide),
      .whole (ascii "ab") (ascii "5") (by decide)]
    body := []
    trailers := [] } := by
  rw [assembled_iff_filed ⟨rfl, rfl, rfl, rfl, rfl⟩]
  intro name
  have hmap : (SortedMap.empty : Headers).insertAll (filed [] []
        [(ascii "a", ascii "1"), (ascii "a", ascii "2"), (ascii "b", ascii "3"),
          (ascii "b", ascii "4"), (ascii "ab", ascii "5")]) =
      SortedMap.empty.insertAll [(ascii "a", ascii "1"), (ascii "a", ascii "2"),
        (ascii "b", ascii "3"), (ascii "b", ascii "4"), (ascii "ab", ascii "5")] := by decide
  have hlookup := congrArg (fun m : Headers => m.lookup name) hmap
  simp only [lookup_insertAll, lookup_empty, Option.or_none] at hlookup
  exact hlookup

/-- A name that is there twice stays in front of the next name. -/
theorem repeated_name_is_glued :
    ¬ ∃ r, (HttpChannel.new.receive
        { method := 1, url := [ascii "/"]
          lines := [.whole (ascii "a") (ascii "1") (by decide),
            .whole (ascii "a") (ascii "2") (by decide), .whole (ascii "b") (ascii "3") (by decide)]
          body := [], trailers := [] }).requests = [] ++ [r] ∧ r.method = 1 ∧ r.url = ascii "/" ∧
      ∀ name, r.headers.lookup name = lastValue name
        [(ascii "a", ascii "1"), (ascii "a", ascii "2"), (ascii "b", ascii "3")] := by
  rintro ⟨r, hr, -, -, hheaders⟩
  have hb : r.headers.lookup (ascii "b") = none := by
    rw [List.nil_append] at hr
    obtain rfl := List.singleton_inj.mp hr.symm
    decide
  rw [hheaders] at hb
  exact absurd hb (by decide)

/-! ## One message after the other -/

/-- A request message on a kept-alive channel. -/
def step (c : HttpChannel) (m : Message) : Option HttpChannel := some (c.receive m)

/-- The request that the message itself contains. -/
def Message.request (m : Message) : Request where
  method := m.method
  url := m.url.flatten
  headers := SortedMap.empty.insertAll m.entries

theorem filedRequest_of_distinct {m : Message} (h : (m.entries.map Prod.fst).Nodup) :
    m.filedRequest = m.request := by
  rw [Message.filedRequest, filed_of_distinct ((List.dropLast_sublist _).nodup h) (by simp)]
  rfl

/-- A message leaves nothing behind exactly if it has no trailer fields. -/
theorem receive_clean_iff {c : HttpChannel} (hc : Clean c) {m : Message}
    (h : (m.entries.map Prod.fst).Nodup) : Clean (c.receive m) ↔ m.trailers = [] := by
  rw [HttpChannel.receive, callbacks_head hc, lastLeftover_of_distinct h (by simp), Message.rest,
    callbacks_append, callbacks_append, callbacks_body]
  constructor
  · intro hclean
    by_contra htrailers
    have hvalid := callbacks_lines_valueValid htrailers
      (c := { c with field := [], requests := c.requests ++ [m.filedRequest] })
    exact absurd (hvalid.symm.trans hclean.valueValid) (by decide)
  · intro htrailers
    rw [htrailers]
    exact ⟨rfl, hc.value, hc.valueValid, hc.headers, hc.urlOrStatus⟩

theorem clean_always_iff {ms : List Message} {c : HttpChannel} (hc : Clean c)
    (hnames : ∀ m ∈ ms, (m.entries.map Prod.fst).Nodup) :
    Always step Clean c ms ↔ ∀ m ∈ ms, m.trailers = [] := by
  induction ms generalizing c with
  | nil => exact ⟨fun _ => by simp, fun _ => hc⟩
  | cons m ms ih =>
    have hiff := receive_clean_iff hc (hnames m List.mem_cons_self)
    have hrest := fun h : Clean (c.receive m) =>
      ih h fun m hm => hnames m (List.mem_cons_of_mem _ hm)
    constructor
    · rintro ⟨-, h⟩ n hn
      have h' := h (c.receive m) rfl
      rcases List.mem_cons.mp hn with rfl | hn
      · exact hiff.mp (always_head h')
      · exact (hrest (always_head h')).mp h' n hn
    · intro h
      refine ⟨hc, ?_⟩
      rintro t ⟨⟩
      have hclean := hiff.mpr (h m List.mem_cons_self)
      exact (hrest hclean).mpr fun n hn => h n (List.mem_cons_of_mem _ hn)

theorem requests_of_messages {ms : List Message} {c : HttpChannel} (hc : Clean c)
    (hnames : ∀ m ∈ ms, (m.entries.map Prod.fst).Nodup) (htrailers : ∀ m ∈ ms, m.trailers = []) :
    ∃ d, run step c ms = some d ∧ d.requests = c.requests ++ ms.map Message.request := by
  induction ms generalizing c with
  | nil => exact ⟨c, rfl, by simp⟩
  | cons m ms ih =>
    have hnodup := hnames m List.mem_cons_self
    have hclean := (receive_clean_iff hc hnodup).mpr (htrailers m List.mem_cons_self)
    obtain ⟨d, hd, hrequests⟩ := ih hclean (fun m hm => hnames m (List.mem_cons_of_mem _ hm))
      (fun m hm => htrailers m (List.mem_cons_of_mem _ hm))
    refine ⟨d, hd, ?_⟩
    rw [hrequests, receive_requests hc, filedRequest_of_distinct hnodup]
    simp

theorem new_clean : Clean HttpChannel.new := ⟨rfl, rfl, rfl, rfl, rfl⟩

/-- Nothing is left over after any message exactly if no message has trailer fields, and then
every request is the one that its own message contains. -/
theorem requests_isolated_iff (ms : List Message)
    (hnames : ∀ m ∈ ms, (m.entries.map Prod.fst).Nodup) :
    (Always step Clean HttpChannel.new ms ↔ ∀ m ∈ ms, m.trailers = []) ∧
      ((∀ m ∈ ms, m.trailers = []) →
        ∃ c, run step HttpChannel.new ms = some c ∧ c.requests = ms.map Message.request) :=
  ⟨clean_always_iff new_clean hnames, requests_of_messages new_clean hnames⟩

/-- A `POST` with a chunked body. -/
def chunked (trailers : List Line) : Message where
  method := 3
  url := [ascii "/"]
  lines := [.whole (ascii "Transfer-Encoding") (ascii "chunked") (by decide)]
  body := [ascii "abc"]
  trailers := trailers

/-- A `GET` without headers. -/
def plainGet : Message where
  method := 1
  url := [ascii "/"]
  lines := []
  body := []
  trailers := []

theorem requests_isolated_iff_example :
    Always step Clean HttpChannel.new [chunked [], plainGet, chunked []] ∧
      ∃ c, run step HttpChannel.new [chunked [], plainGet, chunked []] = some c ∧
        c.requests = [(chunked []).request, plainGet.request, (chunked []).request] := by
  have h := requests_isolated_iff [chunked [], plainGet, chunked []] (by decide)
  have htrailers : ∀ m ∈ [chunked [], plainGet, chunked []], m.trailers = [] := by
    simp [chunked, plainGet]
  exact ⟨h.1.mpr htrailers, h.2 htrailers⟩

/-- The trailer field of one request is a header of the next one. -/
theorem trailer_becomes_header :
    ¬ Always step Clean HttpChannel.new
        [chunked [.whole (ascii "x") (ascii "1") (by decide)], plainGet] ∧
      (run step HttpChannel.new [chunked [.whole (ascii "x") (ascii "1") (by decide)], plainGet]).map
          (fun c => c.requests.getLast?) ≠
        (run step HttpChannel.new [chunked [], plainGet]).map (fun c => c.requests.getLast?) := by
  constructor
  · intro h
    exact absurd (always_head (h.2 _ rfl)).valueValid (by decide)
  · decide

end huasi.http_channel
