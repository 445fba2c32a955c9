-- The callbacks of http_parser_execute (src/src/http/http_parser.c) in the order in which they
-- come: what HttpChannel makes of them, that it does not matter whether data comes in one piece
-- or more, and that a row of callbacks in the right order is one of whole messages.
import Huasi.HttpParser
import Huasi.HttpChannel

open huasi.text huasi.runs huasi.http_channel

namespace huasi.http_execute

/-! ## The callbacks of HttpChannel -/

/-- `HttpChannel::callbacks`: the others are no callbacks there, or do nothing. -/
def Call.callback : Call → Option Callback
  | .onMessageBegin | .onChunkHeader | .onChunkComplete => none
  | .data .url bytes => some (.onUrl bytes)
  | .data .headerField bytes => some (.onHeaderField bytes)
  | .data .headerValue bytes => some (.onHeaderValue bytes)
  | .data .body bytes => some (.onBody bytes)
  | .onHeadersComplete method _ => some (.onHeadersComplete method)
  | .onMessageComplete => some .onMessageComplete

/-- The channel after the callbacks of the parser. -/
def channelAfter (c : HttpChannel) (calls : List Call) : HttpChannel :=
  c.callbacks (calls.filterMap Call.callback)

theorem channelAfter_cons (c : HttpChannel) (call : Call) (calls : List Call) :
    channelAfter c (call :: calls) = channelAfter (channelAfter c [call]) calls := by
  unfold channelAfter
  cases hcall : call.callback with
  | none => simp [hcall, HttpChannel.callbacks]
  | some callback => simp [hcall, HttpChannel.callbacks]

theorem channelAfter_append (c : HttpChannel) (calls more : List Call) :
    channelAfter c (calls ++ more) = channelAfter (channelAfter c calls) more := by
  unfold channelAfter
  rw [List.filterMap_append, callbacks_append]

/-! ## Data in pieces -/

/-- A call in front of others. Data goes together with data of the same kind that follows. -/
def Call.joinTo : Call → List Call → List Call
  | .data kind bytes, .data kind' more :: calls =>
    if kind = kind' then .data kind (bytes ++ more) :: calls
    else .data kind bytes :: .data kind' more :: calls
  | call, calls => call :: calls

/-- The calls with all data in one piece. -/
def join (calls : List Call) : List Call := calls.foldr Call.joinTo []

theorem joinTo_same (kind : Kind) (a b : Text) (calls : List Call) :
    Call.joinTo (.data kind a) (.data kind b :: calls) = .data kind (a ++ b) :: calls := by
  simp [Call.joinTo]

theorem joinTo_joinTo (kind : Kind) (a b : Text) (calls : List Call) :
    Call.joinTo (.data kind a) (Call.joinTo (.data kind b) calls) =
      Call.joinTo (.data kind (a ++ b)) calls := by
  cases calls with
  | nil => simp [Call.joinTo]
  | cons call calls =>
    cases call with
    | data kind' c =>
      by_cases hkind : kind = kind'
      · simp [Call.joinTo, hkind]
      · simp [Call.joinTo, hkind]
    | _ => simp [Call.joinTo]

theorem foldr_join (calls more : List Call) :
    (join calls).foldr Call.joinTo more = calls.foldr Call.joinTo more := by
  induction calls with
  | nil => rfl
  | cons call calls ih =>
    have hjoin : join (call :: calls) = call.joinTo (join calls) := rfl
    rw [hjoin, List.foldr_cons, ← ih]
    cases hfirst : join calls with
    | nil => cases call <;> rfl
    | cons first rest =>
      cases call with
      | data kind a =>
        cases first with
        | data kind' b =>
          by_cases hkind : kind = kind'
          · subst hkind
            rw [joinTo_same, List.foldr_cons, List.foldr_cons, joinTo_joinTo]
          · simp [Call.joinTo, hkind]
        | _ => rfl
      | _ => rfl

/-- What is joined the same goes on the same. -/
theorem join_append_congr {a b c d : List Call} (hab : join a = join b) (hcd : join c = join d) :
    join (a ++ c) = join (b ++ d) := by
  have hfold : ∀ x y : List Call, join (x ++ y) = (join x).foldr Call.joinTo (join y) := by
    intro x y
    rw [foldr_join]
    exact List.foldr_append
  rw [hfold, hfold, hab, hcd]

/-- Data that goes on with data. -/
theorem join_data_append (calls : List Call) (kind : Kind) (a b : Text) :
    join (calls ++ [.data kind (a ++ b)]) = join (calls ++ [.data kind a, .data kind b]) := by
  apply join_append_congr rfl
  simp [join, Call.joinTo]

/-- The channel does not see whether data comes in one piece or more. -/
theorem channelAfter_joinTo (c : HttpChannel) (call : Call) (calls : List Call) :
    channelAfter c (call.joinTo calls) = channelAfter c (call :: calls) := by
  have hpieces : ∀ kind a b, channelAfter (channelAfter c [.data kind a]) [.data kind b] =
      channelAfter c [.data kind (a ++ b)] := by
    intro kind a b
    cases kind with
    | headerField =>
      have hpiece : ∀ d : HttpChannel, ∀ bytes, channelAfter d [.data .headerField bytes] =
          { d.moveHeader with field := d.moveHeader.field ++ bytes } := fun _ _ => rfl
      have hmoved : ∀ bytes, HttpChannel.moveHeader
          { c.moveHeader with field := c.moveHeader.field ++ bytes } =
          { c.moveHeader with field := c.moveHeader.field ++ bytes } :=
        fun _ => moveHeader_of_not_valid moveHeader_valueValid
      simp [hpiece, hmoved]
    | _ => simp [channelAfter, Call.callback, HttpChannel.callbacks, HttpChannel.callback]
  cases call with
  | data kind a =>
    cases calls with
    | nil => rfl
    | cons next calls =>
      cases next with
      | data kind' b =>
        by_cases hkind : kind = kind'
        · subst hkind
          rw [joinTo_same, channelAfter_cons, channelAfter_cons c (.data kind a),
            channelAfter_cons (channelAfter c [.data kind a]), hpieces]
        · rw [Call.joinTo, if_neg hkind]
      | _ => rfl
  | _ => rfl

theorem channelAfter_join (c : HttpChannel) (calls : List Call) :
    channelAfter c (join calls) = channelAfter c calls := by
  induction calls generalizing c with
  | nil => rfl
  | cons call calls ih =>
    have hjoin : join (call :: calls) = call.joinTo (join calls) := rfl
    rw [hjoin, channelAfter_joinTo, channelAfter_cons, ih, ← channelAfter_cons]

/-! ## The order of the callbacks -/

/-- Where a row of callbacks is: between two messages, or behind a part of one. -/
inductive Place where
  | idle
  | begun
  | url
  | name
  | value
  | content
  | chunk
  | trailerName
  | trailerValue
  | ended
deriving DecidableEq, Repr

/-- The callback that may come at a place, and the place behind it. The first piece of a name is
not empty. -/
def follow : Place → Call → Option Place
  | .idle, .onMessageBegin => some .begun
  | .begun, .data .url _ | .url, .data .url _ => some .url
  | .url, .data .headerField bytes | .value, .data .headerField bytes =>
    if bytes = [] then none else some .name
  | .name, .data .headerField _ => some .name
  | .name, .data .headerValue _ | .value, .data .headerValue _ => some .value
  | .url, .onHeadersComplete _ _ | .value, .onHeadersComplete _ _ => some .content
  | .content, .data .body _ => some .content
  | .content, .onChunkHeader => some .chunk
  | .chunk, .data .body _ => some .chunk
  | .chunk, .onChunkComplete => some .content
  | .chunk, .data .headerField bytes | .trailerValue, .data .headerField bytes =>
    if bytes = [] then none else some .trailerName
  | .trailerName, .data .headerField _ => some .trailerName
  | .trailerName, .data .headerValue _ | .trailerValue, .data .headerValue _ =>
    some .trailerValue
  | .trailerValue, .onChunkComplete => some .ended
  | .content, .onMessageComplete | .ended, .onMessageComplete => some .idle
  | _, _ => none

/-- The place behind data of a kind that is not empty. -/
def Place.enter (place : Place) (kind : Kind) : Option Place := follow place (.data kind [0])

theorem follow_of_enter {place next : Place} {kind : Kind} (h : place.enter kind = some next)
    {bytes : Text} (hbytes : bytes ≠ [] ∨ kind ≠ .headerField ∨ place = next) :
    follow place (.data kind bytes) = some next := by
  unfold Place.enter at h
  cases place <;> cases kind <;> simp_all [follow] <;> (subst h; simpa using hbytes)

/-! ## Whole messages -/

/-- The callbacks of a message. -/
def messageCalls (m : Message) : List Callback := m.head ++ m.rest

/-- What the callbacks of a message spell up to a place. -/
def Part (place : Place) (calls : List Callback) : Prop :=
  match place with
  | .idle | .begun => calls = []
  | .url => ∃ url : List Text, calls = url.map .onUrl
  | .name => ∃ (url : List Text) (lines : List Line) (name : List Text), name.flatten ≠ [] ∧
      calls = url.map .onUrl ++ lines.flatMap Line.callbacks ++ name.map .onHeaderField
  | .value => ∃ (url : List Text) (lines : List Line), lines ≠ [] ∧
      calls = url.map .onUrl ++ lines.flatMap Line.callbacks
  | .content | .chunk => ∃ m : Message, m.trailers = [] ∧ calls = m.head ++ m.body.map .onBody
  | .trailerName => ∃ (m : Message) (name : List Text), name.flatten ≠ [] ∧
      calls = m.head ++ m.body.map .onBody ++ m.trailers.flatMap Line.callbacks ++
        name.map .onHeaderField
  | .trailerValue | .ended => ∃ m : Message, m.trailers ≠ [] ∧
      calls = m.head ++ m.body.map .onBody ++ m.trailers.flatMap Line.callbacks

/-- The first piece of a value makes a line of the name in front of it. -/
theorem lines_name {name : List Text} (hname : name.flatten ≠ []) (lines : List Line)
    (bytes : Text) : ∃ more : List Line, more ≠ [] ∧
      lines.flatMap Line.callbacks ++ name.map .onHeaderField ++ [.onHeaderValue bytes] =
        more.flatMap Line.callbacks := by
  refine ⟨lines ++ [⟨name, [bytes], hname, by simp⟩], by simp, ?_⟩
  simp [Line.callbacks]

/-- Another piece of a value goes on with the last line. -/
theorem lines_value {lines : List Line} (hlines : lines ≠ []) (bytes : Text) :
    ∃ more : List Line, more ≠ [] ∧
      lines.flatMap Line.callbacks ++ [.onHeaderValue bytes] = more.flatMap Line.callbacks := by
  obtain ⟨front, last, rfl⟩ := List.eq_nil_or_concat lines |>.resolve_left hlines
  rw [List.concat_eq_append]
  refine ⟨front ++ [⟨last.name, last.value ++ [bytes], last.named, by simp⟩], by simp, ?_⟩
  simp [Line.callbacks]

/-- The first piece of a name, behind the lines of the headers. -/
theorem part_name {url : List Text} {lines : List Line} {bytes : Text} (h : bytes ≠ []) :
    Part .name (url.map .onUrl ++ lines.flatMap Line.callbacks ++ [.onHeaderField bytes]) :=
  ⟨url, lines, [bytes], by simpa using h, by simp⟩

theorem part_trailerName {m : Message} {bytes : Text} (h : bytes ≠ []) :
    Part .trailerName (m.head ++ m.body.map .onBody ++ m.trailers.flatMap Line.callbacks ++
      [.onHeaderField bytes]) :=
  ⟨m, [bytes], by simpa using h, by simp⟩

theorem part_content (method : Nat) (url : List Text) (lines : List Line) :
    Part .content (url.map .onUrl ++ lines.flatMap Line.callbacks ++
      [.onHeadersComplete method]) :=
  ⟨⟨method, url, lines, [], []⟩, rfl, by simp [Message.head]⟩

theorem part_body {m : Message} (h : m.trailers = []) (bytes : Text) :
    Part .content (m.head ++ m.body.map .onBody ++ [.onBody bytes]) :=
  ⟨{ m with body := m.body ++ [bytes] }, h, by simp [Message.head]⟩

theorem part_trailers {m : Message} {trailers : List Line} (h : trailers ≠ []) :
    Part .trailerValue (m.head ++ m.body.map .onBody ++ trailers.flatMap Line.callbacks) :=
  ⟨{ m with trailers }, h, by simp [Message.head]⟩

/-- A callback in the right order goes on with the message, or ends it. -/
theorem part_follow {place next : Place} {calls : List Callback} {call : Call}
    (hpart : Part place calls) (h : follow place call = some next) :
    Part next (calls ++ call.callback.toList) ∨
      (next = .idle ∧ ∃ m, calls ++ call.callback.toList = messageCalls m) := by
  unfold follow at h
  split at h
  -- the beginning, and the url
  · cases h
    exact Or.inl (by simp_all [Part, Call.callback])
  · rename_i bytes
    cases h
    obtain rfl : calls = [] := hpart
    exact Or.inl ⟨[bytes], by simp [Call.callback]⟩
  · rename_i bytes
    cases h
    obtain ⟨url, rfl⟩ := hpart
    exact Or.inl ⟨url ++ [bytes], by simp [Call.callback]⟩
  -- the lines of the headers
  · rename_i bytes
    obtain ⟨url, rfl⟩ := hpart
    split at h <;> cases h
    have hname := @part_name url [] bytes ‹_›
    exact Or.inl (by simpa [Call.callback] using hname)
  · obtain ⟨url, lines, -, rfl⟩ := hpart
    split at h <;> cases h
    exact Or.inl (part_name ‹_›)
  · rename_i bytes
    cases h
    obtain ⟨url, lines, name, hname, rfl⟩ := hpart
    exact Or.inl ⟨url, lines, name ++ [bytes], by simp_all, by simp [Call.callback]⟩
  · cases h
    obtain ⟨url, lines, name, hname, rfl⟩ := hpart
    obtain ⟨more, hmore, hlines⟩ := lines_name hname lines ‹_›
    refine Or.inl ⟨url, more, hmore, ?_⟩
    rw [← hlines]
    simp [Call.callback]
  · cases h
    obtain ⟨url, lines, hlines, rfl⟩ := hpart
    obtain ⟨more, hmore, heq⟩ := lines_value hlines ‹_›
    refine Or.inl ⟨url, more, hmore, ?_⟩
    rw [← heq]
    simp [Call.callback]
  · cases h
    obtain ⟨url, rfl⟩ := hpart
    have hcontent := fun method => part_content method url []
    exact Or.inl (by simpa [Call.callback] using hcontent _)
  · cases h
    obtain ⟨url, lines, -, rfl⟩ := hpart
    exact Or.inl (part_content _ url lines)
  -- the body
  · cases h
    obtain ⟨m, hm, rfl⟩ := hpart
    exact Or.inl (part_body hm _)
  · cases h
    obtain ⟨m, hm, rfl⟩ := hpart
    exact Or.inl ⟨m, hm, by simp [Call.callback]⟩
  · cases h
    obtain ⟨m, hm, rfl⟩ := hpart
    exact Or.inl (part_body hm _)
  · cases h
    obtain ⟨m, hm, rfl⟩ := hpart
    exact Or.inl ⟨m, hm, by simp [Call.callback]⟩
  -- the trailer fields
  · obtain ⟨m, hm, rfl⟩ := hpart
    split at h <;> cases h
    have hname := @part_trailerName m _ ‹_›
    exact Or.inl (by simpa [Call.callback, hm] using hname)
  · obtain ⟨m, hm, rfl⟩ := hpart
    split at h <;> cases h
    exact Or.inl (part_trailerName ‹_›)
  · rename_i bytes
    cases h
    obtain ⟨m, name, hname, rfl⟩ := hpart
    exact Or.inl ⟨m, name ++ [bytes], by simp_all, by simp [Call.callback]⟩
  · cases h
    obtain ⟨m, name, hname, rfl⟩ := hpart
    obtain ⟨more, hmore, hlines⟩ := lines_name hname m.trailers ‹_›
    have htrailers := @part_trailers m more hmore
    rw [← hlines] at htrailers
    exact Or.inl (by simpa [Call.callback] using htrailers)
  · cases h
    obtain ⟨m, hm, rfl⟩ := hpart
    obtain ⟨more, hmore, hlines⟩ := lines_value hm ‹_›
    have htrailers := @part_trailers m more hmore
    rw [← hlines] at htrailers
    exact Or.inl (by simpa [Call.callback] using htrailers)
  · cases h
    obtain ⟨m, hm, rfl⟩ := hpart
    exact Or.inl ⟨m, hm, by simp [Call.callback]⟩
  -- the end
  · cases h
    obtain ⟨m, hm, rfl⟩ := hpart
    exact Or.inr ⟨rfl, m, by simp [Call.callback, messageCalls, Message.rest, hm]⟩
  · cases h
    obtain ⟨m, hm, rfl⟩ := hpart
    exact Or.inr ⟨rfl, m, by simp [Call.callback, messageCalls, Message.rest]⟩
  · cases h

/-- What a part spells is the beginning of what a message spells. -/
theorem part_prefix {place : Place} {calls : List Callback} (h : Part place calls) :
    ∃ m, calls <+: messageCalls m := by
  have hhead : ∀ (url : List Text) (lines : List Line),
      url.map .onUrl ++ lines.flatMap Line.callbacks <+: messageCalls ⟨0, url, lines, [], []⟩ :=
    fun url lines => by simp [messageCalls, Message.head]
  cases place with
  | idle | begun =>
    obtain rfl : calls = [] := h
    exact ⟨⟨0, [], [], [], []⟩, List.nil_prefix⟩
  | url =>
    obtain ⟨url, rfl⟩ := h
    exact ⟨_, by simpa using hhead url []⟩
  | name =>
    obtain ⟨url, lines, name, hname, rfl⟩ := h
    obtain ⟨more, -, hlines⟩ := lines_name hname lines []
    refine ⟨_, List.IsPrefix.trans ?_ (hhead url more)⟩
    rw [← hlines]
    exact ⟨[.onHeaderValue []], by simp⟩
  | value =>
    obtain ⟨url, lines, -, rfl⟩ := h
    exact ⟨_, hhead url lines⟩
  | content | chunk =>
    obtain ⟨m, -, rfl⟩ := h
    exact ⟨m, by simp [messageCalls, Message.rest]⟩
  | trailerName =>
    obtain ⟨m, name, hname, rfl⟩ := h
    obtain ⟨more, -, hlines⟩ := lines_name hname m.trailers []
    refine ⟨{ m with trailers := more }, [.onHeaderValue [], .onMessageComplete], ?_⟩
    have hlines' : m.trailers.flatMap Line.callbacks ++ (name.map .onHeaderField ++
        [.onHeaderValue [], .onMessageComplete]) =
        more.flatMap Line.callbacks ++ [.onMessageComplete] := by
      rw [← hlines]
      simp
    simp only [messageCalls, Message.rest, Message.head, List.append_assoc, hlines']
  | trailerValue | ended =>
    obtain ⟨m, -, rfl⟩ := h
    exact ⟨m, by simp [messageCalls, Message.rest]⟩

/-- Calls in the right order are those of whole messages, and of a part of one more. -/
theorem messages_of_follow {calls : List Call} {place : Place}
    (h : calls.foldlM follow .idle = some place) :
    ∃ (ms : List Message) (part : List Callback), Part place part ∧
      calls.filterMap Call.callback = ms.flatMap messageCalls ++ part := by
  induction calls using List.reverseRecOn generalizing place with
  | nil =>
    cases h
    exact ⟨[], [], rfl, rfl⟩
  | append_singleton calls call ih =>
    rw [List.foldlM_append] at h
    obtain ⟨before, hbefore, hlast⟩ := Option.bind_eq_some_iff.mp h
    obtain ⟨ms, part, hpart, hcalls⟩ := ih hbefore
    have hfollow : follow before call = some place := by simpa using hlast
    have hsplit : (calls ++ [call]).filterMap Call.callback =
        ms.flatMap messageCalls ++ (part ++ call.callback.toList) := by
      rw [List.filterMap_append, hcalls, List.append_assoc]
      cases hcall : call.callback <;> simp [hcall]
    rcases part_follow hpart hfollow with hnext | ⟨rfl, m, hm⟩
    · exact ⟨ms, _, hnext, hsplit⟩
    · refine ⟨ms ++ [m], [], rfl, ?_⟩
      rw [hsplit, hm]
      simp

end huasi.http_execute
