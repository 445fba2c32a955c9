-- The data of a connection in reads of any length (HttpChannel::onData and http_parser_execute,
-- src/src/http): how it is cut into reads makes no difference to the channel, for data that is
-- accepted byte by byte.
import Huasi.HttpParserBodies

open huasi.text huasi.runs huasi.http_channel

namespace huasi.http_execute

section Loop

variable {start place : Place} {s t : Cursor} {p q : HttpParser} {data : Text}

/-! ## One read -/

theorem bytewise_unique {r : HttpParser} {calls more : List Call} (h : Bytewise p data q calls)
    (h' : Bytewise p data r more) : q = r ∧ calls = more := by
  induction data generalizing p calls more with
  | nil =>
    obtain ⟨rfl, rfl⟩ := h
    obtain ⟨rfl, rfl⟩ := h'
    exact ⟨rfl, rfl⟩
  | cons ch rest ih =>
    obtain ⟨x, c, hx, hrest, rfl⟩ := h
    obtain ⟨y, d, hy, hrest', rfl⟩ := h'
    obtain rfl := Option.some.inj (hx.execute.symm.trans hy.execute)
    obtain ⟨rfl, rfl⟩ := ih hrest hrest'
    exact ⟨rfl, rfl⟩

theorem near_errno (h : Near p q) : q.httpErrno = p.httpErrno := by
  obtain ⟨n, -, rfl⟩ := h
  rfl

theorem near_state (h : Near p q) : q.state = p.state := by
  obtain ⟨n, -, rfl⟩ := h
  rfl

/-- The loop over bytes that were accepted one by one. -/
theorem loop_joined {n : Nat} {calls : List Call} (hwaits : ∃ place, Waits p place)
    (hnear : Near p s.parser) (hready : s.Ready start) (hreturned : s.returned = false)
    (hn : s.rest.length ≤ n) (hbytes : Bytewise p s.rest q calls) :
    ∃ t, loop unfinished (fun s => (turn s).map .again) n s = some t ∧ t.returned = false ∧
      t.rest = [] ∧ Near q t.parser ∧ join t.flush.calls = join (s.flush.calls ++ calls) := by
  induction n generalizing s p calls with
  | zero =>
    have hnil : s.rest = [] := List.length_eq_zero_iff.mp (by omega)
    rw [hnil] at hbytes
    obtain ⟨rfl, rfl⟩ := hbytes
    exact ⟨s, rfl, hreturned, hnil, hnear, by simp⟩
  | succ n ih =>
    cases hrest : s.rest with
    | nil =>
      rw [hrest] at hbytes
      obtain ⟨rfl, rfl⟩ := hbytes
      exact ⟨s, loop_ends (Or.inl (by simp [unfinished, hrest])), hreturned, hrest, hnear, by simp⟩
    | cons ch rest =>
      obtain ⟨place, hplace⟩ := hwaits
      obtain ⟨u, data, r, c, hturn, hjoined⟩ :=
        turn_joined hplace hnear hready hrest hreturned hbytes
      have hgoes : Goes unfinished (fun s => (turn s).map .again) s u :=
        ⟨by simp [unfinished, hreturned, hrest], by simp [hturn]⟩
      have hwaits' := bytewise_waits ⟨place, hplace⟩ hjoined.bytes
      obtain ⟨v, hv, hturned⟩ := turn_turned hready (by simp [hrest]) hreturned
      obtain rfl := Option.some.inj (hturn.symm.trans hv)
      have hready' : u.Ready start := by
        apply hturned.ready
        obtain ⟨place', hplace'⟩ := hwaits'
        rw [near_errno hjoined.near]
        exact hplace'.sound.1
      have hlength : u.rest.length ≤ n := by
        have hpos := List.length_pos_iff.mpr hjoined.some
        have hsplit := congrArg List.length hjoined.rest
        rw [List.length_append] at hsplit
        omega
      rw [hjoined.rest] at hbytes
      obtain ⟨r', c', d, hdata, hmore, rfl⟩ := bytewise_append.mp hbytes
      obtain ⟨rfl, rfl⟩ := bytewise_unique hdata hjoined.bytes
      obtain ⟨t, ht, hgoes', hnil, hnear', hcalls⟩ :=
        ih hwaits' hjoined.near hready' hjoined.returned hlength hmore
      refine ⟨t, by rw [loop_goes hgoes, ht], hgoes', hnil, hnear', ?_⟩
      rw [hcalls, ← List.append_assoc]
      exact join_append_congr hjoined.calls rfl

/-- A read of bytes that are accepted one by one. -/
theorem execute_joined {parser : HttpParser} {calls : List Call} (hwaits : ∃ place, Waits p place)
    (hparser : Waits parser place) (hnear : Near p parser) (hdata : data ≠ [])
    (hbytes : Bytewise p data q calls) :
    ∃ r, execute parser data = some r ∧ r.count = data.length ∧ Near q r.parser ∧
      join r.calls = join ((Cursor.start parser data).flush.calls ++ calls) := by
  obtain ⟨t, hloop, hreturned, hnil, hnear', hcalls⟩ := loop_joined hwaits hnear
    (start_ready hparser data) rfl (Nat.le_refl _) hbytes
  have hloop' : loop unfinished (fun s => (turn s).map .again) data.length (.start parser data) =
      some t := hloop
  unfold execute
  rw [if_neg (by simp [hparser.sound.1]), if_neg hdata]
  simp only [hloop', Option.bind_eq_bind, Option.bind_some, hreturned]
  exact ⟨_, rfl, by simp [hnil], by simpa using hnear', by simpa using hcalls⟩

/-- Behind a byte in a part that goes on, its data was handed over last. -/
theorem byte_resumed {ch : UInt8} {r : Result} {kind : Kind} (hwaits : Waits p place)
    (h : Byte p ch r) (hkind : r.parser.state.resumed = some kind) :
    ∃ cs b, r.calls = cs ++ [.data kind b] := by
  obtain ⟨t, hturn, hgoes, hparser, hcalls⟩ := byte_turn hwaits h
  obtain ⟨u, hu, hturned⟩ := turn_turned (start_ready hwaits [ch]) (by simp [Cursor.start]) rfl
  obtain rfl := Option.some.inj (hturn.symm.trans hu)
  have hready := hturned.ready (hturned.going hgoes).1
  rw [hparser] at hkind
  have hbody : t.parser.state.inBody = false := by
    cases hstate : t.parser.state <;> simp [hstate, State.resumed] at hkind <;> rfl
  have hmark := (mark_resumed hready hbody).trans hkind
  obtain ⟨m, hm, rfl⟩ := Option.map_eq_some_iff.mp hmark
  refine ⟨t.calls, m.2, ?_⟩
  rw [hcalls, flush_calls_eq, hm]
  rfl

theorem bytewise_resumed {calls : List Call} {kind : Kind} (hwaits : ∃ place, Waits p place)
    (h : Bytewise p data q calls) (hdata : data ≠ []) (hkind : q.state.resumed = some kind) :
    ∃ cs b, calls = cs ++ [.data kind b] := by
  induction data generalizing p calls with
  | nil => exact absurd rfl hdata
  | cons ch rest ih =>
    obtain ⟨r, more, hbyte, hrest, rfl⟩ := h
    obtain ⟨place, hplace⟩ := hwaits
    cases rest with
    | nil =>
      obtain ⟨rfl, rfl⟩ := hrest
      obtain ⟨cs, b, hcs⟩ := byte_resumed hplace hbyte hkind
      exact ⟨cs, b, by simp [hcs]⟩
    | cons c rest =>
      obtain ⟨cs, b, rfl⟩ := ih (byte_waits hplace hbyte) hrest (List.cons_ne_nil c rest)
      exact ⟨r.calls ++ cs, b, by simp⟩

end Loop

/-! ## The reads of a connection -/

/-- A connection whose data came byte by byte, and one whose data came in other reads. -/
structure Together (p : HttpParser) (base : List Call) (s : Input) : Prop where
  lawful : s.Lawful
  waits : ∃ place, Waits p place
  near : Near p s.parser
  errors : s.errors = []
  calls : join s.calls = join base
  resumed : ∀ kind, p.state.resumed = some kind → ∃ cs b, base = cs ++ [.data kind b]

theorem together_new : Together .init [] .new where
  lawful := new_lawful
  waits := ⟨.idle, ⟨rfl, Nat.zero_le _⟩, trivial, rfl⟩
  near := Near.refl _
  errors := rfl
  calls := rfl
  resumed kind hkind := by cases hkind

theorem onData_together {p q : HttpParser} {calls more : List Call} {s : Input} {data : Text}
    (h : Together p calls s) (hdata : data ≠ []) (hbytes : Bytewise p data q more) :
    ∃ t, onData s data = some t ∧ Together q (calls ++ more) t := by
  obtain ⟨place, hplace, hwaits⟩ := id h.lawful
  obtain ⟨place', hwaits'⟩ := id h.waits
  have hok : s.parser.httpErrno = .ok := (near_errno h.near).trans hwaits'.sound.1
  obtain ⟨r, hr, hcount, hnear, hcalls⟩ :=
    execute_joined h.waits (hwaits hok) h.near hdata hbytes
  obtain ⟨t, ht, hlawful⟩ := onData_lawful h.lawful data
  obtain rfl : t = ⟨r.parser, s.calls ++ r.calls, s.errors⟩ := by
    simpa [onData, hr, hcount] using ht.symm
  refine ⟨_, ht, hlawful, bytewise_waits h.waits hbytes, hnear, h.errors, ?_, fun kind hkind => ?_⟩
  · -- the read starts with an empty piece of the data that goes on
    have hempty : join (calls ++ ((Cursor.start s.parser data).flush.calls ++ more)) =
        join (calls ++ more) := by
      rw [flush_calls_eq]
      show join (calls ++ (([] ++ Option.toList (Option.map _ (Option.map _ s.parser.state.resumed)))
        ++ more)) = _
      rw [near_state h.near]
      cases hkind : p.state.resumed with
      | none => rfl
      | some kind =>
        obtain ⟨cs, b, rfl⟩ := h.resumed kind hkind
        have hnil := join_data_nil cs kind b
        simpa using join_append_congr (c := more) (d := more) hnil rfl
    show join (s.calls ++ r.calls) = join (calls ++ more)
    rw [join_append_congr h.calls hcalls, hempty]
  · obtain ⟨cs, b, rfl⟩ := bytewise_resumed h.waits hbytes hdata hkind
    exact ⟨calls ++ cs, b, by simp⟩

theorem run_together {p q : HttpParser} {calls more : List Call} {s : Input} {reads : List Text}
    (h : Together p calls s) (hreads : ∀ data ∈ reads, data ≠ [])
    (hbytes : Bytewise p reads.flatten q more) :
    ∃ t, run onData s reads = some t ∧ Together q (calls ++ more) t := by
  induction reads generalizing p calls more s with
  | nil =>
    obtain ⟨rfl, rfl⟩ := hbytes
    exact ⟨s, rfl, by simpa using h⟩
  | cons data reads ih =>
    rw [List.flatten_cons] at hbytes
    obtain ⟨r, c, d, hdata, hrest, rfl⟩ := bytewise_append.mp hbytes
    obtain ⟨t, ht, htogether⟩ := onData_together h (hreads data (by simp)) hdata
    obtain ⟨u, hu, htogether'⟩ := ih htogether (fun x hx => hreads x (by simp [hx])) hrest
    exact ⟨u, by simp [run, ht, hu], by simpa using htogether'⟩

/-- No error was found, and no other protocol follows. -/
def Input.Accepts (s : Input) : Prop :=
  s.errors = [] ∧ s.parser.httpErrno = .ok ∧ s.parser.upgrade = false

instance : DecidablePred Input.Accepts := fun s =>
  inferInstanceAs (Decidable (s.errors = [] ∧ s.parser.httpErrno = .ok ∧ s.parser.upgrade = false))

/-- Each byte in a read of its own. -/
def bytes (stream : Text) : List Text := stream.map fun c => [c]

/-- Data that is accepted byte by byte. -/
theorem bytewise_of_run {s : Input} {stream : Text} (hlawful : s.Lawful)
    (haccepted : Always onData Input.Accepts s (bytes stream)) :
    ∃ t calls, run onData s (bytes stream) = some t ∧ t.calls = s.calls ++ calls ∧
      Bytewise s.parser stream t.parser calls := by
  induction stream generalizing s with
  | nil => exact ⟨s, [], rfl, by simp, rfl, rfl⟩
  | cons ch rest ih =>
    obtain ⟨t, ht, hlawful'⟩ := onData_lawful hlawful [ch]
    have hrest := haccepted.2 t ht
    obtain ⟨herrors, hok, hstays⟩ := always_head hrest
    obtain ⟨u, calls, hu, hcalls, hbytes⟩ := ih hlawful' hrest
    obtain ⟨r, hr, hset⟩ := Option.bind_eq_some_iff.mp ht
    have hset := Option.some.inj hset
    have hparser : t.parser = r.parser := by rw [← hset]
    have hmore : t.calls = s.calls ++ r.calls := by rw [← hset]
    rw [hparser] at hok hstays hbytes
    refine ⟨u, r.calls ++ calls, by simpa [bytes, run, ht] using hu, ?_, r, calls,
      ⟨hr, hok, hstays⟩, hbytes, rfl⟩
    rw [hcalls, hmore, List.append_assoc]

/-- Data that is accepted byte by byte may come in any other reads: it is accepted, the parser ends
in the same state but for the bytes it counted, and the callbacks differ only in how they cut the
data. The channel cannot tell. -/
theorem reads_agree {stream : Text} {reads : List Text}
    (haccepted : Always onData Input.Accepts .new (bytes stream))
    (hreads : ∀ data ∈ reads, data ≠ []) (hstream : reads.flatten = stream) :
    ∃ s t, run onData .new (bytes stream) = some s ∧ run onData .new reads = some t ∧
      t.errors = [] ∧ t.parser.nread ≤ s.parser.nread ∧
      t.parser = { s.parser with nread := t.parser.nread } ∧ join t.calls = join s.calls ∧
      channelAfter .new t.calls = channelAfter .new s.calls := by
  obtain ⟨s, calls, hs, hcalls, hbytes⟩ := bytewise_of_run new_lawful haccepted
  rw [← hstream] at hbytes
  obtain ⟨t, ht, htogether⟩ := run_together together_new hreads hbytes
  obtain ⟨n, hn, hparser⟩ := htogether.near
  have hjoin : join t.calls = join s.calls := by
    rw [htogether.calls, hcalls]
    rfl
  refine ⟨s, t, hs, ht, htogether.errors, by rw [hparser]; exact hn, by rw [hparser], hjoin, ?_⟩
  rw [← channelAfter_join, hjoin, channelAfter_join]

theorem reads_agree_in_two :
    ∃ s t, run onData .new (bytes (ascii "GET /a HTTP/1.1\r\nA:b\r\n\r\n")) = some s ∧
      run onData .new [ascii "GET /a HTTP/1.1\r", ascii "\nA:b\r\n\r\n"] = some t ∧
      t.errors = [] ∧ t.parser.nread ≤ s.parser.nread ∧
      t.parser = { s.parser with nread := t.parser.nread } ∧ join t.calls = join s.calls ∧
      channelAfter .new t.calls = channelAfter .new s.calls :=
  reads_agree (by decide +kernel) (by decide) (by decide)

-- memchr takes the rest of a line as it is: a character that is no header character is only
-- found if a read starts with it
example : (run onData .new [ascii "GET /a HTTP/1.1\r\nA:bc\x01\r\n\r\n"]).map (·.errors) = some [] ∧
    ¬ Always onData Input.Accepts .new (bytes (ascii "GET /a HTTP/1.1\r\nA:bc\x01\r\n\r\n")) := by
  decide +kernel

end huasi.http_execute
