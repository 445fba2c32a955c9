-- The header names that http_parser_execute (src/src/http/http_parser.c) looks out for: letter by
-- letter it follows five names at once, and at the end it knows one of them exactly if the name
-- is that one, in upper or lower case.
import Huasi.HttpParserTurns

open huasi.text huasi.http_parser

namespace huasi.http_execute

/-- The names that mean something to the parser, each with the state at its end. -/
def fieldNames : List (Text × HeaderState) := [
  (ascii "connection", .connection), (ascii "proxy-connection", .connection),
  (ascii "content-length", .contentLength), (ascii "transfer-encoding", .transferEncoding),
  (ascii "upgrade", .upgrade)]

/-! ## How far a name was read -/

/-- The name was read as far as `pre`, from `least` letters on, and not to its end. -/
structure Inside (name : Text) (least : Nat) (pre : Text) (index : Nat) : Prop where
  isPrefix : pre <+: name
  index : pre.length = index + 1
  least : least ≤ pre.length
  short : pre.length < name.length

/-- What a state says of the letters that were read, in lower case. -/
def Spelled (pre : Text) (index : Nat) : HeaderState → Prop
  | .general => ∀ e ∈ fieldNames, ¬ pre <+: e.1
  | .c => pre = ascii "c" ∧ index = 0
  | .co => pre = ascii "co" ∧ index = 1
  | .con => pre = ascii "con" ∧ index = 2
  | .matchingConnection => Inside (ascii "connection") 4 pre index
  | .matchingProxyConnection => Inside (ascii "proxy-connection") 1 pre index
  | .matchingContentLength => Inside (ascii "content-length") 4 pre index
  | .matchingTransferEncoding => Inside (ascii "transfer-encoding") 1 pre index
  | .matchingUpgrade => Inside (ascii "upgrade") 1 pre index
  | .connection => pre = ascii "connection" ∨ pre = ascii "proxy-connection"
  | .contentLength => pre = ascii "content-length"
  | .transferEncoding => pre = ascii "transfer-encoding"
  | .upgrade => pre = ascii "upgrade"
  | _ => False

/-- The parser with another index. -/
def HttpParser.reindex (p : HttpParser) (n : Nat) : HttpParser := { p with index := n }

section Letters

variable {p : HttpParser} {pre name : Text} {ch c : UInt8} {least index : Nat}

/-- Another name cannot be meant from `least` letters on. -/
def Unique (name : Text) (least : Nat) : Prop :=
  ∀ n < name.length, least ≤ n → ∀ e ∈ fieldNames, name.take n <+: e.1 → e.1 = name

instance (name : Text) (least : Nat) : Decidable (Unique name least) :=
  inferInstanceAs (Decidable (∀ n < name.length, least ≤ n → ∀ e ∈ fieldNames, _))

theorem Inside.take_eq (h : Inside name least pre index) : pre = name.take pre.length :=
  List.prefix_iff_eq_take.mp h.isPrefix

theorem prefix_snoc {t : Text} (h : pre ++ [c] <+: t) : pre <+: t ∧ t[pre.length]? = some c := by
  refine ⟨(List.prefix_append pre [c]).trans h, ?_⟩
  obtain ⟨rest, rfl⟩ := h
  simp

/-- A letter that none of the names has next leads to no name. -/
theorem prefix_other (next : List UInt8)
    (hnext : ∀ e ∈ fieldNames, pre <+: e.1 → ∃ d ∈ next, e.1[pre.length]? = some d)
    (hc : c ∉ next) : ∀ e ∈ fieldNames, ¬ pre ++ [c] <+: e.1 := by
  intro e he hprefix
  obtain ⟨hpre, hat⟩ := prefix_snoc hprefix
  obtain ⟨d, hd, hat'⟩ := hnext e he hpre
  obtain rfl := Option.some.inj (hat.symm.trans hat')
  exact hc hd

/-- A letter that is not the next one of the name leads to no name. -/
theorem Inside.other (h : Inside name least pre index) (hunique : Unique name least)
    (hc : name[pre.length]? ≠ some c) : ∀ e ∈ fieldNames, ¬ pre ++ [c] <+: e.1 := by
  intro e he hprefix
  obtain ⟨hpre, hat⟩ := prefix_snoc hprefix
  rw [h.take_eq] at hpre
  have heq : e.1 = name := hunique _ h.short h.least e he hpre
  exact hc (heq ▸ hat)

/-- The next letter of the name. -/
theorem Inside.next (h : Inside name least pre index) (hc : name[pre.length]? = some c) :
    pre ++ [c] <+: name := by
  obtain ⟨hlt, rfl⟩ := List.getElem?_eq_some_iff.mp hc
  have htake : pre ++ [name[pre.length]] = name.take (pre.length + 1) := by
    rw [List.take_succ_eq_append_getElem hlt, ← h.take_eq]
  rw [htake]
  exact List.take_prefix _ _

theorem matchName_spelled (waiting complete : HeaderState) (hlen : name.length < 100)
    (hunique : Unique name least) (h : Inside name least pre p.index) :
    ∃ h', matchName name waiting complete .general p c = some (p.nextIndex, h') ∧
      ((h' = complete ∧ pre ++ [c] = name) ∨
        (h' = waiting ∧ Inside name least (pre ++ [c]) p.nextIndex.index) ∨
        (h' = .general ∧ ∀ e ∈ fieldNames, ¬ pre ++ [c] <+: e.1)) := by
  have hindex : p.nextIndex.index = pre.length := by
    have hlt := h.short
    rw [nextIndex_index (by have := h.index; omega), h.index]
  have hlt : p.nextIndex.index < (name ++ [0]).length := by
    have := h.short
    rw [hindex, List.length_append]
    omega
  have hat : (name ++ [0])[p.nextIndex.index] = name.get ⟨pre.length, h.short⟩ := by
    simp only [hindex]
    exact List.getElem_append_left h.short
  unfold matchName
  simp only
  rw [if_neg (by have := h.short; omega), List.getElem?_eq_getElem hlt, hat]
  simp only [Option.bind_eq_bind, Option.bind_some]
  have hsome : name[pre.length]? = some (name.get ⟨pre.length, h.short⟩) :=
    List.getElem?_eq_getElem h.short
  by_cases hother : c ≠ name.get ⟨pre.length, h.short⟩
  · rw [if_pos hother]
    refine ⟨_, rfl, Or.inr (Or.inr ⟨rfl, h.other hunique ?_⟩)⟩
    rw [hsome]
    exact fun heq => hother (Option.some.inj heq).symm
  · rw [not_not] at hother
    rw [if_neg (by simpa using hother)]
    have hprefix := h.next (hother ▸ hsome)
    have hlength : (pre ++ [c]).length = pre.length + 1 := by simp
    by_cases hend : p.nextIndex.index = name.length - 1
    · rw [if_pos hend]
      refine ⟨_, rfl, Or.inl ⟨rfl, hprefix.eq_of_length ?_⟩⟩
      have := h.short
      omega
    · rw [if_neg hend]
      refine ⟨_, rfl, Or.inr (Or.inl ⟨rfl, hprefix, ?_, ?_, ?_⟩)⟩
      · rw [hlength, hindex]
      · have := h.least
        omega
      · have := h.short
        omega

/-- A name is followed by a letter: it is another name then. -/
theorem longer_spelled (hpre : ∃ e ∈ fieldNames, pre = e.1) (index : Nat) :
    Spelled (pre ++ [c]) index .general := by
  obtain ⟨e, he, rfl⟩ := hpre
  have hlonger : ∀ e ∈ fieldNames, ∀ d ∈ fieldNames, e.1 <+: d.1 → e.1.length = d.1.length := by
    decide
  intro d hd hprefix
  have hlength := hlonger e he d hd ((List.prefix_append e.1 [c]).trans hprefix)
  have := hprefix.length_le
  rw [List.length_append, List.length_singleton] at this
  omega

/-- One letter of a name. -/
theorem fieldChar_spelled (hch : ch ≠ 32) (h : Spelled pre p.index p.headerState) :
    ∃ q h', fieldChar p ch c = some (q, h') ∧ q = p.reindex q.index ∧
      Spelled (pre ++ [c]) q.index h' := by
  have hnext : ∀ n < 10, p.index = n → p.nextIndex.index = n + 1 := by
    intro n hn hindex
    rw [nextIndex_index (by omega), hindex]
  have hmatch : ∀ (name : Text) (least : Nat) (waiting complete : HeaderState),
      name.length < 100 → Unique name least → Inside name least pre p.index →
      (∀ n, Spelled name n complete) →
      (∀ t n, Inside name least t n → Spelled t n waiting) →
      ∃ q h', matchName name waiting complete .general p c = some (q, h') ∧
        q = p.reindex q.index ∧ Spelled (pre ++ [c]) q.index h' := by
    intro name least waiting complete hlen hunique hinside hcomplete hwaiting
    obtain ⟨h', heq, hcases⟩ := matchName_spelled waiting complete hlen hunique hinside (c := c)
    refine ⟨p.nextIndex, h', heq, rfl, ?_⟩
    rcases hcases with ⟨rfl, hname⟩ | ⟨rfl, hinside'⟩ | ⟨rfl, hother⟩
    · rw [hname]
      exact hcomplete _
    · exact hwaiting _ _ hinside'
    · exact hother
  unfold fieldChar
  cases hh : p.headerState with
  | general =>
    rw [hh] at h
    exact ⟨p, _, rfl, rfl, fun e he hprefix => h e he ((List.prefix_append pre [c]).trans hprefix)⟩
  | c =>
    rw [hh] at h
    obtain ⟨rfl, hindex⟩ := h
    refine ⟨p.nextIndex, _, rfl, rfl, ?_⟩
    split_ifs with ho
    · exact ⟨by rw [ho]; decide, hnext 0 (by omega) hindex⟩
    · exact prefix_other [111] (by decide) (by simpa using ho)
  | co =>
    rw [hh] at h
    obtain ⟨rfl, hindex⟩ := h
    refine ⟨p.nextIndex, _, rfl, rfl, ?_⟩
    split_ifs with hn
    · exact ⟨by rw [hn]; decide, hnext 1 (by omega) hindex⟩
    · exact prefix_other [110] (by decide) (by simpa using hn)
  | con =>
    rw [hh] at h
    obtain ⟨rfl, hindex⟩ := h
    have hindex' := hnext 2 (by omega) hindex
    refine ⟨p.nextIndex, _, rfl, rfl, ?_⟩
    split_ifs with hn ht
    · rw [hindex', hn]
      exact ⟨by decide, by decide, by decide, by decide⟩
    · rw [hindex', ht]
      exact ⟨by decide, by decide, by decide, by decide⟩
    · exact prefix_other [110, 116] (by decide) (by simp [hn, ht])
  | matchingConnection =>
    rw [hh] at h
    exact hmatch _ 4 _ _ (by decide) (by decide) h (fun _ => Or.inl rfl) fun _ _ h => h
  | matchingProxyConnection =>
    rw [hh] at h
    exact hmatch _ 1 _ _ (by decide) (by decide) h (fun _ => Or.inr rfl) fun _ _ h => h
  | matchingContentLength =>
    rw [hh] at h
    exact hmatch _ 4 _ _ (by decide) (by decide) h (fun _ => rfl) fun _ _ h => h
  | matchingTransferEncoding | matchingUpgrade =>
    rw [hh] at h
    exact hmatch _ 1 _ _ (by decide) (by decide) h (fun _ => rfl) fun _ _ h => h
  | connection =>
    rw [hh] at h
    simp only
    rw [if_pos hch]
    refine ⟨p, _, rfl, rfl, longer_spelled ?_ _⟩
    rcases h with rfl | rfl <;> decide
  | contentLength | transferEncoding | upgrade =>
    rw [hh] at h
    simp only
    rw [if_pos hch]
    refine ⟨p, _, rfl, rfl, longer_spelled ?_ _⟩
    simp only [Spelled] at h
    rw [h]
    decide
  | _ => simp [hh, Spelled] at h

/-- The rest of a name, up to the character behind it. -/
theorem scanField_spelled {name rest : Text} (hname : ∀ c ∈ name, token c ≠ 0)
    (hrest : ∀ c more, rest = c :: more → token c = 0) (h : Spelled pre p.index p.headerState) :
    ∃ q, scanField p (name ++ rest) = some (q, name.length) ∧
      q = { p.reindex q.index with headerState := q.headerState } ∧
      Spelled (pre ++ name.map token) q.index q.headerState := by
  induction name generalizing p pre with
  | nil =>
    refine ⟨p, ?_, rfl, by simpa using h⟩
    cases rest with
    | nil => rfl
    | cons c more => simp [scanField, hrest c more rfl]
  | cons ch name ih =>
    have htoken : token ch ≠ 0 := hname ch (by simp)
    have hch : ch ≠ 32 := by
      rintro rfl
      exact htoken (by decide)
    obtain ⟨q, h', hchar, hq, hspelled⟩ := @fieldChar_spelled p pre ch (token ch) hch h
    obtain ⟨r, hscan, hr, hspelled'⟩ := @ih { q with headerState := h' } (pre ++ [token ch])
      (fun c hc => hname c (by simp [hc])) hspelled
    refine ⟨r, ?_, ?_, by simpa using hspelled'⟩
    · rw [List.cons_append]
      unfold scanField
      simp [htoken, hchar, hscan]
    · rw [hr, hq]
      rfl

/-- The first letter. -/
theorem first_spelled (c : UInt8) : Spelled [c] 0 (firstHeaderState c) := by
  unfold firstHeaderState
  split_ifs with hc hp ht hu
  · rw [hc]
    exact ⟨by decide, rfl⟩
  · rw [hp]
    exact ⟨by decide, rfl, by decide, by decide⟩
  · rw [ht]
    exact ⟨by decide, rfl, by decide, by decide⟩
  · rw [hu]
    exact ⟨by decide, rfl, by decide, by decide⟩
  · exact @prefix_other [] c [99, 112, 116, 117] (by decide) (by simp [hc, hp, ht, hu])

/-- A name that is not read to its end is none of the names. -/
theorem Inside.not_mem (h : Inside name least pre index) (hname : name ∈ fieldNames.map Prod.fst)
    (k : HeaderState) : (pre, k) ∉ fieldNames := by
  intro hmem
  have hlonger : ∀ e ∈ fieldNames, ∀ d ∈ fieldNames.map Prod.fst, e.1 <+: d →
      e.1.length = d.length := by decide
  have hlength := hlonger _ hmem _ hname h.isPrefix
  have := h.short
  simp only at hlength
  omega

/-- At the end of a name, the state tells which one it is. -/
theorem spelled_iff {h k : HeaderState} (hspelled : Spelled pre index h)
    (hk : k ∈ fieldNames.map Prod.snd) : h = k ↔ (pre, k) ∈ fieldNames := by
  have hnone : h ∉ fieldNames.map Prod.snd → (pre, k) ∉ fieldNames → (h = k ↔ (pre, k) ∈ fieldNames) :=
    fun hh hpre => ⟨fun heq => absurd (heq ▸ hk) hh, fun hmem => absurd hmem hpre⟩
  have hkinds : ∀ k ∈ fieldNames.map Prod.snd, k = .connection ∨ k = .contentLength ∨
      k = .transferEncoding ∨ k = .upgrade := by decide
  cases h with
  | general => exact hnone (by decide) fun hmem => hspelled _ hmem (List.prefix_refl _)
  | c | co | con =>
    obtain ⟨rfl, -⟩ := hspelled
    refine hnone (by decide) ?_
    rcases hkinds k hk with rfl | rfl | rfl | rfl <;> decide
  | matchingConnection | matchingProxyConnection | matchingContentLength
  | matchingTransferEncoding | matchingUpgrade =>
    exact hnone (by decide) (Inside.not_mem hspelled (by decide) k)
  | connection =>
    rcases hspelled with rfl | rfl <;> rcases hkinds k hk with rfl | rfl | rfl | rfl <;> decide
  | contentLength | transferEncoding | upgrade =>
    simp only [Spelled] at hspelled
    subst hspelled
    rcases hkinds k hk with rfl | rfl | rfl | rfl <;> decide
  | _ => exact absurd hspelled (by simp [Spelled])

theorem headerFieldStart_letter (hch : token ch ≠ 0) :
    headerFieldStart p ch = { p with
      index := 0
      state := .headerField
      headerState := firstHeaderState (token ch) }.next [.mark .headerField] := by
  have hcr : ch ≠ CR := by
    rintro rfl
    exact hch (by decide)
  have hlf : ch ≠ LF := by
    rintro rfl
    exact hch (by decide)
  unfold headerFieldStart
  rw [if_neg hcr, if_neg hlf, if_neg hch]

/-- A name in a header means something to the parser exactly if it is one of the five, in upper or
lower case, whatever comes behind it and whatever came before. -/
theorem names_recognized (p : HttpParser) {ch : UInt8} {name rest : Text} (hch : token ch ≠ 0)
    (hname : ∀ c ∈ name, token c ≠ 0) (hrest : ∀ c more, rest = c :: more → token c = 0) :
    ∃ q, scanField (headerFieldStart p ch).parser (name ++ rest) = some (q, name.length) ∧
      ∀ k ∈ fieldNames.map Prod.snd,
        q.headerState = k ↔ ((ch :: name).map token, k) ∈ fieldNames := by
  rw [headerFieldStart_letter hch]
  obtain ⟨q, hscan, -, hspelled⟩ := scanField_spelled hname hrest
    (p := { p with index := 0, state := .headerField, headerState := firstHeaderState (token ch) })
    (first_spelled (token ch))
  exact ⟨q, hscan, fun k hk => spelled_iff hspelled hk⟩

theorem names_recognized_length :
    ∃ q, scanField (headerFieldStart .init 67).parser (ascii "ONTENT-length" ++ ascii ": 3") =
        some (q, (ascii "ONTENT-length").length) ∧
      ∀ k ∈ fieldNames.map Prod.snd,
        q.headerState = k ↔ ((67 :: ascii "ONTENT-length").map token, k) ∈ fieldNames :=
  names_recognized .init (by decide) (by decide +kernel) (by
    rintro c more heq
    obtain ⟨rfl, -⟩ := List.cons.inj heq
    decide)

end Letters

end huasi.http_execute
