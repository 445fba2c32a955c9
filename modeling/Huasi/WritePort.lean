-- Composed writes on one port. Each write is a row of partial transfers that
-- queue on the port one at a time, and each transfer reads the memory of the
-- buffer when it runs. Where no write starts before the last one is complete,
-- the bytes on the line are whole messages; and so they are where every write
-- has its own buffer, and moves bytes only when the earlier writes have none left.
import Mathlib.Data.List.Basic
import Mathlib.Data.List.Infix
import Mathlib.Data.List.Perm.Basic
import Mathlib.Logic.Function.Basic
import Mathlib.Tactic.Tauto

namespace huasi.write_port

/-- One composed write. `message` is what its buffer held when the write started. -/
structure Write (ι β : Type) where
  source : ι
  size : Nat
  total : Nat
  message : List β

/-- The port: the writes whose next transfer waits in the queue of the port, the writes whose
last transfer is over but not yet completed, the bytes on the line, and the messages of all
writes that started. -/
structure Port (ι β : Type) where
  queue : List (Write ι β)
  moved : List (Write ι β)
  sent : List β
  started : List (List β)

variable {ι β : Type}

def Port.empty : Port ι β := ⟨[], [], [], []⟩

/-- The writes that have not completed. -/
def Port.incomplete (p : Port ι β) : List (Write ι β) := p.queue ++ p.moved

/-- Start a write of the first `size` bytes of a buffer. -/
def Port.asyncWrite (memory : ι → List β) (source : ι) (size : Nat) (p : Port ι β) : Port ι β :=
  { p with
    queue := p.queue ++ [⟨source, size, 0, (memory source).take size⟩]
    started := p.started ++ [(memory source).take size] }

/-- The first transfer in the queue moves `k` of the bytes that its write has left. Nothing
happens where the port cannot move so many. -/
def Port.transfer (memory : ι → List β) (k : Nat) (p : Port ι β) : Port ι β :=
  match p.queue with
  | [] => p
  | w :: rest =>
    if (0 < k ∨ w.size = 0) ∧ w.total + k ≤ w.size then
      { p with
        queue := rest
        moved := p.moved ++ [{ w with total := w.total + k }]
        sent := p.sent ++ ((memory w.source).drop w.total).take k }
    else p

/-- The completion of a transfer: the write queues its next one, or it is complete. -/
def Port.completion (i : Nat) (p : Port ι β) : Port ι β :=
  match p.moved[i]? with
  | none => p
  | some w =>
    { p with
      queue := if w.total < w.size then p.queue ++ [w] else p.queue
      moved := p.moved.eraseIdx i }

section Started

variable (memory : ι → List β) (p : Port ι β)

/-- Only the start of a write hands a message to the port. -/
@[simp] theorem transfer_started (k : Nat) : (p.transfer memory k).started = p.started := by
  unfold Port.transfer
  split
  · rfl
  · split <;> rfl

@[simp] theorem completion_started (i : Nat) : (p.completion i).started = p.started := by
  unfold Port.completion
  split <;> rfl

end Started

/-- What a write has left of its message. -/
def Write.rest (w : Write ι β) : List β := w.message.drop w.total

/-- One write at a time: the buffer of the write in progress still holds its message, and the
line lacks only the rest of it. -/
structure Orderly (memory : ι → List β) (p : Port ι β) : Prop where
  one : p.incomplete.length ≤ 1
  kept : ∀ w ∈ p.incomplete, (memory w.source).take w.size = w.message ∧ w.total ≤ w.size
  line : p.sent ++ p.incomplete.flatMap Write.rest = p.started.flatten

variable {memory memory' : ι → List β} {p : Port ι β}

theorem orderly_empty : Orderly memory (.empty : Port ι β) :=
  ⟨by simp [Port.empty, Port.incomplete], by simp [Port.empty, Port.incomplete],
    by simp [Port.empty, Port.incomplete]⟩

/-- The bytes on the line are the first bytes of whole messages. -/
theorem Orderly.sent_whole (h : Orderly memory p) : p.sent <+: p.started.flatten :=
  ⟨_, h.line⟩

@[simp] theorem incomplete_asyncWrite (source : ι) (size : Nat) :
    (p.asyncWrite memory source size).incomplete.length = p.incomplete.length + 1 := by
  simp [Port.asyncWrite, Port.incomplete]
  omega

theorem incomplete_transfer (memory : ι → List β) (p : Port ι β) (k : Nat) :
    (p.transfer memory k).incomplete.length = p.incomplete.length := by
  unfold Port.transfer
  split
  · rfl
  · rename_i w rest hq
    split
    · simp [Port.incomplete, hq]
      omega
    · rfl

theorem incomplete_completion (i : Nat) :
    (p.completion i).incomplete.length ≤ p.incomplete.length := by
  unfold Port.completion
  split
  · rfl
  · rename_i w hw
    obtain ⟨hlt, -⟩ := List.getElem?_eq_some_iff.mp hw
    have hlen := List.length_eraseIdx_of_lt hlt
    simp only [Port.incomplete, List.length_append, hlen]
    split
    · simp
      omega
    · omega

/-- Only the buffer of the write in progress matters. -/
theorem Orderly.of_memory (h : Orderly memory p)
    (hm : ∀ w ∈ p.incomplete, memory' w.source = memory w.source) : Orderly memory' p :=
  ⟨h.one, fun w hw => by rw [hm w hw]; exact h.kept w hw, h.line⟩

/-- A write that starts alone keeps the order. -/
theorem Orderly.asyncWrite (h : Orderly memory p) (source : ι) (size : Nat)
    (halone : p.incomplete = []) : Orderly memory (p.asyncWrite memory source size) := by
  have hq : p.queue = [] := (List.append_eq_nil_iff.mp halone).1
  have hm : p.moved = [] := (List.append_eq_nil_iff.mp halone).2
  have hline := h.line
  simp only [halone, List.flatMap_nil, List.append_nil] at hline
  refine ⟨?_, ?_, ?_⟩
  · simp [Port.asyncWrite, Port.incomplete, hq, hm]
  · intro w hw
    simp only [Port.asyncWrite, Port.incomplete, hq, hm, List.nil_append, List.append_nil,
      List.mem_singleton] at hw
    subst hw
    exact ⟨rfl, Nat.zero_le _⟩
  · simp [Port.asyncWrite, Port.incomplete, hq, hm, hline, Write.rest]

/-- A write that is the only one is the whole list of them. -/
theorem Orderly.alone (h : Orderly memory p) {w : Write ι β} {l m : List (Write ι β)}
    (hw : p.incomplete = l ++ w :: m) : l = [] ∧ m = [] := by
  have hone := h.one
  rw [hw, List.length_append, List.length_cons] at hone
  exact ⟨List.length_eq_zero_iff.mp (by omega), List.length_eq_zero_iff.mp (by omega)⟩

theorem Orderly.transfer (h : Orderly memory p) (k : Nat) :
    Orderly memory (p.transfer memory k) := by
  have hcount := incomplete_transfer memory p k
  revert hcount
  unfold Port.transfer
  split
  · exact fun _ => h
  · rename_i w rest hq
    split
    · rename_i hk
      intro hcount
      obtain ⟨-, hright⟩ := h.alone (w := w) (l := []) (m := rest ++ p.moved)
        (by simp [Port.incomplete, hq])
      obtain ⟨rfl, hm⟩ := List.append_eq_nil_iff.mp hright
      have hinc : p.incomplete = [w] := by simp [Port.incomplete, hq, hm]
      obtain ⟨hmem, htotal⟩ := h.kept w (by simp [hinc])
      have hline := h.line
      rw [hinc] at hline
      -- the bytes that move are the next bytes of the message
      have hmove : ((memory w.source).drop w.total).take k =
          (w.message.drop w.total).take k := by
        rw [← hmem, List.drop_take, List.take_take, Nat.min_eq_left (by omega)]
      refine ⟨?_, ?_, ?_⟩
      · rw [hcount]
        exact h.one
      · intro v hv
        simp only [Port.incomplete, hm, List.nil_append, List.mem_singleton] at hv
        subst hv
        exact ⟨hmem, hk.2⟩
      · simp only [Port.incomplete, hm, List.nil_append, List.flatMap_cons, List.flatMap_nil,
          List.append_nil, Write.rest, hmove, List.append_assoc]
        rw [← hline]
        simp only [List.flatMap_cons, List.flatMap_nil, List.append_nil, Write.rest]
        rw [← List.drop_drop, List.take_append_drop]
    · exact fun _ => h

theorem Orderly.completion (h : Orderly memory p) (i : Nat) :
    Orderly memory (p.completion i) := by
  have hcount := incomplete_completion (p := p) i
  revert hcount
  unfold Port.completion
  split
  · exact fun _ => h
  · rename_i w hw
    intro hcount
    obtain ⟨hlt, hget⟩ := List.getElem?_eq_some_iff.mp hw
    have hsplit : p.moved = p.moved.take i ++ w :: p.moved.drop (i + 1) := by
      rw [← hget, List.getElem_cons_drop, List.take_append_drop]
    obtain ⟨hleft, hright⟩ := h.alone (w := w) (l := p.queue ++ p.moved.take i)
      (m := p.moved.drop (i + 1)) (by
        rw [Port.incomplete, List.append_assoc]
        exact congrArg (p.queue ++ ·) hsplit)
    obtain ⟨hq, hl⟩ := List.append_eq_nil_iff.mp hleft
    rw [hl, hright, List.nil_append] at hsplit
    have herase : p.moved.eraseIdx i = [] := by
      rw [hsplit, List.length_singleton] at hlt
      rw [hsplit, show i = 0 by omega]
      rfl
    have hinc : p.incomplete = [w] := by simp [Port.incomplete, hq, hsplit]
    obtain ⟨hmem, htotal⟩ := h.kept w (by simp [hinc])
    have hline := h.line
    rw [hinc] at hline
    refine ⟨hcount.trans h.one, ?_, ?_⟩
    · intro v hv
      simp only [Port.incomplete, herase, hq, List.nil_append, List.append_nil] at hv
      split at hv
      · rw [List.mem_singleton] at hv
        subst hv
        exact ⟨hmem, htotal⟩
      · simp at hv
    · simp only [Port.incomplete, herase, hq, List.nil_append, List.append_nil]
      rw [← hline]
      split
      · rfl
      · -- a write with nothing left to move has nothing left of its message
        have hnone : w.rest = [] := by
          rw [Write.rest, ← hmem]
          apply List.drop_eq_nil_of_le
          have := List.length_take_le w.size (memory w.source)
          omega
        simp [hnone]

/-! ## Several writes at once -/

section Numbered

variable {number : ι → Nat} {left : Nat → List β}

/-- What the incomplete writes have left, by the number of their buffer, is what the line lacks:
the rests come in the order of the numbers. -/
structure Numbered (number : ι → Nat) (memory : ι → List β) (p : Port ι β)
    (left : Nat → List β) : Prop where
  nodup : (p.incomplete.map fun w => number w.source).Nodup
  old : ∀ w ∈ p.incomplete, number w.source < p.started.length
  kept : ∀ w ∈ p.incomplete, memory w.source = w.message ∧ w.message.length = w.size
  rest : ∀ w ∈ p.incomplete, left (number w.source) = w.rest
  done : ∀ n, (∀ w ∈ p.incomplete, number w.source ≠ n) → left n = []
  line : p.sent ++ (List.range p.started.length).flatMap left = p.started.flatten

theorem numbered_empty : Numbered number memory (.empty : Port ι β) fun _ => [] := by
  constructor <;> simp [Port.empty, Port.incomplete]

theorem Numbered.sent_prefix (h : Numbered number memory p left) :
    p.sent <+: p.started.flatten :=
  ⟨_, h.line⟩

/-- A write takes the next number. -/
theorem Numbered.asyncWrite (h : Numbered number memory p left) (source : ι)
    (hnumber : number source = p.started.length) :
    Numbered number memory (p.asyncWrite memory source (memory source).length)
      (Function.update left p.started.length (memory source)) := by
  have hinc : ∀ w, w ∈ (p.asyncWrite memory source (memory source).length).incomplete ↔
      w ∈ p.incomplete ∨ w = ⟨source, (memory source).length, 0, memory source⟩ := by
    intro w
    simp only [Port.asyncWrite, Port.incomplete, List.mem_append, List.mem_singleton,
      List.take_length]
    tauto
  have hne : ∀ w ∈ p.incomplete, number w.source ≠ p.started.length :=
    fun w hw => Nat.ne_of_lt (h.old w hw)
  have hperm : (p.asyncWrite memory source (memory source).length).incomplete.Perm
      (⟨source, (memory source).length, 0, memory source⟩ :: p.incomplete) := by
    simp only [Port.asyncWrite, Port.incomplete, List.take_length, List.append_assoc]
    exact List.perm_middle
  constructor
  · rw [(hperm.map _).nodup_iff, List.map_cons, List.nodup_cons]
    refine ⟨?_, h.nodup⟩
    rw [List.mem_map]
    rintro ⟨w, hw, heq⟩
    exact hne w hw (heq.trans hnumber)
  · intro w hw
    rw [hinc] at hw
    simp only [Port.asyncWrite, List.length_append, List.length_singleton]
    rcases hw with hw | rfl
    · exact Nat.lt_succ_of_lt (h.old w hw)
    · simp [hnumber]
  · intro w hw
    rcases (hinc w).mp hw with hw | rfl
    · exact h.kept w hw
    · exact ⟨rfl, rfl⟩
  · intro w hw
    rcases (hinc w).mp hw with hw | rfl
    · rw [Function.update_of_ne (hne w hw)]
      exact h.rest w hw
    · simp [hnumber, Write.rest]
  · intro n hn
    have hself := hn _ ((hinc _).mpr (Or.inr rfl))
    rw [Function.update_of_ne (by rw [← hnumber]; exact Ne.symm hself)]
    exact h.done n fun w hw => hn w ((hinc w).mpr (Or.inl hw))
  · have hcongr : (List.range p.started.length).flatMap
        (Function.update left p.started.length (memory source)) =
        (List.range p.started.length).flatMap left :=
      List.flatMap_congr fun n hn => by
        rw [Function.update_of_ne (Nat.ne_of_lt (List.mem_range.mp hn))]
    simp only [Port.asyncWrite, List.length_append, List.length_singleton, List.range_succ,
      List.flatMap_append, hcongr, List.flatMap_cons, List.flatMap_nil, Function.update_self,
      List.flatten_append, List.flatten_cons, List.flatten_nil, List.append_nil,
      List.take_length]
    rw [← List.append_assoc, h.line]

/-- Where nothing is left before `n`, the first bytes left at `n` are the first of all. -/
theorem flatMap_range_update {n N : Nat} {a b : List β} (hn : n < N)
    (hfirst : a ≠ [] → ∀ m < n, left m = []) (hab : left n = a ++ b) :
    (List.range N).flatMap left = a ++ (List.range N).flatMap (Function.update left n b) := by
  have hbelow : ∀ m, m ≤ n →
      (List.range m).flatMap (Function.update left n b) = (List.range m).flatMap left :=
    fun m hm => List.flatMap_congr fun i hi => by
      rw [Function.update_of_ne (by have := List.mem_range.mp hi; omega)]
  induction N with
  | zero => omega
  | succ N ih =>
    simp only [List.range_succ, List.flatMap_append, List.flatMap_cons, List.flatMap_nil,
      List.append_nil]
    rcases Nat.lt_or_ge n N with h | h
    · rw [ih h, Function.update_of_ne (by omega), List.append_assoc]
    · obtain rfl : n = N := by omega
      rw [hbelow n (Nat.le_refl n), Function.update_self, hab]
      by_cases ha : a = []
      · rw [ha, List.nil_append, List.nil_append]
      · have hnil : (List.range n).flatMap left = [] :=
          List.flatMap_eq_nil_iff.mpr fun m hm => hfirst ha m (List.mem_range.mp hm)
        rw [hnil, List.nil_append, List.nil_append]

/-- A transfer keeps the order, if nothing is left of the writes with smaller numbers. -/
theorem Numbered.transfer (h : Numbered number memory p left) (k : Nat)
    (hturn : ∀ w ∈ p.queue.head?, 0 < k → w.total + k ≤ w.size →
      ∀ v ∈ p.incomplete, number v.source < number w.source → v.rest = []) :
    ∃ left', Numbered number memory (p.transfer memory k) left' := by
  unfold Port.transfer
  split
  · exact ⟨left, h⟩
  · rename_i w rest hq
    split
    · rename_i hk
      have hinc : p.incomplete = w :: (rest ++ p.moved) := by simp [Port.incomplete, hq]
      have hw : w ∈ p.incomplete := by simp [hinc]
      have hnodup := h.nodup
      rw [hinc, List.map_cons, List.nodup_cons] at hnodup
      have hne : ∀ v ∈ rest ++ p.moved, number v.source ≠ number w.source :=
        fun v hv heq => hnodup.1 (heq ▸ List.mem_map_of_mem hv)
      have hold : ∀ v ∈ rest ++ p.moved, v ∈ p.incomplete := fun v hv => by
        rw [hinc]
        exact List.mem_cons_of_mem w hv
      have hmem : ∀ v, v ∈ rest ++ (p.moved ++ [{ w with total := w.total + k }]) ↔
          v ∈ rest ++ p.moved ∨ v = { w with total := w.total + k } := by
        intro v
        simp only [List.mem_append, List.mem_singleton]
        tauto
      obtain ⟨hmessage, -⟩ := h.kept w hw
      refine ⟨Function.update left (number w.source) (w.message.drop (w.total + k)), ?_⟩
      constructor
      · have hperm : (rest ++ (p.moved ++ [{ w with total := w.total + k }])).Perm
            ({ w with total := w.total + k } :: (rest ++ p.moved)) := by
          rw [← List.append_assoc]
          exact List.perm_append_singleton _ _
        rw [Port.incomplete, (hperm.map _).nodup_iff, List.map_cons, List.nodup_cons]
        exact hnodup
      · intro v hv
        rcases (hmem v).mp hv with hv | rfl
        · exact h.old v (hold v hv)
        · exact h.old w hw
      · intro v hv
        rcases (hmem v).mp hv with hv | rfl
        · exact h.kept v (hold v hv)
        · exact h.kept w hw
      · intro v hv
        rcases (hmem v).mp hv with hv | rfl
        · rw [Function.update_of_ne (hne v hv)]
          exact h.rest v (hold v hv)
        · simp [Write.rest]
      · intro n hn
        have hself : number w.source ≠ n :=
          hn { w with total := w.total + k } ((hmem _).mpr (Or.inr rfl))
        rw [Function.update_of_ne (Ne.symm hself)]
        refine h.done n fun v hv => ?_
        rw [hinc, List.mem_cons] at hv
        rcases hv with rfl | hv
        · exact hself
        · exact hn v ((hmem v).mpr (Or.inl hv))
      · have hfirst : (w.message.drop w.total).take k ≠ [] →
            ∀ m < number w.source, left m = [] := by
          intro hne' m hm
          have hk0 : 0 < k := by
            by_contra h0
            exact hne' (by simp [Nat.eq_zero_of_not_pos h0])
          by_cases hex : ∃ v ∈ p.incomplete, number v.source = m
          · obtain ⟨v, hv, rfl⟩ := hex
            rw [h.rest v hv]
            exact hturn w (by simp [hq]) hk0 hk.2 v hv hm
          · exact h.done m fun v hv heq => hex ⟨v, hv, heq⟩
        have hsplit : left (number w.source) =
            (w.message.drop w.total).take k ++ w.message.drop (w.total + k) := by
          rw [h.rest w hw, Write.rest, ← List.drop_drop, List.take_append_drop]
        rw [hmessage, List.append_assoc,
          ← flatMap_range_update (h.old w hw) hfirst hsplit, h.line]
    · exact ⟨left, h⟩

/-- A completion keeps the order: the write either goes on, or has nothing left. -/
theorem Numbered.completion (h : Numbered number memory p left) (i : Nat) :
    Numbered number memory (p.completion i) left := by
  unfold Port.completion
  split
  · exact h
  · rename_i w hw
    obtain ⟨hlt, hget⟩ := List.getElem?_eq_some_iff.mp hw
    have hperm : p.incomplete.Perm (w :: (p.queue ++ p.moved.eraseIdx i)) := by
      refine List.Perm.trans ?_ List.perm_middle
      refine List.Perm.append_left p.queue ?_
      rw [← hget]
      exact (List.getElem_cons_eraseIdx_perm hlt).symm
    have hwmem : w ∈ p.incomplete := hperm.mem_iff.mpr List.mem_cons_self
    by_cases hgoes : w.total < w.size
    · simp only [hgoes, if_true]
      have hperm' : p.incomplete.Perm ((p.queue ++ [w]) ++ p.moved.eraseIdx i) := by
        rw [List.append_assoc, List.singleton_append]
        exact hperm.trans List.perm_middle.symm
      exact ⟨((hperm'.map _).nodup_iff).mp h.nodup,
        fun v hv => h.old v (hperm'.mem_iff.mpr hv), fun v hv => h.kept v (hperm'.mem_iff.mpr hv),
        fun v hv => h.rest v (hperm'.mem_iff.mpr hv),
        fun n hn => h.done n fun v hv => hn v (hperm'.mem_iff.mp hv), h.line⟩
    · simp only [hgoes, if_false]
      have hnone : w.rest = [] := by
        rw [Write.rest]
        apply List.drop_eq_nil_of_le
        have := (h.kept w hwmem).2
        omega
      have hnodup := ((hperm.map _).nodup_iff).mp h.nodup
      rw [List.map_cons, List.nodup_cons] at hnodup
      have hsub : ∀ v ∈ p.queue ++ p.moved.eraseIdx i, v ∈ p.incomplete :=
        fun v hv => hperm.mem_iff.mpr (List.mem_cons_of_mem w hv)
      refine ⟨hnodup.2, fun v hv => h.old v (hsub v hv), fun v hv => h.kept v (hsub v hv),
        fun v hv => h.rest v (hsub v hv), fun n hn => ?_, h.line⟩
      by_cases hwn : number w.source = n
      · rw [← hwn, h.rest w hwmem, hnone]
      · refine h.done n fun v hv => ?_
        rcases List.mem_cons.mp (hperm.mem_iff.mp hv) with rfl | hv
        · exact hwn
        · exact hn v hv

end Numbered

end huasi.write_port
