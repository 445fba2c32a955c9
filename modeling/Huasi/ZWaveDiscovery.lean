-- Node discovery: the response to `DiscoverNodesRequest` (src/src/zwave/ZWaveNetwork.cpp)
-- holds a bitmap of the nodes, and each node is asked for its information. The number of
-- bytes comes from the payload and is not compared with its length.
import Mathlib.Algebra.Group.Nat.Defs
import Mathlib.Data.List.GetD
import Mathlib.Data.List.Range
import Huasi.ZWaveRequests

namespace huasi.zwave

/-! ## The response -/

/-- The inner loop over the bits of `b`, for the number of turns given at most. -/
def discoverByte : (turns : Nat) → (nodeId b : UInt8) → Option (List Request)
  | 0, _, b => if b = 0 then some [] else none
  | turns + 1, nodeId, b =>
    if b = 0 then some []
    else do
      let nodeId := nodeId + 1
      let others ← discoverByte turns nodeId (b >>> 1)
      -- node exists
      if b &&& 1 ≠ 0 ∧ nodeId ≠ 1 then some (GetNodeInfoRequest nodeId :: others) else some others

/-- `DiscoverNodesRequest::onResponse`: the requests that it hands to `sendRequest`, in order.
`memory` are the bytes from `data` on, and nothing behind them can be read. -/
def DiscoverNodesRequest.onResponse (memory : List UInt8) (length : Int) :
    Option (List Request) :=
  if 4 ≤ length then do
    let byteCount ← memory[2]?
    (List.range byteCount.toNat).foldlM (fun sent byteIndex => do
      let b ← memory[3 + byteIndex]?
      let nodes ← discoverByte 8 (UInt8.ofNat (byteIndex * 8)) b
      some (sent ++ nodes)) []
  else some []

/-! ## The bitmap -/

/-- The number of bytes that the payload says its bitmap has. -/
def byteCount (payload : List UInt8) : Nat := (payload.getD 2 0).toNat

/-- The bitmap lists the node: bit `j` of its byte `i` stands for node `8 * i + j + 1`. -/
def Listed (payload : List UInt8) (id : Nat) : Prop :=
  ∃ i < byteCount payload, ∃ j < 8, i < payload.length - 3 ∧ id = 8 * i + j + 1 ∧
    (payload.getD (3 + i) 0).toNat.testBit j = true

instance (payload : List UInt8) (id : Nat) : Decidable (Listed payload id) :=
  inferInstanceAs (Decidable (∃ i < _, ∃ j < _, _ ∧ _))

/-- A request for each node that the bitmap lists, other than the controller with the id 1. -/
def expectedRequests (payload : List UInt8) : List Request :=
  ((List.range 256).filter fun id => decide (id ≠ 1 ∧ Listed payload id)).map fun id =>
    GetNodeInfoRequest (UInt8.ofNat id)

/-- The bitmap is within the payload, and a node with an id beyond 255 has the id 1 in a byte. -/
def WithinPayload (payload : List UInt8) : Prop :=
  byteCount payload ≤ payload.length - 3 ∧ ∀ id, Listed payload id → id ≤ 255 ∨ id % 256 = 1

theorem listed_succ_iff {payload : List UInt8} {k : Nat} : Listed payload (k + 1) ↔
    k / 8 < byteCount payload ∧ k / 8 < payload.length - 3 ∧
      (payload.getD (3 + k / 8) 0).toNat.testBit (k % 8) = true := by
  constructor
  · rintro ⟨i, hi, j, hj, hlen, hid, hbit⟩
    obtain rfl : i = k / 8 := by omega
    obtain rfl : j = k % 8 := by omega
    exact ⟨hi, hlen, hbit⟩
  · rintro ⟨hi, hlen, hbit⟩
    exact ⟨k / 8, hi, k % 8, Nat.mod_lt k (by omega), hlen, by omega, hbit⟩

theorem not_listed_zero (payload : List UInt8) : ¬ Listed payload 0 := by
  rintro ⟨i, -, j, -, -, hid, -⟩
  omega

/-! ## The loops -/

/-- What the loops do at bit `k` of the bitmap: the id of the node is a byte. -/
def atBit (memory : List UInt8) (k : Nat) : Option Request :=
  if (memory.getD (3 + k / 8) 0).toNat.testBit (k % 8) = true ∧ (k + 1) % 256 ≠ 1 then
    some (GetNodeInfoRequest (UInt8.ofNat (k + 1)))
  else none

theorem and_one_ne_zero (b : UInt8) : b &&& 1 ≠ 0 ↔ b.toNat.testBit 0 = true := by
  rw [Ne, ← UInt8.toNat_inj, UInt8.toNat_and, Nat.testBit_zero, decide_eq_true_iff]
  change b.toNat &&& 1 ≠ 0 ↔ _
  rw [Nat.and_one_is_mod]
  omega

/-- Eight turns are enough for a byte. -/
theorem discoverByte_eq {turns : Nat} {b : UInt8} (nodeId : UInt8) (h : b.toNat < 2 ^ turns) :
    discoverByte turns nodeId b = some ((List.range turns).filterMap fun j =>
      if b.toNat.testBit j = true ∧ nodeId + UInt8.ofNat (j + 1) ≠ 1 then
        some (GetNodeInfoRequest (nodeId + UInt8.ofNat (j + 1)))
      else none) := by
  induction turns generalizing nodeId b with
  | zero =>
    have hb : b = 0 := UInt8.toNat_inj.mp (by simpa using h)
    rw [discoverByte, if_pos hb]
    rfl
  | succ turns ih =>
    unfold discoverByte
    by_cases hb : b = 0
    · subst hb
      rw [if_pos rfl, eq_comm, Option.some.injEq, List.filterMap_eq_nil_iff]
      intro j _
      simp
    · have hshift : (b >>> 1).toNat = b.toNat / 2 := by
        rw [UInt8.toNat_shiftRight]
        exact Nat.shiftRight_eq_div_pow _ 1
      have hid : ∀ j, nodeId + 1 + UInt8.ofNat (j + 1) = nodeId + UInt8.ofNat (j + 1 + 1) := by
        intro j
        rw [UInt8.add_assoc, UInt8.ofNat_add (j + 1) 1, UInt8.add_comm 1]
        rfl
      have hfirst : nodeId + UInt8.ofNat (0 + 1) = nodeId + 1 := rfl
      have hrest := ih (b := b >>> 1) (nodeId + 1) (by rw [hshift]; omega)
      rw [if_neg hb]
      simp only [hrest, Option.bind_eq_bind, Option.bind_some, List.range_succ_eq_map,
        List.filterMap_cons, List.filterMap_map, and_one_ne_zero, hshift, hid, hfirst,
        ← Nat.testBit_add_one]
      by_cases hfound : b.toNat.testBit 0 = true ∧ nodeId + 1 ≠ 1
      · rw [if_pos hfound, if_pos hfound]
        rfl
      · rw [if_neg hfound, if_neg hfound]
        rfl

/-- One byte of the bitmap. -/
theorem discoverByte_atBit (memory : List UInt8) (i : Nat) :
    discoverByte 8 (UInt8.ofNat (i * 8)) (memory.getD (3 + i) 0) =
      some ((List.range 8).filterMap fun j => atBit memory (8 * i + j)) := by
  rw [discoverByte_eq _ (UInt8.toNat_lt _), Option.some.injEq]
  apply List.filterMap_congr
  intro j hj
  have hj : j < 8 := List.mem_range.mp hj
  have hid : UInt8.ofNat (i * 8) + UInt8.ofNat (j + 1) = UInt8.ofNat (8 * i + j + 1) := by
    rw [← UInt8.ofNat_add]
    congr 1
    omega
  have hone : UInt8.ofNat (8 * i + j + 1) ≠ 1 ↔ (8 * i + j + 1) % 256 ≠ 1 := by
    rw [Ne, ← UInt8.toNat_inj, UInt8.toNat_ofNat']
    rfl
  have hdiv : (8 * i + j) / 8 = i := by omega
  have hmod : (8 * i + j) % 8 = j := by omega
  simp only [atBit, hid, hone, hdiv, hmod]

theorem get_some {memory : List UInt8} {i : Nat} (h : i < memory.length) :
    memory[i]? = some (memory.getD i 0) := by
  rw [List.getD_eq_getElem?_getD, List.getElem?_eq_getElem h]
  rfl

/-- The outer loop over `n` bytes, where they are all there, and else it reads behind them. -/
theorem discover_loop (memory : List UInt8) (h : 3 ≤ memory.length) (n : Nat) :
    (List.range n).foldlM (fun sent byteIndex => do
      let b ← memory[3 + byteIndex]?
      let nodes ← discoverByte 8 (UInt8.ofNat (byteIndex * 8)) b
      some (sent ++ nodes)) [] =
    if 3 + n ≤ memory.length then some ((List.range (8 * n)).filterMap (atBit memory))
    else none := by
  induction n with
  | zero => rw [if_pos h]; rfl
  | succ n ih =>
    rw [List.range_succ, List.foldlM_append, ih]
    by_cases hn : 3 + n < memory.length
    · have hget := get_some hn
      have hbits : (List.range (8 * (n + 1))).filterMap (atBit memory) =
          (List.range (8 * n)).filterMap (atBit memory) ++
            (List.range 8).filterMap fun j => atBit memory (8 * n + j) := by
        rw [Nat.mul_add, List.range_add, List.filterMap_append, List.filterMap_map]
        rfl
      rw [if_pos (by omega), if_pos (by omega), hbits]
      simp only [List.foldlM_cons, List.foldlM_nil, Option.bind_eq_bind, Option.bind_some, hget,
        discoverByte_atBit, Option.pure_def]
    · have hnone : memory[3 + n]? = none := List.getElem?_eq_none_iff.mpr (by omega)
      have hend : ¬ 3 + (n + 1) ≤ memory.length := hn
      rw [if_neg hend]
      by_cases hlast : 3 + n ≤ memory.length
      · rw [if_pos hlast]
        simp [hnone]
      · rw [if_neg hlast]
        rfl

theorem onResponse_eq (memory : List UInt8) {length : Int} (hlen : 4 ≤ length)
    (h : 3 ≤ memory.length) :
    DiscoverNodesRequest.onResponse memory length =
      if 3 + byteCount memory ≤ memory.length then
        some ((List.range (8 * byteCount memory)).filterMap (atBit memory))
      else none := by
  rw [DiscoverNodesRequest.onResponse, if_pos hlen, get_some (show 2 < memory.length by omega)]
  exact discover_loop memory h _

/-- All that a discovery asks for is the information of nodes. -/
theorem asks_for_information {memory : List UInt8} {length : Int} {sent : List Request}
    (h : DiscoverNodesRequest.onResponse memory length = some sent) :
    ∀ r ∈ sent, ∃ nodeId, r = GetNodeInfoRequest nodeId := by
  by_cases hlen : 4 ≤ length
  · have hthree : 3 ≤ memory.length := by
      rw [DiscoverNodesRequest.onResponse, if_pos hlen] at h
      obtain ⟨count, hcount, -⟩ := Option.bind_eq_some_iff.mp h
      exact (List.getElem?_eq_some_iff.mp hcount).1
    rw [onResponse_eq memory hlen hthree] at h
    split at h
    · cases h
      intro r hr
      obtain ⟨k, -, hk⟩ := List.mem_filterMap.mp hr
      unfold atBit at hk
      split at hk
      · exact ⟨_, (Option.some.inj hk).symm⟩
      · cases hk
    · cases h
  · rw [DiscoverNodesRequest.onResponse, if_neg hlen] at h
    cases h
    simp

/-! ## The loops against the bitmap -/

/-- Cutting a row off at `a` instead of `b`, where nothing comes from `b` on. -/
theorem filterMap_range_eq_iff {α : Type} {f : Nat → Option α} {a b : Nat}
    (h : ∀ k, b ≤ k → f k = none) :
    (List.range b).filterMap f = (List.range a).filterMap f ↔ ∀ k, a ≤ k → f k = none := by
  have hsplit : ∀ m n, (List.range (m + n)).filterMap f =
      (List.range m).filterMap f ++ (List.range n).filterMap fun k => f (m + k) := by
    intro m n
    rw [List.range_add, List.filterMap_append, List.filterMap_map]
    rfl
  rcases Nat.le_total a b with hab | hba
  · obtain ⟨n, rfl⟩ := Nat.exists_eq_add_of_le hab
    rw [hsplit, List.append_right_eq_self, List.filterMap_eq_nil_iff]
    constructor
    · intro hnil k hk
      by_cases hkb : k < a + n
      · have := hnil (k - a) (List.mem_range.mpr (by omega))
        rwa [Nat.add_sub_cancel' hk] at this
      · exact h k (by omega)
    · intro hall k _
      exact hall (a + k) (Nat.le_add_right a k)
  · obtain ⟨n, rfl⟩ := Nat.exists_eq_add_of_le hba
    have htail : ((List.range n).filterMap fun k => f (b + k)) = [] := by
      rw [List.filterMap_eq_nil_iff]
      intro k _
      exact h (b + k) (Nat.le_add_right b k)
    rw [hsplit, htail, List.append_nil]
    exact iff_of_true rfl fun k hk => h k (Nat.le_trans hba hk)

/-- What the loops do at a bit of the bitmap, as long as they stay in the payload. -/
def atListed (payload : List UInt8) (k : Nat) : Option Request :=
  if Listed payload (k + 1) ∧ (k + 1) % 256 ≠ 1 then
    some (GetNodeInfoRequest (UInt8.ofNat (k + 1)))
  else none

theorem atBit_eq {payload more : List UInt8} {k : Nat} (hk : k < 8 * byteCount payload)
    (hfit : 3 + byteCount payload ≤ payload.length) :
    atBit (payload ++ more) k = atListed payload k := by
  have hget := List.getD_append payload more 0 (3 + k / 8) (by omega)
  have hi : k / 8 < byteCount payload := by omega
  have hlen : k / 8 < payload.length - 3 := by omega
  simp only [atBit, atListed, hget, listed_succ_iff, hi, hlen, true_and]

theorem expectedRequests_eq (payload : List UInt8) :
    expectedRequests payload = (List.range 255).filterMap (atListed payload) := by
  have hzero : decide (0 ≠ 1 ∧ Listed payload 0) = false := by
    simp [not_listed_zero payload]
  unfold expectedRequests
  rw [List.range_succ_eq_map, List.filter_cons_of_neg (by rw [hzero]; exact Bool.false_ne_true),
    List.filter_map, List.map_map,
    ← List.filterMap_eq_map, List.filterMap_filter]
  apply List.filterMap_congr
  intro k hk
  have hk : k < 255 := List.mem_range.mp hk
  have hid : k.succ ≠ 1 ↔ (k + 1) % 256 ≠ 1 := by
    rw [Nat.mod_eq_of_lt (show k + 1 < 256 by omega)]
  simp only [atListed, Function.comp_apply, decide_eq_true_iff, hid, and_comm]

theorem atListed_none {payload : List UInt8} {k : Nat} (hk : 8 * byteCount payload ≤ k) :
    atListed payload k = none := by
  unfold atListed
  rw [if_neg]
  rintro ⟨hlisted, -⟩
  have hi := (listed_succ_iff.mp hlisted).1
  omega

/-- Nothing is sent beyond the id 255 exactly if what is listed there has the id 1 in a byte. -/
theorem atListed_beyond_iff (payload : List UInt8) :
    (∀ k, 255 ≤ k → atListed payload k = none) ↔
      ∀ id, Listed payload id → id ≤ 255 ∨ id % 256 = 1 := by
  constructor
  · intro hnone id hlisted
    cases id with
    | zero => exact absurd hlisted (not_listed_zero payload)
    | succ k =>
      by_contra hno
      rw [not_or] at hno
      have hk := hnone k (by omega)
      rw [atListed, if_pos ⟨hlisted, hno.2⟩] at hk
      cases hk
  · intro hall k hk
    rw [atListed, if_neg]
    rintro ⟨hlisted, hno⟩
    rcases hall _ hlisted with hle | hone
    · omega
    · exact hno hone

/-- For every payload with a bitmap, whatever follows it in memory, the response asks for exactly
the listed nodes if and only if the bitmap is within the payload and no id beyond 255 is listed,
other than those that are 1 in a byte. -/
theorem discovery_follows_bitmap_iff (payload : List UInt8) (h : 4 ≤ payload.length) :
    (∀ more, DiscoverNodesRequest.onResponse (payload ++ more) payload.length =
        some (expectedRequests payload)) ↔ WithinPayload payload := by
  have hcount : ∀ more, byteCount (payload ++ more) = byteCount payload := by
    intro more
    unfold byteCount
    rw [List.getD_append payload more 0 2 (by omega)]
  have heq : ∀ more, DiscoverNodesRequest.onResponse (payload ++ more) payload.length =
      if 3 + byteCount payload ≤ (payload ++ more).length then
        some ((List.range (8 * byteCount payload)).filterMap (atBit (payload ++ more)))
      else none := by
    intro more
    rw [onResponse_eq _ (by omega) (by rw [List.length_append]; omega), hcount]
  have hexpected := filterMap_range_eq_iff (f := atListed payload) (a := 255)
    fun k hk => atListed_none hk
  rw [← expectedRequests_eq, atListed_beyond_iff] at hexpected
  have hloops : ∀ more, 3 + byteCount payload ≤ payload.length →
      (List.range (8 * byteCount payload)).filterMap (atBit (payload ++ more)) =
        (List.range (8 * byteCount payload)).filterMap (atListed payload) := by
    intro more hfit
    apply List.filterMap_congr
    intro k hk
    exact atBit_eq (List.mem_range.mp hk) hfit
  constructor
  · intro hall
    have hnil := hall []
    rw [heq] at hnil
    split at hnil
    · rename_i hfit
      have hfit : 3 + byteCount payload ≤ payload.length := by
        rwa [List.append_nil] at hfit
      rw [Option.some.injEq, hloops [] hfit, hexpected] at hnil
      exact ⟨by omega, hnil⟩
    · cases hnil
  · rintro ⟨hcount, hlisted⟩ more
    have hfit : 3 + byteCount payload ≤ payload.length := by omega
    rw [heq, if_pos (by rw [List.length_append]; omega), hloops more hfit,
      hexpected.mpr hlisted]

/-- A controller with the nodes 2, 3 and 9 and a bitmap of two bytes, and another byte behind it. -/
theorem discovery_follows_bitmap_iff_two :
    DiscoverNodesRequest.onResponse ([0x05, 0x00, 0x02, 0x07, 0x01] ++ [0xff]) 5 =
      some [GetNodeInfoRequest 2, GetNodeInfoRequest 3, GetNodeInfoRequest 9] := by
  have hwithin : WithinPayload [0x05, 0x00, 0x02, 0x07, 0x01] := by
    refine ⟨by decide, ?_⟩
    intro id hlisted
    cases id with
    | zero => exact Or.inl (Nat.zero_le _)
    | succ k =>
      have hk : k / 8 < 2 := (listed_succ_iff.mp hlisted).1
      omega
  exact (discovery_follows_bitmap_iff [0x05, 0x00, 0x02, 0x07, 0x01] (by decide)).mpr hwithin [0xff]

/-- The payload ends before the second byte that it announces, and that byte is read. -/
theorem discovery_reads_behind_payload :
    ¬ ∀ more, DiscoverNodesRequest.onResponse ([0x05, 0x00, 0x02, 0x01] ++ more) 4 =
      some (expectedRequests [0x05, 0x00, 0x02, 0x01]) := by
  intro h
  have hnone := h []
  cases hnone

end huasi.zwave
