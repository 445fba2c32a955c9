-- The nodes do not reach each other: a frame acts on the node that it comes from alone, so
-- what becomes of a node is decided by its own frames, in any company.
import Huasi.Runs
import Huasi.ZWaveReads

open huasi.runs huasi.sorted_map

namespace huasi.network

/-! ## What a frame does to its node -/

/-- The node after one of its frames, and what is sent to it. -/
def Node.onFrame (node : Node) (nodeId : UInt8) (data : List UInt8) :
    Option (Node × List (List UInt8)) :=
  match delivery data with
  | some (_, commandClass, command) =>
    match node.commands.lookup commandClass with
    | some c => c.onCommand commandClass node command
    | none => some (node, [])
  | none =>
    if data[0]? = some ZW_APPLICATION_UPDATE ∧ 7 ≤ data.length then
      let named := { node with name := Parameters.byteText nodeId }
      let node := (data.take (classList data).length).foldl Node.register named
      some (node, node.commands.entries.flatMap fun e => e.2.sendGet)
    else some (node, [])

theorem setNode_self (s : ZWaveNetwork) (n : UInt8) : s.setNode n (s.nodes n) = s := by
  simp [ZWaveNetwork.setNode]

/-- A node information delivers no command. -/
theorem delivery_update {data : List UInt8} (h : data[0]? = some ZW_APPLICATION_UPDATE) :
    delivery data = none := by
  cases hdelivery : delivery data with
  | none => rfl
  | some d =>
    obtain ⟨m, k, command⟩ := d
    obtain ⟨hfunction, -, -⟩ := delivery_some hdelivery
    exact absurd (h.symm.trans hfunction) (by decide)

/-- The network hands a frame to its node and its answers back to the node. -/
theorem onRequest_node (s : ZWaveNetwork) {data : List UInt8} {n : UInt8}
    (hn : data[2]? = some n) :
    s.onRequest data = ((s.nodes n).onFrame n data).map fun r =>
      (s.setNode n r.1, sender n r.2) := by
  have hnothing : s.onRequest data = some (s, []) → s.onRequest data =
      (some (s.nodes n, ([] : List (List UInt8)))).map fun r =>
        (s.setNode n r.1, sender n r.2) := fun hreq => by
    rw [hreq, Option.map_some, setNode_self, sender, List.map_nil]
  unfold Node.onFrame
  by_cases hupdate : data[0]? = some ZW_APPLICATION_UPDATE ∧ 7 ≤ data.length
  · rw [delivery_update hupdate.1]
    simp only [if_pos hupdate]
    rw [onRequest_update hupdate.1 hn hupdate.2, ZWaveNetwork.updateNode,
      if_pos (classList_length_le data)]
    rfl
  · rcases onRequest_cases s data with ⟨m, k, command, hdelivery, hreq⟩ |
      ⟨hdelivery, m, hfunction, -, -⟩ | ⟨hdelivery, hreq⟩
    · obtain rfl : m = n := Option.some.inj ((delivery_some hdelivery).2.1.symm.trans hn)
      rw [hdelivery]
      dsimp only
      cases hlookup : (s.nodes m).commands.lookup k with
      | none =>
        rw [hlookup] at hreq
        exact hnothing hreq
      | some c =>
        rw [hreq, hlookup]
    · have hshort : data.length < 7 := Nat.not_le.mp fun hlen => hupdate ⟨hfunction, hlen⟩
      rw [hdelivery]
      simp only [if_neg hupdate]
      exact hnothing (onRequest_other s (.inl hshort))
    · rw [hdelivery]
      simp only [if_neg hupdate]
      exact hnothing hreq

/-- A frame without a node byte does nothing. -/
theorem onRequest_without_node (s : ZWaveNetwork) {data : List UInt8} (h : data[2]? = none) :
    s.onRequest data = some (s, []) := by
  have hlen : data.length ≤ 2 := List.getElem?_eq_none_iff.mp h
  exact onRequest_other s (.inl (by omega))

/-! ## Frames of many nodes -/

/-- One frame that arrives. -/
def request (s : ZWaveNetwork) (data : List UInt8) : Option ZWaveNetwork :=
  (s.onRequest data).map Prod.fst

/-- A frame that comes from the node. -/
def comesFrom (n : UInt8) (data : List UInt8) : Bool := data[2]? = some n

theorem request_mine {n : UInt8} {s t : ZWaveNetwork} {data : List UInt8}
    (hmine : comesFrom n data = true) (h : request s data = some t) :
    t.nodes n = (((s.nodes n).onFrame n data).map Prod.fst).getD (s.nodes n) := by
  have hn : data[2]? = some n := of_decide_eq_true hmine
  rw [request, onRequest_node s hn, Option.map_map] at h
  obtain ⟨r, hr, rfl⟩ := Option.map_eq_some_iff.mp h
  simp [hr, ZWaveNetwork.setNode]

theorem request_other {n : UInt8} {s t : ZWaveNetwork} {data : List UInt8}
    (hother : comesFrom n data = false) (h : request s data = some t) :
    t.nodes n = s.nodes n := by
  have hn : data[2]? ≠ some n := of_decide_eq_false hother
  cases hm : data[2]? with
  | none =>
    rw [request, onRequest_without_node s hm] at h
    cases h
    rfl
  | some m =>
    rw [request, onRequest_node s hm, Option.map_map] at h
    obtain ⟨r, hr, rfl⟩ := Option.map_eq_some_iff.mp h
    have hne : n ≠ m := fun hnm => hn (hnm ▸ hm)
    simp [ZWaveNetwork.setNode, hne]

theorem requests_total (s : ZWaveNetwork) (frames : List (List UInt8)) :
    ∃ t, run request s frames = some t := by
  induction frames generalizing s with
  | nil => exact ⟨s, rfl⟩
  | cons data frames ih =>
    obtain ⟨r, hr⟩ := onRequest_total s data
    obtain ⟨t, ht⟩ := ih r.1
    exact ⟨t, by simp [run, request, hr, ht]⟩

/-- The answers to a frame go to its node. -/
theorem sent_to_node {s t : ZWaveNetwork} {data : List UInt8} {n : UInt8} {sent : List SendData}
    (hn : data[2]? = some n) (h : s.onRequest data = some (t, sent)) :
    ∀ d ∈ sent, d.nodeId = n := by
  rw [onRequest_node s hn] at h
  obtain ⟨r, -, hr⟩ := Option.map_eq_some_iff.mp h
  obtain ⟨-, rfl⟩ := Prod.mk.inj hr
  intro d hd
  obtain ⟨data, -, rfl⟩ := List.mem_map.mp hd
  rfl

/-- A run leaves a node as the node's own frames make it. -/
theorem node_of_run {n : UInt8} {s t : ZWaveNetwork} {frames : List (List UInt8)}
    (h : run request s frames = some t) :
    t.nodes n = (frames.filter (comesFrom n)).foldl
      (fun node data => ((node.onFrame n data).map Prod.fst).getD node) (s.nodes n) :=
  @view_of_run _ _ request Node (fun s => s.nodes n) _ (comesFrom n)
    (fun _ _ _ => request_mine) (fun _ _ _ => request_other) s t frames h

theorem nodes_do_not_interfere (s : ZWaveNetwork) (n : UInt8) (frames others : List (List UInt8))
    (h : frames.filter (comesFrom n) = others.filter (comesFrom n)) :
    (∃ t u, run request s frames = some t ∧ run request s others = some u ∧
      t.nodes n = u.nodes n) ∧
    ∀ (v : ZWaveNetwork) (data : List UInt8), data[2]? = some n →
      ∃ w sent, v.onRequest data = some (w, sent) ∧ ∀ d ∈ sent, d.nodeId = n := by
  constructor
  · obtain ⟨t, ht⟩ := requests_total s frames
    obtain ⟨u, hu⟩ := requests_total s others
    exact ⟨t, u, ht, hu, by rw [node_of_run ht, node_of_run hu, h]⟩
  · intro v data hn
    obtain ⟨⟨w, sent⟩, hw⟩ := onRequest_total v data
    exact ⟨w, sent, hw, sent_to_node hn hw⟩

/-- A frame of node 5 in between, and one of node 9 in front. -/
theorem nodes_do_not_interfere_example :
    ∃ t u, run request .new
        [[0x49, 0x84, 0x20, 0x06, 0x04, 0x11, 0x06, 0x26, 0x72, 0x86],
          [0x49, 0x84, 0x05, 0x06, 0x04, 0x11, 0x06, 0x20, 0x70, 0x72],
          [0x04, 0x00, 0x20, 0x03, 0x20, 0x03, 0x63]] = some t ∧
      run request .new
        [[0x04, 0x00, 0x09, 0x03, 0x20, 0x03, 0x00],
          [0x49, 0x84, 0x20, 0x06, 0x04, 0x11, 0x06, 0x26, 0x72, 0x86],
          [0x04, 0x00, 0x20, 0x03, 0x20, 0x03, 0x63]] = some u ∧
      t.nodes 0x20 = u.nodes 0x20 :=
  (nodes_do_not_interfere .new 0x20 _ _ (by decide)).1

end huasi.network
