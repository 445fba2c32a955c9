-- Arrays of a fixed size, and a receive buffer in such an array: reads fill it from
-- a position on, and what was handled is removed from its front.
import Mathlib.Data.List.Basic

namespace huasi.receive_buffer

variable {β : Type} {size : Nat}

/-! ## Arrays -/

/-- An array of `size` elements. -/
structure Buffer (β : Type) (size : Nat) where
  elements : List β
  size_eq : elements.length = size

def Buffer.filled (x : β) : Buffer β size := ⟨List.replicate size x, List.length_replicate⟩

theorem length_replaced {l data : List β} {i : Nat} (h : i + data.length ≤ l.length) :
    (l.take i ++ data ++ l.drop (i + data.length)).length = l.length := by
  simp only [List.length_append, List.length_take, List.length_drop]
  omega

theorem Buffer.length_stored (b : Buffer β size) {i : Nat} {data : List β}
    (h : i + data.length ≤ size) :
    (b.elements.take i ++ data ++ b.elements.drop (i + data.length)).length = size := by
  rw [length_replaced (by rw [b.size_eq]; exact h), b.size_eq]

/-- Write elements into the array, from index `i` on. A write past the end cannot be stated. -/
def Buffer.store (b : Buffer β size) (i : Nat) (data : List β) (h : i + data.length ≤ size) :
    Buffer β size :=
  ⟨b.elements.take i ++ data ++ b.elements.drop (i + data.length), b.length_stored h⟩

/-- A write replaces a piece of the array. -/
theorem Buffer.store_piece {b : Buffer β size} {i : Nat} {data front old back : List β}
    (h : i + data.length ≤ size) (hb : b.elements = front ++ old ++ back)
    (hfront : front.length = i) (hold : old.length = data.length) :
    (b.store i data h).elements = front ++ data ++ back := by
  subst hfront
  have htake : b.elements.take front.length = front := by
    rw [hb, List.append_assoc, List.take_left]
  have hdrop : b.elements.drop (front.length + data.length) = back := by
    rw [hb, ← hold, ← List.length_append, List.drop_left]
  simp only [Buffer.store, htake, hdrop]

/-! ## Receiving -/

/-- The array of a receiver, and how many elements of it are not handled yet. -/
structure Rx (β : Type) (size : Nat) where
  position : Nat
  buffer : Buffer β size
  position_le : position ≤ size

/-- The elements that were received and not yet handled. -/
def Rx.unread (rx : Rx β size) : List β := rx.buffer.elements.take rx.position

@[simp] theorem Rx.unread_length (rx : Rx β size) : rx.unread.length = rx.position := by
  have := rx.position_le
  simp only [Rx.unread, List.length_take, rx.buffer.size_eq]
  omega

theorem Rx.unread_get (rx : Rx β size) {i : Nat} (h : i < rx.position) :
    rx.unread[i]? = rx.buffer.elements[i]? := by
  unfold Rx.unread
  rw [List.getElem?_take, if_pos h]

/-- A read into the free part of the array. -/
def Rx.received (rx : Rx β size) (data : List β) (h : rx.position + data.length ≤ size) :
    Rx β size :=
  ⟨rx.position + data.length, rx.buffer.store rx.position data h, h⟩

theorem Rx.received_unread (rx : Rx β size) (data : List β)
    (h : rx.position + data.length ≤ size) :
    (rx.received data h).unread = rx.unread ++ data := by
  have hlen : (rx.unread ++ data).length = rx.position + data.length := by
    rw [List.length_append, rx.unread_length]
  simp only [Rx.unread, Rx.received, Buffer.store] at hlen ⊢
  rw [← hlen, List.take_left]

theorem Rx.removed_fits (rx : Rx β size) (n : Nat) :
    0 + (rx.unread.drop n).length ≤ size := by
  have := rx.position_le
  rw [List.length_drop, rx.unread_length]
  omega

/-- Move what is behind the first `n` elements to the front. The range that is moved must not be
reversed. -/
def Rx.remove (rx : Rx β size) (n : Nat) : Option (Rx β size) :=
  if n ≤ rx.position then
    some ⟨rx.position - n, rx.buffer.store 0 (rx.unread.drop n) (rx.removed_fits n),
      Nat.le_trans (Nat.sub_le _ _) rx.position_le⟩
  else none

theorem Rx.remove_unread (rx : Rx β size) {n : Nat} (h : n ≤ rx.position) :
    ∃ rx', rx.remove n = some rx' ∧ rx'.unread = rx.unread.drop n := by
  refine ⟨_, if_pos h, ?_⟩
  have hlen : (rx.unread.drop n).length = rx.position - n := by
    rw [List.length_drop, rx.unread_length]
  have hunread : ∀ (data : List β) (hfit : 0 + data.length ≤ size),
      (rx.buffer.store 0 data hfit).elements.take data.length = data := by
    intro data hfit
    simp only [Buffer.store, List.take_zero, List.nil_append, List.take_left]
  have := hunread (rx.unread.drop n) (rx.removed_fits n)
  rwa [hlen] at this

theorem Rx.remove_position {rx rx' : Rx β size} {n : Nat} (h : rx.remove n = some rx') :
    n ≤ rx.position ∧ rx'.position = rx.position - n := by
  unfold Rx.remove at h
  split at h
  · rename_i hn
    obtain rfl := Option.some.inj h
    exact ⟨hn, rfl⟩
  · cases h

/-- Forget what was received. -/
def Rx.clear (rx : Rx β size) : Rx β size := ⟨0, rx.buffer, Nat.zero_le _⟩

/-- The front of the array, where the received elements start with `l`. -/
theorem Rx.take_of_unread {rx : Rx β size} {l more : List β} (h : rx.unread = l ++ more) :
    rx.buffer.elements.take l.length = l := by
  have hpos : l.length ≤ rx.position := by
    rw [← rx.unread_length, h, List.length_append]
    omega
  have htake := congrArg (List.take l.length) h
  rwa [Rx.unread, List.take_take, Nat.min_eq_left hpos, List.take_left] at htake

theorem Rx.get_of_unread {rx : Rx β size} {l more : List β} (h : rx.unread = l ++ more) {i : Nat}
    (hi : i < l.length) : rx.buffer.elements[i]? = l[i]? := by
  have htake := congrArg (·[i]?) (Rx.take_of_unread h)
  simpa only [List.getElem?_take, if_pos hi] using htake

theorem Rx.part_of_unread {rx : Rx β size} {l more : List β} (h : rx.unread = l ++ more)
    {i k : Nat} (hi : i + k ≤ l.length) :
    (rx.buffer.elements.drop i).take k = (l.drop i).take k := by
  have htake := Rx.take_of_unread h
  rw [← htake, List.drop_take, List.take_take, Nat.min_eq_left (by omega)]

theorem Rx.remove_of_unread {rx : Rx β size} {l more : List β} (h : rx.unread = l ++ more) :
    ∃ rx', rx.remove l.length = some rx' ∧ rx'.unread = more := by
  have hpos : l.length ≤ rx.position := by
    rw [← rx.unread_length, h, List.length_append]
    omega
  obtain ⟨rx', hremove, hunread⟩ := rx.remove_unread hpos
  rw [h, List.drop_left] at hunread
  exact ⟨rx', hremove, hunread⟩

end huasi.receive_buffer
