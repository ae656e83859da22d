import Mathlib

/-!
# Messages with a length

A stream of bytes carries messages, each after its length in a fixed number of bytes. A reader
that waits for whole messages sees those that have been written whole, however the stream has
been cut into writes.

## Main definitions

- `octets`, `value` — a number in bytes, the least one first
- `enframe` — a message after its length
- `unframe`, `unframeAll` — the next message of a stream, and all that are there
-/

namespace Transition.Framing

def octets : Nat → Nat → List UInt8
  | 0, _ => []
  | width + 1, n => UInt8.ofNat n :: octets width (n / 256)

def value : List UInt8 → Nat
  | [] => 0
  | b :: bs => b.toNat + 256 * value bs

@[simp] theorem length_octets (width n : Nat) : (octets width n).length = width := by
  induction width generalizing n with
  | zero => rfl
  | succ width ih => rw [octets, List.length_cons, ih]

theorem value_octets {width n : Nat} (h : n < 256 ^ width) : value (octets width n) = n := by
  induction width generalizing n with
  | zero =>
    rw [Nat.pow_zero] at h
    rw [Nat.lt_one_iff.mp h]
    rfl
  | succ width ih =>
    have hrest : n / 256 < 256 ^ width := by
      apply Nat.div_lt_of_lt_mul
      rw [Nat.mul_comm, ← Nat.pow_succ]
      exact h
    rw [octets, value, ih hrest, UInt8.toNat_ofNat']
    omega

/-- A number is given back its bytes. -/
theorem octets_value (bytes : List UInt8) : octets bytes.length (value bytes) = bytes := by
  induction bytes with
  | nil => rfl
  | cons b bytes ih =>
    have hb := b.toNat_lt
    have hfirst : UInt8.ofNat (b.toNat + 256 * value bytes) = b := by
      rw [UInt8.ofNat_add, UInt8.ofNat_toNat]
      simp
    rw [List.length_cons, octets, value, hfirst, Nat.add_mul_div_left _ _ (by omega),
      Nat.div_eq_of_lt hb, Nat.zero_add, ih]

/-- The length comes with its most significant byte first. -/
def enframe (width : Nat) (message : List UInt8) : List UInt8 :=
  (octets width message.length).reverse ++ message

/-- The next message, when all of it is there and it is not longer than the limit. -/
def unframe (width limit : Nat) (stream : List UInt8) : Option (List UInt8 × List UInt8) :=
  let length := value (stream.take width).reverse
  if width ≤ stream.length ∧ length ≤ limit ∧ width + length ≤ stream.length then
    some ((stream.drop width).take length, stream.drop (width + length))
  else none

/-- The messages of a stream, at most `n` of them, and what is left. -/
def unframeAll (width limit : Nat) : Nat → List UInt8 → List (List UInt8) × List UInt8
  | 0, stream => ([], stream)
  | n + 1, stream => match unframe width limit stream with
    | none => ([], stream)
    | some (message, rest) =>
      (message :: (unframeAll width limit n rest).1, (unframeAll width limit n rest).2)

variable {width limit : Nat} {message rest : List UInt8}

theorem length_enframe (width : Nat) (message : List UInt8) :
    (enframe width message).length = width + message.length := by
  rw [enframe, List.length_append, List.length_reverse, length_octets]

theorem take_enframe (rest : List UInt8) :
    (enframe width message ++ rest).take width = (octets width message.length).reverse := by
  rw [enframe, List.append_assoc, List.take_append_of_le_length (by simp),
    List.take_of_length_le (by simp)]

/-- A message that has been written whole is read. -/
theorem unframe_enframe (hlimit : message.length ≤ limit) (hwidth : limit < 256 ^ width) :
    unframe width limit (enframe width message ++ rest) = some (message, rest) := by
  have hvalue : value ((enframe width message ++ rest).take width).reverse = message.length := by
    rw [take_enframe, List.reverse_reverse, value_octets (by omega)]
  have hlen : (enframe width message ++ rest).length = width + message.length + rest.length := by
    rw [List.length_append, length_enframe]
  have hdrop : (enframe width message ++ rest).drop width = message ++ rest := by
    rw [enframe, List.append_assoc, List.drop_append_of_le_length (by simp),
      List.drop_of_length_le (by simp), List.nil_append]
  unfold unframe
  simp only [hvalue]
  rw [if_pos ⟨by omega, hlimit, by omega⟩, hdrop, ← List.drop_drop, hdrop, List.take_left,
    List.drop_left]

/-- A message of which something is missing is not read. -/
theorem unframe_of_prefix (hlimit : message.length ≤ limit) (hwidth : limit < 256 ^ width)
    {part : List UInt8} (hpart : part <+: enframe width message)
    (hne : part ≠ enframe width message) : unframe width limit part = none := by
  obtain ⟨rest, hrest⟩ := hpart
  have hlen : part.length < width + message.length := by
    have htotal := congrArg List.length hrest
    rw [List.length_append, length_enframe] at htotal
    have hpos : 0 < rest.length := by
      apply List.length_pos_iff.mpr
      rintro rfl
      exact hne (by rw [← hrest, List.append_nil])
    omega
  unfold unframe
  rw [if_neg]
  rintro ⟨hwide, -, hle⟩
  have hvalue : value (part.take width).reverse = message.length := by
    have htake : part.take width = (enframe width message ++ []).take width := by
      rw [List.append_nil, ← hrest, List.take_append_of_le_length hwide]
    rw [htake, take_enframe, List.reverse_reverse, value_octets (by omega)]
  omega

/-- **What a reader sees.** The messages that have been written whole, and no part of the one
that has not. -/
theorem unframeAll_enframe {messages : List (List UInt8)} {part : List UInt8}
    (hlimit : ∀ m ∈ messages, m.length ≤ limit) (hwidth : limit < 256 ^ width)
    (hpart : unframe width limit part = none) {n : Nat} (hn : messages.length ≤ n) :
    unframeAll width limit n ((messages.map (enframe width)).flatten ++ part) =
      (messages, part) := by
  induction messages generalizing n with
  | nil =>
    cases n with
    | zero => rfl
    | succ n =>
      show unframeAll width limit (n + 1) part = _
      rw [unframeAll, hpart]
  | cons m ms ih =>
    obtain ⟨n, rfl⟩ : ∃ k, n = k + 1 := ⟨n - 1, by simp at hn; omega⟩
    have hn : ms.length ≤ n := Nat.le_of_succ_le_succ hn
    rw [List.map_cons, List.flatten_cons, List.append_assoc, unframeAll,
      unframe_enframe (hlimit m List.mem_cons_self) hwidth]
    dsimp only
    rw [ih (fun m hm => hlimit m (List.mem_cons_of_mem _ hm)) hn]

/-- On an empty stream nothing is read, unless the messages have no length. -/
theorem unframe_nil (hwidth : 0 < width) : unframe width limit [] = none := by
  unfold unframe
  rw [if_neg]
  rintro ⟨hle, -⟩
  rw [List.length_nil] at hle
  omega

/-- A message takes up at least the room of its length. -/
theorem length_le_flatten (hwidth : 0 < width) (messages : List (List UInt8)) :
    messages.length ≤ (messages.map (enframe width)).flatten.length := by
  induction messages with
  | nil => exact Nat.zero_le _
  | cons m ms ih =>
    rw [List.map_cons, List.flatten_cons, List.length_cons, List.length_append, length_enframe]
    omega

end Transition.Framing
