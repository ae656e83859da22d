import P2PTransfer.Lib.Framing

/-!
# Reading a stream in pieces

A transport hands over the bytes of a stream in pieces of its own choice. A reader that asks
for a number of bytes goes on until it has them, or until the stream ends.

## Main definitions

- `Delivers` — the pieces in which a stream arrives
- `readExact` — the next bytes of a stream
- `calls` — a reading function called again until it fails
-/

namespace Transition.Framing

/-- The pieces in which the bytes of a stream arrive. A piece of no bytes would be its end. -/
def Delivers (pieces : List (List UInt8)) (stream : List UInt8) : Prop :=
  pieces.flatten = stream ∧ [] ∉ pieces

/-- The next `n` bytes and the pieces after them, or nothing if the stream ends before. What a
read does not want of a piece is left for the next one. -/
def readExact : Nat → List (List UInt8) → Option (List UInt8) × List (List UInt8)
  | 0, pieces => (some [], pieces)
  | _ + 1, [] => (none, [])
  | n + 1, piece :: pieces =>
    if piece = [] then (none, pieces)
    else if piece.length ≤ n + 1 then
      let (data, rest) := readExact (n + 1 - piece.length) pieces
      (data.map (piece ++ ·), rest)
    else (some (piece.take (n + 1)), piece.drop (n + 1) :: pieces)

theorem Delivers.nil {stream : List UInt8} (h : Delivers [] stream) : stream = [] := h.1.symm

theorem Delivers.cons {piece stream : List UInt8} {pieces : List (List UInt8)}
    (h : Delivers (piece :: pieces) stream) :
    piece ≠ [] ∧ ∃ rest, stream = piece ++ rest ∧ Delivers pieces rest := by
  obtain ⟨rfl, hne⟩ := h
  rw [List.mem_cons, not_or] at hne
  exact ⟨fun hp => hne.1 hp.symm, pieces.flatten, List.flatten_cons, rfl, hne.2⟩

theorem Delivers.eq_nil {pieces : List (List UInt8)} (h : Delivers pieces []) : pieces = [] := by
  cases pieces with
  | nil => rfl
  | cons piece pieces =>
    obtain ⟨hne, rest, hrest, -⟩ := h.cons
    exact absurd (List.append_eq_nil_iff.mp hrest.symm).1 hne

/-- A stream that is long enough is read, however it arrives. -/
theorem readExact_append {data rest : List UInt8} {pieces : List (List UInt8)}
    (h : Delivers pieces (data ++ rest)) :
    ∃ pieces', readExact data.length pieces = (some data, pieces') ∧ Delivers pieces' rest := by
  induction pieces generalizing data with
  | nil =>
    obtain ⟨rfl, rfl⟩ := List.append_eq_nil_iff.mp h.nil
    exact ⟨[], rfl, h⟩
  | cons piece pieces ih =>
    cases data with
    | nil => exact ⟨piece :: pieces, rfl, h⟩
    | cons b data =>
      obtain ⟨hne, tail, htail, hpieces⟩ := h.cons
      rw [List.length_cons, readExact, if_neg hne]
      split
      · next hle =>
        -- the whole piece is wanted
        obtain ⟨more, hmore, rfl⟩ : ∃ more, b :: data = piece ++ more ∧ tail = more ++ rest := by
          rcases List.append_eq_append_iff.mp htail with ⟨more, hp, ht⟩ | ⟨more, hd, ht⟩
          · have hlen := congrArg List.length hp
            rw [List.length_append, List.length_cons] at hlen
            obtain rfl : more = [] := List.eq_nil_of_length_eq_zero (by omega)
            exact ⟨[], by rw [hp, List.append_nil, List.append_nil], ht.symm⟩
          · exact ⟨more, hd, ht⟩
        have hrest : data.length + 1 - piece.length = more.length := by
          have hlen := congrArg List.length hmore
          rw [List.length_append, List.length_cons] at hlen
          omega
        obtain ⟨pieces', hread, hdel⟩ := ih hpieces
        rw [hrest, hread, hmore]
        exact ⟨pieces', rfl, hdel⟩
      · next hlt =>
        -- what is left of the piece comes next
        have hprefix : b :: data <+: piece :=
          List.prefix_of_prefix_length_le ⟨rest, htail⟩ (List.prefix_append _ _)
            (by rw [List.length_cons]; omega)
        obtain ⟨more, rfl⟩ := hprefix
        have hrest : rest = more ++ tail := by
          rw [List.append_assoc] at htail
          exact List.append_cancel_left htail
        have hmore : more ≠ [] := by
          rintro rfl
          simp at hlt
        refine ⟨more :: pieces, ?_, ?_, ?_⟩
        · rw [← List.length_cons, List.take_left, List.drop_left]
        · rw [List.flatten_cons, hpieces.1, hrest]
        · rw [List.mem_cons, not_or]
          exact ⟨hmore.symm, hpieces.2⟩

/-- A stream that ends too early fails its reader, however it arrives. -/
theorem readExact_short {stream : List UInt8} {pieces : List (List UInt8)} {n : Nat}
    (h : Delivers pieces stream) (hn : stream.length < n) : (readExact n pieces).1 = none := by
  induction pieces generalizing stream n with
  | nil =>
    cases n with
    | zero => exact absurd hn (Nat.not_lt_zero _)
    | succ n => rfl
  | cons piece pieces ih =>
    cases n with
    | zero => exact absurd hn (Nat.not_lt_zero _)
    | succ n =>
      obtain ⟨hne, rest, rfl, hpieces⟩ := h.cons
      rw [List.length_append] at hn
      have hread := ih hpieces (show rest.length < n + 1 - piece.length by omega)
      rw [readExact, if_neg hne, if_pos (by omega)]
      dsimp only
      rw [hread]
      rfl

/-- What `n` calls return, the failure of the last one, and what they leave. -/
def calls {ε α σ : Type*} (receive : σ → Except ε α × σ) : Nat → σ → List α × Option ε × σ
  | 0, s => ([], none, s)
  | n + 1, s => match receive s with
    | (.ok a, s') => (a :: (calls receive n s').1, (calls receive n s').2)
    | (.error e, s') => ([], some e, s')

section Calls

variable {ε α σ β : Type*} {receive : σ → Except ε α × σ} {At : σ → List β → Prop}
  {encode : α → List β}

/-- **Repeated calls.** A function that reads one item reads any number of them, and goes on from
there. -/
theorem calls_encoded {rest : List β} {items : List α}
    (hread : ∀ a ∈ items, ∀ s rest, At s (encode a ++ rest) →
      ∃ s', receive s = (.ok a, s') ∧ At s' rest)
    {s : σ} (hs : At s ((items.map encode).flatten ++ rest)) :
    ∃ s', At s' rest ∧ ∀ n, calls receive (items.length + n) s =
      (items ++ (calls receive n s').1, (calls receive n s').2) := by
  induction items generalizing s with
  | nil => exact ⟨s, hs, fun n => by rw [List.length_nil, Nat.zero_add, List.nil_append]⟩
  | cons a items ih =>
    rw [List.map_cons, List.flatten_cons, List.append_assoc] at hs
    obtain ⟨s₁, hfirst, hs₁⟩ := hread a List.mem_cons_self s _ hs
    obtain ⟨s₂, hs₂, hcalls⟩ := ih (fun b hb => hread b (List.mem_cons_of_mem a hb)) hs₁
    refine ⟨s₂, hs₂, fun n => ?_⟩
    rw [List.length_cons, Nat.add_right_comm, calls, hfirst]
    dsimp only
    rw [hcalls n]
    rfl

/-- **Cut streams.** Where a read at the beginning of an item either fails or returns it and goes
on behind it, what repeated calls return of a stream that has been cut off is a beginning of the
items. -/
theorem calls_prefix {items : List α}
    (hread : ∀ a ∈ items, ∀ s stream rest, At s stream → stream <+: encode a ++ rest →
      (∃ e s', receive s = (.error e, s')) ∨
        ∃ s' stream', receive s = (.ok a, s') ∧ At s' stream' ∧ stream' <+: rest)
    (hend : ∀ s, At s [] → ∃ e s', receive s = (.error e, s'))
    {s : σ} {stream : List β} (hs : At s stream) (hcut : stream <+: (items.map encode).flatten)
    (n : Nat) : (calls receive n s).1 <+: items := by
  induction items generalizing s stream n with
  | nil =>
    cases n with
    | zero => exact List.nil_prefix
    | succ n =>
      obtain rfl : stream = [] := List.prefix_nil.mp hcut
      obtain ⟨e, s', he⟩ := hend s hs
      rw [calls, he]
  | cons a items ih =>
    cases n with
    | zero => exact List.nil_prefix
    | succ n =>
      rw [List.map_cons, List.flatten_cons] at hcut
      rw [calls]
      rcases hread a List.mem_cons_self s stream _ hs hcut with
        ⟨e, s', he⟩ | ⟨s', stream', hok, hs', hcut'⟩
      · rw [he]
        exact List.nil_prefix
      · rw [hok]
        apply List.cons_prefix_cons.mpr
        exact ⟨rfl, ih (fun b hb => hread b (List.mem_cons_of_mem a hb)) hs' hcut' n⟩

end Calls

end Transition.Framing
