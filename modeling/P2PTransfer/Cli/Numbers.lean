import P2PTransfer.Cli.Receiver

/-!
# The numbers that a receiver meets

A number that the hasher of `ReceiverHandler::run` has taken is that of a chunk whose task has
found its place in the file. COMPLETE says that the hasher has taken every number from zero on, so
the offsets of all chunks are then within the reach of `seek`.

## Main definitions

- `Receiver.Numbers` — what is known of the numbers that a receiver has met

## Main results

- `Job.placed_of_offsets` — which offsets `seek` accepts
- `Receiver.placed_of_valid` — COMPLETE is never sent for a chunk out of reach
-/

namespace P2PTransfer.Cli

open Transition

variable {C : Primitives}

/-- The offsets of chunks are cut only beyond one that `seek` refuses. -/
theorem Job.placed_of_offsets {x : Job C} (hcs : x.metadata.chunkSize < 2 ^ 64)
    (h : ∀ j < x.metadata.totalChunks, (seekStart (offsetOf x.metadata j)).isSome) :
    x.Placed := by
  intro j hj
  -- by induction on the number: the next offset is at most twice as large
  induction j with
  | zero => simp
  | succ j ih =>
    have hbelow := ih (Nat.lt_of_succ_lt hj)
    have hseek := seekStart_isSome.mp (h (j + 1) hj)
    have hlt : (j + 1) * x.metadata.chunkSize < 2 ^ 64 := by
      by_cases hzero : j = 0
      · rw [hzero]
        omega
      · have hle := Nat.le_mul_of_pos_left x.metadata.chunkSize (Nat.pos_of_ne_zero hzero)
        rw [Nat.succ_mul]
        omega
    rwa [offsetOf, Nat.mod_eq_of_lt hlt] at hseek

namespace Receiver

/-- Every number that has come is of a kind, and every number whose chunk has been written of
another, and a good verdict has come after all of them. -/
structure Numbers (m : TransferMetadata C) (seen kept : Nat → Prop) (s : State C) : Prop where
  metadata : s.metadata = m
  channel : ∀ f, .ok f ∈ s.channel → ∀ item, chunkOf f = some item → seen item.1
  decrypting : ∀ item ∈ s.decrypting, seen item.1
  writing : ∀ item ∈ s.writing, seen item.1
  hashing : ∀ item ∈ s.hashing, kept item.1
  hashQueue : ∀ item ∈ s.hashQueue, kept item.1
  waiting : ∀ item ∈ s.buffered.waiting, kept item.1
  next : ∀ k < s.buffered.next, kept k
  valid : s.isValid = some true → m.totalChunks ≤ s.buffered.next

theorem Numbers.start {seen kept : Nat → Prop} (key : C.Key) (m : TransferMetadata C)
    (existing : Bytes) : Numbers m seen kept (State.start key m existing) where
  metadata := rfl
  channel f h := by cases h
  decrypting item h := by cases h
  writing item h := by cases h
  hashing item h := by cases h
  hashQueue item h := by cases h
  waiting item h := by cases h
  next k h := by cases h
  valid h := by cases h

theorem Numbers.step {m : TransferMetadata C} {seen kept : Nat → Prop} {s t : State C} {b : Act C}
    (h : Numbers m seen kept s)
    (hkeep : ∀ k, seen k → (seekStart (offsetOf m k)).isSome → kept k)
    (hin : ∀ f ∈ (receiver C).recvs b, f.oversized = false →
      ∀ item, chunkOf f = some item → seen item.1)
    (hs : Receiver.step s b = some t) : Numbers m seen kept t := by
  obtain ⟨h0, h1, h2, h3, h4, h5, h6, h7, h8⟩ := h
  cases b with
  | readFrame f =>
    obtain ⟨-, rfl⟩ := guarded_eq_some.mp hs
    refine ⟨h0, fun g hg => ?_, h2, h3, h4, h5, h6, h7, h8⟩
    rcases List.mem_append.mp hg with hg | hg
    · exact h1 g hg
    · have hg := List.mem_singleton.mp hg
      split at hg
      · cases hg
      · next hover =>
        cases hg
        exact hin _ (List.mem_singleton_self _) (Bool.eq_false_iff.mpr hover)
  | hangup =>
    obtain ⟨-, rfl⟩ := guarded_eq_some.mp hs
    exact ⟨h0, fun g hg => h1 g (by simpa using hg), h2, h3, h4, h5, h6, h7, h8⟩
  | readError detail =>
    obtain ⟨-, rfl⟩ := guarded_eq_some.mp hs
    exact ⟨h0, fun g hg => h1 g (by simpa using hg), h2, h3, h4, h5, h6, h7, h8⟩
  | spawn f item =>
    obtain ⟨⟨-, hhead, hitem⟩, rfl⟩ := guarded_eq_some.mp hs
    refine ⟨h0, fun g hg => h1 g (List.mem_of_mem_tail hg), fun y hy => ?_, h3, h4, h5, h6, h7, h8⟩
    rcases List.mem_append.mp hy with hy | hy
    · exact h2 y hy
    · rw [List.mem_singleton.mp hy]
      exact h1 f (List.mem_of_mem_head? hhead) item hitem
  | badFrame f =>
    obtain ⟨-, rfl⟩ := guarded_eq_some.mp hs
    exact ⟨h0, fun g hg => h1 g (List.mem_of_mem_tail hg), h2, h3, h4, h5, h6, h7, h8⟩
  | readFailed detail =>
    obtain ⟨-, rfl⟩ := guarded_eq_some.mp hs
    exact ⟨h0, fun g hg => h1 g (List.mem_of_mem_tail hg), h2, h3, h4, h5, h6, h7, h8⟩
  | decrypted item data =>
    obtain ⟨⟨hmem, -⟩, rfl⟩ := guarded_eq_some.mp hs
    refine ⟨h0, h1, fun y hy => h2 y (List.mem_of_mem_erase hy), fun y hy => ?_, h4, h5, h6, h7, h8⟩
    rcases List.mem_append.mp hy with hy | hy
    · exact h3 y hy
    · rw [List.mem_singleton.mp hy]
      exact h2 item hmem
  | decryptError item detail =>
    obtain ⟨-, rfl⟩ := guarded_eq_some.mp hs
    exact ⟨h0, h1, fun y hy => h2 y (List.mem_of_mem_erase hy), h3, h4, h5, h6, h7, h8⟩
  | written item =>
    obtain ⟨⟨hmem, hseek, -⟩, rfl⟩ := guarded_eq_some.mp hs
    refine ⟨h0, h1, h2, fun y hy => h3 y (List.mem_of_mem_erase hy), fun y hy => ?_, h5, h6, h7, h8⟩
    rcases List.mem_append.mp hy with hy | hy
    · exact h4 y hy
    · rw [List.mem_singleton.mp hy]
      exact hkeep item.1 (h3 item hmem) (h0 ▸ hseek)
  | overflow | seekError | writeError | lastError =>
    obtain ⟨-, rfl⟩ := guarded_eq_some.mp hs
    exact ⟨h0, h1, h2, fun y hy => h3 y (List.mem_of_mem_erase hy), h4, h5, h6, h7, h8⟩
  | handed item =>
    obtain ⟨hmem, rfl⟩ := guarded_eq_some.mp hs
    refine ⟨h0, h1, h2, h3, fun y hy => h4 y (List.mem_of_mem_erase hy), fun y hy => ?_, h6, h7, h8⟩
    rcases List.mem_append.mp hy with hy | hy
    · exact h5 y hy
    · exact List.mem_singleton.mp hy ▸ h4 item hmem
  | hash item =>
    obtain ⟨hhead, rfl⟩ := guarded_eq_some.mp hs
    have hinsert : ∀ y ∈ (s.buffered.insert item.1 item.2).waiting, kept y.1 := by
      intro y hy
      rcases List.mem_cons.mp hy with rfl | hy
      · exact h5 item (List.mem_of_mem_head? hhead)
      · exact h6 y (List.mem_of_mem_filter hy)
    refine ⟨h0, h1, h2, h3, h4, fun y hy => h5 y (List.mem_of_mem_tail hy),
      fun y hy => hinsert y (Reorder.mem_of_mem_drain hy), fun k hk => ?_,
      fun hv => (h8 hv).trans (Reorder.next_le_drain _ (s.buffered.insert item.1 item.2))⟩
    rcases Reorder.of_lt_next_drain hk with hlt | ⟨y, hy, rfl⟩
    · exact h7 k hlt
    · exact hinsert y hy
  | ack =>
    simp only [Receiver.step] at hs
    split at hs
    · obtain rfl := Option.some.inj hs
      exact ⟨h0, h1, h2, h3, h4, h5, h6, h7, h8⟩
    · cases hs
  | ackError detail =>
    simp only [Receiver.step] at hs
    split at hs
    · obtain rfl := Option.some.inj hs
      exact ⟨h0, h1, h2, h3, h4, h5, h6, h7, h8⟩
    · cases hs
  | verdict | verdictLost =>
    obtain ⟨-, rfl⟩ := guarded_eq_some.mp hs
    refine ⟨h0, h1, h2, h3, h4, h5, h6, h7, fun hv => ?_⟩
    have hvalid : s.valid = true := Option.some.inj hv
    rw [State.valid, decide_eq_true_eq] at hvalid
    exact h0 ▸ hvalid.1.ge
  | _ =>
    obtain ⟨-, rfl⟩ := guarded_eq_some.mp hs
    exact ⟨h0, h1, h2, h3, h4, h5, h6, h7, h8⟩

/-- A receiver whose verdict is good has found the place of every chunk. -/
theorem placed_of_valid {x : Job C} (hcs : x.metadata.chunkSize < 2 ^ 64) {s : State C}
    {seen : Nat → Prop}
    (h : Numbers x.metadata seen (fun k => (seekStart (offsetOf x.metadata k)).isSome) s)
    (hvalid : s.isValid = some true) : x.Placed :=
  Job.placed_of_offsets hcs fun j hj => h.next j (Nat.lt_of_lt_of_le hj (h.valid hvalid))

end Receiver

end P2PTransfer.Cli
