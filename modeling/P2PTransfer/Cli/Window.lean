import P2PTransfer.Cli.Progress

/-!
# The window of the sender

`cmd_send` counts up to `next_to_send` the chunks on the stream and up to `next_to_ack` the
acknowledgements, and takes a frame from its tasks only where the two are less than the window
apart. Any acknowledgement is counted, whether or not its chunk has been sent, and a frame that
is taken may release all those that have come before their turn.

## Main definitions

- `Sender.Counters` — the order of the two counters
- `Sender.Modest` — a peer that acknowledges no more than it has been given
- `Sender.State.Bounded` — what is outstanding and what waits for its turn

## Main results

- `Sender.counters_of_modest` — the counters against such a peer
- `bounded_iff` — the window against the receiver of the command line
-/

namespace P2PTransfer.Cli

open Transition Party

variable {C : Primitives}

namespace Sender

variable {x : Job C} {o : List (Frame C)} {s t : State C} {a : Act C}

theorem step_nextToSend (hs : step s a = some t) :
    (t.nextToSend = s.nextToSend ∧ (sender C).sends s a = []) ∨
      ∃ f, a = .write f ∧ s.bufferedFrames.ready = some f ∧ t.nextToSend = s.nextToSend + 1 := by
  cases a with
  | write f =>
    obtain ⟨⟨-, hready⟩, rfl⟩ := guarded_eq_some.mp hs
    exact .inr ⟨f, rfl, hready, rfl⟩
  | spawn =>
    obtain ⟨data, -, rfl⟩ := Option.map_eq_some_iff.mp hs
    exact .inl ⟨rfl, rfl⟩
  | pause =>
    obtain rfl := Option.some.inj hs
    exact .inl ⟨rfl, rfl⟩
  | _ =>
    simp only [step, guarded_eq_some] at hs
    obtain ⟨-, rfl⟩ := hs
    exact .inl ⟨rfl, rfl⟩

/-- What is on the stream are the frames of the chunks from the first to send on, in order. -/
structure Streamed (x : Job C) (o : List (Frame C)) (s : State C) : Prop where
  job : s.job = x
  genuine : Genuine o s
  first : startChunk x.metadata ≤ s.nextToSend
  last : s.nextToSend ≤ x.metadata.totalChunks
  out : o = (List.range' (startChunk x.metadata)
    (s.nextToSend - startChunk x.metadata)).map x.chunkFrame

theorem Streamed.start (x : Job C) : Streamed x [] (State.start x) where
  job := rfl
  genuine := .start x
  first := Nat.le_refl _
  last := (Nat.min_le_right _ _).trans (Nat.sub_le _ _)
  out := by simp [State.start, State.nextToSend]

theorem Streamed.step (h : Streamed x o s) (hs : step s a = some t) :
    Streamed x (o ++ (sender C).sends s a) t := by
  have hjob := (step_job hs).trans h.job
  have hgen := h.genuine.step hs
  rcases step_nextToSend hs with ⟨hnext, hnone⟩ | ⟨f, rfl, hready, hnext⟩
  · refine ⟨hjob, hgen, by rw [hnext]; exact h.first, by rw [hnext]; exact h.last, ?_⟩
    rw [hnone, List.append_nil, hnext]
    exact h.out
  · have hframe : f = x.chunkFrame s.nextToSend := by
      rw [← h.job]
      exact h.genuine.holds.ready hready
    have hlt : s.nextToSend < x.metadata.totalChunks := by
      obtain ⟨item, hitem, -⟩ := Option.map_eq_some_iff.mp hready
      have hnum : item.1 = s.bufferedFrames.next := by simpa using List.find?_some hitem
      show s.bufferedFrames.next < x.metadata.totalChunks
      rw [← hnum, ← h.job]
      exact (h.genuine.buffer item (List.mem_of_find?_eq_some hitem)).1
    refine ⟨hjob, hgen, by rw [hnext]; exact Nat.le_succ_of_le h.first, by rw [hnext]; exact hlt, ?_⟩
    have hfirst := h.first
    rw [hnext, Nat.succ_sub hfirst, List.range'_concat, List.map_append, ← h.out, hframe,
      Nat.one_mul, Nat.add_sub_cancel' hfirst]
    rfl

/-- The counters are in order, and the loop has all its acknowledgements only with every frame
on the stream. -/
structure Counters (x : Job C) (o : List (Frame C)) (s : State C) : Prop where
  first : startChunk x.metadata ≤ s.nextToAck
  acked : s.nextToAck ≤ s.nextToSend
  sent : s.nextToSend ≤ x.metadata.totalChunks
  all : s.nextToAck = x.metadata.totalChunks →
    ∀ j, startChunk x.metadata ≤ j → j < x.metadata.totalChunks → x.chunkFrame j ∈ o

theorem Streamed.counters (h : Streamed x o s) (hfirst : startChunk x.metadata ≤ s.nextToAck)
    (hacked : s.nextToAck ≤ s.nextToSend) : Counters x o s where
  first := hfirst
  acked := hacked
  sent := h.last
  all hall j hj hlt := by
    have hlast := h.last
    rw [h.out, List.mem_map]
    refine ⟨j, List.mem_range'_1.mpr ⟨hj, ?_⟩, rfl⟩
    omega

/-- The peer never has more acknowledgements at the head of what it has put than it has taken
frames. -/
def Modest {τ β : Type} (Q : Party τ β (Frame C)) (t₀ : τ) : Prop :=
  ∀ i o t, Q.Trace (fun _ _ => True) t₀ i o t → (o.takeWhile isAck).length ≤ i.length

/-- **Counters.** Against a peer that acknowledges no more frames than it has taken the counters
are in order in every run, whatever else it sends and whatever numbers it acknowledges. -/
theorem counters_of_modest {τ β : Type} {Q : Party τ β (Frame C)} {t₀ : τ} (hQ : Modest Q t₀)
    {ok : Net (State C) τ (Frame C) → Act C ⊕ β → Prop} {oL oR : List (Frame C)}
    {n : Net (State C) τ (Frame C)} (h : LinkRun (sender C) Q ok (State.start x) t₀ oL oR n) :
    Counters x oL n.left := by
  obtain ⟨iL, iR, ⟨hstreamed, hcounts⟩, htrace, hout, hin⟩ := h.linked
    (I := fun i o s => Streamed x o s ∧ Counts i s)
    (J := fun i o t => Q.Trace (fun _ _ => True) t₀ i o t)
    ⟨.start x, .start x⟩ .nil
    (fun iL oL iR oR n a s hs _ _ _ _ _ _ hstep => ⟨hs.1.step hstep, hs.2.step hstep⟩)
    (fun iL oL iR oR n b t _ hr _ _ _ _ _ hstep => hr.snoc trivial hstep)
  have hcounted := hcounts.counted
  have hfirst := hcounts.first
  rw [hstreamed.job] at hcounted hfirst
  have hpassed : (iL.takeWhile isAck).length ≤ n.left.nextToSend - startChunk x.metadata := by
    calc (iL.takeWhile isAck).length
        ≤ (oR.takeWhile isAck).length := hin ▸ length_takeWhile_le iL n.toLeft
      _ ≤ iR.length := hQ iR oR n.right htrace
      _ ≤ oL.length := by
          rw [hout, List.length_append]
          exact Nat.le_add_right _ _
      _ = n.left.nextToSend - startChunk x.metadata := by
          rw [hstreamed.out, List.length_map, List.length_range']
  have hlow := hstreamed.first
  exact hstreamed.counters hfirst (by omega)

end Sender

namespace Receiver

/-- How many frames an item of the channel stands for. -/
def itemFrames : Except Text (Frame C) → Nat
  | .ok _ => 1
  | .error _ => 0

/-- The frames that a receiver has taken and has neither acknowledged nor given up. -/
def State.inHand (s : State C) : Nat :=
  weight itemFrames s.channel + s.decrypting.length + s.writing.length + s.hashing.length +
    s.finished.length + s.pc.pending.length

/-- An acknowledgement is that of a frame. -/
theorem inHand_step {s t : State C} {b : Act C} (hs : step s b = some t) :
    t.inHand + ((receiver C).sends s b).countP Sender.isAck ≤
      s.inHand + ((receiver C).recvs b).length := by
  unfold State.inHand
  cases b with
  | readFrame f =>
    obtain ⟨-, rfl⟩ := guarded_eq_some.mp hs
    simp only [receiver, weight_append, weight_cons, weight_nil, List.countP_nil,
      List.length_singleton]
    split <;> simp only [itemFrames] <;> omega
  | hangup | readError =>
    obtain ⟨-, rfl⟩ := guarded_eq_some.mp hs
    simp [receiver, itemFrames]
  | spawn f item =>
    obtain ⟨⟨-, hhead, -⟩, rfl⟩ := guarded_eq_some.mp hs
    obtain ⟨rest, hchannel⟩ := List.head?_eq_some_iff.mp hhead
    simp [receiver, hchannel, itemFrames]
    omega
  | badFrame f =>
    obtain ⟨⟨hpc, hhead, -⟩, rfl⟩ := guarded_eq_some.mp hs
    obtain ⟨rest, hchannel⟩ := List.head?_eq_some_iff.mp hhead
    simp [receiver, hchannel, hpc, Pc.pending]
  | readFailed detail =>
    obtain ⟨⟨hpc, hhead⟩, rfl⟩ := guarded_eq_some.mp hs
    obtain ⟨rest, hchannel⟩ := List.head?_eq_some_iff.mp hhead
    simp [receiver, hchannel, hpc, Pc.pending]
  | decrypted | decryptError | overflow | seekError | written | lastError =>
    obtain ⟨⟨hmem, -⟩, rfl⟩ := guarded_eq_some.mp hs
    have := List.length_erase_of_mem hmem
    have := List.length_pos_of_mem hmem
    simp [receiver]
    omega
  | writeError item n detail =>
    obtain ⟨⟨⟨hmem, -⟩, -⟩, rfl⟩ := guarded_eq_some.mp hs
    have := List.length_erase_of_mem hmem
    simp [receiver]
    omega
  | handed item =>
    obtain ⟨hmem, rfl⟩ := guarded_eq_some.mp hs
    have := List.length_erase_of_mem hmem
    have := List.length_pos_of_mem hmem
    simp [receiver]
    omega
  | join index =>
    obtain ⟨⟨hpc, hmem⟩, rfl⟩ := guarded_eq_some.mp hs
    have := List.length_erase_of_mem hmem
    have := List.length_pos_of_mem hmem
    simp [receiver, hpc, Pc.pending]
    omega
  | joinError detail =>
    obtain ⟨⟨hpc, -⟩, rfl⟩ := guarded_eq_some.mp hs
    simp [receiver, hpc, Pc.pending]
  | ack =>
    cases hpc : s.pc with
    | ack index =>
      simp only [step, hpc, Option.some.injEq] at hs
      subst hs
      have hone : [(ackFrame index : Frame C)].countP Sender.isAck = 1 := rfl
      simp only [receiver, hpc, hone, List.length_nil]
      split <;> simp [Pc.pending]
    | _ => simp [step, hpc] at hs
  | ackError detail =>
    simp only [step] at hs
    split at hs
    · obtain rfl := Option.some.inj hs
      simp [receiver, Pc.pending]
    · cases hs
  | verdict =>
    obtain ⟨⟨hpc, -⟩, rfl⟩ := guarded_eq_some.mp hs
    have hnone : [s.verdict].countP Sender.isAck = 0 := by
      unfold State.verdict
      split <;> rfl
    simp only [receiver, hnone, hpc, Pc.pending]
    omega
  | verdictLost | flush | flushFailed =>
    obtain ⟨⟨hpc, -⟩, rfl⟩ := guarded_eq_some.mp hs
    simp [receiver, hpc, Pc.pending]
  | hash | landed | lost =>
    obtain ⟨-, rfl⟩ := guarded_eq_some.mp hs
    simp [receiver]

/-- The receiver of the command line acknowledges no more than it has been given, whatever that
is. -/
theorem modest (s : State C) (h : s.inHand = 0) : Sender.Modest (receiver C) s := by
  intro i o t htrace
  have hcount : o.countP Sender.isAck + t.inHand ≤ i.length := by
    refine htrace.invariant (I := fun i o t => o.countP Sender.isAck + t.inHand ≤ i.length)
      (by simp [h]) fun i o u b v ih _ hs => ?_
    have := inHand_step hs
    rw [List.countP_append, List.length_append]
    omega
  exact (Sender.takeWhile_isAck_le o).trans (by omega)

end Receiver

namespace Sender

variable {x : Job C} {o : List (Frame C)} {s t : State C} {a : Act C}

/-- A chunk goes to the receiver of the command line, and is acknowledged and counted. -/
theorem sample_counters_of_modest :
    ∃ oL oR n, LinkRun (sender .plain) (receiver .plain) (fun n a => cleanOk n a ∧ inOrder n a)
        (State.start (sampleJob 0)) (Receiver.State.start () (sampleJob 0).metadata []) oL oR n ∧
      n.left.nextToAck = startChunk (sampleJob 0).metadata + 1 ∧ Counters (sampleJob 0) oL n.left := by
  obtain ⟨n, hreach, hnext, -⟩ := exists_counted (deliverable_sampleJob 0) []
  obtain ⟨oL, oR, hrun⟩ := LinkRun.exists_of_reach hreach
  exact ⟨oL, oR, n, hrun, hnext, counters_of_modest (Receiver.modest _ rfl) hrun⟩

/-- An acknowledgement may come, and be counted, before anything has been sent. -/
theorem exists_early_ack (x : Job C) :
    ∃ i s, (sender C).Trace (fun _ _ => True) (State.start x) i [] s ∧
      s.nextToAck = s.nextToSend + 1 := by
  have hread : (sender C).step (State.start x) (.readAck (Receiver.ackFrame 0)) =
      some { State.start x with acks := [Receiver.ackFrame 0] } := rfl
  have hcount : (sender C).step { State.start x with acks := [Receiver.ackFrame 0] }
      (.ack (Receiver.ackFrame 0)) = some
        { State.start x with
          acks := [], bytesSent := (State.start x).bytesSent + (State.start x).lenToInc,
          progress := some ((State.start x).bytesSent + (State.start x).lenToInc),
          nextToAck := startChunk x.metadata + 1,
          pc := if startChunk x.metadata + 1 = x.metadata.totalChunks then .acked else .check } := rfl
  have hstart : (sender C).Trace (fun _ _ => True) (State.start x) [] [] (State.start x) := .nil
  exact ⟨_, _, (hstart.snoc trivial hread).snoc trivial hcount, rfl⟩

/-- So it is with the two chunks of the sample. -/
theorem sample_counters_out_of_order :
    ¬ ∀ i o s, (sender .plain).Trace (fun _ _ => True) (State.start (sampleJob 0)) i o s →
      Counters (sampleJob 0) o s := by
  intro h
  obtain ⟨i, s, htrace, hack⟩ := exists_early_ack (sampleJob 0)
  have := (h i [] s htrace).acked
  omega

/-- At most a window is outstanding, and at most `bound` frames wait for their turn. -/
def State.Bounded (bound : Nat) (s : State C) : Prop :=
  s.nextToSend - s.nextToAck ≤ windowSize ∧ s.bufferedFrames.waiting.length ≤ bound

/-- What is outstanding, and what waits, are chunks that are due. -/
theorem bounded_of_trace {i o : List (Frame C)} {bound : Nat}
    (h : (sender C).Trace (fun _ a => a.clean = true) (State.start x) i o s)
    (hwindow : x.due ≤ windowSize) (hbound : x.due ≤ bound) : s.Bounded bound := by
  obtain ⟨hjob, hgen, hacc, hfirst⟩ := h.invariant
    (I := fun _ o s => s.job = x ∧ Genuine o s ∧ Accounts o s ∧ startChunk x.metadata ≤ s.nextToAck)
    ⟨rfl, .start x, .start x, Nat.le_refl _⟩ (by
      rintro i o s a t ⟨hjob, hgen, hacc, hfirst⟩ ha hs
      refine ⟨(step_job hs).trans hjob, hgen.step hs, hacc.step hgen ha hs, ?_⟩
      rcases step_counts hs with ⟨hack, -⟩ | ⟨-, hack, -⟩ <;> omega)
  have hsent := hacc.sent
  have hnext := hgen.next
  have hlow := hacc.first
  rw [hjob] at hnext hlow
  unfold Job.due at hwindow hbound
  constructor
  · show s.bufferedFrames.next - s.nextToAck ≤ windowSize
    omega
  · have honce : ∀ j, tally Prod.fst s.bufferedFrames.waiting j ≤
        if startChunk x.metadata ≤ j ∧ j < startChunk x.metadata +
          (x.metadata.totalChunks - startChunk x.metadata) then 1 else 0 := by
      intro j
      have := hacc.tally j
      split_ifs at this ⊢ <;> omega
    exact (length_le_of_tally honce).trans hbound

section Stalled

variable (x)

/-- The frames of the `n` chunks after the first one. -/
def held : Nat → List (Nat × Frame C)
  | 0 => []
  | n + 1 => (startChunk x.metadata + 1 + n, x.chunkFrame (startChunk x.metadata + 1 + n)) :: held n

/-- The task of the first chunk has not ended, while the `n` chunks after it wait for it. -/
def stalled (n f : Nat) : State C :=
  { State.start x with
    nextChunk := startChunk x.metadata + 1 + n, finished := f
    encrypting := [(startChunk x.metadata,
      prepareChunk x.source x.metadata (startChunk x.metadata))]
    bufferedFrames := ⟨startChunk x.metadata, held x n⟩ }

variable {x}

@[simp] theorem length_held (n : Nat) : (held x n).length = n := by
  induction n with
  | zero => rfl
  | succ n ih => rw [held, List.length_cons, ih]

theorem between_of_mem_held {n : Nat} {item : Nat × Frame C} (h : item ∈ held x n) :
    startChunk x.metadata < item.1 ∧ item.1 < startChunk x.metadata + 1 + n := by
  induction n with
  | zero => cases h
  | succ n ih =>
    rcases List.mem_cons.mp h with rfl | h
    · show startChunk x.metadata < startChunk x.metadata + 1 + n ∧
        startChunk x.metadata + 1 + n < startChunk x.metadata + 1 + (n + 1)
      omega
    · have := ih h
      omega

/-- A frame with another number is put before those that wait. -/
theorem insert_held {n j : Nat} (f : Frame C)
    (hj : j ≤ startChunk x.metadata ∨ startChunk x.metadata + 1 + n ≤ j) :
    (⟨startChunk x.metadata, held x n⟩ : Reorder (Frame C)).insert j f =
      ⟨startChunk x.metadata, (j, f) :: held x n⟩ := by
  have hkeep : (held x n).filter (fun item => item.1 ≠ j) = held x n := by
    rw [List.filter_eq_self]
    intro item hitem
    have := between_of_mem_held hitem
    simp only [ne_eq, decide_eq_true_eq]
    omega
  unfold Reorder.insert
  dsimp only
  rw [hkeep]

/-- None of them has its turn before the first chunk. -/
theorem ready_held (n : Nat) :
    (⟨startChunk x.metadata, held x n⟩ : Reorder (Frame C)).ready = none := by
  rw [Reorder.ready_eq_none]
  by_contra hpos
  obtain ⟨item, hitem, hnum⟩ := tally_pos.mp (Nat.pos_of_ne_zero hpos)
  have := between_of_mem_held hitem
  dsimp only at hnum
  omega

/-- The first chunk is given to its task. -/
theorem stall_first (hdue : startChunk x.metadata < x.metadata.totalChunks) :
    (sender C).Trace quiet (State.start x) [] [] (stalled x 0 0) := by
  have hprep : (sender C).step (State.start x) .prepare = some
      { State.start x with
        preparing := some (prepareChunk x.source x.metadata (startChunk x.metadata)) } :=
    guarded_eq_some.mpr ⟨⟨rfl, Bool.false_ne_true, rfl, hdue, show 0 < maxTasks by decide⟩, rfl⟩
  have hspawn : (sender C).step { State.start x with
        preparing := some (prepareChunk x.source x.metadata (startChunk x.metadata)) } .spawn =
      some (stalled x 0 0) := rfl
  have hstart : (sender C).Trace quiet (State.start x) [] [] (State.start x) := .nil
  exact (hstart.snoc ⟨rfl, rfl⟩ hprep).snoc ⟨rfl, rfl⟩ hspawn

/-- One chunk more is read, encrypted and taken. -/
theorem hold_one {n f : Nat} (hf : 1 + f < maxTasks)
    (hlt : startChunk x.metadata + 1 + n < x.metadata.totalChunks) :
    (sender C).Trace quiet (stalled x n f) [] [] (stalled x (n + 1) (f + 1)) := by
  set k := startChunk x.metadata
  set data := prepareChunk x.source x.metadata (k + 1 + n)
  set first := (k, prepareChunk x.source x.metadata k)
  have hprep : (sender C).step (stalled x n f) .prepare = some
      { stalled x n f with preparing := some data } :=
    guarded_eq_some.mpr ⟨⟨rfl, Bool.false_ne_true, rfl, hlt, hf⟩, rfl⟩
  have hspawn : (sender C).step { stalled x n f with preparing := some data } .spawn = some
      { stalled x n f with
        encrypting := [first, (k + 1 + n, data)], nextChunk := k + 1 + (n + 1) } := rfl
  have henc : (sender C).step { stalled x n f with
        encrypting := [first, (k + 1 + n, data)], nextChunk := k + 1 + (n + 1) }
        (.encrypted (k + 1 + n, data)) = some
      { stalled x n f with
        nextChunk := k + 1 + (n + 1), finished := f + 1,
        net := [(k + 1 + n, x.chunkFrame (k + 1 + n))] } := by
    refine guarded_eq_some.mpr ⟨⟨by simp, show 0 < netCapacity by decide⟩, ?_⟩
    have hne : first ≠ (k + 1 + n, data) := fun h => by
      have := congrArg Prod.fst h
      dsimp only [first] at this
      omega
    rw [List.erase_cons_tail (by simpa using hne), List.erase_cons_head]
    rfl
  have htake : (sender C).step { stalled x n f with
        nextChunk := k + 1 + (n + 1), finished := f + 1,
        net := [(k + 1 + n, x.chunkFrame (k + 1 + n))] }
        (.take (k + 1 + n, x.chunkFrame (k + 1 + n))) = some
      { stalled x (n + 1) (f + 1) with pc := .flush } := by
    refine guarded_eq_some.mpr ⟨⟨rfl, rfl, Nat.le_refl _, ?_⟩, ?_⟩
    · show k - k < windowSize
      rw [Nat.sub_self]
      decide
    · show ({ stalled x n f with
          nextChunk := k + 1 + (n + 1), finished := f + 1, net := [], pc := .flush,
          bufferedFrames := (⟨k, held x n⟩ : Reorder (Frame C)).insert (k + 1 + n)
            (x.chunkFrame (k + 1 + n)) } : State C) = _
      rw [insert_held _ (.inr (Nat.le_refl _))]
      rfl
  have hflush : (sender C).step { stalled x (n + 1) (f + 1) with pc := .flush } .flushed = some
      { stalled x (n + 1) (f + 1) with pc := .check } :=
    guarded_eq_some.mpr ⟨⟨rfl, ready_held (n + 1)⟩, rfl⟩
  have hproceed : (sender C).step { stalled x (n + 1) (f + 1) with pc := .check } .proceed = some
      (stalled x (n + 1) (f + 1)) := rfl
  have hstart : (sender C).Trace quiet (stalled x n f) [] [] (stalled x n f) := .nil
  have hmade := ((hstart.snoc ⟨rfl, rfl⟩ hprep).snoc ⟨rfl, rfl⟩ hspawn).snoc ⟨rfl, rfl⟩ henc
  exact ((hmade.snoc ⟨rfl, rfl⟩ htake).snoc ⟨rfl, rfl⟩ hflush).snoc ⟨rfl, rfl⟩ hproceed

/-- All the tasks but that of the first chunk are joined when there are as many as there may be. -/
theorem join_one (n : Nat) :
    (sender C).Trace quiet (stalled x n 7) [] [] (stalled x n 6) := by
  have hstart : (sender C).Trace quiet (stalled x n 7) [] [] (stalled x n 7) := .nil
  exact hstart.snoc (show quiet _ .join from ⟨rfl, rfl⟩)
    (show (sender C).step (stalled x n 7) .join = some (stalled x n 6) from rfl)

/-- However many chunks there are, they may all wait for the first one. -/
theorem hold_all {n : Nat} (hn : startChunk x.metadata + 1 + n ≤ x.metadata.totalChunks) :
    ∃ f ≤ 7, (sender C).Trace quiet (State.start x) [] [] (stalled x n f) := by
  induction n with
  | zero => exact ⟨0, Nat.zero_le _, stall_first hn⟩
  | succ n ih =>
    have hlt : startChunk x.metadata + 1 + n < x.metadata.totalChunks := hn
    obtain ⟨f, hf, htrace⟩ := ih hlt.le
    rcases Nat.lt_or_eq_of_le hf with hfree | rfl
    · have hroom : 1 + f < maxTasks := show 1 + f < 8 by omega
      exact ⟨f + 1, hfree, htrace.trans (hold_one hroom hlt)⟩
    · have hroom : 1 + 6 < maxTasks := by decide
      exact ⟨7, Nat.le_refl _, (htrace.trans (join_one n)).trans (hold_one hroom hlt)⟩

/-- The first chunk comes last, and all the frames that are due are in the buffer. -/
theorem exists_buffered (hdue : 0 < x.due) :
    ∃ s, (sender C).Trace quiet (State.start x) [] [] s ∧ s.pc = .flush ∧ s.encrypting = [] ∧
      s.net = [] ∧ s.nextChunk = x.metadata.totalChunks ∧ s.nextToAck = startChunk x.metadata ∧
      s.bufferedFrames.waiting.length = x.due := by
  unfold Job.due at hdue ⊢
  obtain ⟨n, hn⟩ : ∃ n, x.metadata.totalChunks = startChunk x.metadata + 1 + n :=
    ⟨x.metadata.totalChunks - startChunk x.metadata - 1, by omega⟩
  obtain ⟨f, -, htrace⟩ := hold_all (x := x) hn.ge
  have hlast : x.chunkFrame (startChunk x.metadata) = x.frame (startChunk x.metadata)
      (prepareChunk x.source x.metadata (startChunk x.metadata)) := rfl
  have henc : (sender C).step (stalled x n f) (.encrypted (startChunk x.metadata,
        prepareChunk x.source x.metadata (startChunk x.metadata))) = some
      { stalled x n f with
        encrypting := [], finished := f + 1,
        net := [(startChunk x.metadata, x.chunkFrame (startChunk x.metadata))] } := by
    refine guarded_eq_some.mpr ⟨⟨List.mem_singleton_self _, show 0 < netCapacity by decide⟩, ?_⟩
    show ({ stalled x n f with
      encrypting := List.erase [_] _, finished := f + 1, net := _ } : State C) = _
    rw [List.erase_cons_head]
    rfl
  have htake : (sender C).step { stalled x n f with
        encrypting := [], finished := f + 1,
        net := [(startChunk x.metadata, x.chunkFrame (startChunk x.metadata))] }
        (.take (startChunk x.metadata, x.chunkFrame (startChunk x.metadata))) = some
      { stalled x n f with
        encrypting := [], finished := f + 1, net := [], pc := .flush,
        bufferedFrames := (⟨startChunk x.metadata, held x n⟩ : Reorder (Frame C)).insert
          (startChunk x.metadata) (x.chunkFrame (startChunk x.metadata)) } := by
    refine guarded_eq_some.mpr ⟨⟨rfl, rfl, Nat.le_refl _, ?_⟩, rfl⟩
    show startChunk x.metadata - startChunk x.metadata < windowSize
    rw [Nat.sub_self]
    decide
  refine ⟨_, (htrace.snoc ⟨rfl, rfl⟩ henc).snoc ⟨rfl, rfl⟩ htake, rfl, rfl, rfl, hn.symm, rfl, ?_⟩
  rw [insert_held _ (.inl (Nat.le_refl _)), List.length_cons, length_held, hn]
  omega

/-- One arrival releases all the frames that wait, without a look at the window. -/
theorem flush_all {i o : List (Frame C)} {s : State C}
    (h : (sender C).Trace quiet (State.start x) i o s) (hpc : s.pc = .flush)
    (henc : s.encrypting = []) (hnet : s.net = []) (hnext : s.nextChunk = x.metadata.totalChunks) :
    ∃ o' t, (sender C).Trace quiet (State.start x) i o' t ∧
      t.nextToSend = x.metadata.totalChunks ∧ t.nextToAck = s.nextToAck := by
  obtain ⟨-, hgen, hacc⟩ := h.invariant
    (I := fun _ o s => s.job = x ∧ Genuine o s ∧ Accounts o s) ⟨rfl, .start x, .start x⟩ (by
      rintro i o s a t ⟨hjob, hgen, hacc⟩ ha hs
      exact ⟨(step_job hs).trans hjob, hgen.step hs, hacc.step hgen ha.1 hs⟩)
  have hsent := hacc.sent
  -- by induction on how many frames have still to go out
  induction hk : x.metadata.totalChunks - s.nextToSend generalizing o s with
  | zero =>
    have hend : s.nextToSend = x.metadata.totalChunks := by
      have : s.nextToSend ≤ x.metadata.totalChunks := hnext ▸ hsent
      omega
    exact ⟨o, s, h, hend, rfl⟩
  | succ k ih =>
    have hlt : s.bufferedFrames.next < s.nextChunk := by
      rw [hnext]
      show s.nextToSend < x.metadata.totalChunks
      omega
    obtain ⟨f, hready⟩ : ∃ f, s.bufferedFrames.ready = some f := by
      have htally := hacc.tally s.bufferedFrames.next
      rw [henc, hnet, tally_nil, tally_nil, if_pos ⟨Nat.le_refl _, hlt⟩] at htally
      refine Option.ne_none_iff_exists'.mp fun hnone => ?_
      rw [s.bufferedFrames.ready_eq_none.mp hnone] at htally
      omega
    obtain ⟨t, ht, hwrite⟩ : ∃ t, t = { s with bufferedFrames := s.bufferedFrames.advance } ∧
        step s (.write f) = some t := ⟨_, rfl, guarded_eq_some.mpr ⟨⟨hpc, hready⟩, rfl⟩⟩
    have hok : quiet s (.write f) := ⟨rfl, rfl⟩
    have htrace := h.snoc hok (show (sender C).step s (.write f) = some t from hwrite)
    rw [show i ++ (sender C).recvs (.write f) = i from List.append_nil i] at htrace
    have hgen' := hgen.step hwrite
    have hacc' := hacc.step hgen hok.1 hwrite
    have hnext' : t.nextToSend = s.nextToSend + 1 := by
      rw [ht]
      rfl
    obtain ⟨o', u, hu, hsend, hack⟩ := ih htrace (by rw [ht]; exact hpc) (by rw [ht]; exact henc)
      (by rw [ht]; exact hnet) (by rw [ht]; exact hnext) hgen' hacc' hacc'.sent
      (by rw [hnext']; omega)
    exact ⟨o', u, hu, hsend, by rw [hack, ht]⟩

end Stalled

end Sender

/-- What the sender reaches on its own it reaches with the receiver at its other end. -/
theorem Job.reach_of_quiet {x : Job C} {o : List (Frame C)} {s : Sender.State C}
    (h : (sender C).Trace Sender.quiet (Sender.State.start x) [] o s) (existing : Bytes) :
    ∃ n, ((sender C).link (receiver C)).Reach cleanOk (x.net existing) n ∧ n.left = s :=
  ⟨_, reach_of_trace_left (Q := receiver C) cleanOk (fun _ _ ha => ha.1) (fun _ _ ha => ha.2) h
    (Receiver.State.start x.key x.metadata existing) [] [], rfl⟩

/-- All the chunks may be outstanding at once. -/
theorem exists_outstanding {x : Job C} (hdue : 0 < x.due) (existing : Bytes) :
    ∃ n, ((sender C).link (receiver C)).Reach cleanOk (x.net existing) n ∧
      n.left.nextToSend - n.left.nextToAck = x.due := by
  obtain ⟨s, htrace, hpc, henc, hnet, hnext, hack, -⟩ := Sender.exists_buffered hdue
  obtain ⟨o, t, htrace', hsend, hack'⟩ := Sender.flush_all htrace hpc henc hnet hnext
  obtain ⟨n, hreach, rfl⟩ := Job.reach_of_quiet htrace' existing
  exact ⟨n, hreach, by rw [hsend, hack', hack, Job.due]⟩

/-- **Flow control.** With the receiver of the command line at the other end, the chunks that are
outstanding stay within the window, and the frames that wait within a bound, exactly when there
are no more chunks to send than that. -/
theorem bounded_iff (x : Job C) (existing : Bytes) (bound : Nat) :
    (∀ n, ((sender C).link (receiver C)).Reach cleanOk (x.net existing) n →
      n.left.Bounded bound) ↔ x.due ≤ windowSize ∧ x.due ≤ bound := by
  constructor
  · intro h
    rcases Nat.eq_zero_or_pos x.due with hzero | hdue
    · rw [hzero]
      exact ⟨Nat.zero_le _, Nat.zero_le _⟩
    · obtain ⟨n, hreach, hout⟩ := exists_outstanding hdue existing
      obtain ⟨s, htrace, -, -, -, -, -, hlen⟩ := Sender.exists_buffered hdue
      obtain ⟨n', hreach', rfl⟩ := Job.reach_of_quiet htrace existing
      exact ⟨hout ▸ (h n hreach).1, hlen ▸ (h n' hreach').2⟩
  · rintro ⟨hwindow, hbound⟩ n hreach
    obtain ⟨i, o, -, -, htrace, -⟩ := link_traces (fun _ a => a.clean = true)
      (fun _ b => b.clean = true) (fun _ _ ha => ha) (fun _ _ hb => hb) hreach
    exact Sender.bounded_of_trace htrace hwindow hbound

/-- A file of one chunk more than the window. -/
def windowSource : Bytes := List.replicate (windowSize * minChunkSize + 1) 0

def windowJob : Job .plain :=
  transferJob .plain [] ['f'] windowSource [0, 0, 0, 0] 0 0 0 false
    Primitives.plainSecret Primitives.plainSecret

theorem length_windowSource : windowSource.length = windowSize * minChunkSize + 1 := by
  rw [windowSource, List.length_replicate]

theorem totalChunks_windowJob : windowJob.metadata.totalChunks = windowSize + 1 := by
  simp only [windowJob, transferJob, sendMetadata, createMetadata, length_windowSource,
    Chunker.totalChunks, Chunker.new, minChunkSize, maxChunkSize]
  decide

theorem due_windowJob : windowJob.due = windowSize + 1 := by
  have hzero : startChunk windowJob.metadata = 0 := by
    simp [startChunk, windowJob, transferJob, sendMetadata]
  rw [Job.due, totalChunks_windowJob, hzero, Nat.sub_zero]

/-- No bound on the frames that wait helps it. -/
theorem window_not_bounded :
    ¬ ∃ bound, ∀ n, ((sender .plain).link (receiver .plain)).Reach cleanOk (windowJob.net []) n →
      n.left.Bounded bound := by
  rintro ⟨bound, h⟩
  obtain ⟨n, hreach, hout⟩ := exists_outstanding
    (x := windowJob) (by rw [due_windowJob]; exact Nat.succ_pos _) []
  have := (h n hreach).1
  rw [hout, due_windowJob] at this
  exact absurd this (Nat.not_succ_le_self _)

end P2PTransfer.Cli
