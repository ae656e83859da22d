import P2PTransfer.Lan.Soundness
import P2PTransfer.Tcp.Logged

/-!
# Progress of a LAN transfer

The sender adds up the bytes that it has read of every block it puts, the receiver the
length of what it takes less the tag of the cipher. Each side writes down its count with
every chunk frame. The two lists begin at the resume offset and never part, whatever fails
or is cancelled.

## Main definitions

- `counts` — the counts after blocks of given lengths
- `countedSender`, `countedReceiver` — the two loops with their counts
- `Agrees` — the two lists are those of the blocks of the source
-/

namespace P2PTransfer.Lan

open Transition Party

variable {C : Primitives}

/-- The counts from an offset on, over blocks of these lengths. -/
def counts (off : Nat) (lens : List Nat) : List Nat := lens.scanl (· + ·) off

theorem foldl_add (off : Nat) (lens : List Nat) : lens.foldl (· + ·) off = off + lens.sum := by
  induction lens generalizing off with
  | nil => rfl
  | cons n lens ih => rw [List.foldl_cons, ih, List.sum_cons, Nat.add_assoc]

theorem counts_getLast? (off : Nat) (lens : List Nat) :
    (counts off lens).getLast? = some (off + lens.sum) := by
  rw [counts, List.getLast?_scanl, foldl_add]

theorem counts_snoc (off : Nat) (lens : List Nat) (n : Nat) :
    counts off (lens ++ [n]) = counts off lens ++ [off + lens.sum + n] := by
  rw [counts, List.scanl_append, foldl_add]
  simp [counts]

theorem counts_prefix (off : Nat) {lens lens' : List Nat} (h : lens <+: lens') :
    counts off lens <+: counts off lens' := by
  obtain ⟨more, rfl⟩ := h
  rw [counts, counts, List.scanl_append]
  exact List.prefix_append _ _

theorem le_of_mem_counts {off n : Nat} {lens : List Nat} (h : n ∈ counts off lens) :
    off ≤ n ∧ n ≤ off + lens.sum := by
  induction lens generalizing off with
  | nil =>
    obtain rfl := List.mem_singleton.mp h
    exact ⟨le_rfl, le_rfl⟩
  | cons m lens ih =>
    rw [counts, List.scanl_cons] at h
    rcases List.mem_cons.mp h with rfl | h
    · exact ⟨le_rfl, Nat.le_add_right _ _⟩
    · have := ih h
      rw [List.sum_cons]
      omega

theorem counts_pairwise (off : Nat) (lens : List Nat) : (counts off lens).Pairwise (· ≤ ·) := by
  induction lens generalizing off with
  | nil => exact List.pairwise_singleton _ _
  | cons m lens ih =>
    rw [counts, List.scanl_cons, List.pairwise_cons]
    refine ⟨fun n hn => ?_, ih (off + m)⟩
    have := (le_of_mem_counts hn).1
    omega

namespace Sender

/-- What an action adds to the list of counts. -/
def Act.count (t : State C) : Act C → List Nat
  | .write _ => [t.bytesSent]
  | _ => []

/-- The blocks between the reader task and the stream, with their lengths. -/
def State.items (s : State C) : List (Frame C × Nat) :=
  s.wire.toList ++ s.channel ++ s.held.toList

/-- The blocks as the reader task hands them on. -/
def items (key : C.Key) (pre : Bytes) (k : Nat) (ds : List Bytes) : List (Frame C × Nat) :=
  (frames key pre k ds).zip (ds.map List.length)

theorem items_cons (key : C.Key) (pre : Bytes) (k : Nat) (d : Bytes) (ds : List Bytes) :
    items key pre k (d :: ds) =
      (Frame.ofChunk k false (C.encrypt key (buildNonce pre k) d), d.length) ::
        items key pre (k + 1) ds := rfl

theorem items_append (key : C.Key) (pre : Bytes) (k : Nat) (ds es : List Bytes) :
    items key pre k (ds ++ es) = items key pre k ds ++ items key pre (k + ds.length) es := by
  induction ds generalizing k with
  | nil => rfl
  | cons d ds ih =>
    rw [List.cons_append, items_cons, items_cons, ih, List.cons_append, List.length_cons,
      Nat.add_right_comm, Nat.add_assoc k]

/-- What the program counters say of the blocks on the way. -/
structure Flow (source : Bytes) (s : State C) : Prop where
  held : s.reader = .hashPrefix ∨ s.reader = .read → s.held = none
  wire : s.pc = .check ∨ s.pc = .dequeue ∨ s.pc = .join → s.wire = none
  tail : s.pc = .join → s.channel = [] ∧ s.reader.ended
  done : s.reader = .done → s.pc ≠ .returned → s.held = none ∧ source.length ≤ s.position

theorem Flow.start (source : Bytes) (pauses : Nat) (key : C.Key) (m : TransferMetadata C)
    (off : Nat) : Flow source (State.start pauses key m off) := by
  constructor <;> simp [State.start]

theorem Flow.step {source : Bytes} {s t : State C} {a : Act C} (h : Flow source s)
    (hs : step (Disk.ofFile source) s a = some t) : Flow source t := by
  obtain ⟨h1, h2, h3, h4⟩ := h
  cases a with
  | cancel =>
    obtain rfl := Option.some.inj hs
    exact ⟨h1, h2, h3, h4⟩
  | endOfFile =>
    obtain ⟨⟨g, hdisk⟩, rfl⟩ := guarded_eq_some.mp hs
    refine ⟨by simp, h2, fun hp => ⟨(h3 hp).1, rfl⟩, fun _ _ => ⟨h1 (.inr g), ?_⟩⟩
    exact (Disk.ofFile_iff.mp hdisk).2 rfl
  | _ =>
    simp only [Sender.step, guarded_eq_some] at hs
    obtain ⟨g, rfl⟩ := hs
    refine ⟨?_, ?_, ?_, ?_⟩ <;> first
      | assumption
      | grind -ring -linarith [ReaderPc.ended]

/-- The blocks `ds` have been put, the blocks `es` have been read. -/
structure Counts (source : Bytes) (ds es : List Bytes) (o : List (Frame C)) (l : List Nat)
    (s : State C) : Prop where
  out : ∃ ending, o = frames s.key s.noncePrefix (s.startOffset / lanBlockSize) ds ++ ending ∧
    (∀ f ∈ ending, f.tag ≠ tagChunk) ∧
    (ending ≠ [] → s.pc = .awaitComplete ∨ s.pc = .returned) ∧
    ((∃ f ∈ ending, f.tag = tagComplete) → source.length ≤ s.startOffset + ds.flatten.length)
  items : s.items =
    items s.key s.noncePrefix (s.startOffset / lanBlockSize + ds.length) es
  data : source.drop s.startOffset = ds.flatten ++ es.flatten ++ source.drop s.position
  position : s.position = s.startOffset + ds.flatten.length + es.flatten.length
  blocks : ∀ d ∈ ds ++ es, d.length ≤ lanBlockSize
  blockIdx : s.blockIdx + s.held.toList.length =
    s.startOffset / lanBlockSize + ds.length + es.length
  log : l = counts s.startOffset (ds.map List.length)
  sent : s.bytesSent = s.startOffset + (ds.map List.length).sum
  completing : s.pc = .sendComplete ∨ s.pc = .awaitComplete →
    source.length ≤ s.startOffset + ds.flatten.length

theorem Counts.start (source : Bytes) (pauses : Nat) (key : C.Key) (m : TransferMetadata C)
    (off : Nat) : Counts source [] [] [] [off] (State.start pauses key m off) := by
  constructor <;> simp [State.start, State.items, Sender.items, frames, sealed, counts]

/-- A step that puts nothing and leaves the blocks where they are. -/
theorem Counts.quiet {source : Bytes} {ds es : List Bytes} {o : List (Frame C)} {l : List Nat}
    {s t : State C} (h : Counts source ds es o l s) (hkey : t.key = s.key)
    (hpre : t.noncePrefix = s.noncePrefix) (hoff : t.startOffset = s.startOffset)
    (hitems : t.items = s.items) (hpos : t.position = s.position)
    (hidx : t.blockIdx + t.held.toList.length = s.blockIdx + s.held.toList.length)
    (hsent : t.bytesSent = s.bytesSent)
    (hpc : s.pc = .awaitComplete ∨ s.pc = .returned → t.pc = .awaitComplete ∨ t.pc = .returned)
    (hcompl : t.pc = .sendComplete ∨ t.pc = .awaitComplete →
      source.length ≤ s.startOffset + ds.flatten.length) : Counts source ds es o l t := by
  obtain ⟨⟨ending, ho, htag, hend, hall⟩, h2, h3, h4, h5, h6, h7, h8, -⟩ := h
  refine ⟨⟨ending, ?_, htag, fun he => hpc (hend he), ?_⟩, ?_, ?_, ?_, h5, ?_, ?_, ?_, ?_⟩
  · rw [hkey, hpre, hoff, ho]
  · rwa [hoff]
  · rw [hkey, hpre, hoff, hitems, h2]
  · rw [hoff, hpos, h3]
  · rw [hoff, hpos, h4]
  · rw [hoff, hidx, h6]
  · rw [hoff, h7]
  · rw [hoff, hsent, h8]
  · rwa [hoff]

theorem Counts.step {source : Bytes} {ds es : List Bytes} {o : List (Frame C)} {l : List Nat}
    {s t : State C} {a : Act C} (h : Counts source ds es o l s) (hf : Flow source s)
    (hs : step (Disk.ofFile source) s a = some t) :
    ∃ ds' es', Counts source ds' es' (o ++ (sender C (Disk.ofFile source)).sends s a)
      (l ++ a.count t) t := by
  have hquiet := @h.quiet
  obtain ⟨⟨ending, ho, htag, hend, hall⟩, h2, h3, h4, h5, h6, h7, h8, h9⟩ := h
  cases a with
  | cancel =>
    obtain rfl := Option.some.inj hs
    simp only [sender, Act.count, List.append_nil]
    exact ⟨ds, es, hquiet _ rfl rfl rfl rfl rfl rfl rfl id h9⟩
  | dequeue item =>
    obtain ⟨⟨g, -, hhead⟩, rfl⟩ := guarded_eq_some.mp hs
    obtain ⟨rest, hrest⟩ := List.head?_eq_some_iff.mp hhead
    simp only [sender, Act.count, List.append_nil]
    refine ⟨ds, es, hquiet _ rfl rfl rfl ?_ rfl rfl rfl (by simp [g]) (by simp)⟩
    simp [State.items, hf.wire (.inr (.inl g)), hrest]
  | write item =>
    obtain ⟨⟨g, hwire⟩, rfl⟩ := guarded_eq_some.mp hs
    obtain rfl : ending = [] := by
      by_contra hne
      simpa [g] using hend hne
    cases es with
    | nil => simp [State.items, hwire, Sender.items, frames, sealed] at h2
    | cons e es =>
      rw [State.items, hwire, items_cons] at h2
      obtain ⟨rfl, h2⟩ := List.cons.inj h2
      refine ⟨ds ++ [e], es, ⟨[], ?_, by simp, by simp, by simp⟩, ?_, ?_, ?_, ?_, ?_, ?_, ?_,
        by simp⟩
      · rw [ho, List.append_nil, List.append_nil, frames_append]
        rfl
      · simpa [State.items, Nat.add_assoc] using h2
      · simpa using h3
      · simpa [Nat.add_assoc] using h4
      · simpa using h5
      · simpa [Nat.add_assoc, Nat.add_comm 1] using h6
      · rw [List.map_append, List.map_singleton, counts_snoc, Act.count, h7, h8]
      · simp [h8, Nat.add_assoc]
  | sendError e =>
    obtain ⟨g, rfl⟩ := guarded_eq_some.mp hs
    obtain rfl : ending = [] := by
      by_contra hne
      simpa [g] using hend hne
    refine ⟨ds, es, ⟨[Frame.ofText tagError e.text], by simp [sender, ho], ?_, by simp, ?_⟩, h2, h3,
      h4, h5, h6, by simp [Act.count, h7], h8, by simp⟩
    · simp [Frame.ofText, tagError, tagChunk]
    · simp [Frame.ofText, tagError, tagComplete]
  | join =>
    obtain ⟨⟨g, hdone⟩, rfl⟩ := guarded_eq_some.mp hs
    simp only [sender, Act.count, List.append_nil]
    refine ⟨ds, es, hquiet _ rfl rfl rfl rfl rfl rfl rfl (by simp [g]) fun _ => ?_⟩
    -- nothing is left on the way
    obtain ⟨hheld, hpos⟩ := hf.done hdone (by simp [g])
    have hes : es = [] := by
      cases es with
      | nil => rfl
      | cons e es => simp [State.items, hheld, hf.wire (.inr (.inr g)), (hf.tail g).1, items_cons] at h2
    simpa [h4, hes] using hpos
  | sendComplete =>
    obtain ⟨g, rfl⟩ := guarded_eq_some.mp hs
    have hsent := h9 (.inl g)
    obtain rfl : ending = [] := by
      by_contra hne
      simpa [g] using hend hne
    refine ⟨ds, es, ⟨[⟨tagComplete, .hex (C.blake3 s.hashed)⟩], by simp [sender, ho], ?_, by simp,
      fun _ => hsent⟩, h2, h3, h4, h5, h6, by simp [Act.count, h7], h8, fun _ => hsent⟩
    simp [tagComplete, tagChunk]
  | read data =>
    obtain ⟨⟨g, hne, hdisk, hlen⟩, rfl⟩ := guarded_eq_some.mp hs
    have hheld := hf.held (.inr g)
    have hidx : s.blockIdx = s.startOffset / lanBlockSize + ds.length + es.length := by
      simpa [hheld] using h6
    obtain ⟨rest, hrest⟩ := (Disk.ofFile_iff.mp hdisk).1
    simp only [sender, Act.count, List.append_nil]
    refine ⟨ds, es ++ [data], ⟨ending, ho, htag, hend, hall⟩, ?_, ?_, ?_, ?_, ?_, h7, h8, h9⟩
    · rw [items_append, ← h2]
      simp [State.items, hheld, State.frame, Sender.items, frames, sealed, hidx]
    · rw [h3, ← List.drop_drop, ← hrest]
      simp
    · simp [h4, Nat.add_assoc]
    · intro d hd
      rcases List.mem_append.mp (List.append_assoc ds es [data] ▸ hd) with hd | hd
      · exact h5 d hd
      · rwa [List.mem_singleton.mp hd]
    · simp [hidx, Nat.add_assoc]
  | push item =>
    obtain ⟨⟨g, hheld, -⟩, rfl⟩ := guarded_eq_some.mp hs
    simp only [sender, Act.count, List.append_nil]
    refine ⟨ds, es, hquiet _ rfl rfl rfl ?_ rfl (by simp [hheld]) rfl id h9⟩
    simp [State.items, hheld]
  | _ =>
    simp only [Sender.step, guarded_eq_some] at hs
    obtain ⟨g, rfl⟩ := hs
    simp only [sender, Act.count, List.append_nil]
    refine ⟨ds, es, hquiet _ rfl rfl rfl rfl rfl rfl rfl ?_ ?_⟩ <;> first
      | exact id
      | exact h9
      | grind -ring -linarith

end Sender

namespace Receiver

def Act.count (t : State C) : Act C → List Nat
  | .forward _ => [t.bytesReceived]
  | _ => []

/-- What the receiver takes for the length of the block in a frame. -/
def plainLength (f : Frame C) : Nat := ((chunkData f).getD []).length - tagLen

/-- The frames `p` have been processed, the frames `q` only taken. -/
structure Counts (off : Nat) (p q i : List (Frame C)) (l : List Nat) (s : State C) : Prop where
  input : i = p ++ q
  chunks : ∀ f ∈ p, f.tag = tagChunk
  log : l = counts off (p.map plainLength)
  received : s.bytesReceived = off + (p.map plainLength).sum
  idle : s.pc = .check ∨ s.pc = .read → q = []
  forward : s.pc = .forward → ∃ f, q = [f] ∧ (chunkData f).isSome ∧ chunkData f = s.held
  fresh : s.pc.looping → s.receivedHash = none
  complete : s.receivedHash ≠ none → ∃ f, q = [f] ∧ f.tag = tagComplete

/-- The loop from an offset on. -/
def State.startAt (pauses : Nat) (fs : Files) (outputDir : Text) (key : C.Key)
    (metadata : TransferMetadata C) (resuming : Bool) (off : Nat) : State C :=
  { State.start pauses fs outputDir key metadata with
    resuming := resuming, blockIndex := off / lanBlockSize, bytesReceived := off }

theorem Counts.start (pauses : Nat) (fs : Files) (outputDir : Text) (key : C.Key)
    (m : TransferMetadata C) (resuming : Bool) (off : Nat) :
    Counts off [] [] [] [off] (State.startAt pauses fs outputDir key m resuming off) := by
  constructor <;> simp [State.startAt, State.start, counts]

theorem Counts.step {off : Nat} {p q i : List (Frame C)} {l : List Nat} {s t : State C}
    {a : Act C} (h : Counts off p q i l s) (hs : step s a = some t) :
    ∃ p' q', Counts off p' q' (i ++ (receiver C).recvs a) (l ++ a.count t) t := by
  obtain ⟨h1, h2, h3, h4, h5, h6, h7, h8⟩ := h
  cases a with
  | cancel =>
    obtain rfl := Option.some.inj hs
    simp only [receiver, Act.count, List.append_nil]
    exact ⟨p, q, h1, h2, h3, h4, h5, h6, h7, h8⟩
  | chunk f data =>
    obtain ⟨⟨g, hdata⟩, rfl⟩ := guarded_eq_some.mp hs
    obtain rfl := h5 (.inr g)
    refine ⟨p, [f], by simp [h1, receiver], h2, by simp [h3, Act.count], h4, by simp, fun _ => ?_,
      fun _ => h7 (by simp [g, Pc.looping]), fun hne => ?_⟩
    · exact ⟨f, rfl, by rw [hdata]; rfl, hdata⟩
    · exact absurd (h7 (by simp [g, Pc.looping])) hne
  | complete f =>
    obtain ⟨⟨g, htag, -⟩, rfl⟩ := guarded_eq_some.mp hs
    obtain rfl := h5 (.inr g)
    exact ⟨p, [f], by simp [h1, receiver], h2, by simp [h3, Act.count], h4, by simp, by simp,
      by simp [Pc.looping], fun _ => ⟨f, rfl, htag⟩⟩
  | other f =>
    obtain ⟨⟨g, -⟩, rfl⟩ := guarded_eq_some.mp hs
    obtain rfl := h5 (.inr g)
    have hnone := h7 (by simp [g, Pc.looping])
    exact ⟨p, [f], by simp [h1, receiver], h2, by simp [h3, Act.count], h4, by simp, by simp,
      by simp [Pc.looping], fun hne => absurd hnone hne⟩
  | forward data =>
    obtain ⟨⟨g, hheld, -⟩, rfl⟩ := guarded_eq_some.mp hs
    obtain ⟨f, rfl, -, hf⟩ := h6 g
    have hdata := hf.trans hheld
    have hlen : plainLength f = data.length - tagLen := by rw [plainLength, hdata]; rfl
    refine ⟨p ++ [f], [], by simp [h1, receiver], ?_, ?_, ?_, fun _ => rfl, by simp,
      fun _ => h7 (by simp [g, Pc.looping]), fun hne => ?_⟩
    · intro f' hf'
      rcases List.mem_append.mp hf' with hf' | hf'
      · exact h2 f' hf'
      · rw [List.mem_singleton.mp hf']
        exact (chunkData_eq_some hdata).1
    · rw [List.map_append, List.map_singleton, counts_snoc, Act.count, h3, h4, hlen]
    · simp [h4, hlen, Nat.add_assoc]
    · exact absurd (h7 (by simp [g, Pc.looping])) hne
  | close =>
    obtain ⟨g, rfl⟩ := guarded_eq_some.mp hs
    have hnext : s.loop.next = .sendCancel ∨ s.loop.next = .drain ∨ s.loop.next = .join := by
      unfold LoopResult.next
      split
      · split <;> simp
      · simp
    simp only [receiver, Act.count, List.append_nil]
    refine ⟨p, q, h1, h2, h3, h4, ?_, ?_, ?_, h8⟩ <;>
      rcases hnext with hn | hn | hn <;> simp [hn, Pc.looping]
  | verify =>
    obtain ⟨g, rfl⟩ := guarded_eq_some.mp hs
    simp only [receiver, Act.count, List.append_nil]
    refine ⟨p, q, h1, h2, h3, h4, ?_, ?_, ?_, h8⟩ <;> dsimp only <;> split <;> simp [Pc.looping]
  | _ =>
    simp only [Receiver.step, guarded_eq_some] at hs
    obtain ⟨g, rfl⟩ := hs
    simp only [receiver, Act.count, List.append_nil]
    refine ⟨p, q, h1, h2, h3, h4, ?_, ?_, ?_, h8⟩ <;> first
      | assumption
      | grind -ring -linarith [Pc.looping]

/-- The receiver finds the length of a genuine block. -/
theorem plainLength_ofChunk (k : Nat) (key : C.Key) (nonce : Nonce) {d : Bytes}
    (hd : d.length ≤ lanBlockSize) :
    plainLength (Frame.ofChunk k false (C.encrypt key nonce d) : Frame C) = d.length := by
  have hdata : chunkData (Frame.ofChunk k false (C.encrypt key nonce d) : Frame C) =
      some (C.encrypt key nonce d) := by
    simp [chunkData, Frame.ofChunk]
    exact Settings.not_oversized k key nonce hd
  rw [plainLength, hdata, Option.getD_some, C.encrypt_length, Nat.add_sub_cancel]

theorem plainLength_frames (key : C.Key) (pre : Bytes) (k : Nat) {ds : List Bytes}
    (hds : ∀ d ∈ ds, d.length ≤ lanBlockSize) :
    (frames key pre k ds).map plainLength = ds.map List.length := by
  induction ds generalizing k with
  | nil => rfl
  | cons d ds ih =>
    rw [frames_cons, List.map_cons, List.map_cons, plainLength_ofChunk _ _ _ (hds d List.mem_cons_self),
      ih (k + 1) fun e he => hds e (List.mem_cons_of_mem d he)]

end Receiver

/-- Chunk frames at the head of a stream of blocks are the first of them. -/
theorem frames_taken {key : C.Key} {pre : Bytes} {k : Nat} {ds : List Bytes}
    {p rest ending : List (Frame C)} (hp : ∀ f ∈ p, f.tag = tagChunk)
    (hending : ∀ f ∈ ending, f.tag ≠ tagChunk)
    (h : frames key pre k ds ++ ending = p ++ rest) :
    ∃ ds' ds'', ds = ds' ++ ds'' ∧ p = frames key pre k ds' ∧
      rest = frames key pre (k + ds'.length) ds'' ++ ending := by
  induction p generalizing k ds with
  | nil => exact ⟨[], ds, rfl, rfl, h.symm⟩
  | cons f p ih =>
    cases ds with
    | nil =>
      have hmem : f ∈ ending := by
        have hnil : frames key pre k ([] : List Bytes) ++ ending = ending := rfl
        rw [← hnil, h]
        simp
      exact absurd (hp f List.mem_cons_self) (hending f hmem)
    | cons d ds =>
      rw [frames_cons, List.cons_append, List.cons_append] at h
      obtain ⟨rfl, htail⟩ := List.cons.inj h
      obtain ⟨ds', ds'', rfl, rfl, rfl⟩ := ih (fun g hg => hp g (List.mem_cons_of_mem _ hg)) htail
      refine ⟨d :: ds', ds'', rfl, rfl, ?_⟩
      rw [List.length_cons, Nat.add_right_comm, Nat.add_assoc]

/-- The counts of the sender, and how far those of the receiver have come. -/
structure Agrees (source : Bytes) (fileSize off : Nat) (s : Sender.State C × List Nat)
    (r : Receiver.State C × List Nat) : Prop where
  agree : r.2 <+: s.2
  blocks : ∃ ds : List Bytes, ds.flatten <+: source.drop off ∧
    s.2 = counts off (ds.map List.length)
  sent : s.2.getLast? = some s.1.bytesSent
  received : r.2.getLast? = some r.1.bytesReceived
  sorted : s.2.Pairwise (· ≤ ·)
  bounded : ∀ n ∈ s.2, n ≤ fileSize
  complete : s.1.pc = .sendComplete ∨ s.1.pc = .awaitComplete → s.1.bytesSent = fileSize
  completed : r.1.receivedHash ≠ none → r.2 = s.2 ∧ r.1.bytesReceived = fileSize

/-- What the two histories say of the counts, if the receiver has taken what the sender put. -/
theorem agrees_of_counts {source : Bytes} {off : Nat} {ds es : List Bytes}
    {o p q i rest : List (Frame C)} {l l' : List Nat} {s : Sender.State C} {r : Receiver.State C}
    (hs : Sender.Counts source ds es o l s) (hr : Receiver.Counts off p q i l' r)
    (hlink : o = i ++ rest) (hstart : s.startOffset = off) (hoff : off ≤ source.length) :
    Agrees source source.length off (s, l) (r, l') := by
  obtain ⟨ending, ho, htag, -, hall⟩ := hs.out
  have hstream : frames s.key s.noncePrefix (s.startOffset / lanBlockSize) ds ++ ending =
      p ++ (q ++ rest) := by
    rw [← ho, hlink, hr.input, List.append_assoc]
  obtain ⟨ds', ds'', rfl, rfl, hrest⟩ := frames_taken hr.chunks htag hstream
  have hsmall : ∀ d ∈ ds', d.length ≤ lanBlockSize := fun d hd => hs.blocks d (by simp [hd])
  have hdata : (ds' ++ ds'').flatten <+: source.drop off := by
    rw [← hstart, hs.data, List.append_assoc]
    exact List.prefix_append _ _
  have hflat : off + (ds' ++ ds'').flatten.length ≤ source.length := by
    have := hdata.length_le
    rw [List.length_drop] at this
    omega
  have hlog := hs.log
  have hlog' := hr.log
  have hsent := hs.sent
  have hreceived := hr.received
  rw [hstart] at hlog hsent
  rw [Receiver.plainLength_frames _ _ _ hsmall] at hlog' hreceived
  rw [hlog, hlog']
  have hsum : ((ds' ++ ds'').map List.length).sum = (ds' ++ ds'').flatten.length :=
    List.length_flatten.symm
  refine ⟨?_, ⟨_, hdata, rfl⟩, ?_, ?_, counts_pairwise _ _, fun n hn => ?_, fun hpc => ?_,
    fun hne => ?_⟩
  · rw [List.map_append]
    exact counts_prefix off (List.prefix_append _ _)
  · rw [counts_getLast?, hsent]
  · rw [counts_getLast?, hreceived]
  · have := (le_of_mem_counts hn).2
    omega
  · have := hs.completing hpc
    rw [hstart] at this
    show s.bytesSent = _
    omega
  · -- the frame after the blocks that were taken is not one of a block
    obtain ⟨f, rfl, hf⟩ := hr.complete hne
    cases ds'' with
    | cons d ds'' =>
      rw [frames_cons] at hrest
      have hfd := (List.cons.inj hrest).1
      rw [hfd] at hf
      exact absurd hf (by simp [Frame.ofChunk, tagChunk, tagComplete])
    | nil =>
      have hmem : f ∈ ending := by
        have hnil : ending = [f] ++ rest := hrest.symm
        simp [hnil]
      have := hall ⟨f, hmem, hf⟩
      rw [hstart] at this
      rw [List.append_nil] at this hflat hsum ⊢
      refine ⟨rfl, ?_⟩
      show r.bytesReceived = _
      omega

/-- `send_file_direct_tcp` after the reply, with its counts. -/
def countedSender (C : Primitives) (disk : Disk) :
    Party (Sender.State C × List Nat) (Sender.Act C) (Frame C) :=
  (sender C disk).logged fun _ a t => a.count t

/-- `tcp_compat::handle_incoming` after the reply, with its counts. -/
def countedReceiver (C : Primitives) :
    Party (Receiver.State C × List Nat) (Receiver.Act C) (Frame C) :=
  (receiver C).logged fun _ a t => a.count t

def countedOpening (C : Primitives) (pauses : Nat) (secret : C.Secret)
    (metadata : TransferMetadata C) : Opening C (Sender.State C × List Nat) :=
  (directOpening C pauses secret metadata).logged fun s => [s.bytesSent]

def countedAdmission (C : Primitives) (pauses : Nat) (secret : C.Secret) (fs : Files)
    (outputDir : Text) : Admission C (Receiver.State C × List Nat) :=
  (compatAdmission C pauses secret fs outputDir).logged fun r => [r.bytesReceived]

theorem countedSender_counts {source : Bytes} {pauses : Nat} {key : C.Key} {m : TransferMetadata C}
    {off : Nat} {i o : List (Frame C)} {s : Sender.State C × List Nat}
    (h : (countedSender C (Disk.ofFile source)).Trace (fun _ _ => True)
      (Sender.State.start pauses key m off, [off]) i o s) :
    s.1.startOffset = off ∧ ∃ ds es, Sender.Counts source ds es o s.2 s.1 := by
  have hall := h.invariant
    (I := fun _ o s => s.1.startOffset = off ∧ Sender.Flow source s.1 ∧
      ∃ ds es, Sender.Counts source ds es o s.2 s.1)
    ⟨rfl, Sender.Flow.start _ _ _ _ _, [], [], Sender.Counts.start _ _ _ _ _⟩ ?_
  · exact ⟨hall.1, hall.2.2⟩
  · rintro i o s a t ⟨hoff, hflow, ds, es, hcounts⟩ - hs
    obtain ⟨hstep, hlog⟩ := logged_step.mp hs
    refine ⟨(Sender.step_const hstep).2.2.trans hoff, hflow.step hstep, ?_⟩
    rw [hlog]
    exact hcounts.step hflow hstep

theorem countedReceiver_counts {pauses : Nat} {fs : Files} {outputDir : Text} {key : C.Key}
    {m : TransferMetadata C} {resuming : Bool} {off : Nat} {i o : List (Frame C)}
    {r : Receiver.State C × List Nat}
    (h : (countedReceiver C).Trace (fun _ _ => True)
      (Receiver.State.startAt pauses fs outputDir key m resuming off, [off]) i o r) :
    ∃ p q, Receiver.Counts off p q i r.2 r.1 := by
  refine h.invariant (I := fun i _ r => ∃ p q, Receiver.Counts off p q i r.2 r.1)
    ⟨[], [], Receiver.Counts.start _ _ _ _ _ _ _⟩ ?_
  rintro i o r a t ⟨p, q, hcounts⟩ - hs
  obtain ⟨hstep, hlog⟩ := logged_step.mp hs
  rw [hlog]
  exact hcounts.step hstep

section Session

variable (C) (sessionId fileName outputDir : Text) (source noncePrefix : Bytes) (forceRestart : Bool)
  (secret secret' : C.Secret) (pauses pauses' : Nat) (fs : Files)

/-- Both functions on one connection, with their counts. -/
def countedSession :
    Machine (Net (OpenPhase C (Sender.State C × List Nat))
      (AdmitPhase C (Receiver.State C × List Nat)) (Frame C))
      (OpenAct C (Sender.Act C) ⊕ AdmitAct C (Receiver.Act C)) :=
  ((countedOpening C pauses secret
      (directMetadata C sessionId fileName source noncePrefix forceRestart)).party
    (countedSender C (Disk.ofFile source))).link
  ((countedAdmission C pauses' secret' fs outputDir).party (countedReceiver C))

/-- Every run of the two functions is one with counts. -/
theorem session_counted
    {n : Net (OpenPhase C (Sender.State C)) (AdmitPhase C (Receiver.State C)) (Frame C)}
    (h : (session C sessionId fileName outputDir source noncePrefix forceRestart secret secret'
      pauses pauses' fs).Reach (fun _ _ => True) (Session.start C _ _) n) :
    ∃ m, (countedSession C sessionId fileName outputDir source noncePrefix forceRestart secret
        secret' pauses pauses' fs).Reach (fun _ _ => True) (Session.start C _ _) m ∧
      m.view OpenPhase.unlogged AdmitPhase.unlogged = n :=
  Session.reach_logged _ _ _ _ _ _ _ _ h

/-- The offset that the receiver resumes from. -/
def resumeOffset : Nat :=
  (TcpCompat.resume fs (outputPath outputDir fileName)
    (directMetadata C sessionId fileName source noncePrefix forceRestart)).1

theorem resumeOffset_le :
    resumeOffset C sessionId fileName outputDir source noncePrefix forceRestart fs ≤
      source.length := by
  unfold resumeOffset TcpCompat.resume lanResume
  dsimp only
  split
  · next hres =>
    simp only [Bool.and_eq_true, decide_eq_true_eq] at hres
    have hsize : (directMetadata C sessionId fileName source noncePrefix forceRestart).fileSize =
      source.length := rfl
    have := Nat.div_mul_le_self (fs.len (outputPath outputDir fileName)) lanBlockSize
    omega
  · simp

/-- **Progress on the LAN.** The counts of both sides after each frame agree, in every run of the
two functions and from every offset on. -/
theorem progress_agrees (hsize : source.length < 2 ^ 64) :
    (∀ n s r, (countedSession C sessionId fileName outputDir source noncePrefix forceRestart secret
        secret' pauses pauses' fs).Reach (fun _ _ => True) (Session.start C _ _) n →
      n.left = .running s → n.right = .running r →
      Agrees source (directMetadata C sessionId fileName source noncePrefix forceRestart).fileSize
        (resumeOffset C sessionId fileName outputDir source noncePrefix forceRestart fs) s r) ∧
    ∀ off ≤ source.length, ∀ key resuming n,
      ((countedSender C (Disk.ofFile source)).link (countedReceiver C)).Reach (fun _ _ => True)
        ⟨(Sender.State.start pauses key
            (directMetadata C sessionId fileName source noncePrefix forceRestart) off, [off]),
          (Receiver.State.startAt pauses' fs outputDir key
            (directMetadata C sessionId fileName source noncePrefix forceRestart) resuming off,
              [off]), [], []⟩ n →
      Agrees source (directMetadata C sessionId fileName source noncePrefix forceRestart).fileSize
        off n.left n.right := by
  constructor
  · intro n s r h hs hr
    obtain ⟨iL, oL, iR, oR, hl, hrt, hout, hin⟩ := Party.link_traces (fun _ _ => True)
      (fun _ _ => True) (fun _ _ _ => trivial) (fun _ _ _ => trivial) h
    have hleft := Opening.trace_history (fun _ _ => True) (fun _ _ _ => trivial) hl
    have hright := Admission.trace_history (fun _ _ => True) (fun _ _ _ => trivial) hrt
    rw [hs] at hleft
    rw [hr] at hright
    obtain ⟨k, f, s₀, i, o, hstart, htr, rfl, rfl⟩ := hleft
    obtain ⟨k', m, i', o', htr', rfl, rfl⟩ := hright
    -- the receiver has the metadata, and the sender the reply to it
    simp only [List.cons_append, List.cons.injEq, Opening.offer, Frame.mk.injEq,
      Payload.metadata.injEq, true_and] at hout
    obtain ⟨-, rfl, hlink⟩ := hout
    obtain ⟨-, hin⟩ := List.cons.inj hin
    obtain ⟨rfl, -⟩ := List.cons.inj hin
    have hfirst := directOpening_start C sessionId fileName outputDir noncePrefix forceRestart secret
      secret' pauses pauses' fs hsize (C.deriveKey secret k)
    obtain ⟨s₁, hs₁, rfl⟩ := Option.map_eq_some_iff.mp hstart
    obtain rfl := Option.some.inj (hs₁.symm.trans hfirst)
    obtain ⟨hoff, ds, es, hcounts⟩ := countedSender_counts htr
    obtain ⟨p, q, hcounts'⟩ := countedReceiver_counts htr'
    exact agrees_of_counts hcounts hcounts' hlink hoff (resumeOffset_le ..)
  · intro off hoff key resuming n h
    obtain ⟨iL, oL, iR, oR, hl, hr, hout, -⟩ := Party.link_traces (fun _ _ => True)
      (fun _ _ => True) (fun _ _ _ => trivial) (fun _ _ _ => trivial) h
    obtain ⟨hstart, ds, es, hs⟩ := countedSender_counts hl
    obtain ⟨p, q, hr⟩ := countedReceiver_counts hr
    exact agrees_of_counts hs hr hout hstart hoff

end Session

/-- Two bytes are sent to a new file, and both sides count them. -/
theorem progress_agrees_new : ∃ s r : _ × List Nat, s.2 = [0, 2] ∧ r.2 = [0, 2] ∧
    Agrees (C := .plain) [1, 2] 2 0 s r := by
  obtain ⟨n, hn, hs⟩ := Option.map_eq_some_iff.mp
    (show ((countedSession .plain [] sampleName sampleDir [1, 2] [0, 0, 0, 0] false
        Primitives.plainSecret Primitives.plainSecret 0 0 noFiles).runUnder (fun _ _ => True)
        (Session.start .plain _ _) (sampleRun (directMetadata .plain [] sampleName [1, 2]
          [0, 0, 0, 0] false))).map
      (fun n => (n.left.loop.map Prod.snd, n.right.loop.map Prod.snd)) =
        some (some [0, 2], some [0, 2]) from rfl)
  obtain ⟨hl, hr⟩ := Prod.mk.inj hs
  obtain ⟨s, hs, hsent⟩ := Option.map_eq_some_iff.mp hl
  obtain ⟨r, hr, hreceived⟩ := Option.map_eq_some_iff.mp hr
  refine ⟨s, r, hsent, hreceived, ?_⟩
  exact (progress_agrees .plain [] sampleName sampleDir [1, 2] [0, 0, 0, 0] false
    Primitives.plainSecret Primitives.plainSecret 0 0 noFiles (by decide)).1 n s r
    (Machine.reach_of_runUnder _ hn) (OpenPhase.loop_eq_some.mp hs) (AdmitPhase.loop_eq_some.mp hr)

end P2PTransfer.Lan
