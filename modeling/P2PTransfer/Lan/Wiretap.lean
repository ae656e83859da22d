import P2PTransfer.Lan.Soundness

/-!
# A LAN transfer over a hostile network

After the opening the network may hand either side whatever frames it likes. The
encryption is taken to be ideal: a block is only decrypted under a nonce if the sender
has sealed it under that nonce. What the receiver writes is then what the sender has
read, block by block, however the frames were dropped, repeated, reordered or replaced.

## Main definitions

- `Tap`, `tap` — both sides without a link between them, and what they read and wrote
- `ideal` — the runs with ideal encryption
-/

namespace P2PTransfer.Lan

open Transition

variable {C : Primitives}

namespace Sender

/-- The sealed block that an action produces. -/
def State.seals (s : State C) : Act C → List (Nonce × Bytes)
  | .read data => [(buildNonce s.noncePrefix s.blockIdx,
      C.encrypt s.key (buildNonce s.noncePrefix s.blockIdx) data)]
  | _ => []

end Sender

namespace Receiver

/-- The block that an action hands to the file. -/
def Act.block : Act C → List Bytes
  | .writeBlock _ _ plain => [plain]
  | _ => []

end Receiver

/-- The two sides, the blocks that the reader task has read, their sealed forms, and the
blocks that the writer task has written. -/
structure Tap (C : Primitives) where
  left : Sender.State C
  right : Receiver.State C
  read : List Bytes := []
  seals : List (Nonce × Bytes) := []
  written : List Bytes := []

/-- Either side takes any frame at any time. -/
def tap (C : Primitives) (disk : Disk) : Machine (Tap C) (Sender.Act C ⊕ Receiver.Act C) where
  step n
    | .inl a => (Sender.step disk n.left a).map fun s =>
        { n with left := s, read := n.read ++ a.block, seals := n.seals ++ n.left.seals a }
    | .inr b => (Receiver.step n.right b).map fun r =>
        { n with right := r, written := n.written ++ b.block }

/-- A block is decrypted only if the sender has sealed it under that nonce. -/
def ideal (n : Tap C) : Sender.Act C ⊕ Receiver.Act C → Prop
  | .inr (.writeBlock index data _) =>
    (buildNonce n.right.metadata.noncePrefix index, data) ∈ n.seals
  | _ => True

instance (n : Tap C) (a : Sender.Act C ⊕ Receiver.Act C) : Decidable (ideal n a) := by
  unfold ideal
  split <;> infer_instance

/-- The blocks as they are sealed from a number on. -/
def sealedFrom (key : C.Key) (pre : Bytes) (k : Nat) (ds : List Bytes) : List (Nonce × Bytes) :=
  (sealed key pre k ds).map fun b => (buildNonce pre b.1, b.2)

theorem sealedFrom_append (key : C.Key) (pre : Bytes) (k : Nat) (ds es : List Bytes) :
    sealedFrom key pre k (ds ++ es) =
      sealedFrom key pre k ds ++ sealedFrom key pre (k + ds.length) es := by
  simp [sealedFrom, sealed_append]

theorem le_of_mem_sealed {key : C.Key} {pre : Bytes} {k : Nat} {ds : List Bytes}
    {b : Nat × Bytes} (h : b ∈ sealed key pre k ds) : k ≤ b.1 := by
  induction ds generalizing k with
  | nil => cases h
  | cons d ds ih =>
    rcases List.mem_cons.mp h with rfl | h
    · exact le_rfl
    · exact (Nat.le_succ k).trans (ih h)

/-- A sealed block is one of the blocks under its own number. -/
theorem mem_sealedFrom {key : C.Key} {pre : Bytes} {k index : Nat} {ds : List Bytes} {data : Bytes}
    (h : (buildNonce pre index, data) ∈ sealedFrom key pre k ds) (hk : k ≤ index) :
    ∃ d, ds[index - k]? = some d ∧ data = C.encrypt key (buildNonce pre index) d := by
  induction ds generalizing k with
  | nil => cases h
  | cons d ds ih =>
    rcases List.mem_cons.mp h with h | h
    · simp only [buildNonce, Prod.mk.injEq, Nonce.mk.injEq, true_and] at h
      obtain ⟨rfl, rfl⟩ := h
      exact ⟨d, by simp, rfl⟩
    · by_cases heq : k = index
      · obtain ⟨b, hb, hbe⟩ := List.mem_map.mp h
        simp only [buildNonce, Prod.mk.injEq, Nonce.mk.injEq, true_and] at hbe
        have := le_of_mem_sealed hb
        omega
      · obtain ⟨d', hd', hdata⟩ := ih h (by omega)
        refine ⟨d', ?_, hdata⟩
        rw [show index - k = index - (k + 1) + 1 by omega, List.getElem?_cons_succ]
        exact hd'

theorem sealedFrom_nonces (key : C.Key) (pre : Bytes) (k : Nat) (ds : List Bytes) :
    (sealedFrom key pre k ds).map Prod.fst = (List.range' k ds.length).map (buildNonce pre) := by
  induction ds generalizing k with
  | nil => rfl
  | cons d ds ih =>
    rw [List.length_cons, List.range'_succ, List.map_cons, ← ih (k + 1)]
    rfl

theorem nonces_nodup (key : C.Key) (pre : Bytes) (k : Nat) (ds : List Bytes) :
    ((sealedFrom key pre k ds).map Prod.fst).Nodup := by
  rw [sealedFrom_nonces]
  refine List.Nodup.map (fun i j h => ?_) (List.nodup_range' ..)
  simpa [buildNonce] using h

/-- The counters of the two sides. -/
structure Counted (key : C.Key) (pre : Bytes) (k : Nat) (n : Tap C) : Prop where
  leftKey : n.left.key = key ∧ n.left.noncePrefix = pre
  rightKey : n.right.key = key ∧ n.right.metadata.noncePrefix = pre
  seals : n.seals = sealedFrom key pre k n.read
  blockIdx : n.left.blockIdx + n.left.held.toList.length = k + n.read.length
  held : n.left.reader = .hashPrefix ∨ n.left.reader = .read → n.left.held = none
  channel : n.right.channel.map Prod.fst =
    List.range' (k + n.written.length) n.right.channel.length
  blockIndex : n.right.blockIndex = k + n.written.length + n.right.channel.length
  written : n.written <+: n.read

theorem Counted.left {disk : Disk} {key : C.Key} {pre : Bytes} {k : Nat} {n : Tap C}
    {a : Sender.Act C} {s : Sender.State C} (h : Counted key pre k n)
    (hs : Sender.step disk n.left a = some s) :
    Counted key pre k
      { n with left := s, read := n.read ++ a.block, seals := n.seals ++ n.left.seals a } := by
  obtain ⟨h1, h2, h3, h4, h5, h6, h7, h8⟩ := h
  obtain ⟨hk, hp, -⟩ := Sender.step_const hs
  have hkeys := And.intro (hk.trans h1.1) (hp.trans h1.2)
  cases a with
  | read data =>
    simp only [Sender.step, guarded_eq_some] at hs
    obtain ⟨⟨g, -⟩, rfl⟩ := hs
    have hnone := h5 (.inr g)
    have hidx : n.left.blockIdx = k + n.read.length := by simpa [hnone] using h4
    refine ⟨hkeys, h2, ?_, ?_, by simp, h6, h7, h8.trans (List.prefix_append _ _)⟩
    · show n.seals ++ [_] = sealedFrom key pre k (n.read ++ [data])
      rw [sealedFrom_append, ← h3, h1.1, h1.2, hidx]
      rfl
    · simp [Sender.Act.block, hidx, Nat.add_assoc]
  | push item =>
    simp only [Sender.step, guarded_eq_some] at hs
    obtain ⟨⟨g, hheld, -⟩, rfl⟩ := hs
    simp only [Sender.Act.block, Sender.State.seals, List.append_nil]
    exact ⟨hkeys, h2, h3, by simpa [hheld] using h4, by simp, h6, h7, h8⟩
  | cancel =>
    obtain rfl := Option.some.inj hs
    simp only [Sender.Act.block, Sender.State.seals, List.append_nil]
    exact ⟨h1, h2, h3, h4, h5, h6, h7, h8⟩
  | _ =>
    simp only [Sender.step, guarded_eq_some] at hs
    obtain ⟨g, rfl⟩ := hs
    simp only [Sender.Act.block, Sender.State.seals, List.append_nil]
    refine ⟨hkeys, h2, h3, h4, ?_, h6, h7, h8⟩
    first
      | exact h5
      | grind -ring -linarith

theorem Counted.right {key : C.Key} {pre : Bytes} {k : Nat} {n : Tap C} {b : Receiver.Act C}
    {r : Receiver.State C} (h : Counted key pre k n) (hideal : ideal n (.inr b))
    (hs : Receiver.step n.right b = some r) :
    Counted key pre k { n with right := r, written := n.written ++ b.block } := by
  obtain ⟨h1, h2, h3, h4, h5, h6, h7, h8⟩ := h
  obtain ⟨hk, hm, -⟩ := Receiver.step_const hs
  have hkeys : r.key = key ∧ r.metadata.noncePrefix = pre := ⟨hk.trans h2.1, by rw [hm]; exact h2.2⟩
  cases b with
  | forward data =>
    simp only [Receiver.step, guarded_eq_some] at hs
    obtain ⟨g, rfl⟩ := hs
    simp only [Receiver.Act.block, List.append_nil]
    refine ⟨h1, hkeys, h3, h4, h5, ?_, ?_, h8⟩
    · rw [List.map_append, h6, List.length_append, List.range'_append_1.symm, h7]
      rfl
    · simp [h7, Nat.add_assoc]
  | writeBlock index data plain =>
    simp only [Receiver.step, guarded_eq_some] at hs
    obtain ⟨⟨-, hhead, hdec⟩, rfl⟩ := hs
    obtain ⟨rest, hrest⟩ := List.head?_eq_some_iff.mp hhead
    rw [hrest, List.map_cons, List.length_cons, List.range'_succ] at h6
    obtain ⟨hindex, hchannel⟩ := List.cons.inj h6
    -- the next number, and so the next block of the sender
    have hmem : (buildNonce pre index, data) ∈ sealedFrom key pre k n.read := by
      rw [← h3, ← h2.2]
      exact hideal
    obtain ⟨d, hd, rfl⟩ := mem_sealedFrom hmem (by simp only at hindex; omega)
    obtain rfl : d = plain := by
      rw [h2.1, h2.2, C.decrypt_encrypt] at hdec
      exact Option.some.inj hdec
    refine ⟨h1, hkeys, h3, h4, h5, ?_, ?_, ?_⟩
    · simp only [hrest, List.tail_cons, Receiver.Act.block, List.length_append,
        List.length_singleton, ← Nat.add_assoc]
      exact hchannel
    · simp only [hrest, List.length_cons] at h7
      simp only [h7, hrest, List.tail_cons, Receiver.Act.block, List.length_append,
        List.length_singleton]
      omega
    · obtain ⟨later, hlater⟩ := h8
      have hlen : index - k = n.written.length := by simp only at hindex; omega
      rw [← hlater, hlen, List.getElem?_append_right le_rfl, Nat.sub_self] at hd
      obtain ⟨tail, htail⟩ := List.head?_eq_some_iff.mp (List.head?_eq_getElem? ▸ hd)
      exact ⟨tail, by simp [← hlater, htail, Receiver.Act.block]⟩
  | cancel =>
    obtain rfl := Option.some.inj hs
    simp only [Receiver.Act.block, List.append_nil]
    exact ⟨h1, h2, h3, h4, h5, h6, h7, h8⟩
  | _ =>
    simp only [Receiver.step, guarded_eq_some] at hs
    obtain ⟨g, rfl⟩ := hs
    simp only [Receiver.Act.block, List.append_nil]
    exact ⟨h1, hkeys, h3, h4, h5, h6, h7, h8⟩

section Session

variable (sessionId fileName outputDir : Text) (source noncePrefix : Bytes) (forceRestart : Bool)
  (secret secret' : C.Secret) (pauses pauses' : Nat) (fs : Files) (key : C.Key)

/-- Both sides when the reply has been taken, if the sender accepts it. -/
def Tap.start (C : Primitives) (sessionId fileName outputDir : Text) (source noncePrefix : Bytes)
    (forceRestart : Bool) (secret secret' : C.Secret) (pauses pauses' : Nat) (fs : Files)
    (key : C.Key) : Option (Tap C) :=
  let metadata := directMetadata C sessionId fileName source noncePrefix forceRestart
  let admission := compatAdmission C pauses' secret' fs outputDir
  ((directOpening C pauses secret metadata).start key (admission.reply metadata)).map fun s =>
    { left := s, right := admission.start key metadata }

variable {sessionId fileName outputDir source noncePrefix forceRestart secret secret' pauses
  pauses' fs key}

theorem Counted.start {n : Tap C} (hsize : source.length < 2 ^ 64)
    (h : Tap.start C sessionId fileName outputDir source noncePrefix forceRestart secret secret'
      pauses pauses' fs key = some n) :
    Counted key noncePrefix n.right.blockIndex n := by
  obtain ⟨s, hs, rfl⟩ := Option.map_eq_some_iff.mp h
  obtain ⟨off, hoff, rfl⟩ := Option.map_eq_some_iff.mp hs
  have hsame : off = (TcpCompat.resume fs (outputPath outputDir fileName)
      (directMetadata C sessionId fileName source noncePrefix forceRestart)).1 := by
    have hoffset := Frame.offset_acceptText (C := C) (resume_lt fs (outputPath outputDir fileName)
      (directMetadata C sessionId fileName source noncePrefix forceRestart) hsize)
    exact Option.some.inj (hoff.symm.trans hoffset)
  subst hsame
  constructor <;> simp [compatAdmission, Receiver.State.start, Sender.State.start, sealedFrom,
    sealed, directMetadata, createMetadata]

/-- **Integrity of the LAN stream.** Whatever the network does to the frames, the blocks
that are written are the first of those that were read, and no nonce is used twice. -/
theorem written_prefix_read {n n' : Tap C} (hsize : source.length < 2 ^ 64)
    (hstart : Tap.start C sessionId fileName outputDir source noncePrefix forceRestart secret
      secret' pauses pauses' fs key = some n)
    (h : (tap C (Disk.ofFile source)).Reach ideal n n') :
    n'.written <+: n'.read ∧ (n'.seals.map Prod.fst).Nodup := by
  have hcount := h.invariant (I := Counted key noncePrefix n.right.blockIndex)
    (Counted.start hsize hstart) fun t a u ht hok hs => by
      cases a with
      | inl a =>
        obtain ⟨s, hl, rfl⟩ := Option.map_eq_some_iff.mp hs
        exact ht.left hl
      | inr b =>
        obtain ⟨r, hr, rfl⟩ := Option.map_eq_some_iff.mp hs
        exact ht.right hok hr
  refine ⟨hcount.written, ?_⟩
  rw [hcount.seals]
  exact nonces_nodup _ _ _ _

end Session

/-- The frame of the only block is delivered twice. -/
def replayRun : List (Sender.Act .plain ⊕ Receiver.Act .plain) :=
  let data : Bytes := [1, 2] ++ List.replicate tagLen 0
  let chunk : Frame .plain := Frame.ofChunk 0 false data
  [.inl .seek, .inl (.read [1, 2]), .inr .openFile, .inr .proceed, .inr (.chunk chunk data),
    .inr (.forward data), .inr .proceed, .inr (.chunk chunk data), .inr (.forward data),
    .inr (.writeBlock 0 data [1, 2])]

/-- The block is written once. -/
theorem written_prefix_replayed : ∃ n : Tap .plain, n.written = [[1, 2]] ∧
    n.written <+: n.read ∧ (n.seals.map Prod.fst).Nodup := by
  obtain ⟨n', hn', hw⟩ := Option.map_eq_some_iff.mp
    (show ((Tap.start .plain [] sampleName sampleDir [1, 2] [0, 0, 0, 0] false
        Primitives.plainSecret Primitives.plainSecret 0 0 noFiles ()).bind fun n =>
      (tap .plain (Disk.ofFile [1, 2])).runUnder ideal n replayRun).map (·.written) =
        some [[1, 2]] from rfl)
  obtain ⟨n, hstart, hrun⟩ := Option.bind_eq_some_iff.mp hn'
  exact ⟨n', hw, written_prefix_read (by decide) hstart (Machine.reach_of_runUnder _ hrun)⟩

end P2PTransfer.Lan
