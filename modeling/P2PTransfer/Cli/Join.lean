import P2PTransfer.Cli.Numbers
import P2PTransfer.Cli.Transfer
import P2PTransfer.Lib.Shared

/-!
# A session over several connections

A connection that announces a transfer opens a session of `ReceiverHandler::run`, and others
join it by its id. They share the output file and the count of the chunks; every connection
has a key, a loop, and a hasher of its own. Whoever brings the count to the total asks its
own hasher for the verdict.

## Main definitions

- `SharedState`, `Connection` — what the connections share, and one of them
- `connections` — the session
- `Assignment` — which chunk comes on which connection

## Main results

- `session_verifies_iff` — a session verifies exactly when one connection brings it all to places
  that `seek` reaches
-/

namespace P2PTransfer.Cli

open Transition

variable {C : Primitives} {ι : Type} [DecidableEq ι]

/-- `SharedTransferState`. The acknowledgements are kept with the connection they went to. -/
structure SharedState (ι : Type) where
  file : AsyncFile
  chunksReceived : Nat
  acked : List (ι × Nat) := []

/-- A connection of the session and the frames that it has read. -/
structure Connection (C : Primitives) where
  inner : Receiver.State C
  read : List (Frame C) := []

/-- The loop sees the file and the count that all share. -/
def Connection.state (c : Connection C) (S : SharedState ι) : Receiver.State C :=
  { c.inner with file := S.file, chunksReceived := S.chunksReceived }

/-- The connection has brought the count to the total. -/
def Receiver.Pc.late (p : Receiver.Pc) : Prop := p = .verify ∨ p.ended

/-- The chunk that an action acknowledges. -/
def Receiver.acks (s : Receiver.State C) : Receiver.Act C → List Nat
  | .ack => s.pc.pending
  | _ => []

/-- The connections of a session. -/
def connections (C : Primitives) (ι : Type) :
    Components ι (SharedState ι) (Connection C) (Receiver.Act C) where
  step i S c a := (Receiver.step (c.state S) a).map fun t =>
    (⟨t.file, t.chunksReceived, S.acked ++ (Receiver.acks c.inner a).map (Prod.mk i)⟩,
      ⟨t, c.read ++ (receiver C).recvs a⟩)

/-- The job as the sender does it on a connection with another key. -/
def Job.onKey (x : Job C) (key : C.Key) : Job C := { x with key := key }

/-- The chunks that the count takes for received. -/
def Job.startCount (x : Job C) : Nat :=
  if x.metadata.isResume then startChunk x.metadata else 0

/-- The session after all connections have been accepted. -/
def openSession (m : TransferMetadata C) (keys : ι → C.Key) (existing : Bytes) :
    System ι (SharedState ι) (Connection C) where
  store :=
    { file := { content := setLen existing m.fileSize },
      chunksReceived := if m.isResume then startChunk m else 0 }
  parts i := ⟨Receiver.State.start (keys i) m existing, []⟩

def Job.session (x : Job C) (keys : ι → C.Key) (existing : Bytes) :
    System ι (SharedState ι) (Connection C) :=
  openSession x.metadata keys existing

/-- Which chunks are sent, and on which connection each. -/
structure Assignment (ι : Type) where
  sent : Nat → Prop
  decSent : DecidablePred sent
  on : Nat → ι

instance (A : Assignment ι) : DecidablePred A.sent := A.decSent

/-- The chunk comes on the connection. -/
def Assignment.brings (A : Assignment ι) (i : ι) (j : Nat) : Prop := A.sent j ∧ A.on j = i

instance (A : Assignment ι) (i : ι) (j : Nat) : Decidable (A.brings i j) :=
  inferInstanceAs (Decidable (_ ∧ _))

/-- Each connection reads the chunks that it brings, each once and in any order, and no
connection ends or meets a fault. -/
def Job.dealt (x : Job C) (keys : ι → C.Key) (A : Assignment ι)
    (n : System ι (SharedState ι) (Connection C)) (a : ι × Receiver.Act C) : Prop :=
  a.2.clean ∧ (receiver C).hangup a.2 = false ∧ ∀ f ∈ (receiver C).recvs a.2,
    f ∉ (n.parts a.1).read ∧ ∃ j < x.metadata.totalChunks, A.brings a.1 j ∧
      f = (x.onKey (keys a.1)).chunkFrame j

/-- The metadata is that of the source, and the chunks can be read on every connection. -/
structure Job.Joinable (x : Job C) (keys : ι → C.Key) : Prop extends
    Describes x.source x.metadata where
  checksum : x.metadata.checksum = C.blake3 x.source
  small : x.metadata.totalChunks ≤ 2 ^ 32
  fits : ∀ i, ∀ j < x.metadata.totalChunks,
    ((x.onKey (keys i)).chunkFrame j).oversized = false

/-- The number of a chunk frame. -/
def Frame.number (f : Frame C) : Nat :=
  match f.payload with
  | .chunk index _ _ => index
  | _ => 0

def channelNumber : Except Text (Frame C) → Nat
  | .ok f => Frame.number f
  | .error _ => 0

theorem number_chunkFrame (x : Job C) {j : Nat} (hj : j < 2 ^ 32) :
    Frame.number (x.chunkFrame j) = j := by
  unfold Job.chunkFrame Job.frame
  split <;> exact Nat.mod_eq_of_lt hj

theorem number_of_chunkOf {f : Frame C} {item : Nat × Bool × Bytes}
    (h : Receiver.chunkOf f = some item) : Frame.number f = item.1 := by
  cases hp : f.payload with
  | chunk index compressed data =>
    simp only [Receiver.chunkOf, hp] at h
    split at h
    · obtain rfl := Option.some.inj h
      simp only [Frame.number, hp]
    · cases h
  | _ => simp [Receiver.chunkOf, hp] at h

namespace Connection

/-- What a connection has read and where it is: every chunk that it has read is in one
place, and its hasher has those whose tasks have ended. -/
structure Kept (x : Job C) (keys : ι → C.Key) (A : Assignment ι) (i : ι) (S : SharedState ι)
    (c : Connection C) : Prop where
  genuine : Receiver.Genuine (x.onKey (keys i)) c.inner
  read : ∀ f ∈ c.read, ∃ j < x.metadata.totalChunks, A.brings i j ∧
    f = (x.onKey (keys i)).chunkFrame j
  reading : c.inner.reading = true
  channel : ∀ y ∈ c.inner.channel, ∃ f, y = .ok f
  places : ∀ j, tally channelNumber c.inner.channel j + tally Prod.fst c.inner.decrypting j +
    tally Prod.fst c.inner.writing j + tally Prod.fst c.inner.hashing j +
    tally id c.inner.finished j + tally id c.inner.pc.pending j + S.acked.count (i, j) =
      if j < x.metadata.totalChunks ∧ (x.onKey (keys i)).chunkFrame j ∈ c.read then 1 else 0
  handed : ∀ j, tally Prod.fst c.inner.hashQueue j + tally Prod.fst c.inner.buffered.waiting j +
    (if j < c.inner.buffered.next then 1 else 0) =
      tally id c.inner.finished j + tally id c.inner.pc.pending j + S.acked.count (i, j)
  failed : c.inner.failed = []
  hashed : c.inner.hashed =
    ((List.range c.inner.buffered.next).map (prepareChunk x.source x.metadata)).flatten
  idle : c.inner.buffered.ready = none
  running : ¬ c.inner.pc.ended → c.inner.isValid = none
  ended : c.inner.pc.ended → c.inner.settled ∧ c.inner.isValid = some c.inner.valid
  returned : c.inner.pc = .returned → c.inner.result = some (.ok ())

variable {x : Job C} {keys : ι → C.Key} {A : Assignment ι} {i : ι} {S S' : SharedState ι}
  {c c' : Connection C}

/-- The counts of a connection do not see the acknowledgements of the others. -/
theorem Kept.others (h : Kept x keys A i S c)
    (hacked : ∀ j, S'.acked.count (i, j) = S.acked.count (i, j)) : Kept x keys A i S' c :=
  { h with
    places := fun j => by rw [hacked]; exact h.places j
    handed := fun j => by rw [hacked]; exact h.handed j }

theorem kept_start (x : Job C) (keys : ι → C.Key) (A : Assignment ι) (existing : Bytes) (i : ι) :
    Kept x keys A i (x.session keys existing).store ((x.session keys existing).parts i) where
  genuine := Receiver.Genuine.start (x.onKey (keys i)) existing
  read f h := by cases h
  reading := rfl
  channel y h := by cases h
  places j := by
    rw [if_neg fun h => List.not_mem_nil h.2]
    rfl
  handed j := rfl
  failed := rfl
  hashed := rfl
  idle := rfl
  running _ := rfl
  ended h := by cases h
  returned h := by cases h

theorem Kept.genuine_state (h : Kept x keys A i S c) :
    Receiver.Genuine (x.onKey (keys i)) (c.state S) :=
  ⟨h.genuine.key, h.genuine.metadata, h.genuine.channel, h.genuine.decrypting, h.genuine.writing,
    h.genuine.hashing, h.genuine.hashQueue, h.genuine.buffered⟩

/-- A chunk is on its way or acknowledged at most once. -/
theorem Kept.places_le (h : Kept x keys A i S c) (j : Nat) :
    tally id c.inner.finished j + tally id c.inner.pc.pending j + S.acked.count (i, j) ≤ 1 := by
  have hj := h.places j
  split at hj <;> omega

theorem count_map_mk (i : ι) (l : List Nat) (j : Nat) :
    (l.map (Prod.mk i)).count (i, j) = tally id l j := by
  rw [List.count, List.countP_map]
  apply List.countP_congr
  intro k _
  simp

/-- The hasher takes the next chunk. -/
theorem Kept.hash (h : Kept x keys A i S c) {item : Nat × Bytes} {t : Receiver.State C}
    (hs : Receiver.step (c.state S) (.hash item) = some t)
    (hgenuine : Receiver.Genuine (x.onKey (keys i)) t) :
    Kept x keys A i ⟨t.file, t.chunksReceived, S.acked⟩ ⟨t, c.read⟩ := by
  have hholds : (c.inner.buffered.insert item.1 item.2).Holds
      (prepareChunk x.source x.metadata) := h.genuine_state.hash (guarded_eq_some.mp hs).1
  obtain ⟨hhead, rfl⟩ := guarded_eq_some.mp hs
  obtain ⟨rest, hqueue⟩ := List.head?_eq_some_iff.mp hhead
  have hqueue : c.inner.hashQueue = item :: rest := hqueue
  obtain ⟨k, hout, hnext, -, htally, hpos⟩ :=
    Reorder.drain_spec (c.inner.buffered.insert item.1 item.2).waiting.length hholds
  rw [← Reorder.release] at hout hnext htally
  have hstart : (c.inner.buffered.insert item.1 item.2).next = c.inner.buffered.next := rfl
  rw [hstart] at hout hnext htally hpos
  have hrunning : ¬ c.inner.pc.ended := fun hp => by
    have := (h.ended hp).1.2.2.2
    rw [hqueue] at this
    cases this
  refine ⟨hgenuine, h.read, h.reading, h.channel, h.places, fun j => ?_, h.failed, ?_,
    Reorder.ready_release _, h.running, fun hp => absurd hp hrunning, h.returned⟩
  · have hone := h.places_le j
    have hj := h.handed j
    have hp := hpos j
    rw [hqueue, tally_cons] at hj
    rw [Reorder.tally_insert] at hp
    show tally Prod.fst c.inner.hashQueue.tail j +
      tally Prod.fst (c.inner.buffered.insert item.1 item.2).release.2.waiting j +
      (if j < (c.inner.buffered.insert item.1 item.2).release.2.next then 1 else 0) =
        tally id c.inner.finished j + tally id c.inner.pc.pending j + S.acked.count (i, j)
    rw [hqueue, List.tail_cons, htally, hnext, Reorder.tally_insert]
    by_cases he : j = item.1
    · rw [if_pos he.symm] at hj
      rw [if_pos he] at hp ⊢
      split_ifs at hj ⊢ <;> omega
    · rw [if_neg (Ne.symm he)] at hj
      rw [if_neg he] at hp ⊢
      split_ifs at hj ⊢ <;> omega
  · show c.inner.hashed ++ (c.inner.buffered.insert item.1 item.2).release.1.flatten =
      ((List.range (c.inner.buffered.insert item.1 item.2).release.2.next).map
        (prepareChunk x.source x.metadata)).flatten
    rw [hout, hnext, h.hashed, ← List.flatten_append, ← List.map_append, List.range_eq_range',
      List.range_eq_range', ← List.range'_append_1, Nat.zero_add]

/-- A chunk that is read for the first time. -/
theorem Kept.readFrame (h : Kept x keys A i S c) (hj : x.Joinable keys) {f : Frame C}
    {t : Receiver.State C} (hs : Receiver.step (c.state S) (.readFrame f) = some t)
    (hgenuine : Receiver.Genuine (x.onKey (keys i)) t) (hnew : f ∉ c.read)
    (hf : ∃ j < x.metadata.totalChunks, A.brings i j ∧ f = (x.onKey (keys i)).chunkFrame j) :
    Kept x keys A i ⟨t.file, t.chunksReceived, S.acked⟩ ⟨t, c.read ++ [f]⟩ := by
  obtain ⟨k, hk, hbrings, rfl⟩ := hf
  obtain ⟨-, rfl⟩ := guarded_eq_some.mp hs
  have hover := hj.fits i k hk
  have hitem : (if ((x.onKey (keys i)).chunkFrame k).oversized then
      Except.error "Oversized message".toList else .ok ((x.onKey (keys i)).chunkFrame k)) =
      (.ok ((x.onKey (keys i)).chunkFrame k) : Except Text (Frame C)) :=
    if_neg (by rw [hover]; exact Bool.false_ne_true)
  have hnum : ∀ j < x.metadata.totalChunks,
      Frame.number ((x.onKey (keys i)).chunkFrame j) = j :=
    fun j hlt => number_chunkFrame _ (Nat.lt_of_lt_of_le hlt hj.small)
  refine ⟨hgenuine, fun g hg => ?_, ?_, fun y hy => ?_, fun j => ?_, h.handed, h.failed, h.hashed,
    h.idle, h.running, h.ended, h.returned⟩
  · rcases List.mem_append.mp hg with hg | hg
    · exact h.read g hg
    · exact ⟨k, hk, hbrings, List.mem_singleton.mp hg⟩
  · show (!_) = true
    rw [hover]
    rfl
  · rcases List.mem_append.mp hy with hy | hy
    · exact h.channel y hy
    · rw [hitem] at hy
      exact ⟨_, List.mem_singleton.mp hy⟩
  · have hplaces := h.places j
    dsimp only
    rw [hitem, tally_append, tally_cons, tally_nil]
    show tally channelNumber c.inner.channel j +
      (0 + if Frame.number ((x.onKey (keys i)).chunkFrame k) = j then 1 else 0) + _ + _ + _ + _ + _ +
        _ = _
    rw [hnum k hk]
    by_cases he : k = j
    · subst he
      rw [if_neg fun hread => hnew hread.2] at hplaces
      rw [if_pos rfl, if_pos ⟨hk, by simp⟩]
      dsimp only [Connection.state]
      omega
    · have hmem : j < x.metadata.totalChunks →
          ((x.onKey (keys i)).chunkFrame j ∈ c.read ++ [(x.onKey (keys i)).chunkFrame k] ↔
            (x.onKey (keys i)).chunkFrame j ∈ c.read) := by
        intro hlt
        rw [List.mem_append, List.mem_singleton]
        refine or_iff_left fun heq => he ?_
        rw [← hnum k hk, ← heq, hnum j hlt]
      rw [if_neg he, if_congr (and_congr_right hmem) rfl rfl]
      dsimp only [Connection.state]
      omega

/-- **One step of a connection.** -/
theorem Kept.step {a : Receiver.Act C} (h : Kept x keys A i S c) (hj : x.Joinable keys)
    (hplaced : x.Placed) (hclean : a.clean) (hopen : (receiver C).hangup a = false)
    (hin : ∀ f ∈ (receiver C).recvs a, f ∉ c.read ∧
      ∃ j < x.metadata.totalChunks, A.brings i j ∧ f = (x.onKey (keys i)).chunkFrame j)
    (hs : (connections C ι).step i S c a = some (S', c')) : Kept x keys A i S' c' := by
  obtain ⟨t, ht, heq⟩ := Option.map_eq_some_iff.mp hs
  obtain ⟨rfl, rfl⟩ := Prod.mk.inj heq
  have hgenuine : Receiver.Genuine (x.onKey (keys i)) t := by
    refine h.genuine_state.step hj.small (fun f hf => ?_) ht
    obtain ⟨-, j, hlt, -, hfj⟩ := hin f hf
    exact ⟨j, hlt, hfj⟩
  -- what the loop takes from the channel is a chunk
  have head : ∀ y, c.inner.channel.head? = some y → ∃ f, y = .ok f ∧ Receiver.chunkOf f ≠ none := by
    intro y hy
    have hmem := List.mem_of_mem_head? hy
    obtain ⟨f, rfl⟩ := h.channel y hmem
    obtain ⟨j, -, rfl⟩ := h.genuine.channel f hmem
    exact ⟨_, rfl, Receiver.chunkOf_chunkFrame _ _⟩
  cases a with
  | readError | writeError | lastError | lost | ackError | verdictLost | flushFailed =>
    cases hclean
  | hangup => cases hopen
  | overflow item detail =>
    obtain ⟨⟨hmem, hlarge⟩, -⟩ := guarded_eq_some.mp ht
    have hlt := (h.genuine_state.in_reach hplaced hmem).1
    omega
  | seekError item detail =>
    obtain ⟨⟨hmem, hnone, -⟩, -⟩ := guarded_eq_some.mp ht
    exact absurd hnone (h.genuine_state.in_reach hplaced hmem).2
  | landed =>
    obtain ⟨-, rfl⟩ := guarded_eq_some.mp ht
    simp only [Receiver.acks, receiver, List.map_nil, List.append_nil]
    exact ⟨hgenuine, h.read, h.reading, h.channel, h.places, h.handed, h.failed, h.hashed, h.idle,
      h.running, h.ended, h.returned⟩
  | hash item =>
    simp only [Receiver.acks, receiver, List.map_nil, List.append_nil]
    exact h.hash ht hgenuine
  | readFrame f =>
    obtain ⟨hnew, hf⟩ := hin f (by simp [receiver])
    simp only [Receiver.acks, receiver, List.map_nil, List.append_nil]
    exact h.readFrame hj ht hgenuine hnew hf
  | spawn f item =>
    obtain ⟨⟨hp, hhead, hitem⟩, rfl⟩ := guarded_eq_some.mp ht
    obtain ⟨rest, hchannel⟩ := List.head?_eq_some_iff.mp hhead
    have hchannel : c.inner.channel = .ok f :: rest := hchannel
    simp only [Receiver.acks, receiver, List.map_nil, List.append_nil]
    refine ⟨hgenuine, h.read, h.reading, fun y hy => h.channel y (List.mem_of_mem_tail hy),
      fun j => ?_, h.handed, h.failed, h.hashed, h.idle, h.running, fun hr => ?_, h.returned⟩
    · have hplaces := h.places j
      rw [hchannel, tally_cons] at hplaces
      simp only [Connection.state, hchannel, List.tail_cons, tally_append, tally_cons, tally_nil]
      simp only [channelNumber, number_of_chunkOf hitem] at hplaces
      omega
    · rw [hp] at hr
      cases hr
  | badFrame f =>
    obtain ⟨⟨-, hhead, hnone⟩, -⟩ := guarded_eq_some.mp ht
    obtain ⟨g, hg, hchunk⟩ := head _ hhead
    obtain rfl := Except.ok.inj hg
    exact absurd hnone hchunk
  | readFailed detail =>
    obtain ⟨⟨-, hhead⟩, -⟩ := guarded_eq_some.mp ht
    obtain ⟨g, hg, -⟩ := head _ hhead
    cases hg
  | joinError detail =>
    obtain ⟨⟨-, hmem⟩, -⟩ := guarded_eq_some.mp ht
    have hmem : detail ∈ c.inner.failed := hmem
    rw [h.failed] at hmem
    cases hmem
  | decryptError item detail =>
    obtain ⟨⟨hmem, hnone⟩, -⟩ := guarded_eq_some.mp ht
    rw [(h.genuine_state.decrypting item hmem).2] at hnone
    cases hnone
  | decrypted item data =>
    obtain ⟨⟨hmem, -⟩, rfl⟩ := guarded_eq_some.mp ht
    have hmem : item ∈ c.inner.decrypting := hmem
    simp only [Receiver.acks, receiver, List.map_nil, List.append_nil]
    refine ⟨hgenuine, h.read, h.reading, h.channel, fun j => ?_, h.handed, h.failed, h.hashed,
      h.idle, h.running, fun hr => ?_, h.returned⟩
    · have hplaces := h.places j
      have he := tally_erase Prod.fst j hmem
      simp only [Connection.state, tally_append, tally_cons, tally_nil]
      omega
    · rw [(h.ended hr).1.1] at hmem
      cases hmem
  | written item =>
    obtain ⟨⟨hmem, -⟩, rfl⟩ := guarded_eq_some.mp ht
    have hmem : item ∈ c.inner.writing := hmem
    simp only [Receiver.acks, receiver, List.map_nil, List.append_nil]
    refine ⟨hgenuine, h.read, h.reading, h.channel, fun j => ?_, h.handed, h.failed, h.hashed,
      h.idle, h.running, fun hr => ?_, h.returned⟩
    · have hplaces := h.places j
      have he := tally_erase Prod.fst j hmem
      simp only [Connection.state, tally_append, tally_cons, tally_nil]
      omega
    · rw [(h.ended hr).1.2.1] at hmem
      cases hmem
  | handed item =>
    obtain ⟨hmem, rfl⟩ := guarded_eq_some.mp ht
    have hmem : item ∈ c.inner.hashing := hmem
    simp only [Receiver.acks, receiver, List.map_nil, List.append_nil]
    refine ⟨hgenuine, h.read, h.reading, h.channel, fun j => ?_, fun j => ?_, h.failed, h.hashed,
      h.idle, h.running, fun hr => ?_, h.returned⟩
    · have hplaces := h.places j
      have he := tally_erase Prod.fst j hmem
      simp only [Connection.state, tally_append, tally_cons, tally_nil, id_eq]
      omega
    · have hhanded := h.handed j
      show tally Prod.fst (c.inner.hashQueue ++ [item]) j +
        tally Prod.fst c.inner.buffered.waiting j + (if j < c.inner.buffered.next then 1 else 0) =
          tally id (c.inner.finished ++ [item.1]) j + tally id c.inner.pc.pending j +
            S.acked.count (i, j)
      simp only [tally_append, tally_cons, tally_nil, id_eq]
      omega
    · rw [(h.ended hr).1.2.2.1] at hmem
      cases hmem
  | join index =>
    obtain ⟨⟨hp, hmem⟩, rfl⟩ := guarded_eq_some.mp ht
    have hmem : index ∈ c.inner.finished := hmem
    have hp : c.inner.pc = .select := hp
    simp only [Receiver.acks, receiver, List.map_nil, List.append_nil]
    refine ⟨hgenuine, h.read, h.reading, h.channel, fun j => ?_, fun j => ?_, h.failed, h.hashed,
      h.idle, fun _ => h.running (by rw [hp]; simp [Receiver.Pc.ended]), by simp [Receiver.Pc.ended],
      by simp⟩
    · have hplaces := h.places j
      have he := tally_erase id j hmem
      simp only [Connection.state, hp, Receiver.Pc.pending, tally_cons, tally_nil, id_eq]
        at hplaces he ⊢
      omega
    · have hhanded := h.handed j
      have he := tally_erase id j hmem
      simp only [Connection.state, hp, Receiver.Pc.pending, tally_cons, tally_nil, id_eq]
        at hhanded he ⊢
      omega
  | ack =>
    cases hp : c.inner.pc with
    | ack index =>
      have hp' : (c.state S).pc = .ack index := hp
      obtain ⟨q, hq, hpend, hrunning⟩ : ∃ q : Receiver.Pc,
          (if (c.state S).chunksReceived + 1 = (c.state S).metadata.totalChunks then
            Receiver.Pc.verify else .select) = q ∧ q.pending = [] ∧ ¬ q.ended := by
        refine ⟨_, rfl, ?_⟩
        split <;> exact ⟨rfl, by simp [Receiver.Pc.ended]⟩
      simp only [Receiver.step, hp', hq, Option.some.injEq] at ht
      subst ht
      simp only [Receiver.acks, receiver, List.append_nil, hp, Receiver.Pc.pending]
      refine ⟨hgenuine, h.read, h.reading, h.channel, fun j => ?_, fun j => ?_, h.failed, h.hashed,
        h.idle, fun _ => h.running (by rw [hp]; simp [Receiver.Pc.ended]),
        fun hr => absurd hr hrunning, fun (hr : q = .returned) => absurd (by rw [hr]; rfl) hrunning⟩
      · have hplaces := h.places j
        dsimp only [Connection.state]
        rw [hpend, List.count_append, count_map_mk]
        simp only [hp, Receiver.Pc.pending, tally_cons, tally_nil, id_eq] at hplaces ⊢
        omega
      · have hhanded := h.handed j
        show tally Prod.fst c.inner.hashQueue j + tally Prod.fst c.inner.buffered.waiting j +
          (if j < c.inner.buffered.next then 1 else 0) =
            tally id c.inner.finished j + tally id q.pending j +
              (S.acked ++ [index].map (Prod.mk i)).count (i, j)
        rw [hpend, List.count_append, count_map_mk]
        simp only [hp, Receiver.Pc.pending, tally_cons, tally_nil, id_eq] at hhanded ⊢
        omega
    | _ =>
      have hp' : (c.state S).pc = _ := hp
      simp [Receiver.step, hp'] at ht
  | verdict =>
    obtain ⟨⟨hp, hset⟩, rfl⟩ := guarded_eq_some.mp ht
    have hp : c.inner.pc = .verify := hp
    simp only [Receiver.acks, receiver, List.map_nil, List.append_nil]
    refine ⟨hgenuine, h.read, h.reading, h.channel, fun j => ?_, fun j => ?_, h.failed, h.hashed,
      h.idle, fun hr => absurd rfl hr, fun _ => ⟨hset, rfl⟩, by simp⟩
    · simpa [Connection.state, hp, Receiver.Pc.pending] using h.places j
    · simpa [Connection.state, hp, Receiver.Pc.pending] using h.handed j
  | flush =>
    obtain ⟨⟨hp, -⟩, rfl⟩ := guarded_eq_some.mp ht
    have hp : c.inner.pc = .flush := hp
    have hended : c.inner.pc.ended = true := by rw [hp]; rfl
    simp only [Receiver.acks, receiver, List.map_nil, List.append_nil]
    refine ⟨hgenuine, h.read, h.reading, h.channel, fun j => ?_, fun j => ?_, h.failed, h.hashed,
      h.idle, fun hr => absurd rfl hr, fun _ => h.ended hended, fun _ => rfl⟩
    · simpa [Connection.state, hp, Receiver.Pc.pending] using h.places j
    · simpa [Connection.state, hp, Receiver.Pc.pending] using h.handed j

/-- What a step does to the count, and when the connection is the one to verify. -/
theorem Kept.advance {a : Receiver.Act C} (h : Kept x keys A i S c) (h' : Kept x keys A i S' c')
    (hclean : a.clean) (hs : (connections C ι).step i S c a = some (S', c')) :
    (S'.acked = S.acked ∧ S'.chunksReceived = S.chunksReceived ∧
      (c'.inner.pc.late ↔ c.inner.pc.late)) ∨
    ∃ index, S'.acked = S.acked ++ [(i, index)] ∧ S'.chunksReceived = S.chunksReceived + 1 ∧
      ¬ c.inner.pc.late ∧
      (c'.inner.pc.late ↔ S.chunksReceived + 1 = x.metadata.totalChunks) := by
  obtain ⟨t, ht, heq⟩ := Option.map_eq_some_iff.mp hs
  obtain ⟨rfl, rfl⟩ := Prod.mk.inj heq
  have hm : c.inner.metadata = x.metadata := h.genuine.metadata
  cases a with
  | readError | writeError | lastError | lost | ackError | verdictLost | flushFailed =>
    cases hclean
  | badFrame | readFailed | joinError =>
    obtain ⟨-, rfl⟩ := guarded_eq_some.mp ht
    cases h'.returned rfl
  | join index =>
    obtain ⟨⟨hp, -⟩, rfl⟩ := guarded_eq_some.mp ht
    have hp : c.inner.pc = .select := hp
    left
    refine ⟨List.append_nil _, rfl, ?_⟩
    rw [hp]
    simp [Receiver.Pc.late, Receiver.Pc.ended]
  | verdict =>
    obtain ⟨⟨hp, -⟩, rfl⟩ := guarded_eq_some.mp ht
    have hp : c.inner.pc = .verify := hp
    left
    refine ⟨List.append_nil _, rfl, ?_⟩
    rw [hp]
    simp [Receiver.Pc.late, Receiver.Pc.ended]
  | flush =>
    obtain ⟨⟨hp, -⟩, rfl⟩ := guarded_eq_some.mp ht
    have hp : c.inner.pc = .flush := hp
    left
    refine ⟨List.append_nil _, rfl, ?_⟩
    rw [hp]
    simp [Receiver.Pc.late, Receiver.Pc.ended]
  | ack =>
    right
    cases hp : c.inner.pc with
    | ack index =>
      have hp' : (c.state S).pc = .ack index := hp
      simp only [Receiver.step, hp', Option.some.injEq] at ht
      subst ht
      refine ⟨index, by simp only [Receiver.acks, hp, Receiver.Pc.pending]; rfl, rfl,
        by simp [Receiver.Pc.late, Receiver.Pc.ended], ?_⟩
      show Receiver.Pc.late (if S.chunksReceived + 1 = c.inner.metadata.totalChunks then
        .verify else .select) ↔ _
      rw [hm]
      split <;> simp_all [Receiver.Pc.late, Receiver.Pc.ended]
    | _ =>
      have hp' : (c.state S).pc = _ := hp
      simp [Receiver.step, hp'] at ht
  | _ =>
    obtain ⟨-, rfl⟩ := guarded_eq_some.mp ht
    exact .inl ⟨List.append_nil _, rfl, Iff.rfl⟩

/-- Only chunks that the connection brings are acknowledged on it. -/
theorem Kept.brings (h : Kept x keys A i S c) (hj : x.Joinable keys) {j : Nat}
    (hmem : (i, j) ∈ S.acked) : j < x.metadata.totalChunks ∧ A.brings i j := by
  have hpos := List.count_pos_iff.mpr hmem
  have hplaces := h.places j
  split at hplaces
  · next hread =>
    obtain ⟨k, hk, hbrings, heq⟩ := h.read _ hread.2
    have hnum := congrArg Frame.number heq
    rw [number_chunkFrame _ (Nat.lt_of_lt_of_le hread.1 hj.small),
      number_chunkFrame _ (Nat.lt_of_lt_of_le hk hj.small)] at hnum
    exact ⟨hread.1, hnum ▸ hbrings⟩
  · omega

end Connection

section Acked

variable {x : Job C} {keys : ι → C.Key} {A : Assignment ι} {S : SharedState ι}
  {parts : ι → Connection C}

/-- The chunks of a session that are sent. -/
def Assignment.chunks (A : Assignment ι) (total : Nat) : Finset Nat :=
  (Finset.range total).filter A.sent

theorem subset_chunks (h : ∀ i, Connection.Kept x keys A i S (parts i)) (hj : x.Joinable keys) :
    (S.acked.map Prod.snd).toFinset ⊆ A.chunks x.metadata.totalChunks := by
  intro j hmem
  obtain ⟨⟨i, k⟩, hik, rfl⟩ := List.mem_map.mp (List.mem_toFinset.mp hmem)
  obtain ⟨hlt, hsent, -⟩ := (h i).brings hj hik
  exact Finset.mem_filter.mpr ⟨Finset.mem_range.mpr hlt, hsent⟩

/-- A chunk is acknowledged once, on the connection that it comes on. -/
theorem card_acked (h : ∀ i, Connection.Kept x keys A i S (parts i)) (hj : x.Joinable keys) :
    (S.acked.map Prod.snd).toFinset.card = S.acked.length := by
  have hnodup : S.acked.Nodup := by
    apply List.nodup_iff_count_le_one.mpr
    rintro ⟨i, j⟩
    have := (h i).places_le j
    omega
  rw [List.toFinset_card_of_nodup, List.length_map]
  refine hnodup.map_on ?_
  rintro ⟨i, j⟩ hij ⟨i', j'⟩ hij' rfl
  rw [← ((h i).brings hj hij).2.2, ← ((h i').brings hj hij').2.2]

theorem length_acked_le (h : ∀ i, Connection.Kept x keys A i S (parts i))
    (hj : x.Joinable keys) : S.acked.length ≤ (A.chunks x.metadata.totalChunks).card :=
  card_acked h hj ▸ Finset.card_le_card (subset_chunks h hj)

/-- As many acknowledgements as there are chunks are one for each. -/
theorem mem_acked (h : ∀ i, Connection.Kept x keys A i S (parts i)) (hj : x.Joinable keys)
    (hlen : S.acked.length = (A.chunks x.metadata.totalChunks).card) {i : ι} {j : Nat}
    (hlt : j < x.metadata.totalChunks) (hbrings : A.brings i j) : (i, j) ∈ S.acked := by
  have hall := Finset.eq_of_subset_of_card_le (subset_chunks h hj)
    (by rw [card_acked h hj, hlen])
  have hmem : j ∈ A.chunks x.metadata.totalChunks :=
    Finset.mem_filter.mpr ⟨Finset.mem_range.mpr hlt, hbrings.1⟩
  rw [← hall] at hmem
  obtain ⟨⟨i', k⟩, hik, rfl⟩ := List.mem_map.mp (List.mem_toFinset.mp hmem)
  obtain rfl : i' = i := ((h i').brings hj hik).2.2.symm.trans hbrings.2
  exact hik

/-- With all chunks acknowledged, each connection has acknowledged what it brings. -/
theorem count_acked (h : ∀ i, Connection.Kept x keys A i S (parts i)) (hj : x.Joinable keys)
    (hlen : S.acked.length = (A.chunks x.metadata.totalChunks).card) (i : ι) (j : Nat) :
    S.acked.count (i, j) = if j < x.metadata.totalChunks ∧ A.brings i j then 1 else 0 := by
  have hone := (h i).places_le j
  split
  · next hb =>
    have := List.count_pos_iff.mpr (mem_acked h hj hlen hb.1 hb.2)
    omega
  · next hb => exact List.count_eq_zero.mpr fun hmem => hb ((h i).brings hj hmem)

end Acked

section Session

variable {x : Job C} {keys : ι → C.Key} {A : Assignment ι} {existing : Bytes}
  {n n' : System ι (SharedState ι) (Connection C)}

/-- What holds in every state of a session: no write has been lost, the count is that of the
acknowledgements, and some connection verifies when it has reached the total, one that has
acknowledged a chunk. -/
structure Together (x : Job C) (keys : ι → C.Key) (A : Assignment ι)
    (n : System ι (SharedState ι) (Connection C)) : Prop where
  each : ∀ i, Connection.Kept x keys A i n.store (n.parts i)
  clear : n.store.file.lastWriteErr = none
  count : n.store.chunksReceived = x.startCount + n.store.acked.length
  late : ∀ i, (n.parts i).inner.pc.late →
    n.store.chunksReceived = x.metadata.totalChunks ∧ ∃ j, (i, j) ∈ n.store.acked
  finisher : n.store.chunksReceived = x.metadata.totalChunks → ∃ i, (n.parts i).inner.pc.late

omit [DecidableEq ι] in
theorem startCount_lt (hj : x.Joinable keys) : x.startCount < x.metadata.totalChunks := by
  have := hj.totalChunks_pos
  unfold Job.startCount startChunk
  split <;> omega

theorem Together.start (hj : x.Joinable keys) (A : Assignment ι) (existing : Bytes) :
    Together x keys A (x.session keys existing) where
  each i := Connection.kept_start x keys A existing i
  clear := rfl
  count := rfl
  late i h := by rcases h with h | h <;> cases h
  finisher h := absurd (show x.startCount = _ from h) (startCount_lt hj).ne

/-- **One step of a session.** -/
theorem Together.step {a : ι × Receiver.Act C} (h : Together x keys A n) (hj : x.Joinable keys)
    (hplaced : x.Placed)
    (hcard : x.startCount + (A.chunks x.metadata.totalChunks).card = x.metadata.totalChunks)
    (hok : x.dealt keys A n a) (hs : (connections C ι).machine.step n a = some n') :
    Together x keys A n' := by
  obtain ⟨i, b⟩ := a
  obtain ⟨hclean, hopen, hin⟩ := hok
  obtain ⟨S', c', hstep, rfl⟩ := Components.machine_step.mp hs
  have hown : Connection.Kept x keys A i S' c' := (h.each i).step hj hplaced hclean hopen hin hstep
  have hadv := (h.each i).advance hown hclean hstep
  have hclear : S'.file.lastWriteErr = none := by
    obtain ⟨t, ht, heq⟩ := Option.map_eq_some_iff.mp hstep
    obtain ⟨rfl, rfl⟩ := Prod.mk.inj heq
    exact Receiver.clear_step (s := (n.parts i).state n.store) h.clear
      (Receiver.Act.lossless_of_clean hclean) ht
  have heach : ∀ k, Connection.Kept x keys A k S' (Function.update n.parts i c' k) := by
    intro k
    by_cases hk : k = i
    · subst hk
      rw [Function.update_self]
      exact hown
    · rw [Function.update_of_ne hk]
      refine (h.each k).others fun j => ?_
      rcases hadv with ⟨hacked, -⟩ | ⟨index, hacked, -⟩
      · rw [hacked]
      · rw [hacked, List.count_append]
        simp [Ne.symm hk]
  have hbound := length_acked_le heach hj
  rcases hadv with ⟨hacked, hcount, hlate⟩ | ⟨index, hacked, hcount, hbusy, hlate⟩
  · have hsame : ∀ k, (Function.update n.parts i c' k).inner.pc.late ↔
        (n.parts k).inner.pc.late := by
      intro k
      by_cases hk : k = i
      · subst hk
        rw [Function.update_self]
        exact hlate
      · rw [Function.update_of_ne hk]
    refine ⟨heach, hclear, ?_, fun k hk => ?_, fun htotal => ?_⟩
    · rw [hcount, hacked]
      exact h.count
    · rw [hcount, hacked]
      exact h.late k ((hsame k).mp hk)
    · obtain ⟨k, hk⟩ := h.finisher (hcount.symm.trans htotal)
      exact ⟨k, (hsame k).mpr hk⟩
  · have hlen : S'.acked.length = n.store.acked.length + 1 := by
      rw [hacked, List.length_append, List.length_singleton]
    have hsum := h.count
    refine ⟨heach, hclear, ?_, fun k hk => ?_, fun htotal => ⟨i, ?_⟩⟩
    · show S'.chunksReceived = _ + S'.acked.length
      omega
    · have hk : (Function.update n.parts i c' k).inner.pc.late := hk
      by_cases hki : k = i
      · subst hki
        rw [Function.update_self] at hk
        exact ⟨hcount.trans (hlate.mp hk), index, by rw [hacked]; simp⟩
      · -- nobody acknowledges a chunk after the last one
        rw [Function.update_of_ne hki] at hk
        have := (h.late k hk).1
        omega
    · show (Function.update n.parts i c' i).inner.pc.late
      rw [Function.update_self]
      exact hlate.mpr (hcount.symm.trans htotal)

theorem Together.reach (hj : x.Joinable keys) (hplaced : x.Placed)
    (hcard : x.startCount + (A.chunks x.metadata.totalChunks).card = x.metadata.totalChunks)
    (h : (connections C ι).machine.Reach (x.dealt keys A) (x.session keys existing) n) :
    Together x keys A n :=
  h.invariant (Together.start hj A existing) fun _ _ _ ih hok hs =>
    ih.step hj hplaced hcard hok hs

/-- How a session ends: some connection gives a verdict, and each verdict is whether that
connection has brought all the chunks. -/
structure Outcome (x : Job C) (A : Assignment ι)
    (n : System ι (SharedState ι) (Connection C)) : Prop where
  verdict : ∃ i, (n.parts i).inner.pc = .returned
  returned : ∀ i, (n.parts i).inner.pc = .returned →
    (n.parts i).inner.result = some (.ok ()) ∧ (∃ j < x.metadata.totalChunks, A.brings i j) ∧
      ∃ v, (n.parts i).inner.isValid = some v ∧
        (v = true ↔ ∀ j < x.metadata.totalChunks, A.brings i j)
  running : ∀ i, (n.parts i).inner.pc ≠ .returned → (n.parts i).inner.isValid = none

/-- A connection that has given its verdict has hashed what it brought. -/
theorem valid_iff (h : ∀ i, Connection.Kept x keys A i n.store (n.parts i)) (hj : x.Joinable keys)
    (hlen : n.store.acked.length = (A.chunks x.metadata.totalChunks).card) {i : ι}
    (hp : (n.parts i).inner.pc.ended) :
    (n.parts i).inner.valid ↔ ∀ j < x.metadata.totalChunks, A.brings i j := by
  have hset := ((h i).ended hp).1
  have hpos := hj.totalChunks_pos
  have hidle := (n.parts i).inner.buffered.ready_eq_none.mp (h i).idle
  -- the hasher has exactly what the connection brings
  have hhas : ∀ j, tally Prod.fst (n.parts i).inner.buffered.waiting j +
      (if j < (n.parts i).inner.buffered.next then 1 else 0) =
        if j < x.metadata.totalChunks ∧ A.brings i j then 1 else 0 := by
    intro j
    have hhanded := (h i).handed j
    have hone := (h i).places j
    have hcount := count_acked h hj hlen i j
    have hpend := Receiver.Pc.pending_of_ended hp
    rw [hset.2.2.2, tally_nil, Nat.zero_add, hpend, tally_nil] at hhanded
    rw [hhanded]
    rw [hpend, tally_nil] at hone
    split at hone
    · next hread =>
      obtain ⟨k, hk, hbrings, heq⟩ := (h i).read _ hread.2
      have hnum := congrArg Frame.number heq
      rw [number_chunkFrame _ (Nat.lt_of_lt_of_le hread.1 hj.small),
        number_chunkFrame _ (Nat.lt_of_lt_of_le hk hj.small)] at hnum
      rw [if_pos ⟨hread.1, hnum ▸ hbrings⟩] at hcount ⊢
      omega
    · omega
  have hm : (n.parts i).inner.metadata = x.metadata := (h i).genuine.metadata
  rw [Receiver.State.valid, decide_eq_true_eq, hm]
  constructor
  · rintro ⟨hnext, -⟩ j hlt
    have hall := hhas j
    rw [hnext, if_pos hlt] at hall
    split at hall
    · next hb => exact hb.2
    · omega
  · intro hall
    have hnext : (n.parts i).inner.buffered.next = x.metadata.totalChunks := by
      rcases Nat.lt_trichotomy (n.parts i).inner.buffered.next x.metadata.totalChunks with
        hlt | heq | hgt
      · have := hhas (n.parts i).inner.buffered.next
        rw [hidle, if_neg (Nat.lt_irrefl _), if_pos ⟨hlt, hall _ hlt⟩] at this
        cases this
      · exact heq
      · have := hhas x.metadata.totalChunks
        rw [if_pos hgt, if_neg fun hb => Nat.lt_irrefl _ hb.1] at this
        omega
    refine ⟨hnext, ?_⟩
    rw [(h i).hashed, hnext, hj.toDescribes.flatten_all, hj.checksum]

/-- What a connection of a session that has come to rest can still do is read. -/
theorem drained_of_stuck (stuck : (connections C ι).machine.Stuck (x.dealt keys A) n)
    (hclear : n.store.file.lastWriteErr = none) {i : ι} (hp : (n.parts i).inner.pc ≠ .returned) :
    (n.parts i).inner.pc = .select ∧ (n.parts i).inner.channel = [] ∧
      (n.parts i).inner.finished = [] ∧ (n.parts i).inner.settled := by
  refine Receiver.drained (s := (n.parts i).state n.store) (fun b t hb hrecv hopen ht => ?_)
    hclear hp
  have hnone := stuck (i, b) ⟨hb, hopen, fun f hf => by rw [hrecv] at hf; cases hf⟩
  have hsome : (connections C ι).step i n.store (n.parts i) b = some _ :=
    Option.map_eq_some_iff.mpr ⟨t, ht, rfl⟩
  exact absurd (Components.machine_step.mpr ⟨_, _, hsome, rfl⟩) (by rw [hnone]; simp)

/-- A session comes to rest when all chunks have been acknowledged. -/
theorem Together.counted (h : Together x keys A n) (hj : x.Joinable keys)
    (hcard : x.startCount + (A.chunks x.metadata.totalChunks).card = x.metadata.totalChunks)
    (stuck : (connections C ι).machine.Stuck (x.dealt keys A) n) :
    n.store.chunksReceived = x.metadata.totalChunks := by
  by_contra hne
  have hsel : ∀ i, (n.parts i).inner.pc ≠ .returned := fun i hp =>
    hne (h.late i (.inr (by rw [hp]; rfl))).1
  have hall : A.chunks x.metadata.totalChunks ⊆ (n.store.acked.map Prod.snd).toFinset := by
    intro j hmem
    obtain ⟨hlt, hsent⟩ := Finset.mem_filter.mp hmem
    have hlt := Finset.mem_range.mp hlt
    obtain ⟨hp, hchannel, hfinished, hset⟩ := drained_of_stuck stuck h.clear (hsel (A.on j))
    have hread : (x.onKey (keys (A.on j))).chunkFrame j ∈ (n.parts (A.on j)).read := by
      by_contra hnew
      have hok : x.dealt keys A n
          (A.on j, .readFrame ((x.onKey (keys (A.on j))).chunkFrame j)) := by
        refine ⟨rfl, rfl, fun f hf => ?_⟩
        obtain rfl := List.mem_singleton.mp hf
        exact ⟨hnew, j, hlt, ⟨hsent, rfl⟩, rfl⟩
      have hnone := stuck _ hok
      have hroom : ((n.parts (A.on j)).state n.store).reading = true ∧
          ((n.parts (A.on j)).state n.store).channel.length ≤ chunkCapacity :=
        ⟨(h.each _).reading, by show (n.parts (A.on j)).inner.channel.length ≤ _; simp [hchannel]⟩
      have hstep : (connections C ι).step (A.on j) n.store (n.parts (A.on j))
          (.readFrame ((x.onKey (keys (A.on j))).chunkFrame j)) = some _ :=
        Option.map_eq_some_iff.mpr ⟨_, guarded_eq_some.mpr ⟨hroom, rfl⟩, rfl⟩
      exact absurd (Components.machine_step.mpr ⟨_, _, hstep, rfl⟩) (by rw [hnone]; simp)
    have hplaces := (h.each (A.on j)).places j
    rw [if_pos ⟨hlt, hread⟩, hchannel, hfinished, hset.1, hset.2.1, hset.2.2.1, hp] at hplaces
    have hpos : 0 < n.store.acked.count (A.on j, j) := by
      simp only [tally_nil, Receiver.Pc.pending] at hplaces
      omega
    exact List.mem_toFinset.mpr (List.mem_map.mpr ⟨_, List.count_pos_iff.mp hpos, rfl⟩)
  have hle := Finset.card_le_card hall
  rw [card_acked h.each hj] at hle
  have hbound := length_acked_le h.each hj
  have hcount := h.count
  omega

theorem Together.outcome (h : Together x keys A n) (hj : x.Joinable keys)
    (hcard : x.startCount + (A.chunks x.metadata.totalChunks).card = x.metadata.totalChunks)
    (stuck : (connections C ι).machine.Stuck (x.dealt keys A) n) : Outcome x A n := by
  have htotal := h.counted hj hcard stuck
  have hlen : n.store.acked.length = (A.chunks x.metadata.totalChunks).card := by
    have := h.count
    omega
  refine ⟨?_, fun i hp => ?_, fun i hp => (h.each i).running ?_⟩
  · obtain ⟨i, hlate⟩ := h.finisher htotal
    refine ⟨i, ?_⟩
    by_contra hp
    rw [(drained_of_stuck stuck h.clear hp).1] at hlate
    rcases hlate with hlate | hlate <;> cases hlate
  · have hended : (n.parts i).inner.pc.ended := by rw [hp]; rfl
    obtain ⟨j, hmem⟩ := (h.late i (.inr hended)).2
    exact ⟨(h.each i).returned hp, ⟨j, (h.each i).brings hj hmem⟩, _, ((h.each i).ended hended).2,
      valid_iff h.each hj hlen hended⟩
  · rw [(drained_of_stuck stuck h.clear hp).1]
    exact Bool.false_ne_true

open Classical in
/-- The chunks that are still to be read. -/
def Connection.unread (x : Job C) (keys : ι → C.Key) (A : Assignment ι) (i : ι)
    (c : Connection C) : Finset Nat :=
  (Finset.range x.metadata.totalChunks).filter fun j =>
    A.brings i j ∧ (x.onKey (keys i)).chunkFrame j ∉ c.read

noncomputable def Connection.rank (x : Job C) (keys : ι → C.Key) (A : Assignment ι) (i : ι)
    (c : Connection C) : Nat :=
  c.inner.work + 20 * (c.unread x keys A i).card

theorem Connection.rank_lower {i : ι} {S S' : SharedState ι} {c c' : Connection C}
    {a : Receiver.Act C} (hclean : a.clean)
    (hin : ∀ f ∈ (receiver C).recvs a, f ∉ c.read ∧
      ∃ j < x.metadata.totalChunks, A.brings i j ∧ f = (x.onKey (keys i)).chunkFrame j)
    (hs : (connections C ι).step i S c a = some (S', c')) :
    S'.file.pending + c'.rank x keys A i < S.file.pending + c.rank x keys A i := by
  obtain ⟨t, ht, heq⟩ := Option.map_eq_some_iff.mp hs
  obtain ⟨rfl, rfl⟩ := Prod.mk.inj heq
  have hlower := Receiver.rank_lower hclean ht
  have hinner : (c.state S).rank = c.inner.work + S.file.pending := rfl
  have hleft : t.rank = t.work + t.file.pending := rfl
  rw [hinner, hleft] at hlower
  unfold rank
  cases hrecv : (receiver C).recvs a with
  | nil =>
    rw [hrecv, Party.weight_nil] at hlower
    have hsame : (⟨t, c.read ++ []⟩ : Connection C).unread x keys A i = c.unread x keys A i := by
      simp only [unread, List.append_nil]
    rw [hsame]
    show t.file.pending + (t.work + _) < _
    omega
  | cons f rest =>
    obtain ⟨rfl, rfl⟩ : a = .readFrame f ∧ rest = [] := by
      cases a <;> simp_all [receiver]
    obtain ⟨hnew, j, hlt, hbrings, rfl⟩ := hin f (by rw [hrecv]; simp)
    have hweight : ((x.onKey (keys i)).chunkFrame j).weight = 20 := by
      obtain ⟨item, hitem⟩ := Option.ne_none_iff_exists'.mp
        (Receiver.chunkOf_chunkFrame (x.onKey (keys i)) j)
      exact Receiver.weight_of_chunkOf hitem
    rw [hrecv, Party.weight_cons, Party.weight_nil, hweight] at hlower
    have hless : ((⟨t, c.read ++ [(x.onKey (keys i)).chunkFrame j]⟩ : Connection C).unread x keys A
        i).card < (c.unread x keys A i).card := by
      refine Finset.card_lt_card ((Finset.ssubset_iff_of_subset fun k hk => ?_).mpr ⟨j, ?_, ?_⟩)
      · obtain ⟨hk, hb, hread⟩ := Finset.mem_filter.mp hk
        exact Finset.mem_filter.mpr ⟨hk, hb, fun h => hread (List.mem_append_left _ h)⟩
      · exact Finset.mem_filter.mpr ⟨Finset.mem_range.mpr hlt, hbrings, hnew⟩
      · exact fun hj => (Finset.mem_filter.mp hj).2.2 (by simp)
    show t.file.pending + (t.work + _) < _
    omega

/-- All chunks are sent. -/
def Assignment.whole (on : Nat → ι) : Assignment ι := ⟨fun _ => True, inferInstance, on⟩

end Session

end P2PTransfer.Cli
