import P2PTransfer.Cli.Join
import P2PTransfer.Cli.Progress
import P2PTransfer.Lib.Machine64
import P2PTransfer.Transfer.Resume

/-!
# The arithmetic of the receiver

`ReceiverHandler::run` computes with the numbers of the metadata as they come from the peer: the
first chunk of a resumed transfer, the place of a chunk in the file, and the progress that it
records. Each of these is a computation on machine integers that may have no result. Before the
first of them the output file is opened and given its length, which may already be refused.

## Main definitions

- `startCount`, `chunkPlace`, `progressOf` — the three computations
- `Host.admits` — the function comes as far as the first of them
- `Receiver.Computes` — a step of the loop has its results
- `Sound` — no computation of a session fails
- `Moderate` — the metadata for which that is so, as long as no other connection joins
-/

namespace P2PTransfer.Cli

open Machine64 Resume Transition Party

variable {C : Primitives} {ι : Type} [DecidableEq ι]

/-- What `run` asks of the disk and of the store of the transfers before it computes: which files
can be opened, in directories that may have to be made, which lengths they take, and whether the
transfer is entered. -/
structure Host where
  opens : Path → Bool
  setsLen : Path → Nat → Bool
  creates : Bool

/-- `run` goes on after `set_len` and `create_transfer`. A length is a signed number to the system,
as a position is. -/
def Host.admits (h : Host) (outputDir : Text) (m : TransferMetadata C) : Bool :=
  let path := outputPath outputDir m.fileName
  h.opens path && (seekStart m.fileSize).isSome && h.setsLen path m.fileSize && h.creates

/-- How many chunks count as received at the start. -/
def startCount (checks : Bool) (m : TransferMetadata C) : Option Nat :=
  if m.isResume then
    (divU64 m.resumeOffset m.chunkSize).bind fun index =>
      (subU64 checks m.totalChunks 1).map fun last => min index last
  else some 0

/-- Where a chunk is written. -/
def chunkPlace (checks : Bool) (m : TransferMetadata C) (index : Nat) : Option Nat :=
  mulU64 checks index m.chunkSize

/-- What is recorded after `count` chunks and one more. -/
def progressOf (checks : Bool) (m : TransferMetadata C) (count : Nat) : Option Int :=
  (addU64 checks count 1).bind fun n => mulI64 checks (asI64 n) (asI64 m.chunkSize)

/-- The number of a chunk on the wire has 32 bits. -/
def Receiver.Act.onWire : Receiver.Act C → Prop
  | .readFrame f => ∀ index compressed data, f.payload = .chunk index compressed data →
    index < 2 ^ 32
  | _ => True

/-- What a step computes has a result, in a build with overflow checks. -/
def Receiver.Computes (s : Receiver.State C) : Receiver.Act C → Prop
  | .decrypted item _ => (chunkPlace true s.metadata item.1).isSome
  | .ack => (progressOf true s.metadata s.chunksReceived).isSome
  | _ => True

/-- Neither the count at the start nor, whatever the peer sends on the connections of the session,
any later computation divides by zero or overflows. -/
def Faultless (keys : ι → C.Key) (m : TransferMetadata C) (existing : Bytes) : Prop :=
  (startCount true m).isSome ∧ ∀ n a n',
    (connections C ι).machine.Reach (fun _ a => a.2.onWire) (openSession m keys existing) n →
      a.2.onWire → (connections C ι).machine.step n a = some n' →
        Receiver.Computes ((n.parts a.1).state n.store) a.2

/-- No computation of a session fails that is come to. -/
def Sound (h : Host) (outputDir : Text) (keys : ι → C.Key) (m : TransferMetadata C)
    (existing : Bytes) : Prop :=
  h.admits outputDir m → Faultless keys m existing

/-- The numbers of the metadata are not too large, and not zero where they are divided by or
subtracted from. -/
structure Moderate (m : TransferMetadata C) : Prop where
  total : 1 ≤ m.totalChunks
  resume : m.isResume → 1 ≤ m.chunkSize
  place : m.chunkSize ≤ 2 ^ 32 + 1
  progress : m.chunkSize ≤ 1 ∨ m.totalChunks * m.chunkSize < 2 ^ 63

theorem startCount_isSome (m : TransferMetadata C) :
    (startCount true m).isSome ↔ (m.isResume → 1 ≤ m.chunkSize ∧ 1 ≤ m.totalChunks) := by
  unfold startCount divU64 subU64
  cases m.isResume with
  | false => simp
  | true =>
    by_cases hzero : m.chunkSize = 0
    · simp [hzero]
    · by_cases htotal : 1 ≤ m.totalChunks
      · simp [hzero, htotal, Nat.one_le_iff_ne_zero]
      · simp [hzero, htotal]

omit [DecidableEq ι] in
/-- Where it has a result, the session starts with it. -/
theorem startCount_eq {m : TransferMetadata C} {k : Nat} (keys : ι → C.Key) (existing : Bytes)
    (h : startCount true m = some k) : (openSession m keys existing).store.chunksReceived = k := by
  show (if m.isResume then startChunk m else 0) = k
  unfold startCount divU64 subU64 at h
  split at h
  · next hres =>
    rw [if_pos hres]
    by_cases hzero : m.chunkSize = 0
    · simp [hzero] at h
    · by_cases htotal : 1 ≤ m.totalChunks
      · rw [if_neg hzero, Option.bind_some, if_pos htotal, Option.map_some] at h
        exact Option.some.inj h
      · simp [hzero, htotal] at h
  · next hres =>
    rw [if_neg hres]
    exact Option.some.inj h

theorem chunkPlace_isSome {m : TransferMetadata C} {index : Nat} :
    (chunkPlace true m index).isSome ↔ index * m.chunkSize < 2 ^ 64 := narrow_isSome

/-- The numbers have the widths of their types. -/
structure Serialised (m : TransferMetadata C) : Prop where
  resumeOffset : m.resumeOffset < 2 ^ 64
  chunkSize : m.chunkSize < 2 ^ 64
  totalChunks : m.totalChunks < 2 ^ 64

section Enough

variable {m : TransferMetadata C} {s t : Receiver.State C} {b : Receiver.Act C}

/-- What the peer has control of stays within the widths of the wire, and the count below the
number of the chunks. -/
structure Receiver.Numbered (m : TransferMetadata C) (s : Receiver.State C) : Prop where
  metadata : s.metadata = m
  channel : ∀ f, .ok f ∈ s.channel → ∀ index compressed data,
    f.payload = .chunk index compressed data → index < 2 ^ 32
  decrypting : ∀ item ∈ s.decrypting, item.1 < 2 ^ 32
  count : s.pc ≠ .verify → ¬ s.pc.ended → s.chunksReceived < m.totalChunks

theorem Receiver.Numbered.start (htotal : 1 ≤ m.totalChunks) (key : C.Key) (existing : Bytes) :
    Receiver.Numbered m (Receiver.State.start key m existing) where
  metadata := rfl
  channel f h := by cases h
  decrypting item h := by cases h
  count _ _ := by
    show (if m.isResume then startChunk m else 0) < m.totalChunks
    unfold startChunk
    split <;> omega

theorem Receiver.Numbered.step (h : Receiver.Numbered m s) (hok : b.onWire)
    (hs : Receiver.step s b = some t) : Receiver.Numbered m t := by
  obtain ⟨h1, h2, h3, h4⟩ := h
  cases b with
  | readFrame f =>
    obtain ⟨-, rfl⟩ := guarded_eq_some.mp hs
    refine ⟨h1, fun g hg => ?_, h3, h4⟩
    rcases List.mem_append.mp hg with hg | hg
    · exact h2 g hg
    · have hg := List.mem_singleton.mp hg
      split at hg
      · cases hg
      · cases hg
        exact hok
  | hangup =>
    obtain ⟨-, rfl⟩ := guarded_eq_some.mp hs
    exact ⟨h1, fun g hg => h2 g (by simpa using hg), h3, h4⟩
  | readError detail =>
    obtain ⟨-, rfl⟩ := guarded_eq_some.mp hs
    exact ⟨h1, fun g hg => h2 g (by simpa using hg), h3, h4⟩
  | spawn f item =>
    obtain ⟨⟨-, hhead, hitem⟩, rfl⟩ := guarded_eq_some.mp hs
    refine ⟨h1, fun g hg => h2 g (List.mem_of_mem_tail hg), fun y hy => ?_, h4⟩
    rcases List.mem_append.mp hy with hy | hy
    · exact h3 y hy
    · rw [List.mem_singleton.mp hy]
      obtain ⟨compressed, data, hpayload⟩ := payload_of_chunkOf hitem
      exact h2 f (List.mem_of_mem_head? hhead) _ _ _ hpayload
  | badFrame f =>
    obtain ⟨-, rfl⟩ := guarded_eq_some.mp hs
    exact ⟨h1, fun g hg => h2 g (List.mem_of_mem_tail hg), h3, fun _ hend => absurd rfl hend⟩
  | readFailed detail =>
    obtain ⟨-, rfl⟩ := guarded_eq_some.mp hs
    exact ⟨h1, fun g hg => h2 g (List.mem_of_mem_tail hg), h3, fun _ hend => absurd rfl hend⟩
  | decrypted item data =>
    obtain ⟨-, rfl⟩ := guarded_eq_some.mp hs
    exact ⟨h1, h2, fun y hy => h3 y (List.mem_of_mem_erase hy), h4⟩
  | decryptError item detail =>
    obtain ⟨-, rfl⟩ := guarded_eq_some.mp hs
    exact ⟨h1, h2, fun y hy => h3 y (List.mem_of_mem_erase hy), h4⟩
  | join index =>
    obtain ⟨⟨hpc, -⟩, rfl⟩ := guarded_eq_some.mp hs
    exact ⟨h1, h2, h3, fun _ _ => h4 (by simp [hpc]) (by simp [hpc])⟩
  | joinError detail =>
    obtain ⟨-, rfl⟩ := guarded_eq_some.mp hs
    exact ⟨h1, h2, h3, fun _ hend => absurd rfl hend⟩
  | ack =>
    cases hpc : s.pc with
    | ack index =>
      simp only [Receiver.step, hpc, Option.some.injEq] at hs
      subst hs
      refine ⟨h1, h2, h3, fun hverify _ => ?_⟩
      have hlt := h4 (by simp [hpc]) (by simp [hpc])
      rw [← h1] at hlt ⊢
      -- the last acknowledgement leaves the loop
      have hne : s.chunksReceived + 1 ≠ s.metadata.totalChunks := fun heq => hverify (if_pos heq)
      show s.chunksReceived + 1 < s.metadata.totalChunks
      omega
    | _ => simp [Receiver.step, hpc] at hs
  | ackError detail =>
    cases hpc : s.pc with
    | ack index =>
      simp only [Receiver.step, hpc, Option.some.injEq] at hs
      subst hs
      exact ⟨h1, h2, h3, fun _ hend => absurd rfl hend⟩
    | _ => simp [Receiver.step, hpc] at hs
  | verdict | verdictLost | flush | flushFailed =>
    obtain ⟨-, rfl⟩ := guarded_eq_some.mp hs
    exact ⟨h1, h2, h3, fun _ hend => absurd rfl hend⟩
  | _ =>
    simp only [Receiver.step, guarded_eq_some] at hs
    obtain ⟨-, rfl⟩ := hs
    exact ⟨h1, h2, h3, h4⟩

/-- The progress after a chunk has no overflow. -/
theorem Moderate.progress_isSome (h : Moderate m) (hm : Serialised m) {count : Nat}
    (hcount : count < m.totalChunks) : (progressOf true m count).isSome := by
  have htotal := hm.totalChunks
  have hadd : addU64 true count 1 = some (count + 1) := narrow_of_lt (by omega)
  unfold progressOf
  rw [hadd, Option.bind_some]
  refine narrowI64_isSome.mpr ?_
  rcases h.progress with hone | hlt
  · have hcast : asI64 m.chunkSize = m.chunkSize := asI64_of_lt (by omega)
    have hrange := asI64_range (n := count + 1)
    rw [hcast]
    have hcases : m.chunkSize = 0 ∨ m.chunkSize = 1 := by omega
    rcases hcases with hcs | hcs
    · rw [hcs]
      omega
    · rw [hcs]
      omega
  · by_cases hzero : m.chunkSize = 0
    · rw [hzero]
      have : asI64 0 = 0 := rfl
      rw [this]
      omega
    · have hcs : m.chunkSize < 2 ^ 63 :=
        lt_of_le_of_lt (Nat.le_mul_of_pos_left _ h.total) hlt
      have hn : count + 1 < 2 ^ 63 :=
        lt_of_le_of_lt
          (Nat.le_trans hcount (Nat.le_mul_of_pos_right _ (Nat.pos_of_ne_zero hzero))) hlt
      rw [asI64_of_lt hcs, asI64_of_lt hn, ← Nat.cast_mul]
      have hle : (count + 1) * m.chunkSize ≤ m.totalChunks * m.chunkSize :=
        Nat.mul_le_mul_right _ hcount
      omega

/-- The place of a chunk has none, for every number of 32 bits. -/
theorem Moderate.place_isSome (h : Moderate m) {index : Nat} (hindex : index < 2 ^ 32) :
    (chunkPlace true m index).isSome := by
  refine chunkPlace_isSome.mpr ?_
  calc index * m.chunkSize ≤ (2 ^ 32 - 1) * (2 ^ 32 + 1) :=
        Nat.mul_le_mul (Nat.le_pred_of_lt hindex) h.place
    _ < 2 ^ 64 := by norm_num

theorem Moderate.computes (h : Moderate m) (hm : Serialised m) (hnum : Receiver.Numbered m s)
    (hs : Receiver.step s b = some t) : Receiver.Computes s b := by
  cases b with
  | decrypted item data =>
    obtain ⟨⟨hmem, -⟩, -⟩ := guarded_eq_some.mp hs
    show (chunkPlace true s.metadata item.1).isSome
    rw [hnum.metadata]
    exact h.place_isSome (hnum.decrypting item hmem)
  | ack =>
    show (progressOf true s.metadata s.chunksReceived).isSome
    rw [hnum.metadata]
    have hack : ∃ index, s.pc = .ack index := by
      cases hpc : s.pc with
      | ack index => exact ⟨index, rfl⟩
      | _ => simp [Receiver.step, hpc] at hs
    obtain ⟨index, hpc⟩ := hack
    exact h.progress_isSome hm (hnum.count (by simp [hpc]) (by simp [hpc]))
  | _ => trivial

/-- Nothing fails in the session of a connection that no other one joins. -/
theorem Moderate.faultless [Subsingleton ι] (h : Moderate m) (hm : Serialised m) (keys : ι → C.Key)
    (existing : Bytes) : Faultless keys m existing := by
  refine ⟨(startCount_isSome m).mpr fun hres => ⟨h.resume hres, h.total⟩, ?_⟩
  intro n a n' hreach hok hs
  have hnum : ∀ i, Receiver.Numbered m ((n.parts i).state n.store) := by
    refine hreach.invariant (I := fun n => ∀ i, Receiver.Numbered m ((n.parts i).state n.store))
      (fun i => .start h.total (keys i) existing) fun n b n' hI hb hstep i => ?_
    obtain ⟨S, c, hinner, rfl⟩ := Components.machine_step.mp hstep
    obtain ⟨t, ht, heq⟩ := Option.map_eq_some_iff.mp hinner
    cases heq
    obtain rfl := Subsingleton.elim i b.1
    dsimp only
    rw [Function.update_self]
    exact (hI b.1).step hb ht
  obtain ⟨S, c, hinner, -⟩ := Components.machine_step.mp hs
  obtain ⟨t, ht, -⟩ := Option.map_eq_some_iff.mp hinner
  exact h.computes hm (hnum a.1) ht

end Enough

section Needed

variable {keys : ι → C.Key} {m : TransferMetadata C} {existing : Bytes}

/-- What the task of a chunk without bytes is given. -/
def emptyItem (key : C.Key) (m : TransferMetadata C) (index : Nat) : Nat × Bool × Bytes :=
  (index, false, C.encrypt key (buildNonce m.noncePrefix index) [])

/-- A chunk without bytes, under any number. -/
def emptyChunk (key : C.Key) (m : TransferMetadata C) (index : Nat) : Frame C :=
  ⟨tagChunk, .chunk index false (C.encrypt key (buildNonce m.noncePrefix index) [])⟩

theorem emptyChunk_fits {key : C.Key} (index : Nat) :
    (emptyChunk key m index).oversized = false := by
  refine decide_eq_false (Nat.not_lt.mpr ?_)
  show 6 + (C.encrypt key (buildNonce m.noncePrefix index) []).length ≤ maxPayloadSize
  rw [C.encrypt_length]
  decide

/-- The task of such a chunk is started. -/
theorem Receiver.take_empty {r : Receiver.State C} {index : Nat} (hindex : index < 2 ^ 32)
    (hpc : r.pc = .select) (hread : r.reading = true) (hchannel : r.channel = []) :
    (receiver C).Trace (fun _ b => b.onWire) r [emptyChunk r.key r.metadata index] []
      { r with decrypting := r.decrypting ++ [emptyItem r.key r.metadata index] } := by
  have hitem : Receiver.chunkOf (emptyChunk r.key r.metadata index) =
    some (emptyItem r.key r.metadata index) := rfl
  have htake := Receiver.take_one hpc hread hchannel (emptyChunk_fits index) hitem
  refine htake.weaken fun s a _ hin => ?_
  cases a with
  | readFrame f =>
    obtain rfl := List.mem_singleton.mp (hin f (List.mem_singleton_self f))
    rintro i c d hpayload
    cases hpayload
    exact hindex
  | _ => trivial

theorem Receiver.open_empty (r : Receiver.State C) (index : Nat) :
    r.open (emptyItem r.key r.metadata index) = some [] := by
  unfold Receiver.State.open emptyItem
  rw [C.decrypt_encrypt]
  rfl

/-- A history that takes no frame is one on the wire. -/
theorem Receiver.onWire_of_quiet {r r' : Receiver.State C} {o : List (Frame C)}
    (h : (receiver C).Trace Receiver.quiet r [] o r') :
    (receiver C).Trace (fun _ b => b.onWire) r [] o r' := by
  refine h.weaken fun s a _ hin => ?_
  cases a with
  | readFrame f => cases hin f (List.mem_singleton_self f)
  | _ => trivial

/-- A chunk without bytes comes as far as its acknowledgement. -/
theorem Receiver.join_empty {r : Receiver.State C} (hpc : r.pc = .select) (hread : r.reading = true)
    (hchannel : r.channel = []) (hcalm : r.Calm) :
    ∃ r', (receiver C).Trace (fun _ b => b.onWire) r [emptyChunk r.key r.metadata 0] [] r' ∧
      r'.pc = .ack 0 ∧ r'.Calm ∧ Receiver.Alike r r' := by
  have hseek : (seekStart (offsetOf r.metadata 0)).isSome := by
    rw [offsetOf, Nat.zero_mul]
    rfl
  have htake := Receiver.take_empty (Nat.two_pow_pos 32) hpc hread hchannel
  obtain ⟨r', hjoin, hack, hcalm', halike, -⟩ := Receiver.join_one (r := { r with
    decrypting := r.decrypting ++ [emptyItem r.key r.metadata 0] })
    (emptyItem r.key r.metadata 0) hpc (by simp)
    (Receiver.open_empty r 0) hseek hcalm
  exact ⟨r', by simpa using htake.trans (Receiver.onWire_of_quiet hjoin), hack, hcalm',
    ⟨halike.key, halike.metadata, halike.reading, halike.channel, halike.chunksReceived⟩⟩

/-- What a connection does by itself is a run of the session. -/
theorem Connection.reach_of_trace {i : ι} {r r' : Receiver.State C} {is os : List (Frame C)}
    (h : (receiver C).Trace (fun _ b => b.onWire) r is os r')
    {n : System ι (SharedState ι) (Connection C)} (hr : (n.parts i).state n.store = r) :
    ∃ n', (connections C ι).machine.Reach (fun _ a => a.2.onWire) n n' ∧
      (n'.parts i).state n'.store = r' ∧ ∀ j ≠ i, n'.parts j = n.parts j := by
  induction h with
  | nil => exact ⟨n, .refl, hr, fun j _ => rfl⟩
  | @snoc is os s t b _ hb hs ih =>
    obtain ⟨n', hreach, hstate, hrest⟩ := ih
    rw [← hstate] at hs
    have hinner : (connections C ι).step i n'.store (n'.parts i) b = some _ :=
      Option.map_eq_some_iff.mpr ⟨t, hs, rfl⟩
    have hstep : (connections C ι).machine.step n' (i, b) = some _ :=
      Components.machine_step.mpr ⟨_, _, hinner, rfl⟩
    refine ⟨_, hreach.tail hb hstep, ?_, fun j hj => ?_⟩
    · dsimp only
      rw [Function.update_self]
      rfl
    · exact (Function.update_of_ne hj ..).trans (hrest j hj)

/-- The connection waits for a chunk. -/
structure Connection.Idle (m : TransferMetadata C) (c : Connection C) : Prop where
  pc : c.inner.pc = .select
  reading : c.inner.reading = true
  channel : c.inner.channel = []
  metadata : c.inner.metadata = m

/-- Nothing is on its way to the shared file. -/
def SharedState.Calm (S : SharedState ι) : Prop :=
  S.file.inflight = none ∧ S.file.lastWriteErr = none

variable {n : System ι (SharedState ι) (Connection C)} {i : ι}

/-- It may bring a chunk as far as its acknowledgement. -/
theorem Connection.Idle.join (h : (n.parts i).Idle m) (hcalm : n.store.Calm) :
    ∃ n', (connections C ι).machine.Reach (fun _ a => a.2.onWire) n n' ∧
      (n'.parts i).inner.pc = .ack 0 ∧ n'.store.Calm ∧ (n'.parts i).inner.reading = true ∧
      (n'.parts i).inner.channel = [] ∧ (n'.parts i).inner.metadata = m ∧
      n'.store.chunksReceived = n.store.chunksReceived ∧ ∀ j ≠ i, n'.parts j = n.parts j := by
  obtain ⟨r', hjoin, hack, hcalm', halike⟩ := Receiver.join_empty
    (show ((n.parts i).state n.store).pc = .select from h.pc) h.reading h.channel hcalm
  obtain ⟨n', hreach, rfl, hrest⟩ := Connection.reach_of_trace hjoin rfl
  exact ⟨n', hreach, hack, hcalm', halike.reading.trans h.reading,
    halike.channel.trans h.channel, halike.metadata.trans h.metadata, halike.chunksReceived, hrest⟩

/-- It may count a chunk, and goes on unless that was the last one. -/
theorem Connection.Idle.count (h : (n.parts i).Idle m) (hcalm : n.store.Calm) :
    ∃ n', (connections C ι).machine.Reach (fun _ a => a.2.onWire) n n' ∧
      n'.store.chunksReceived = n.store.chunksReceived + 1 ∧ n'.store.Calm ∧
      (n.store.chunksReceived + 1 ≠ m.totalChunks → (n'.parts i).Idle m) ∧
      ∀ j ≠ i, n'.parts j = n.parts j := by
  obtain ⟨n₁, hreach₁, hack, hcalm₁, hread, hchannel, hmeta, hcount, hrest₁⟩ := h.join hcalm
  have hacked := Receiver.onWire_of_quiet (Receiver.ack_joined
    (show ((n₁.parts i).state n₁.store).pc = .ack 0 from hack))
  obtain ⟨n₂, hreach₂, hstate, hrest₂⟩ := Connection.reach_of_trace hacked rfl
  have hfile : n₂.store.file = n₁.store.file := congrArg Receiver.State.file hstate
  refine ⟨n₂, hreach₁.trans hreach₂, ?_, ?_, fun hne => ⟨?_, ?_, ?_, ?_⟩,
    fun j hj => (hrest₂ j hj).trans (hrest₁ j hj)⟩
  · exact (congrArg Receiver.State.chunksReceived hstate).trans (congrArg (· + 1) hcount)
  · rw [SharedState.Calm, hfile]
    exact hcalm₁
  · refine (congrArg Receiver.State.pc hstate).trans (if_neg fun heq => hne ?_)
    rw [← hcount, ← hmeta]
    exact heq
  · exact (congrArg Receiver.State.reading hstate).trans hread
  · exact (congrArg Receiver.State.channel hstate).trans hchannel
  · exact (congrArg Receiver.State.metadata hstate).trans hmeta

/-- It may count on as long as the number of the chunks is not met. -/
theorem Connection.Idle.count_many (h : (n.parts i).Idle m) (hcalm : n.store.Calm) (k : Nat)
    (hbelow : ∀ p < k, n.store.chunksReceived + p + 1 ≠ m.totalChunks) :
    ∃ n', (connections C ι).machine.Reach (fun _ a => a.2.onWire) n n' ∧
      n'.store.chunksReceived = n.store.chunksReceived + k ∧ n'.store.Calm ∧
      (n'.parts i).Idle m ∧ ∀ j ≠ i, n'.parts j = n.parts j := by
  induction k with
  | zero => exact ⟨n, .refl, rfl, hcalm, h, fun j _ => rfl⟩
  | succ k ih =>
    obtain ⟨n₁, hreach₁, hcount₁, hcalm₁, hidle₁, hrest₁⟩ :=
      ih fun p hp => hbelow p (Nat.lt_succ_of_lt hp)
    obtain ⟨n₂, hreach₂, hcount₂, hcalm₂, hidle₂, hrest₂⟩ := hidle₁.count hcalm₁
    rw [hcount₁] at hcount₂ hidle₂
    exact ⟨n₂, hreach₁.trans hreach₂, hcount₂, hcalm₂, hidle₂ (hbelow k (Nat.lt_succ_self k)),
      fun j hj => (hrest₂ j hj).trans (hrest₁ j hj)⟩

omit [DecidableEq ι] in
theorem Connection.Idle.start (keys : ι → C.Key) (m : TransferMetadata C) (existing : Bytes)
    (i : ι) : (((openSession m keys existing).parts i)).Idle m := ⟨rfl, rfl, rfl, rfl⟩

omit [DecidableEq ι] in
theorem SharedState.Calm.start (keys : ι → C.Key) (m : TransferMetadata C) (existing : Bytes) :
    (openSession m keys existing).store.Calm := ⟨rfl, rfl⟩

/-- The count at which a connection waits has its progress. -/
theorem Faultless.progress (h : Faultless keys m existing)
    (hreach : (connections C ι).machine.Reach (fun _ a => a.2.onWire)
      (openSession m keys existing) n) (hidle : (n.parts i).Idle m) (hcalm : n.store.Calm) :
    (progressOf true m n.store.chunksReceived).isSome := by
  obtain ⟨n', hjoin, hack, -, -, -, hmeta, hcount, -⟩ := hidle.join hcalm
  obtain ⟨t, hstep⟩ : ∃ t, Receiver.step ((n'.parts i).state n'.store) .ack = some t := by
    have hpc : ((n'.parts i).state n'.store).pc = .ack 0 := hack
    simp only [Receiver.step, hpc]
    exact ⟨_, rfl⟩
  have hinner : (connections C ι).step i n'.store (n'.parts i) .ack = some _ :=
    Option.map_eq_some_iff.mpr ⟨t, hstep, rfl⟩
  have hcomputes := h.2 n' (i, .ack) _ (hreach.trans hjoin) trivial
    (Components.machine_step.mpr ⟨_, _, hinner, rfl⟩)
  rw [← hcount, ← hmeta]
  exact hcomputes

/-- So has each count that one connection comes to. -/
theorem Faultless.progress_add (h : Faultless keys m existing) (i : ι) (k : Nat)
    (hbelow : ∀ p < k, (openSession m keys existing).store.chunksReceived + p + 1 ≠
      m.totalChunks) :
    (progressOf true m ((openSession m keys existing).store.chunksReceived + k)).isSome := by
  obtain ⟨n, hreach, hcount, hcalm, hidle, -⟩ :=
    (Connection.Idle.start keys m existing i).count_many (.start keys m existing) k hbelow
  rw [← hcount]
  exact h.progress hreach hidle hcalm

/-- The largest number of a chunk on the wire has its place. -/
theorem Faultless.place (h : Faultless keys m existing) (i : ι) : m.chunkSize ≤ 2 ^ 32 + 1 := by
  have hindex : 2 ^ 32 - 1 < 2 ^ 32 := by norm_num
  have htake := Receiver.take_empty (r := Receiver.State.start (keys i) m existing) hindex rfl rfl
    rfl
  obtain ⟨n, hreach, hstate, -⟩ := Connection.reach_of_trace (i := i)
    (n := openSession m keys existing) htake rfl
  obtain ⟨t, hstep⟩ : ∃ t, Receiver.step ((n.parts i).state n.store)
      (.decrypted (emptyItem (keys i) m (2 ^ 32 - 1)) []) = some t := by
    rw [hstate]
    exact ⟨_, guarded_eq_some.mpr ⟨⟨List.mem_append_right _ (List.mem_singleton_self _),
      Receiver.open_empty _ (2 ^ 32 - 1)⟩, rfl⟩⟩
  have hinner : (connections C ι).step i n.store (n.parts i)
      (.decrypted (emptyItem (keys i) m (2 ^ 32 - 1)) []) = some _ :=
    Option.map_eq_some_iff.mpr ⟨t, hstep, rfl⟩
  have hcomputes := h.2 n (i, .decrypted (emptyItem (keys i) m (2 ^ 32 - 1)) []) _ hreach trivial
    (Components.machine_step.mpr ⟨_, _, hinner, rfl⟩)
  have hmeta : ((n.parts i).state n.store).metadata = m :=
    congrArg Receiver.State.metadata hstate
  have hlt : (2 ^ 32 - 1) * m.chunkSize < 2 ^ 64 := by
    rw [← hmeta]
    exact chunkPlace_isSome.mp hcomputes
  omega

/-- Where a chunk has at least two bytes, a progress that is computed is a product. -/
theorem mul_lt_of_progress {count : Nat} (htwo : 2 ≤ m.chunkSize) (hcs : m.chunkSize < 2 ^ 63)
    (hcount : count + 1 ≤ 2 ^ 63) (h : (progressOf true m count).isSome) :
    (count + 1) * m.chunkSize < 2 ^ 63 := by
  have hadd : addU64 true count 1 = some (count + 1) := narrow_of_lt (by omega)
  unfold progressOf at h
  rw [hadd, Option.bind_some, asI64_of_lt hcs] at h
  obtain ⟨hlow, hhigh⟩ := narrowI64_isSome.mp h
  by_cases hlt : count + 1 < 2 ^ 63
  · rw [asI64_of_lt hlt] at hhigh
    exact_mod_cast hhigh
  · -- the cast of the count is the least signed number
    rw [asI64_of_le (Nat.not_lt.mp hlt) (by omega)] at hlow
    have hmin : ((count + 1 : Nat) : Int) - 2 ^ 64 = -2 ^ 63 := by omega
    rw [hmin] at hlow
    omega

/-- A count of all ones has no progress. -/
theorem progressOf_max : (progressOf true m (2 ^ 64 - 1)).isSome = false := by
  have hadd : addU64 true (2 ^ 64 - 1) 1 = none := rfl
  unfold progressOf
  rw [hadd]
  rfl

theorem Faultless.total (h : Faultless keys m existing) (i : ι) : 1 ≤ m.totalChunks := by
  by_contra hzero
  have hres : m.isResume = false := by
    by_contra hres
    exact hzero ((startCount_isSome m).mp h.1 (Bool.not_eq_false _ ▸ hres)).2
  have hstart : (openSession m keys existing).store.chunksReceived = 0 :=
    if_neg (by rw [hres]; exact Bool.false_ne_true)
  -- without an end the count passes every number
  have hprogress := h.progress_add i (2 ^ 64 - 1) fun p _ heq => by omega
  rw [hstart, Nat.zero_add, progressOf_max] at hprogress
  cases hprogress

theorem Faultless.moderate (h : Faultless keys m existing) (hm : Serialised m) (i : ι) :
    Moderate m := by
  have htotal := h.total i
  have hplace := h.place i
  refine ⟨htotal, fun hres => ((startCount_isSome m).mp h.1 hres).1, hplace, ?_⟩
  by_contra hlarge
  obtain ⟨htwo, hprod⟩ := not_or.mp hlarge
  -- the first count whose progress is too large, if not already the last one
  have hstart : (openSession m keys existing).store.chunksReceived + 1 ≤
      min m.totalChunks (2 ^ 63) := by
    have hoff : m.resumeOffset / m.chunkSize ≤ m.resumeOffset / 2 :=
      Nat.div_le_div_left (by omega) (by norm_num)
    have := hm.resumeOffset
    show (if m.isResume then startChunk m else 0) + 1 ≤ _
    unfold startChunk
    split <;> omega
  obtain ⟨k, hk⟩ := Nat.exists_eq_add_of_le hstart
  have hprogress := h.progress_add i k fun p hp heq => by omega
  have hlt := mul_lt_of_progress (by omega) (by omega) (by omega) hprogress
  rw [show (openSession m keys existing).store.chunksReceived + k + 1 =
    min m.totalChunks (2 ^ 63) by omega] at hlt
  rcases Nat.le_total m.totalChunks (2 ^ 63) with hle | hle
  · rw [Nat.min_eq_left hle] at hlt
    exact hprod hlt
  · rw [Nat.min_eq_right hle] at hlt
    omega

/-- Where a second connection joins, it counts on after the first one has left. -/
theorem Faultless.subsingleton (h : Faultless keys m existing) (hm : Serialised m) :
    Subsingleton ι := by
  refine ⟨fun i j => ?_⟩
  by_contra hne
  have htotal := h.total i
  have hmax := hm.totalChunks
  have hlt : (openSession m keys existing).store.chunksReceived < m.totalChunks := by
    show (if m.isResume then startChunk m else 0) < _
    unfold startChunk
    split <;> omega
  obtain ⟨k, hk⟩ := Nat.exists_eq_add_of_lt hlt
  obtain ⟨n₁, hreach₁, hcount₁, hcalm₁, hidle₁, hrest₁⟩ :=
    (Connection.Idle.start keys m existing i).count_many (.start keys m existing) k
      fun p hp heq => by omega
  obtain ⟨n₂, hreach₂, hcount₂, hcalm₂, -, hrest₂⟩ := hidle₁.count hcalm₁
  have hidle₂ : (n₂.parts j).Idle m := by
    rw [hrest₂ j (Ne.symm hne), hrest₁ j (Ne.symm hne)]
    exact .start keys m existing j
  obtain ⟨n₃, hreach₃, hcount₃, hcalm₃, hidle₃, -⟩ :=
    hidle₂.count_many hcalm₂ (2 ^ 64 - 1 - m.totalChunks) fun p _ heq => by omega
  have hprogress := h.progress ((hreach₁.trans hreach₂).trans hreach₃) hidle₃ hcalm₃
  rw [show n₃.store.chunksReceived = 2 ^ 64 - 1 by omega, progressOf_max] at hprogress
  cases hprogress

end Needed

/-- **Peer metadata.** Where the output file takes the length that is announced, no computation of
a session fails exactly for metadata of moderate numbers that no second connection joins. -/
theorem sound_iff_moderate [Nonempty ι] (host : Host) (outputDir : Text) {m : TransferMetadata C}
    (hm : Serialised m) (keys : ι → C.Key) (existing : Bytes) :
    Sound host outputDir keys m existing ↔
      (host.admits outputDir m → Moderate m ∧ Subsingleton ι) := by
  constructor
  · intro h hadmits
    obtain ⟨i⟩ := ‹Nonempty ι›
    exact ⟨(h hadmits).moderate hm i, (h hadmits).subsingleton hm⟩
  · intro h hadmits
    obtain ⟨hmod, hone⟩ := h hadmits
    exact hmod.faultless hm keys existing

/-- A file that is too long for every disk keeps the other numbers from being used. -/
theorem sound_of_oversized (host : Host) (outputDir : Text) {m : TransferMetadata C}
    (h : 2 ^ 63 ≤ m.fileSize) (keys : ι → C.Key) (existing : Bytes) :
    Sound host outputDir keys m existing := by
  intro hadmits
  have hseek : seekStart m.fileSize = none := if_neg (Nat.not_lt.mpr h)
  simp [Host.admits, hseek] at hadmits

/-- A host that takes every length that is a signed number. -/
def sampleHost : Host := ⟨fun _ => true, fun _ _ => true, true⟩

theorem admits_sampleHost {outputDir : Text} {m : TransferMetadata C} (h : m.fileSize < 2 ^ 63) :
    sampleHost.admits outputDir m := by
  have hseek := seekStart_isSome.mpr h
  simp [Host.admits, sampleHost, hseek]

theorem serialised_sampleJob : Serialised (sampleJob 0).metadata where
  resumeOffset := by decide
  chunkSize := by decide
  totalChunks := by
    rw [totalChunks_sampleJob]
    decide

theorem fileSize_sampleJob : (sampleJob 0).metadata.fileSize < 2 ^ 63 := by
  rw [(partition_sampleJob 0).fileSize]
  show sampleSource.length < 2 ^ 63
  rw [length_sampleSource]
  decide

theorem sample_sound : sampleHost.admits [] (sampleJob 0).metadata ∧
    Sound (C := .plain) sampleHost [] (fun _ : Unit => ()) (sampleJob 0).metadata [] := by
  refine ⟨admits_sampleHost fileSize_sampleJob,
    (sound_iff_moderate sampleHost [] serialised_sampleJob (fun _ => ()) []).mpr
      fun _ => ⟨⟨?_, by decide, by decide, .inr ?_⟩, inferInstance⟩⟩
  · rw [totalChunks_sampleJob]
    decide
  · rw [totalChunks_sampleJob]
    decide

/-- A resumed transfer whose chunks have no bytes. -/
def zeroChunkSize : TransferMetadata .plain :=
  { (sampleJob 0).metadata with isResume := true, chunkSize := 0, totalChunks := 1 }

/-- It divides by zero before the loop begins. -/
theorem zeroChunkSize_not_sound : Serialised zeroChunkSize ∧
    ¬ Sound (C := .plain) sampleHost [] (fun _ : Unit => ()) zeroChunkSize [] := by
  refine ⟨⟨by decide, by decide, by decide⟩, fun h => ?_⟩
  have hnone : startCount true zeroChunkSize = none := rfl
  have hsome := (h (admits_sampleHost fileSize_sampleJob)).1
  rw [hnone] at hsome
  cases hsome

end P2PTransfer.Cli
