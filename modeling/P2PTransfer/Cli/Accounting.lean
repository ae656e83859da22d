import P2PTransfer.Cli.Records
import P2PTransfer.Cli.Window

/-!
# The bytes that the sender accounts for

One upload may take several calls of `cmd_send`: a call goes on from the bytes that its record
has, and may be paused or killed at any point. The receiver acknowledges the chunks in the order
in which they come. What each call commits is compared with the chunks that have been
acknowledged over all calls.

## Main definitions

- `Upload` — what the calls have in common
- `Chain`, `Upload.machine` — one call after the other over the store
- `Upload.Exact` — the record has the bytes of the acknowledged chunks
- `belowEnd` — an acknowledgement is counted only by a call that did not start at the end
-/

namespace P2PTransfer.Cli

open Transition Resume Storage

variable {C : Primitives}

/-- The record of an upload, and the arguments that every call has. -/
structure Upload where
  id : Text
  peer : Text
  path : Text
  fileName : Text
  source : Bytes
  chunkSize : Nat
  likelyCompressed : Bool

namespace Upload

variable (u : Upload)

/-- What a call sends that goes on from an offset. -/
def job (key : C.Key) (sessionId : Text) (noncePrefix : Bytes) (level : Int) (offset : Nat) :
    Job C where
  key := key
  metadata := sendMetadata C sessionId u.fileName u.source noncePrefix u.chunkSize offset
  source := u.source
  level := level
  likelyCompressed := u.likelyCompressed

/-- The chunks of the file. -/
def chunker : Chunker := Chunker.new (max u.chunkSize minChunkSize) u.source.length

end Upload

/-- The store, the call that runs, and what the receiver has seen and answered: `stream` are the
chunks on their way to it, `answers` those whose acknowledgement is on its way back, and `acked`
those whose acknowledgement has been counted. -/
structure Chain (C : Primitives) where
  db : Database
  attempt : Option (Sender.State C) := none
  stream : List Nat := []
  answers : List Nat := []
  acked : Finset Nat := ∅

/-- No call has run on a store. -/
def Chain.start (C : Primitives) (db : Database) : Chain C := { db := db }

inductive Chain.Act (C : Primitives) where
  | begin (key : C.Key) (sessionId : Text) (noncePrefix : Bytes) (level : Int)
  | inner (a : Sender.Act C) (now : Int)
  | stop

/-- How a step of a call moves the chunks between the two sides. -/
def Chain.observe (n : Chain C) (s : Sender.State C) : Sender.Act C → Chain C
  | .write _ => { n with stream := n.stream ++ [s.nextToSend] }
  | .readAck f =>
    if f.tag = tagChunkAck then
      { n with stream := n.stream.tail, answers := n.answers ++ n.stream.head?.toList }
    else n
  | .ack _ =>
    { n with answers := n.answers.tail, acked := n.acked ∪ n.answers.head?.toFinset }
  | _ => n

namespace Upload

variable (u : Upload) (bytesOf : C.Digest → Bytes)

/-- One step. A call may end at any point: of itself, or because it is killed. -/
def step (n : Chain C) : Chain.Act C → Option (Chain C)
  | .begin key sessionId noncePrefix level =>
    (n.db.transfers.find u.id).bind fun r =>
      guarded (n.attempt.isNone ∧ resumable u.peer u.path r)
        { n with
          attempt := some (Sender.State.start
            (u.job key sessionId noncePrefix level r.bytesTransferred.toNat))
          stream := [], answers := [] }
  | .inner a now =>
    n.attempt.bind fun s => (Sender.step s a).map fun t =>
      { n.observe s a with
        db := (Sender.storeOp bytesOf u.id now s a).elim n.db n.db.apply, attempt := some t }
  | .stop => guarded n.attempt.isSome { n with attempt := none }

def machine : Machine (Chain C) (Chain.Act C) where
  step := u.step bytesOf

/-- As long as the transfer has not been completed, its record has the length of the chunks that
have been acknowledged, which is not more than that of the file. -/
def Exact (n : Chain C) : Prop :=
  ∀ r, n.db.transfers.find u.id = some r → r.status ≠ .completed →
    r.bytesTransferred = ((∑ j ∈ n.acked, u.chunker.chunkLength j : Nat) : Int) ∧
      r.bytesTransferred ≤ u.source.length

end Upload

namespace Chain

/-- The receiver acknowledges the chunks in the order in which they come, and only those. -/
def honest (n : Chain C) : Act C → Prop
  | .inner (.readAck f) _ =>
    f.tag = tagChunkAck → ∃ j, n.stream.head? = some j ∧ f = Receiver.ackFrame j
  | _ => True

/-- An acknowledgement is counted only by a call whose offset was below the end of the file. -/
def belowEnd (n : Chain C) : Act C → Prop
  | .inner (.ack _) _ => ∀ s, n.attempt = some s →
    s.job.metadata.resumeOffset < s.job.metadata.fileSize
  | _ => True

def ordinary (n : Chain C) (a : Act C) : Prop := n.honest a ∧ n.belowEnd a

end Chain

namespace Upload

variable {u : Upload} {bytesOf : C.Digest → Bytes} {k : Nat}

/-- The length of the first `k` chunks. -/
def done (u : Upload) (k : Nat) : Nat := min (k * max u.chunkSize minChunkSize) u.source.length

/-- The chunk size is not above the maximum, or the file is a single chunk. -/
def Fits (u : Upload) : Prop := u.chunkSize ≤ maxChunkSize ∨ u.source.length ≤ maxChunkSize

theorem Fits.chunkSize (h : u.Fits) : u.chunker.chunkSize = max u.chunkSize minChunkSize ∨
    u.source.length ≤ u.chunker.chunkSize ∧ u.chunker.chunkSize ≤ max u.chunkSize minChunkSize := by
  have hmin : minChunkSize ≤ maxChunkSize := by decide
  unfold Fits at h
  show max minChunkSize (min maxChunkSize (max u.chunkSize minChunkSize)) =
      max u.chunkSize minChunkSize ∨
    u.source.length ≤ max minChunkSize (min maxChunkSize (max u.chunkSize minChunkSize)) ∧
      max minChunkSize (min maxChunkSize (max u.chunkSize minChunkSize)) ≤
        max u.chunkSize minChunkSize
  omega

/-- One chunk more. -/
theorem Fits.done_succ (h : u.Fits) (k : Nat) :
    u.done (k + 1) = u.done k + u.chunker.chunkLength k := by
  have hfile : u.chunker.fileSize = u.source.length := rfl
  unfold done Chunker.chunkLength Chunker.chunkOffset
  rw [hfile]
  rcases h.chunkSize with hsize | ⟨hone, hle⟩
  · rw [hsize, Nat.succ_mul]
    omega
  · cases k with
    | zero => simp only [Nat.zero_add, Nat.one_mul, Nat.zero_mul]; omega
    | succ k =>
      have hbelow := hone.trans (Nat.le_mul_of_pos_left u.chunker.chunkSize k.succ_pos)
      have habove := (hone.trans hle).trans
        (Nat.le_mul_of_pos_left (max u.chunkSize minChunkSize) k.succ_pos)
      have hnext := habove.trans (Nat.mul_le_mul_right (max u.chunkSize minChunkSize)
        (Nat.le_succ (k + 1)))
      simp only [Nat.succ_eq_add_one] at *
      omega

theorem Fits.sum_range (h : u.Fits) (k : Nat) :
    ∑ j ∈ Finset.range k, u.chunker.chunkLength j = u.done k := by
  induction k with
  | zero => rw [Finset.sum_range_zero, done, Nat.zero_mul, Nat.zero_min]
  | succ k ih => rw [Finset.sum_range_succ, ih, h.done_succ]

theorem chunkSize_pos : 0 < max u.chunkSize minChunkSize := by
  have : 0 < minChunkSize := by decide
  omega

theorem Fits.length_le (h : u.Fits) :
    u.source.length ≤ u.chunker.totalChunks * max u.chunkSize minChunkSize := by
  have hpart : Partition u.source (createMetadata .plain [] [] u.source u.chunkSize false) :=
    .createMetadata h
  exact hpart.length_le

/-- A chunk of a file that is not empty begins before its end. -/
theorem Fits.mul_lt (h : u.Fits) (hpos : 0 < u.source.length) (hk : k < u.chunker.totalChunks) :
    k * max u.chunkSize minChunkSize < u.source.length := by
  have hempty : u.chunker.fileSize ≠ 0 := hpos.ne'
  rcases h.chunkSize with hsize | ⟨hone, -⟩
  · rw [← hsize]
    exact (u.chunker.lt_totalChunks_iff hempty).mp hk
  · rw [u.chunker.totalChunks_of_le hone] at hk
    rw [Nat.lt_one_iff.mp hk, Nat.zero_mul]
    exact hpos

/-- All chunks before one that has bytes left are whole. -/
theorem Fits.done_eq (h : u.Fits) (hk : u.done k < u.source.length) :
    u.done k = k * max u.chunkSize minChunkSize ∧ k < u.chunker.totalChunks := by
  unfold done at hk ⊢
  constructor
  · omega
  · by_contra hge
    have hle := h.length_le
    have := Nat.mul_le_mul_right (max u.chunkSize minChunkSize) (Nat.not_lt.mp hge)
    omega

section Job

variable {key : C.Key} {sessionId : Text} {noncePrefix : Bytes} {level : Int} {offset : Nat}
  {s : Sender.State C}

/-- A call that goes on before the end starts with the chunk after those that are done. -/
theorem Fits.startChunk_job (h : u.Fits) (hk : u.done k < u.source.length) :
    startChunk (u.job key sessionId noncePrefix level (u.done k)).metadata = k := by
  obtain ⟨hdone, hlt⟩ := h.done_eq hk
  show min (u.done k / max u.chunkSize minChunkSize) (u.chunker.totalChunks - 1) = k
  rw [hdone, Nat.mul_div_cancel _ chunkSize_pos]
  omega

/-- An acknowledgement adds the length of its chunk. -/
theorem Fits.lenToInc (h : u.Fits) (hpos : 0 < u.source.length)
    (hjob : s.job = u.job key sessionId noncePrefix level offset)
    (hlt : s.nextToAck < u.chunker.totalChunks) :
    u.done s.nextToAck + s.lenToInc = u.done (s.nextToAck + 1) := by
  have hbegin := h.mul_lt hpos hlt
  have hend := h.length_le
  have hlen : s.lenToInc = if (if s.nextToAck = u.chunker.totalChunks - 1
      then u.source.length % max u.chunkSize minChunkSize else max u.chunkSize minChunkSize) = 0
      then max u.chunkSize minChunkSize else if s.nextToAck = u.chunker.totalChunks - 1
      then u.source.length % max u.chunkSize minChunkSize else max u.chunkSize minChunkSize := by
    unfold Sender.State.lenToInc
    rw [hjob]
    rfl
  have hmod : u.source.length - s.nextToAck * max u.chunkSize minChunkSize <
      max u.chunkSize minChunkSize → u.source.length % max u.chunkSize minChunkSize =
        u.source.length - s.nextToAck * max u.chunkSize minChunkSize := by
    intro hless
    rw [← Nat.mod_eq_of_lt hless, Nat.mul_comm, Nat.sub_mul_mod (by rw [Nat.mul_comm]; omega)]
  rw [hlen]
  unfold done
  rw [Nat.succ_mul]
  by_cases hlast : s.nextToAck = u.chunker.totalChunks - 1
  · have htotal : u.chunker.totalChunks = s.nextToAck + 1 := by omega
    rw [htotal, Nat.succ_mul] at hend
    simp only [if_pos hlast]
    by_cases hwhole : u.source.length = s.nextToAck * max u.chunkSize minChunkSize +
        max u.chunkSize minChunkSize
    · -- a whole last chunk has no remainder
      rw [if_pos (by rw [hwhole, ← Nat.succ_mul, Nat.mul_mod_left])]
      omega
    · have := hmod (by omega)
      rw [if_neg (by omega)]
      omega
  · have hnext := h.mul_lt hpos (show s.nextToAck + 1 < u.chunker.totalChunks by omega)
    rw [Nat.succ_mul] at hnext
    have hsize : 0 < max u.chunkSize minChunkSize := chunkSize_pos
    simp only [if_neg hlast]
    rw [if_neg hsize.ne']
    omega

end Job

end Upload

namespace Sender

variable {bytesOf : C.Digest → Bytes} {id : Text} {now : Int} {s t : State C} {a : Act C}

/-- What a step writes to the store: progress for an acknowledgement, and how the call ends. -/
theorem storeOp_cases (hs : step s a = some t) :
    (storeOp bytesOf id now s a = none ∧ (s.pc = .returned → t.pc = .returned) ∧
      ∀ f, a ≠ .ack f) ∨
    (∃ f, a = .ack f ∧ s.pc = .select ∧ storeOp bytesOf id now s a =
      some (.updateProgress id now (asI64 (s.bytesSent + s.lenToInc)))) ∨
    (s.pc ≠ .returned ∧ t.pc = .returned ∧ (∀ f, a ≠ .ack f) ∧
      (storeOp bytesOf id now s a = some (.failTransfer id now) ∨
        ∃ checksum, storeOp bytesOf id now s a = some (.completeTransfer id now checksum))) := by
  cases a with
  | ack f =>
    obtain ⟨⟨hp, -⟩, -⟩ := guarded_eq_some.mp hs
    exact .inr (.inl ⟨f, rfl, hp, rfl⟩)
  | writeError | badAck | pipelineError =>
    obtain ⟨⟨hp, -⟩, rfl⟩ := guarded_eq_some.mp hs
    exact .inr (.inr ⟨by rw [hp]; simp, rfl, by simp, .inl rfl⟩)
  | verdict f =>
    obtain ⟨⟨hp, -⟩, rfl⟩ := guarded_eq_some.mp hs
    refine .inr (.inr ⟨by rw [hp]; simp, rfl, by simp, ?_⟩)
    cases hout : s.outcome f with
    | ok =>
      refine .inr ⟨formatHex (bytesOf s.job.metadata.checksum), ?_⟩
      simp only [storeOp, hout]
    | error => exact .inl (by simp only [storeOp, hout])
  | spawn =>
    obtain ⟨data, -, rfl⟩ := Option.map_eq_some_iff.mp hs
    exact .inl ⟨rfl, fun h => h, by simp⟩
  | pause =>
    obtain rfl := Option.some.inj hs
    exact .inl ⟨rfl, fun h => h, by simp⟩
  | take | write | flushed =>
    obtain ⟨⟨hp, -⟩, rfl⟩ := guarded_eq_some.mp hs
    exact .inl ⟨rfl, by rw [hp]; simp, by simp⟩
  | proceed | finish =>
    obtain ⟨hp, rfl⟩ := guarded_eq_some.mp hs
    exact .inl ⟨rfl, by rw [hp]; simp, by simp⟩
  | closed =>
    obtain ⟨⟨hp, -⟩, rfl⟩ := guarded_eq_some.mp hs
    exact .inl ⟨rfl, by rw [hp]; simp, by simp⟩
  | _ =>
    obtain ⟨-, rfl⟩ := guarded_eq_some.mp hs
    exact .inl ⟨rfl, fun h => h, by simp⟩

/-- The chunks from the first one that has not been acknowledged to the last one on the stream
are on their way, or their acknowledgements are. -/
structure Ordered (k : Nat) (answers stream : List Nat) (s : State C) : Prop where
  nextToAck : s.nextToAck = k
  way : ∃ m, s.nextToSend = k + m ∧ answers ++ stream = List.range' k m
  acks : s.pc ≠ .returned → s.acks.filter isAck = answers.map Receiver.ackFrame

theorem Ordered.start (x : Job C) : Ordered (startChunk x.metadata) [] [] (State.start x) where
  nextToAck := rfl
  way := ⟨0, rfl, rfl⟩
  acks _ := rfl

variable {k : Nat} {n : Chain C}

theorem filter_append_readFailed (l : List (Frame C)) (detail : Text) :
    (l ++ [readFailed detail]).filter isAck = l.filter isAck := by
  rw [List.filter_append]
  exact List.append_nil _

/-- Nothing but an acknowledgement that is counted moves the first chunk. -/
theorem Ordered.step (h : Ordered k n.answers n.stream s) (hok : n.honest (.inner a now))
    (hs : step s a = some t) (hack : ∀ f, a ≠ .ack f) :
    Ordered k (n.observe s a).answers (n.observe s a).stream t := by
  obtain ⟨h1, ⟨m, h2, h3⟩, h4⟩ := h
  cases a with
  | ack f => exact absurd rfl (hack f)
  | spawn =>
    obtain ⟨data, -, rfl⟩ := Option.map_eq_some_iff.mp hs
    exact ⟨h1, ⟨m, h2, h3⟩, h4⟩
  | pause =>
    obtain rfl := Option.some.inj hs
    exact ⟨h1, ⟨m, h2, h3⟩, h4⟩
  | write f =>
    obtain ⟨-, rfl⟩ := guarded_eq_some.mp hs
    refine ⟨h1, ⟨m + 1, congrArg (· + 1) h2, ?_⟩, h4⟩
    show n.answers ++ (n.stream ++ [s.nextToSend]) = _
    rw [← List.append_assoc, h3, List.range'_concat, Nat.one_mul, h2]
  | readAck f =>
    obtain ⟨-, rfl⟩ := guarded_eq_some.mp hs
    by_cases htag : f.tag = tagChunkAck
    · -- the acknowledgement of the first chunk on the stream
      obtain ⟨j, hj, rfl⟩ := hok htag
      obtain ⟨rest, hrest⟩ := List.head?_eq_some_iff.mp hj
      have hobs : n.observe s (.readAck (Receiver.ackFrame j)) =
          { n with stream := rest, answers := n.answers ++ [j] } := by
        rw [Chain.observe, if_pos htag, hrest]
        rfl
      rw [hobs]
      refine ⟨h1, ⟨m, h2, ?_⟩, fun hp => ?_⟩
      · rw [List.append_assoc, List.singleton_append, ← hrest]
        exact h3
      · show (s.acks ++ [Receiver.ackFrame j]).filter isAck = _
        rw [List.filter_append, h4 hp, List.map_append]
        rfl
    · rw [Chain.observe, if_neg htag]
      refine ⟨h1, ⟨m, h2, h3⟩, fun hp => ?_⟩
      show (s.acks ++ [if f.oversized then readFailed _ else f]).filter isAck = _
      rw [List.filter_append, h4 hp, List.filter_cons_of_neg, List.filter_nil, List.append_nil]
      split
      · exact Bool.false_ne_true
      · simpa [isAck] using htag
  | hangup | readError detail =>
    obtain ⟨-, rfl⟩ := guarded_eq_some.mp hs
    exact ⟨h1, ⟨m, h2, h3⟩, fun hp => (filter_append_readFailed _ _).trans (h4 hp)⟩
  | badAck | verdict | writeError | pipelineError | closed =>
    obtain ⟨-, rfl⟩ := guarded_eq_some.mp hs
    exact ⟨h1, ⟨m, h2, h3⟩, fun hp => absurd rfl hp⟩
  | proceed | finish =>
    obtain ⟨hp, rfl⟩ := guarded_eq_some.mp hs
    exact ⟨h1, ⟨m, h2, h3⟩, fun _ => h4 (by rw [hp]; simp)⟩
  | take | flushed =>
    obtain ⟨⟨hp, -⟩, rfl⟩ := guarded_eq_some.mp hs
    exact ⟨h1, ⟨m, h2, h3⟩, fun _ => h4 (by rw [hp]; simp)⟩
  | _ =>
    obtain ⟨-, rfl⟩ := guarded_eq_some.mp hs
    exact ⟨h1, ⟨m, h2, h3⟩, h4⟩

/-- What is counted is the acknowledgement of the first chunk. -/
theorem Ordered.ack {f : Frame C} (h : Ordered k n.answers n.stream s)
    (hs : Sender.step s (.ack f) = some t) : k < s.nextToSend ∧ n.answers.head? = some k ∧
      Ordered (k + 1) (n.observe s (.ack f)).answers (n.observe s (.ack f)).stream t := by
  obtain ⟨⟨hp, hhead, htag⟩, rfl⟩ := guarded_eq_some.mp hs
  obtain ⟨h1, ⟨m, h2, h3⟩, h4⟩ := h
  obtain ⟨rest, hrest⟩ := List.head?_eq_some_iff.mp hhead
  have hqueue := h4 (by rw [hp]; simp)
  rw [hrest, List.filter_cons_of_pos (by simpa [isAck] using htag)] at hqueue
  cases hans : n.answers with
  | nil =>
    rw [hans] at hqueue
    cases hqueue
  | cons j answers =>
    rw [hans] at hqueue h3
    cases m with
    | zero => cases h3
    | succ m =>
      rw [List.range'_succ, List.cons_append] at h3
      obtain ⟨rfl, hway⟩ := List.cons.inj h3
      have hsend : s.nextToSend = j + 1 + m := by omega
      refine ⟨by omega, rfl, congrArg (· + 1) h1, ⟨m, hsend, ?_⟩, fun _ => ?_⟩
      · show n.answers.tail ++ n.stream = _
        rw [hans]
        exact hway
      · show s.acks.tail.filter isAck = n.answers.tail.map Receiver.ackFrame
        rw [hrest, hans]
        exact (List.cons.inj hqueue).2

end Sender

namespace Upload

variable {u : Upload} {bytesOf : C.Digest → Bytes} {k : Nat} {n n' : Chain C} {a : Chain.Act C}

/-- A call that runs while `k` chunks have been acknowledged over all calls. -/
structure Attempt (u : Upload) (k : Nat) (n : Chain C) (s : Sender.State C) : Prop where
  job : ∃ key sessionId noncePrefix level offset,
    s.job = u.job key sessionId noncePrefix level offset ∧ offset ≤ u.done k
  streamed : ∃ o, Sender.Streamed s.job o s
  bytes : s.bytesSent = u.done k
  ordered : s.job.metadata.resumeOffset < u.source.length →
    Sender.Ordered k n.answers n.stream s

/-- The first `k` chunks have been acknowledged, and the record says so. -/
structure Kept (u : Upload) (k : Nat) (n : Chain C) : Prop where
  acked : n.acked = Finset.range k
  row : ∃ r, n.db.transfers.find u.id = some r ∧
    (r.status ≠ .completed → r.bytesTransferred = u.done k) ∧
      ∀ s, n.attempt = some s → s.pc ≠ .returned → r.status ≠ .completed
  attempt : ∀ s, n.attempt = some s → u.Attempt k n s

theorem Kept.exact (h : u.Kept k n) (hfits : u.Fits) : u.Exact n := by
  intro r hr hstatus
  obtain ⟨r', hr', hbytes, -⟩ := h.row
  obtain rfl := Option.some.inj (hr.symm.trans hr')
  rw [hbytes hstatus, h.acked, hfits.sum_range]
  exact ⟨rfl, Int.ofNat_le.mpr (Nat.min_le_right _ _)⟩

theorem Kept.start {db db' : Database} {now fileSize : Int}
    (hnew : db.createTransfer u.id now u.peer u.path fileSize = some db') :
    u.Kept 0 (Chain.start C db') where
  acked := rfl
  row := by
    obtain ⟨t, ht, rfl⟩ := Option.map_eq_some_iff.mp hnew
    refine ⟨_, Table.find_insert_self ht, fun _ => ?_, fun s hs => by cases hs⟩
    rw [done, Nat.zero_mul, Nat.zero_min]
    rfl
  attempt s hs := by cases hs

theorem find_updateProgress {db : Database} {id : Text} {now bytes : Int} {r : TransferRecord}
    (hr : db.transfers.find id = some r) :
    (db.apply (.updateProgress id now bytes)).transfers.find id =
      some { r with bytesTransferred := bytes, status := .inProgress, updatedAt := now } := by
  show (db.updateProgress id now bytes).transfers.find id = _
  simp only [Database.updateProgress, Database.updateTransfer, Table.find_update_self, hr,
    Option.map_some]

/-- A transfer that fails keeps its bytes. -/
theorem find_failed {db : Database} {id : Text} {now : Int} {r : TransferRecord}
    (hr : db.transfers.find id = some r) : (db.apply (.failTransfer id now)).transfers.find id =
      some { r with status := .failed, updatedAt := now } := by
  show (db.failTransfer id now).transfers.find id = _
  simp only [Database.failTransfer, Database.updateTransfer, Table.find_update_self, hr,
    Option.map_some]

/-- A call goes on after the chunks that are done. -/
theorem Kept.begin (h : u.Kept k n) (hfits : u.Fits) {key : C.Key} {sessionId : Text}
    {noncePrefix : Bytes} {level : Int}
    (hs : u.step bytesOf n (.begin key sessionId noncePrefix level) = some n') : u.Kept k n' := by
  obtain ⟨r, hr, hg⟩ := Option.bind_eq_some_iff.mp hs
  obtain ⟨⟨-, hres⟩, rfl⟩ := guarded_eq_some.mp hg
  obtain ⟨r', hr', hbytes, -⟩ := h.row
  obtain rfl := Option.some.inj (hr.symm.trans hr')
  have hopen : r.status ≠ .completed := by
    intro hc
    simp [resumable, hc] at hres
  have hoff : r.bytesTransferred.toNat = u.done k := by rw [hbytes hopen, Int.toNat_natCast]
  refine ⟨h.acked, ⟨r, hr, hbytes, fun _ _ _ => hopen⟩, fun s hs' => ?_⟩
  obtain rfl := Option.some.inj hs'
  rw [hoff]
  refine ⟨⟨_, _, _, _, _, rfl, Nat.le_refl _⟩, ⟨[], .start _⟩, rfl, fun hlt => ?_⟩
  have hstart := Sender.Ordered.start (u.job key sessionId noncePrefix level (u.done k))
  rwa [hfits.startChunk_job hlt] at hstart

theorem observe_acked {s : Sender.State C} {b : Sender.Act C} (hb : ∀ f, b ≠ .ack f) :
    (n.observe s b).acked = n.acked := by
  cases b with
  | ack f => exact absurd rfl (hb f)
  | readAck f =>
    unfold Chain.observe
    dsimp only
    split <;> rfl
  | _ => rfl

/-- A step of a call that is not an acknowledgement leaves what has been done. -/
theorem Attempt.step {s t : Sender.State C} {b : Sender.Act C} {now : Int} (h : u.Attempt k n s)
    (hok : n.honest (.inner b now)) (hs : Sender.step s b = some t) (hb : ∀ f, b ≠ .ack f)
    {db : Database} : u.Attempt k { n.observe s b with db := db, attempt := some t } t := by
  have hjob := Sender.step_job hs
  obtain ⟨o, hstream⟩ := h.streamed
  refine ⟨by rw [hjob]; exact h.job, ⟨_, by rw [hjob]; exact hstream.step hs⟩, ?_, fun hlt => ?_⟩
  · rcases Sender.step_counts hs with ⟨-, hbytes, -⟩ | ⟨⟨f, rfl⟩, -⟩
    · exact hbytes.trans h.bytes
    · exact absurd rfl (hb f)
  · rw [hjob] at hlt
    exact (h.ordered hlt).step hok hs hb

/-- An acknowledgement that is counted adds its chunk. -/
theorem Attempt.ack {s t : Sender.State C} {f : Frame C} (h : u.Attempt k n s) (hfits : u.Fits)
    (hs : Sender.step s (.ack f) = some t)
    (hbelow : s.job.metadata.resumeOffset < s.job.metadata.fileSize) {db : Database} :
    s.bytesSent + s.lenToInc = u.done (k + 1) ∧ n.answers.head? = some k ∧
      u.Attempt (k + 1) { n.observe s (.ack f) with db := db, attempt := some t } t := by
  have hjob := Sender.step_job hs
  obtain ⟨o, hstream⟩ := h.streamed
  obtain ⟨key, sessionId, noncePrefix, level, offset, hs', hoff⟩ := h.job
  have hlt : s.job.metadata.resumeOffset < u.source.length := by
    rw [hs'] at hbelow ⊢
    exact hbelow
  have hord := h.ordered hlt
  obtain ⟨hsend, hhead, hord'⟩ := hord.ack hs
  have htotal : s.nextToSend ≤ u.chunker.totalChunks := by
    have hlast := hstream.last
    rw [hs'] at hlast
    exact hlast
  have hinc : s.bytesSent + s.lenToInc = u.done (k + 1) := by
    have hnext := hord.nextToAck
    have := hfits.lenToInc (Nat.zero_lt_of_lt hlt) hs' (by rw [hnext]; omega)
    rwa [hnext, ← h.bytes] at this
  refine ⟨hinc, hhead, ⟨?_, ⟨_, by rw [hjob]; exact hstream.step hs⟩, ?_, fun _ => hord'⟩⟩
  · rw [hjob]
    refine ⟨key, sessionId, noncePrefix, level, offset, hs', hoff.trans ?_⟩
    rw [← hinc, ← h.bytes]
    exact Nat.le_add_right _ _
  · rcases Sender.step_counts hs with ⟨-, hsame, -⟩ | ⟨-, -, hbytes, -⟩
    · obtain ⟨-, rfl⟩ := guarded_eq_some.mp hs
      exact hinc
    · exact hbytes.trans hinc

theorem Kept.inner (h : u.Kept k n) (hfits : u.Fits) (hfile : u.source.length < 2 ^ 63)
    {b : Sender.Act C} {now : Int} (hok : n.ordinary (.inner b now))
    (hs : u.step bytesOf n (.inner b now) = some n') : ∃ k', u.Kept k' n' := by
  obtain ⟨s, hatt, hmap⟩ := Option.bind_eq_some_iff.mp hs
  obtain ⟨t, hstep, rfl⟩ := Option.map_eq_some_iff.mp hmap
  obtain ⟨r, hr, hbytes, hrun⟩ := h.row
  have hcall := h.attempt s hatt
  rcases @Sender.storeOp_cases C bytesOf u.id now s t b hstep with
    ⟨hnone, hret, hb⟩ | ⟨f, rfl, hpc, hprog⟩ | ⟨hpc, hret, hb, hend⟩
  · refine ⟨k, (observe_acked hb).trans h.acked, ⟨r, ?_, hbytes, fun t' ht' hp => ?_⟩,
      fun t' ht' => ?_⟩
    · rw [hnone]
      exact hr
    · obtain rfl := Option.some.inj ht'
      exact hrun s hatt fun hp' => hp (hret hp')
    · obtain rfl := Option.some.inj ht'
      exact hcall.step hok.1 hstep hb
  · obtain ⟨hinc, hhead, hnext⟩ := hcall.ack hfits hstep (hok.2 s hatt)
    have hsmall : u.done (k + 1) < 2 ^ 63 := Nat.lt_of_le_of_lt (Nat.min_le_right _ _) hfile
    rw [hinc, asI64_of_lt hsmall] at hprog
    refine ⟨k + 1, ?_, ⟨{ r with
      bytesTransferred := u.done (k + 1), status := .inProgress, updatedAt := now },
      ?_, fun _ => rfl, fun _ _ _ => ?_⟩, fun t' ht' => ?_⟩
    · show n.acked ∪ n.answers.head?.toFinset = _
      rw [hhead, h.acked, Option.toFinset_some, Finset.range_add_one, Finset.union_comm]
      rfl
    · rw [hprog]
      exact find_updateProgress hr
    · simp
    · obtain rfl := Option.some.inj ht'
      exact hnext
  · have hopen := hrun s hatt hpc
    have hkept : ∀ t', some t = some t' → t'.pc ≠ .returned → False := by
      intro t' ht' hp
      obtain rfl := Option.some.inj ht'
      exact hp hret
    refine ⟨k, (observe_acked hb).trans h.acked, ?_, fun t' ht' => ?_⟩
    · rcases hend with hfail | ⟨checksum, hcomplete⟩
      · refine ⟨{ r with status := .failed, updatedAt := now }, ?_, fun _ => hbytes hopen,
          fun t' ht' hp => (hkept t' ht' hp).elim⟩
        rw [hfail]
        exact find_failed hr
      · obtain ⟨r', hr', -, hst, -⟩ := Database.find_completeTransfer now checksum hr
        refine ⟨r', ?_, fun hne => absurd hst hne, fun t' ht' hp => (hkept t' ht' hp).elim⟩
        rw [hcomplete]
        exact hr'
    · obtain rfl := Option.some.inj ht'
      exact hcall.step hok.1 hstep hb

theorem Kept.step (h : u.Kept k n) (hfits : u.Fits) (hfile : u.source.length < 2 ^ 63)
    (hok : n.ordinary a) (hs : u.step bytesOf n a = some n') : ∃ k', u.Kept k' n' := by
  cases a with
  | begin key sessionId noncePrefix level => exact ⟨k, h.begin hfits hs⟩
  | inner b now => exact h.inner hfits hfile hok hs
  | stop =>
    obtain ⟨-, rfl⟩ := guarded_eq_some.mp hs
    obtain ⟨r, hr, hbytes, -⟩ := h.row
    exact ⟨k, h.acked, ⟨r, hr, hbytes, fun s hs' => by cases hs'⟩, fun s hs' => by cases hs'⟩

/-- An acknowledgement in a call that started at the end of the file is counted twice. -/
theorem Kept.not_exact (h : u.Kept k n) (hfits : u.Fits) (hsize : u.chunkSize < 2 ^ 64)
    {f : Frame C} {now : Int} {s : Sender.State C} (hatt : n.attempt = some s)
    (hend : s.job.metadata.fileSize ≤ s.job.metadata.resumeOffset)
    (hs : u.step bytesOf n (.inner (.ack f) now) = some n') : ¬ u.Exact n' := by
  intro hexact
  obtain ⟨s', hatt', hmap⟩ := Option.bind_eq_some_iff.mp hs
  obtain rfl := Option.some.inj (hatt.symm.trans hatt')
  obtain ⟨t, hstep, rfl⟩ := Option.map_eq_some_iff.mp hmap
  obtain ⟨r, hr, -⟩ := h.row
  have hcall := h.attempt s hatt
  obtain ⟨key, sessionId, noncePrefix, level, offset, hjob, hoff⟩ := hcall.job
  have hall : u.done k = u.source.length := by
    have hge : u.source.length ≤ offset := by
      rw [hjob] at hend
      exact hend
    exact Nat.le_antisymm (Nat.min_le_right _ _) (hge.trans hoff)
  -- the record has more than the file, up to an overflow
  obtain ⟨hsum, hle⟩ := hexact _ (find_updateProgress hr) (by simp)
  dsimp only at hsum hle
  rw [hcall.bytes, hall] at hsum hle
  have hless : u.source.length ≤
      ∑ j ∈ n.acked ∪ n.answers.head?.toFinset, u.chunker.chunkLength j := by
    rw [← hall, ← hfits.sum_range, ← h.acked]
    exact Finset.sum_le_sum_of_subset Finset.subset_union_left
  have hpos : 0 < s.lenToInc := Sender.lenToInc_pos (by rw [hjob]; exact chunkSize_pos)
  have hbound : s.lenToInc < 2 ^ 64 := by
    have hmin : minChunkSize < 2 ^ 64 := by decide
    have hchunk : s.job.metadata.chunkSize = max u.chunkSize minChunkSize := by
      rw [hjob]
      rfl
    have := Nat.mod_lt s.job.metadata.fileSize
      (show 0 < s.job.metadata.chunkSize by rw [hchunk]; exact chunkSize_pos)
    unfold Sender.State.lenToInc
    dsimp only
    split_ifs <;> omega
  refine asI64_add_ne hpos hbound (Int.le_antisymm hle ?_)
  rw [hsum]
  exact Int.ofNat_le.mpr hless

theorem exists_kept (hfits : u.Fits) (hfile : u.source.length < 2 ^ 63)
    {db db' : Database} {now fileSize : Int}
    (hnew : db.createTransfer u.id now u.peer u.path fileSize = some db')
    (h : (u.machine bytesOf).Reach Chain.ordinary (Chain.start C db') n) : ∃ k, u.Kept k n := by
  refine h.invariant (I := fun n => ∃ k, u.Kept k n) ⟨0, .start hnew⟩ ?_
  rintro n a n' ⟨k, hkept⟩ hok hs
  exact hkept.step hfits hfile hok hs

/-- **Accounting.** As long as acknowledgements are counted only by calls whose offset was below
the end of the file, the record has the bytes of the acknowledged chunks after any pauses and
crashes; the first one that another call counts makes it wrong. -/
theorem exact_of_reach (hfits : u.Fits) (hfile : u.source.length < 2 ^ 63)
    (hsize : u.chunkSize < 2 ^ 64) {db db' : Database} {now fileSize : Int}
    (hnew : db.createTransfer u.id now u.peer u.path fileSize = some db')
    (h : (u.machine bytesOf).Reach Chain.ordinary (Chain.start C db') n) :
    u.Exact n ∧ ∀ a n', n.honest a → (u.machine bytesOf).step n a = some n' →
      (u.Exact n' ↔ n.belowEnd a) := by
  obtain ⟨k, hkept⟩ := exists_kept hfits hfile hnew h
  refine ⟨hkept.exact hfits, fun a n' hhonest hs => ?_⟩
  by_cases hbelow : n.belowEnd a
  · obtain ⟨k', hkept'⟩ := hkept.step hfits hfile ⟨hhonest, hbelow⟩ hs
    exact ⟨fun _ => hbelow, fun _ => hkept'.exact hfits⟩
  · refine ⟨fun hexact => ?_, fun hb => absurd hb hbelow⟩
    cases a with
    | inner b now =>
      cases b with
      | ack f =>
        refine fun s hatt => ?_
        by_contra hend
        exact hkept.not_exact hfits hsize hatt (Nat.not_lt.mp hend) hs hexact
      | _ => trivial
    | _ => trivial

section OneMore

variable (bytesOf) {s t : Sender.State C}

theorem step_inner {b : Sender.Act C} (hatt : n.attempt = some s) (hs : Sender.step s b = some t) :
    (u.machine bytesOf).step n (.inner b 0) = some { n.observe s b with
      db := (Sender.storeOp bytesOf u.id 0 s b).elim n.db n.db.apply, attempt := some t } := by
  show n.attempt.bind _ = _
  rw [hatt, Option.bind_some, hs, Option.map_some]

/-- A call that brings chunks to the stream leaves the store as it is. -/
theorem reach_outgoing {i o : List (Frame C)} (hatt : n.attempt = some s)
    (h : (sender C).Trace (fun _ a => a.outgoing = true) s i o t) :
    ∃ n', (u.machine bytesOf).Reach Chain.ordinary n n' ∧ n'.attempt = some t ∧
      n'.db = n.db ∧ n'.answers = n.answers ∧ n'.acked = n.acked := by
  refine h.invariant (I := fun _ _ t => ∃ n', (u.machine bytesOf).Reach Chain.ordinary n n' ∧
    n'.attempt = some t ∧ n'.db = n.db ∧ n'.answers = n.answers ∧ n'.acked = n.acked)
    ⟨n, .refl, hatt, rfl, rfl, rfl⟩ ?_
  rintro i o v a w ⟨n', hreach, hatt', hdb, hanswers, hacked⟩ hout hs
  refine ⟨_, hreach.tail ?_ (step_inner bytesOf hatt' hs), rfl, ?_, ?_, ?_⟩
  · cases a <;> first | exact ⟨trivial, trivial⟩ | exact absurd hout Bool.false_ne_true
  · cases a <;> first | exact hdb | exact absurd hout Bool.false_ne_true
  · cases a <;> first | exact hanswers | exact absurd hout Bool.false_ne_true
  · cases a <;> first | exact hacked | exact absurd hout Bool.false_ne_true

/-- No call runs, and the record may be gone on with. -/
def Open (u : Upload) (n : Chain C) : Prop :=
  n.attempt = none ∧ ∃ r, n.db.transfers.find u.id = some r ∧ resumable u.peer u.path r = true

theorem Kept.reach {k' : Nat} (h : u.Kept k n) (hfits : u.Fits) (hfile : u.source.length < 2 ^ 63)
    (hreach : (u.machine bytesOf).Reach Chain.ordinary n n') (hacked : n'.acked = Finset.range k') :
    u.Kept k' n' := by
  have hkept : ∃ k, u.Kept k n' := by
    refine hreach.invariant (I := fun n => ∃ k, u.Kept k n) ⟨k, h⟩ ?_
    rintro n a n' ⟨k, hkept⟩ hok hs
    exact hkept.step hfits hfile hok hs
  obtain ⟨j, hj⟩ := hkept
  have hrange : Finset.range j = Finset.range k' := by rw [← hj.acked, hacked]
  have hcard := congrArg Finset.card hrange
  rw [Finset.card_range, Finset.card_range] at hcard
  rwa [hcard] at hj

/-- A call that begins before the end puts the next chunk on the stream. -/
theorem Kept.exists_sent (h : u.Kept k n) (hfits : u.Fits) (hfile : u.source.length < 2 ^ 63)
    (hopen : u.Open n) (hk : u.done k < u.source.length) (key : C.Key) :
    ∃ n', (u.machine bytesOf).Reach Chain.ordinary n n' ∧
      n'.attempt = some (Sender.between (u.job key [] [] 0 (u.done k)) (k + 1) 1) ∧
      n'.db = n.db ∧ n'.stream = [k] ∧ n'.answers = [] ∧ n'.acked = n.acked := by
  obtain ⟨hidle, r, hr, hres⟩ := hopen
  have hstatus : r.status ≠ .completed := by
    intro hc
    simp [resumable, hc] at hres
  have hoff : r.bytesTransferred.toNat = u.done k := by
    obtain ⟨r', hr', hbytes, -⟩ := h.row
    obtain rfl := Option.some.inj (hr.symm.trans hr')
    rw [hbytes hstatus, Int.toNat_natCast]
  have hstart : startChunk (u.job key [] [] 0 (u.done k)).metadata = k := hfits.startChunk_job hk
  have htotal : k < (u.job key [] [] 0 (u.done k)).metadata.totalChunks := (hfits.done_eq hk).2
  have hbegin : (u.machine bytesOf).step n (.begin key [] [] 0) = some { n with
      attempt := some (Sender.between (u.job key [] [] 0 (u.done k)) k 0)
      stream := [], answers := [] } := by
    show (n.db.transfers.find u.id).bind _ = _
    rw [hr, Option.bind_some, hoff]
    refine guarded_eq_some.mpr ⟨⟨by rw [hidle]; rfl, hres⟩, ?_⟩
    unfold Sender.between Sender.State.start
    rw [hstart]
  obtain ⟨n', hsend, hatt, hdb, hanswers, hacked⟩ := reach_outgoing bytesOf
    (n := { n with attempt := some (Sender.between (u.job key [] [] 0 (u.done k)) k 0)
                   stream := [], answers := [] }) rfl
    (Sender.put_one hstart.le (by rw [hstart, Nat.sub_self]; decide) (by decide) htotal)
  have hreach := Machine.Reach.head ⟨trivial, trivial⟩ hbegin hsend
  refine ⟨n', hreach, hatt, hdb, ?_, hanswers, hacked⟩
  -- what is on the way is known from the chunks that have been acknowledged
  have hkept : u.Kept k n' := h.reach bytesOf hfits hfile hreach (hacked.trans h.acked)
  obtain ⟨-, ⟨m, hm, hway⟩, -⟩ := (hkept.attempt _ hatt).ordered hk
  have hone : m = 1 := Nat.add_left_cancel (hm.symm.trans (show _ = k + 1 from rfl))
  rw [hanswers, hone] at hway
  exact hway

/-- A call that begins before the end may count one acknowledgement and end. -/
theorem Kept.exists_count (h : u.Kept k n) (hfits : u.Fits) (hfile : u.source.length < 2 ^ 63)
    (hopen : u.Open n) (hk : u.done k < u.source.length) (key : C.Key) :
    ∃ n', (u.machine bytesOf).Reach Chain.ordinary n n' ∧ u.Kept (k + 1) n' ∧ u.Open n' := by
  obtain ⟨n₁, hsent, hatt, hdb, hstream, hanswers, hacked⟩ :=
    h.exists_sent bytesOf hfits hfile hopen hk key
  obtain ⟨-, r, hr, hres⟩ := hopen
  generalize hx : u.job key [] [] 0 (u.done k) = x at hatt
  have hbelow : x.metadata.resumeOffset < x.metadata.fileSize := by
    rw [← hx]
    exact hk
  obtain ⟨db, attempt, stream, answers, acked⟩ := n₁
  dsimp only at hatt hdb hstream hanswers hacked
  subst hatt hdb hstream hanswers hacked
  have hread : Sender.step (Sender.between x (k + 1) 1) (.readAck (Receiver.ackFrame k)) =
    some { Sender.between x (k + 1) 1 with acks := [Receiver.ackFrame k] } := rfl
  obtain ⟨t, hack⟩ : ∃ t, Sender.step { Sender.between x (k + 1) 1 with
      acks := [Receiver.ackFrame k] } (.ack (Receiver.ackFrame k)) = some t :=
    ⟨_, guarded_eq_some.mpr ⟨⟨rfl, rfl, rfl⟩, rfl⟩⟩
  have hanswered := hsent.tail (a := Chain.Act.inner (.readAck (Receiver.ackFrame k)) 0)
    ⟨fun _ => ⟨k, rfl, rfl⟩, trivial⟩ (step_inner bytesOf rfl hread)
  have hcounted := hanswered.tail (a := Chain.Act.inner (.ack (Receiver.ackFrame k)) 0)
    ⟨trivial, fun s hs => Option.some.inj hs ▸ hbelow⟩ (step_inner bytesOf rfl hack)
  have hreach := hcounted.tail (a := Chain.Act.stop) ⟨trivial, trivial⟩ rfl
  refine ⟨_, hreach, h.reach bytesOf hfits hfile hreach ?_, rfl, _, find_updateProgress hr, ?_⟩
  · show n.acked ∪ {k} = _
    rw [h.acked, Finset.range_add_one, Finset.union_comm]
    rfl
  · simp only [resumable, Bool.and_eq_true] at hres ⊢
    exact ⟨hres.1, rfl⟩

end OneMore

end Upload

/-- The store after `create_transfer` in a new one. -/
def Upload.created (u : Upload) : Database :=
  (Database.empty.createTransfer u.id 0 u.peer u.path (asI64 u.source.length)).getD .empty

theorem Upload.createTransfer_created (u : Upload) :
    Database.empty.createTransfer u.id 0 u.peer u.path (asI64 u.source.length) = some u.created :=
  rfl

/-- A file of a chunk and one more byte. -/
def twoUpload : Upload :=
  ⟨['a'], ['p'], ['f'], ['f'], List.replicate (minChunkSize + 1) 0, 0, false⟩

theorem length_twoUpload : twoUpload.source.length = minChunkSize + 1 := List.length_replicate

/-- Each of its two chunks is acknowledged in a call of its own. -/
theorem twoCalls_exact_of_reach :
    ∃ n₁ n₂, (twoUpload.machine fun d => d).Reach Chain.ordinary
        (Chain.start .plain twoUpload.created) n₁ ∧ n₁.attempt = none ∧ n₁.acked = {0} ∧
      (twoUpload.machine fun d => d).Reach Chain.ordinary n₁ n₂ ∧ n₂.acked = {0, 1} ∧
      twoUpload.Exact n₂ ∧ ∀ a n', n₂.honest a →
        (twoUpload.machine fun d => d).step n₂ a = some n' →
          (twoUpload.Exact n' ↔ n₂.belowEnd a) := by
  have hmin : minChunkSize + 1 ≤ maxChunkSize := by decide
  have hmax : maxChunkSize < 2 ^ 63 := by decide
  have hfits : twoUpload.Fits := .inl (Nat.zero_le _)
  have hfile : twoUpload.source.length < 2 ^ 63 := by
    rw [length_twoUpload]
    omega
  have hkept : twoUpload.Kept 0 (Chain.start .plain twoUpload.created) :=
    .start twoUpload.createTransfer_created
  have hopen : twoUpload.Open (Chain.start .plain twoUpload.created) := ⟨rfl, _, rfl, rfl⟩
  have hbefore : twoUpload.done 0 < twoUpload.source.length := by
    rw [Upload.done, Nat.zero_mul, Nat.zero_min, length_twoUpload]
    exact Nat.succ_pos _
  have hbetween : twoUpload.done 1 < twoUpload.source.length := by
    have hsize : max twoUpload.chunkSize minChunkSize = minChunkSize := Nat.zero_max _
    rw [Upload.done, hsize, Nat.one_mul, length_twoUpload]
    omega
  obtain ⟨n₁, hfirst, hkept₁, hopen₁⟩ :=
    hkept.exists_count (fun d => d) hfits hfile hopen hbefore Primitives.plainSecret
  obtain ⟨n₂, hsecond, hkept₂, -⟩ :=
    hkept₁.exists_count (fun d => d) hfits hfile hopen₁ hbetween Primitives.plainSecret
  refine ⟨n₁, n₂, hfirst, hopen₁.1, hkept₁.acked, hsecond, hkept₂.acked.trans (by decide), ?_⟩
  exact Upload.exact_of_reach hfits hfile (by decide) twoUpload.createTransfer_created
    (hfirst.trans hsecond)

/-- An empty file. -/
def emptyUpload : Upload := ⟨['a'], ['p'], ['f'], ['f'], [], 0, false⟩

/-- The frame of its only chunk. -/
def emptyFrame : Frame .plain :=
  Frame.ofChunk 0 false (List.replicate tagLen 0)

/-- The call up to the acknowledgement. -/
def emptyCall : List (Chain.Act .plain) :=
  [.begin Primitives.plainSecret [] [0, 0, 0, 0] 0, .inner .prepare 0, .inner .spawn 0,
    .inner (.encrypted (0, [])) 0, .inner (.take (0, emptyFrame)) 0, .inner (.write emptyFrame) 0,
    .inner .flushed 0, .inner .proceed 0]

/-- The acknowledgement of its only chunk is counted as a whole chunk. -/
theorem empty_not_exact :
    ¬ ∀ n, (emptyUpload.machine fun d => d).Reach Chain.honest
      (Chain.start .plain emptyUpload.created) n → emptyUpload.Exact n := by
  intro h
  obtain ⟨n, hcall, hstream, n', hread, ⟨s, hatt, hsize⟩, n'', hack⟩ :
      ∃ n, (emptyUpload.machine fun d => d).run (Chain.start .plain emptyUpload.created) emptyCall =
          some n ∧ n.stream = [0] ∧
        ∃ n', (emptyUpload.machine fun d => d).step n (.inner (.readAck (Receiver.ackFrame 0)) 0) =
          some n' ∧ (∃ s, n'.attempt = some s ∧ s.job.metadata.fileSize = 0) ∧
        ∃ n'', (emptyUpload.machine fun d => d).step n' (.inner (.ack (Receiver.ackFrame 0)) 0) =
          some n'' :=
    ⟨_, rfl, rfl, _, rfl, ⟨_, rfl, rfl⟩, _, rfl⟩
  have hnew : Database.empty.createTransfer ['a'] 0 ['p'] ['f'] (asI64 0) =
    some emptyUpload.created := rfl
  have hreach : (emptyUpload.machine fun d => d).Reach Chain.ordinary
      (Chain.start .plain emptyUpload.created) n :=
    Machine.reach_of_run (by simp [emptyCall, Chain.ordinary, Chain.honest, Chain.belowEnd]) hcall
  have hread' : n.honest (.inner (.readAck (Receiver.ackFrame 0)) 0) :=
    fun _ => ⟨0, by rw [hstream]; rfl, rfl⟩
  have hanswered := hreach.tail ⟨hread', trivial⟩ hread
  obtain ⟨k, hkept⟩ := Upload.exists_kept (.inl (by decide)) (by decide) hnew hanswered
  refine hkept.not_exact (.inl (by decide)) (by decide) hatt ?_ hack (h n'' ?_)
  · rw [hsize]
    exact Nat.zero_le _
  · have hcount : n'.honest (.inner (.ack (Receiver.ackFrame 0)) 0) := trivial
    exact (hanswered.mono fun _ _ hok => hok.1).tail hcount hack

end P2PTransfer.Cli
