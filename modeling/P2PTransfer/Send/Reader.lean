import P2PTransfer.Alpn.Sender
import P2PTransfer.Lan.Sender

/-!
# The tasks that read the file

`send_file_direct_tcp` and `send_file_to_peer` each have a blocking task that hashes what the
receiver has already, seeks, and hashes and hands on the rest. The two tasks are one machine with
different blocks. The loops of both functions contain it step by step.

## Main definitions

- `ReaderTask`, `ReaderTask.machine` — the task for a block size and what it makes of a block
- `HashReader.machine` — `blake3_hash_reader`
- `Lan.Sender.State.task`, `Alpn.Sender.State.task` — the task within a sender
-/

namespace P2PTransfer

open Transition

variable {C : Primitives} {μ : Type*}

/-- A task that reads blocks of a size from an offset on. `item` is what it puts on its channel
for a block with its number. -/
structure ReaderTask (μ : Type*) where
  size : Nat
  size_pos : 0 < size
  startOffset : Nat
  first : Nat
  item : Nat → Bytes → μ

namespace ReaderTask

/-- In `send` the task holds an item that the channel has not taken. -/
inductive Pc where
  | hashPrefix
  | read
  | send
  | done
  | failed (detail : Text)
deriving DecidableEq

structure State (μ : Type*) where
  pc : Pc := .hashPrefix
  processed : Nat := 0
  position : Nat
  index : Nat
  hashed : Bytes := []
  held : Option μ := none
  out : List μ := []

inductive Act where
  | hashPrefix (data : Bytes)
  | seek
  | read (data : Bytes)
  | endOfFile
  | push
  | dropped
  | readError (detail : Text)

/-- Nothing fails, and the network side stays alive. -/
def Act.alive : Act → Bool
  | .dropped | .readError _ => false
  | _ => true

variable (T : ReaderTask μ)

def start : State μ where
  position := T.startOffset
  index := T.first

/-- One step. A read that returns nothing ends either loop. -/
def step (disk : Disk) (s : State μ) : Act → Option (State μ)
  | .hashPrefix data => guarded (s.pc = .hashPrefix ∧ data ≠ [] ∧ disk s.processed data ∧
        s.processed + data.length ≤ T.startOffset ∧ data.length ≤ T.size)
      { s with processed := s.processed + data.length, hashed := s.hashed ++ data }
  | .seek => guarded (s.pc = .hashPrefix ∧ (T.startOffset ≤ s.processed ∨ disk s.processed []))
      { s with pc := .read }
  | .read data => guarded (s.pc = .read ∧ data ≠ [] ∧ disk s.position data ∧ data.length ≤ T.size)
      { s with pc := .send, held := some (T.item s.index data),
               position := s.position + data.length, hashed := s.hashed ++ data }
  | .endOfFile => guarded (s.pc = .read ∧ disk s.position []) { s with pc := .done }
  | .push => guarded (s.pc = .send)
      { s with pc := .read, held := none, out := s.out ++ s.held.toList, index := s.index + 1 }
  | .dropped => guarded (s.pc = .send) { s with pc := .done }
  | .readError detail => guarded (s.pc = .hashPrefix ∨ s.pc = .read) { s with pc := .failed detail }

def machine (disk : Disk) : Machine (State μ) Act where
  step := T.step disk

/-- What the task returns: its digest as hexadecimal text. -/
def State.returns (C : Primitives) (s : State μ) : Option (Payload C) :=
  if s.pc = .done then some (.hex (C.blake3 s.hashed)) else none

/-- What consecutive blocks become. -/
def items (T : ReaderTask μ) : Nat → List Bytes → List μ
  | _, [] => []
  | k, d :: ds => T.item k d :: items T (k + 1) ds

variable {T}

theorem items_concat (k : Nat) (ds : List Bytes) (d : Bytes) :
    T.items k (ds ++ [d]) = T.items k ds ++ [T.item (k + ds.length) d] := by
  induction ds generalizing k with
  | nil => rfl
  | cons e ds ih =>
    rw [List.cons_append, items, ih, items, List.length_cons, Nat.add_right_comm, Nat.add_assoc]
    rfl

/-- The first loop has hashed a beginning of the source. -/
structure HashesPrefix (T : ReaderTask μ) (source : Bytes) (s : State μ) : Prop where
  le : s.processed ≤ T.startOffset
  hashed : s.hashed = source.take s.processed
  fresh : s.position = T.startOffset ∧ s.index = T.first ∧ s.held = none ∧ s.out = []

/-- The second loop has hashed the beginning and the blocks, and these are on the channel, but
for the one it holds. -/
structure Streams (T : ReaderTask μ) (source : Bytes) (ds : List Bytes) (s : State μ) : Prop where
  hashed : s.hashed = source.take T.startOffset ++ ds.flatten
  data : source.drop T.startOffset = ds.flatten ++ source.drop s.position
  blocks : ∀ d ∈ ds, d ≠ [] ∧ d.length ≤ T.size
  out : s.out ++ s.held.toList = T.items T.first ds
  index : s.index + s.held.toList.length = T.first + ds.length
  held : s.held = none ↔ s.pc ≠ .send
  done : s.pc = .done → source.length ≤ s.position

/-- A task whose reads return parts of the source. -/
def Reads (T : ReaderTask μ) (source : Bytes) (s : State μ) : Prop :=
  (s.pc = .hashPrefix ∧ T.HashesPrefix source s) ∨
    ((s.pc = .read ∨ s.pc = .send ∨ s.pc = .done) ∧ ∃ ds, T.Streams source ds s)

theorem Reads.start (T : ReaderTask μ) (source : Bytes) : T.Reads source T.start :=
  .inl ⟨rfl, Nat.zero_le _, rfl, rfl, rfl, rfl, rfl⟩

/-- At the seek the whole prefix has been hashed, or the whole file. -/
theorem HashesPrefix.streams {source : Bytes} {s : State μ} (h : T.HashesPrefix source s)
    (hend : T.startOffset ≤ s.processed ∨ source.length ≤ s.processed) :
    T.Streams source [] { s with pc := .read } := by
  obtain ⟨hpos, hindex, hheld, hout⟩ := h.fresh
  have hle := h.le
  have htake : source.take s.processed = source.take T.startOffset := by
    rcases hend with hoff | hlen
    · rw [Nat.le_antisymm hle hoff]
    · rw [List.take_of_length_le hlen, List.take_of_length_le (hlen.trans hle)]
  constructor
  · rw [List.flatten_nil, List.append_nil, ← htake]
    exact h.hashed
  · rw [hpos]
    rfl
  · simp
  · rw [hout, hheld]
    rfl
  · rw [hindex, hheld]
    rfl
  · simp [hheld]
  · simp

theorem Reads.step {source : Bytes} {s t : State μ} {a : Act} (h : T.Reads source s)
    (ha : a.alive) (hs : T.step (Disk.ofFile source) s a = some t) : T.Reads source t := by
  cases a with
  | dropped => cases ha
  | readError detail => cases ha
  | hashPrefix data =>
    obtain ⟨⟨hp, hne, hdisk, hle, -⟩, rfl⟩ := guarded_eq_some.mp hs
    rcases h with ⟨-, h⟩ | ⟨hp', -⟩
    · refine .inl ⟨hp, hle, ?_, h.fresh⟩
      have hlen := Disk.ofFile_length hdisk hne
      have hdata := Disk.ofFile_take hdisk
      show s.hashed ++ data = source.take (s.processed + data.length)
      rw [h.hashed, List.take_add, hdata, List.take_left]
    · rw [hp] at hp'
      simp at hp'
  | seek =>
    obtain ⟨⟨hp, hend⟩, rfl⟩ := guarded_eq_some.mp hs
    rcases h with ⟨-, h⟩ | ⟨hp', -⟩
    · exact .inr ⟨.inl rfl, [], h.streams (hend.imp_right fun hd => (Disk.ofFile_iff.mp hd).2 rfl)⟩
    · rw [hp] at hp'
      simp at hp'
  | read data =>
    obtain ⟨⟨hp, hne, hdisk, hsize⟩, rfl⟩ := guarded_eq_some.mp hs
    rcases h with ⟨hp', -⟩ | ⟨-, ds, h⟩
    · rw [hp] at hp'
      cases hp'
    · have hnone : s.held = none := h.held.mpr (by rw [hp]; simp)
      have hout := h.out
      have hindex := h.index
      rw [hnone] at hout hindex
      refine .inr ⟨.inr (.inl rfl), ds ++ [data], ?_, ?_, ?_, ?_, ?_, by simp, by simp⟩
      · show s.hashed ++ data = _
        rw [h.hashed, List.flatten_concat, List.append_assoc]
      · rw [h.data, List.flatten_concat, List.append_assoc, ← Disk.ofFile_take hdisk]
      · intro d hd
        rcases List.mem_append.mp hd with hd | hd
        · exact h.blocks d hd
        · rw [List.mem_singleton.mp hd]
          exact ⟨hne, hsize⟩
      · show s.out ++ [T.item s.index data] = _
        rw [items_concat, ← hout, ← hindex, Option.toList_none, List.append_nil]
        rfl
      · show s.index + 1 = _
        rw [List.length_append, ← Nat.add_assoc, ← hindex]
        rfl
  | endOfFile =>
    obtain ⟨⟨hp, hdisk⟩, rfl⟩ := guarded_eq_some.mp hs
    rcases h with ⟨hp', -⟩ | ⟨-, ds, h⟩
    · rw [hp] at hp'
      cases hp'
    · have hnone : s.held = none := h.held.mpr (by rw [hp]; simp)
      exact .inr ⟨.inr (.inr rfl), ds, h.hashed, h.data, h.blocks, h.out, h.index,
        by simp [hnone], fun _ => (Disk.ofFile_iff.mp hdisk).2 rfl⟩
  | push =>
    obtain ⟨hp, rfl⟩ := guarded_eq_some.mp hs
    rcases h with ⟨hp', -⟩ | ⟨-, ds, h⟩
    · rw [hp] at hp'
      cases hp'
    · obtain ⟨x, hx⟩ : ∃ x, s.held = some x :=
        Option.ne_none_iff_exists'.mp fun hnone => h.held.mp hnone hp
      have hout := h.out
      have hindex := h.index
      rw [hx] at hout hindex
      refine .inr ⟨.inl rfl, ds, h.hashed, h.data, h.blocks, ?_, hindex, by simp, by simp⟩
      show (s.out ++ s.held.toList) ++ [] = _
      rw [hx, List.append_nil, hout]

/-- An upper bound on what the task has still to do. -/
def State.rank (T : ReaderTask μ) (source : Bytes) (s : State μ) : Nat :=
  match s.pc with
  | .hashPrefix => (T.startOffset - s.processed) + 3 * (source.length - T.startOffset) + 3
  | .read => 3 * (source.length - s.position) + 2
  | .send => 3 * (source.length - s.position) + 3
  | _ => 0

theorem rank_lower {source : Bytes} {s t : State μ} {a : Act} (h : T.Reads source s)
    (ha : a.alive) (hs : T.step (Disk.ofFile source) s a = some t) :
    t.rank T source < s.rank T source := by
  cases a with
  | dropped => cases ha
  | readError detail => cases ha
  | hashPrefix data =>
    obtain ⟨⟨hp, hne, -, hle, -⟩, rfl⟩ := guarded_eq_some.mp hs
    have := List.length_pos_iff.mpr hne
    simp only [State.rank, hp]
    omega
  | seek =>
    obtain ⟨⟨hp, -⟩, rfl⟩ := guarded_eq_some.mp hs
    rcases h with ⟨-, h⟩ | ⟨hp', -⟩
    · simp only [State.rank, hp, h.fresh.1]
      omega
    · rw [hp] at hp'
      simp at hp'
  | read data =>
    obtain ⟨⟨hp, hne, hdisk, -⟩, rfl⟩ := guarded_eq_some.mp hs
    have := List.length_pos_iff.mpr hne
    have := Disk.ofFile_length hdisk hne
    simp only [State.rank, hp]
    omega
  | endOfFile =>
    obtain ⟨⟨hp, -⟩, rfl⟩ := guarded_eq_some.mp hs
    simp only [State.rank, hp]
    omega
  | push =>
    obtain ⟨hp, rfl⟩ := guarded_eq_some.mp hs
    simp only [State.rank, hp]
    omega

/-- A task that cannot go on has come to its end. -/
theorem Reads.done_of_stuck {source : Bytes} {s : State μ} (h : T.Reads source s)
    (stuck : (T.machine (Disk.ofFile source)).Stuck (fun _ a => a.alive = true) s) :
    s.pc = .done := by
  have hsize := T.size_pos
  have hnone : ∀ a : Act, a.alive = true → T.step (Disk.ofFile source) s a = none :=
    fun a ha => stuck a ha
  rcases h with ⟨hp, h⟩ | ⟨hp | hp | hp, -⟩
  · have hseek := guarded_eq_none.mp (hnone .seek rfl)
    have hlt : s.processed < T.startOffset := by
      by_contra hge
      exact hseek ⟨hp, .inl (Nat.not_lt.mp hge)⟩
    rcases Disk.ofFile_answer source s.processed with ⟨b, hb⟩ | hend
    · refine absurd ?_ (guarded_eq_none.mp (hnone (.hashPrefix [b]) rfl))
      exact ⟨hp, List.cons_ne_nil _ _, hb, hlt, hsize⟩
    · exact absurd ⟨hp, .inr hend⟩ hseek
  · rcases Disk.ofFile_answer source s.position with ⟨b, hb⟩ | hend
    · refine absurd ?_ (guarded_eq_none.mp (hnone (.read [b]) rfl))
      exact ⟨hp, List.cons_ne_nil _ _, hb, hsize⟩
    · exact absurd ⟨hp, hend⟩ (guarded_eq_none.mp (hnone .endOfFile rfl))
  · exact absurd hp (guarded_eq_none.mp (hnone .push rfl))
  · exact hp

/-- What a task has at its end: the rest of the source is on the channel in blocks, and the
digest is that of the whole source. -/
def Covers (C : Primitives) (T : ReaderTask μ) (source : Bytes) (s : State μ) : Prop :=
  (∃ ds : List Bytes, ds.flatten = source.drop T.startOffset ∧
    (∀ d ∈ ds, d ≠ [] ∧ d.length ≤ T.size) ∧ s.out = T.items T.first ds) ∧
  s.returns C = some (.hex (C.blake3 source))

theorem Reads.covers {source : Bytes} {s : State μ} (h : T.Reads source s) (hp : s.pc = .done) :
    T.Covers C source s := by
  rcases h with ⟨hp', -⟩ | ⟨-, ds, h⟩
  · rw [hp] at hp'
    cases hp'
  · have hrest : source.drop s.position = [] := List.drop_eq_nil_of_le (h.done hp)
    have hdata : source.drop T.startOffset = ds.flatten := by
      rw [h.data, hrest, List.append_nil]
    have hheld : s.held = none := h.held.mpr (by rw [hp]; simp)
    have hout := h.out
    rw [hheld, Option.toList_none, List.append_nil] at hout
    refine ⟨⟨ds, hdata.symm, h.blocks, hout⟩, ?_⟩
    rw [State.returns, if_pos hp, h.hashed, ← hdata, List.take_append_drop]

theorem endsIn_covers (C : Primitives) (T : ReaderTask μ) (source : Bytes) :
    (T.machine (Disk.ofFile source)).EndsIn (fun _ a => a.alive = true) (T.Covers C source)
      T.start :=
  Machine.endsIn_of_rank (T.Reads source) (State.rank T source)
    (fun _ _ _ h ha hs => h.step ha hs) (fun _ _ _ h ha hs => rank_lower h ha hs)
    (fun _ h stuck => h.covers (h.done_of_stuck stuck)) (.start T source)

/-- From the end of the file on there is nothing to put on the channel. -/
theorem Covers.out_eq_nil {source : Bytes} {s : State μ} (h : T.Covers C source s)
    (hoff : source.length ≤ T.startOffset) : s.out = [] := by
  obtain ⟨⟨ds, hdata, hblocks, hout⟩, -⟩ := h
  rw [List.drop_eq_nil_of_le hoff, List.flatten_eq_nil_iff] at hdata
  cases ds with
  | nil => exact hout
  | cons d ds =>
    exact absurd (hdata d List.mem_cons_self) (hblocks d List.mem_cons_self).1

end ReaderTask

namespace HashReader

/-- The size of the buffer of `blake3_hash_reader`. -/
def bufferSize : Nat := 65536

structure State where
  position : Nat := 0
  hashed : Bytes := []
  done : Bool := false

inductive Act where
  | read (data : Bytes)
  | endOfFile

/-- One step of `blake3_hash_reader`. -/
def step (disk : Disk) (s : State) : Act → Option State
  | .read data => guarded (¬ s.done ∧ data ≠ [] ∧ disk s.position data ∧ data.length ≤ bufferSize)
      { s with position := s.position + data.length, hashed := s.hashed ++ data }
  | .endOfFile => guarded (¬ s.done ∧ disk s.position []) { s with done := true }

def machine (disk : Disk) : Machine State Act where
  step := step disk

/-- What the function returns: the bytes of the digest. -/
def State.returns (C : Primitives) (s : State) : Option C.Digest :=
  if s.done then some (C.blake3 s.hashed) else none

/-- What has been hashed is what is before the position. -/
structure Reads (source : Bytes) (s : State) : Prop where
  hashed : s.hashed = source.take s.position
  done : s.done → source.length ≤ s.position

theorem Reads.step {source : Bytes} {s t : State} {a : Act} (h : Reads source s)
    (hs : step (Disk.ofFile source) s a = some t) :
    Reads source t ∧ (source.length - t.position) + (if t.done then 0 else 1) <
      (source.length - s.position) + (if s.done then 0 else 1) := by
  cases a with
  | read data =>
    obtain ⟨⟨hrun, hne, hdisk, -⟩, rfl⟩ := guarded_eq_some.mp hs
    have hpos := List.length_pos_iff.mpr hne
    have hlen := Disk.ofFile_length hdisk hne
    refine ⟨⟨?_, fun hd => absurd hd hrun⟩, ?_⟩
    · show s.hashed ++ data = source.take (s.position + data.length)
      rw [h.hashed, List.take_add, Disk.ofFile_take hdisk, List.take_left]
    · dsimp only
      omega
  | endOfFile =>
    obtain ⟨⟨hrun, hdisk⟩, rfl⟩ := guarded_eq_some.mp hs
    refine ⟨⟨h.hashed, fun _ => (Disk.ofFile_iff.mp hdisk).2 rfl⟩, ?_⟩
    rw [if_neg hrun, if_pos rfl]
    exact Nat.lt_succ_self _

theorem endsIn_returns (C : Primitives) (source : Bytes) :
    (machine (Disk.ofFile source)).EndsIn (fun _ _ => True)
      (fun s => s.returns C = some (C.blake3 source)) {} := by
  refine Machine.endsIn_of_rank (Reads source)
    (fun s => (source.length - s.position) + if s.done then 0 else 1)
    (fun _ _ _ h _ hs => (h.step hs).1) (fun _ _ _ h _ hs => (h.step hs).2) ?_
    ⟨rfl, fun hd => by cases hd⟩
  intro s h stuck
  have hdone : s.done = true := by
    by_contra hrun
    rcases Disk.ofFile_answer source s.position with ⟨b, hb⟩ | hend
    · exact guarded_eq_none.mp (stuck (.read [b]) trivial)
        ⟨hrun, List.cons_ne_nil _ _, hb, show 1 ≤ bufferSize by decide⟩
    · exact guarded_eq_none.mp (stuck .endOfFile trivial) ⟨hrun, hend⟩
  rw [State.returns, if_pos hdone, h.hashed, List.take_of_length_le (h.done hdone)]

end HashReader

/-- The task of `send_file_direct_tcp`: encrypted frames with the lengths of their blocks. -/
def Lan.readerTask (key : C.Key) (noncePrefix : Bytes) (startOffset : Nat) :
    ReaderTask (Frame C × Nat) where
  size := lanBlockSize
  size_pos := by decide
  startOffset := startOffset
  first := startOffset / lanBlockSize
  item index data :=
    (Frame.ofChunk index false (C.encrypt key (buildNonce noncePrefix index) data), data.length)

/-- The task of `send_file_to_peer`: the blocks themselves. -/
def Alpn.readerTask (startOffset : Nat) : ReaderTask Bytes where
  size := Alpn.streamChunkSize
  size_pos := by decide
  startOffset := startOffset
  first := 0
  item _ data := data


theorem Alpn.items_readerTask (startOffset k : Nat) (ds : List Bytes) :
    (Alpn.readerTask startOffset).items k ds = ds := by
  induction ds generalizing k with
  | nil => rfl
  | cons d ds ih => rw [ReaderTask.items, ih, Alpn.readerTask]

/-- **Reader tasks.** Whatever the offset and however the reads split the source, each task ends,
has put the source from the offset on on its channel, block by block, and returns the digest of
the whole source, which is what `blake3_hash_reader` returns. -/
theorem reader_tasks_cover (source : Bytes) (startOffset : Nat) (key : C.Key)
    (noncePrefix : Bytes) :
    ((Lan.readerTask key noncePrefix startOffset).machine (Disk.ofFile source)).EndsIn
      (fun _ a => a.alive = true)
      (fun s => (Lan.readerTask key noncePrefix startOffset).Covers C source s ∧
        (source.length ≤ startOffset → s.out = []))
      (Lan.readerTask key noncePrefix startOffset).start ∧
    ((Alpn.readerTask startOffset).machine (Disk.ofFile source)).EndsIn
      (fun _ a => a.alive = true)
      (fun s => s.out.flatten = source.drop startOffset ∧
        (∀ d ∈ s.out, d ≠ [] ∧ d.length ≤ Alpn.streamChunkSize) ∧
        s.returns C = some (.hex (C.blake3 source)))
      (Alpn.readerTask startOffset).start ∧
    (HashReader.machine (Disk.ofFile source)).EndsIn (fun _ _ => True)
      (fun s => s.returns C = some (C.blake3 source)) {} := by
  refine ⟨?_, ?_, HashReader.endsIn_returns C source⟩
  · refine (ReaderTask.endsIn_covers C _ source).mono fun s _ _ h => ⟨h, fun hoff => ?_⟩
    exact h.out_eq_nil hoff
  · refine (ReaderTask.endsIn_covers C _ source).mono fun s _ _ h => ?_
    obtain ⟨⟨ds, hdata, hblocks, hout⟩, hret⟩ := h
    rw [Alpn.items_readerTask] at hout
    rw [hout]
    exact ⟨hdata, hblocks, hret⟩

/-- A task that has begun, and ended without a fault, has covered the source. -/
theorem ReaderTask.covers_of_reach {T : ReaderTask μ} {source : Bytes} {s : ReaderTask.State μ}
    (h : (T.machine (Disk.ofFile source)).Reach (fun _ a => a.alive = true) T.start s)
    (hp : s.pc = .done) : T.Covers C source s :=
  (h.invariant (I := T.Reads source) (.start T source) fun _ _ _ h ha hs => h.step ha hs).covers hp

namespace Lan

/-- `send_file_direct_tcp` with what its task puts on the channel. -/
def reading (C : Primitives) (disk : Disk) :
    Party (Sender.State C) (Sender.Act C) (Frame C × Nat) where
  step := Sender.step disk
  recvs _ := []
  sends _
    | .push item => [item]
    | _ => []

namespace Sender

def ReaderPc.task : ReaderPc → ReaderTask.Pc
  | .hashPrefix => .hashPrefix
  | .read => .read
  | .send => .send
  | .done => .done
  | .failed detail => .failed detail

/-- The task within the function, after it has put `out` on its channel. -/
def State.task (s : State C) (out : List (Frame C × Nat)) : ReaderTask.State (Frame C × Nat) where
  pc := s.reader.task
  processed := s.processed
  position := s.position
  index := s.blockIdx
  hashed := s.hashed
  held := s.held
  out := out

/-- The reads do not fail, and the channel is not closed. -/
def Act.alive : Act C → Bool
  | .pushFailed | .readError _ => false
  | _ => true

/-- A step of the function is one of its task, or none. -/
theorem step_task {disk : Disk} {s t : State C} {a : Act C} (ha : a.alive)
    (hs : step disk s a = some t) (out : List (Frame C × Nat)) :
    t.task (out ++ (reading C disk).sends s a) = s.task out ∨
      ∃ b, b.alive = true ∧ (readerTask s.key s.noncePrefix s.startOffset).step disk
        (s.task out) b = some (t.task (out ++ (reading C disk).sends s a)) := by
  cases a with
  | pushFailed => cases ha
  | readError detail => cases ha
  | hashPrefix data =>
    obtain ⟨⟨hp, hg⟩, rfl⟩ := guarded_eq_some.mp hs
    refine .inr ⟨.hashPrefix data, rfl, guarded_eq_some.mpr ⟨⟨by rw [State.task, hp]; rfl, hg⟩, ?_⟩⟩
    simp only [reading, List.append_nil]
    rfl
  | seek =>
    obtain ⟨⟨hp, hg⟩, rfl⟩ := guarded_eq_some.mp hs
    refine .inr ⟨.seek, rfl, guarded_eq_some.mpr ⟨⟨by rw [State.task, hp]; rfl, hg⟩, ?_⟩⟩
    simp only [reading, List.append_nil]
    rfl
  | read data =>
    obtain ⟨⟨hp, hg⟩, rfl⟩ := guarded_eq_some.mp hs
    refine .inr ⟨.read data, rfl, guarded_eq_some.mpr ⟨⟨by rw [State.task, hp]; rfl, hg⟩, ?_⟩⟩
    simp only [reading, List.append_nil]
    rfl
  | endOfFile =>
    obtain ⟨⟨hp, hg⟩, rfl⟩ := guarded_eq_some.mp hs
    refine .inr ⟨.endOfFile, rfl, guarded_eq_some.mpr ⟨⟨by rw [State.task, hp]; rfl, hg⟩, ?_⟩⟩
    simp only [reading, List.append_nil]
    rfl
  | push item =>
    obtain ⟨⟨hp, hheld, -⟩, rfl⟩ := guarded_eq_some.mp hs
    refine .inr ⟨.push, rfl, guarded_eq_some.mpr ⟨by rw [State.task, hp]; rfl, ?_⟩⟩
    simp only [State.task, hheld, Option.toList_some, reading, ReaderPc.task]
  | cancel =>
    obtain rfl := Option.some.inj hs
    simp only [reading, List.append_nil]
    exact .inl rfl
  | _ =>
    obtain ⟨-, rfl⟩ := guarded_eq_some.mp hs
    simp only [reading, List.append_nil]
    exact .inl rfl

/-- At its end the task of a function has put the rest of the source on the channel, and has
hashed the whole. -/
theorem covers_of_trace {source : Bytes} {pauses startOffset : Nat} {key : C.Key}
    {m : TransferMetadata C} {i o : List (Frame C × Nat)} {s : State C}
    (h : (reading C (Disk.ofFile source)).Trace (fun _ a => a.alive = true)
      (State.start pauses key m startOffset) i o s) (hdone : s.reader = .done) :
    (readerTask key m.noncePrefix startOffset).Covers C source (s.task o) := by
  obtain ⟨-, hreach⟩ := h.simulates
    ((readerTask key m.noncePrefix startOffset).machine (Disk.ofFile source))
    (fun _ b => b.alive = true) State.task
    (fun s => s.key = key ∧ s.noncePrefix = m.noncePrefix ∧ s.startOffset = startOffset)
    ⟨rfl, rfl, rfl⟩
    (fun s a t hI _ hs => by
      obtain ⟨hkey, hpre, hoff⟩ := step_const hs
      exact ⟨hkey.trans hI.1, hpre.trans hI.2.1, hoff.trans hI.2.2⟩)
    (fun s a t out hI ha hs => by
      obtain ⟨rfl, hpre, rfl⟩ := hI
      rw [← hpre]
      exact step_task ha hs out)
  exact ReaderTask.covers_of_reach hreach (by rw [State.task, hdone]; rfl)

end Sender

end Lan

namespace Alpn

/-- `send_file_to_peer` with what its task puts on the channel. -/
def reading (C : Primitives) (disk : Disk) : Party (Sender.State C) Sender.Act Bytes where
  step := Sender.step disk
  recvs _ := []
  sends s
    | .sendChunk => [s.held]
    | _ => []

namespace Sender

/-- Before the answer has come there is no task. -/
def ReaderPc.task : ReaderPc → ReaderTask.Pc
  | .idle | .hashPrefix => .hashPrefix
  | .read => .read
  | .send => .send
  | .done | .stopped => .done
  | .failed detail => .failed detail

/-- The task within the function, after it has put `out` on its channel. -/
def State.task (s : State C) (out : List Bytes) : ReaderTask.State Bytes where
  pc := s.reader.task
  processed := s.processed
  position := s.position
  index := out.length
  hashed := s.hashed
  held := if s.reader = .send then some s.held else none
  out := out

/-- The reads do not fail, the channel is not closed, and no second answer comes. -/
def Act.alive : Act → Bool
  | .sendFailed | .readError _ | .accepted _ => false
  | _ => true

/-- A step of the function is one of its task, or none. -/
theorem step_task {disk : Disk} {s t : State C} {a : Act} (ha : a.alive)
    (hs : step disk s a = some t) (out : List Bytes) :
    t.task (out ++ (reading C disk).sends s a) = s.task out ∨
      ∃ b, b.alive = true ∧ (readerTask s.startOffset).step disk (s.task out) b =
        some (t.task (out ++ (reading C disk).sends s a)) := by
  cases a with
  | sendFailed => cases ha
  | readError detail => cases ha
  | accepted resumeOffset => cases ha
  | hashPrefix data =>
    obtain ⟨⟨hp, hg⟩, rfl⟩ := guarded_eq_some.mp hs
    refine .inr ⟨.hashPrefix data, rfl, guarded_eq_some.mpr ⟨⟨by rw [State.task, hp]; rfl, hg⟩, ?_⟩⟩
    simp only [reading, List.append_nil]
    rfl
  | seek =>
    obtain ⟨⟨hp, hg⟩, rfl⟩ := guarded_eq_some.mp hs
    refine .inr ⟨.seek, rfl, guarded_eq_some.mpr ⟨⟨by rw [State.task, hp]; rfl,
      hg.imp_left Eq.ge⟩, ?_⟩⟩
    simp only [reading, List.append_nil, State.task, hp]
    rfl
  | read data =>
    obtain ⟨⟨hp, hg⟩, rfl⟩ := guarded_eq_some.mp hs
    refine .inr ⟨.read data, rfl, guarded_eq_some.mpr ⟨⟨by rw [State.task, hp]; rfl, hg⟩, ?_⟩⟩
    simp only [reading, List.append_nil]
    rfl
  | endOfFile =>
    obtain ⟨⟨hp, hg⟩, rfl⟩ := guarded_eq_some.mp hs
    refine .inr ⟨.endOfFile, rfl, guarded_eq_some.mpr ⟨⟨by rw [State.task, hp]; rfl, hg⟩, ?_⟩⟩
    simp only [reading, List.append_nil, State.task, hp]
    rfl
  | sendChunk =>
    obtain ⟨⟨hp, -⟩, rfl⟩ := guarded_eq_some.mp hs
    refine .inr ⟨.push, rfl, guarded_eq_some.mpr ⟨by rw [State.task, hp]; rfl, ?_⟩⟩
    simp only [State.task, hp, if_true, Option.toList_some, reading, ReaderPc.task,
      List.length_append, List.length_singleton]
    rfl
  | command c =>
    obtain ⟨control, -, rfl⟩ := Option.map_eq_some_iff.mp hs
    simp only [reading, List.append_nil]
    exact .inl rfl
  | _ =>
    obtain ⟨-, rfl⟩ := guarded_eq_some.mp hs
    simp only [reading, List.append_nil]
    exact .inl rfl

theorem step_startOffset {disk : Disk} {s t : State C} {a : Act} (ha : a.alive)
    (hs : step disk s a = some t) : t.startOffset = s.startOffset := by
  cases a with
  | accepted resumeOffset => cases ha
  | command c =>
    obtain ⟨control, -, rfl⟩ := Option.map_eq_some_iff.mp hs
    rfl
  | _ =>
    obtain ⟨-, rfl⟩ := guarded_eq_some.mp hs
    rfl

/-- So it is with the task of this function, which begins when the answer has come. -/
theorem covers_of_trace {source : Bytes} {startOffset : Nat} {i o : List Bytes} {s₀ t : State C}
    {s : State C} (hs₀ : step (Disk.ofFile source) s₀ (.accepted startOffset) = some t)
    (hfresh : s₀.processed = 0 ∧ s₀.hashed = [])
    (h : (reading C (Disk.ofFile source)).Trace (fun _ a => a.alive = true) t i o s)
    (hdone : s.reader = .done) : (readerTask startOffset).Covers C source (s.task o) := by
  obtain ⟨-, rfl⟩ := guarded_eq_some.mp hs₀
  obtain ⟨-, hreach⟩ := h.simulates ((readerTask startOffset).machine (Disk.ofFile source))
    (fun _ b => b.alive = true) State.task (fun s => s.startOffset = startOffset) rfl
    (fun s a t hI ha hs => (step_startOffset ha hs).trans hI)
    (fun s a t out hI ha hs => by
      obtain rfl := hI
      exact step_task ha hs out)
  have hstart : ({ s₀ with
      pc := .getFlag, startOffset := startOffset, position := startOffset,
      reader := .hashPrefix } : State C).task [] = (readerTask startOffset).start := by
    rw [State.task, hfresh.1, hfresh.2, if_neg (by simp)]
    rfl
  rw [hstart] at hreach
  exact ReaderTask.covers_of_reach hreach (by rw [State.task, hdone]; rfl)

end Sender

end Alpn

end P2PTransfer
