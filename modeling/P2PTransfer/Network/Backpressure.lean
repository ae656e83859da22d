import P2PTransfer.Lib.Run
import P2PTransfer.Transfer.Metadata

/-!
# The bounded pipe

A byte pipe of fixed capacity between two tasks. Each operation holds the lock of the
shared state from its first to its last statement, so that a run is a sequence of whole
operations. The system keeps what the operations alone do not: the bytes that went in
and came out, and the waker of the last poll of each half that returned `Pending`, as
long as nobody has woken it.

## Main definitions

- `PipeState.pollRead`, `PipeState.pollWrite`, … — the operations
- `Pipe.machine` — their interleavings
- `Pipe.Kept` — the invariant

## Main results

- `Pipe.lossless` — the pipe is a FIFO that loses nothing and stays within its capacity
- `Pipe.not_stranded` — a half that still waits has a reason to
-/

namespace P2PTransfer.Backpressure

open Transition

inductive Poll (α : Type) where
  | pending
  | ready (a : α)
deriving DecidableEq

/-- What an operation returns to its caller, and the waker that it wakes. -/
structure Outcome (W α : Type) where
  poll : Poll α
  wakes : Option W := none

/-- The two `BrokenPipe` errors. -/
inductive WriteError where
  | closed
  | readerDropped
deriving DecidableEq

def WriteError.text : WriteError → Text
  | .closed => "pipe is closed".toList
  | .readerDropped => "reader has dropped the pipe".toList

structure PipeState (W : Type) where
  buffer : Bytes := []
  capacity : Nat
  readClosed : Bool := false
  writeClosed : Bool := false
  readWaker : Option W := none
  writeWaker : Option W := none

variable {W : Type}

namespace PipeState

def filled (s : PipeState W) : Nat := s.buffer.length

def free (s : PipeState W) : Nat := s.capacity - s.buffer.length

/-- `PipeReader::poll_read` into a buffer that has `remaining` bytes of room. -/
def pollRead (s : PipeState W) (waker : W) (remaining : Nat) : PipeState W × Outcome W Bytes :=
  if s.filled = 0 then
    if s.writeClosed then (s, { poll := .ready [] })
    else ({ s with readWaker := some waker }, { poll := .pending })
  else
    let avail := min s.filled remaining
    ({ s with buffer := s.buffer.drop avail, writeWaker := none },
      { poll := .ready (s.buffer.take avail), wakes := s.writeWaker })

/-- `PipeWriter::poll_write`. -/
def pollWrite (s : PipeState W) (waker : W) (buf : Bytes) :
    PipeState W × Outcome W (Except WriteError Nat) :=
  if s.writeClosed then (s, { poll := .ready (.error .closed) })
  else if s.readClosed then (s, { poll := .ready (.error .readerDropped) })
  else if s.free = 0 then ({ s with writeWaker := some waker }, { poll := .pending })
  else
    let toWrite := min s.free buf.length
    ({ s with buffer := s.buffer ++ buf.take toWrite, readWaker := none },
      { poll := .ready (.ok toWrite), wakes := s.readWaker })

/-- `PipeWriter::poll_flush`. -/
def pollFlush (s : PipeState W) : PipeState W × Outcome W Unit := (s, { poll := .ready () })

/-- `PipeWriter::poll_shutdown`. -/
def pollShutdown (s : PipeState W) : PipeState W × Outcome W Unit :=
  ({ s with writeClosed := true, readWaker := none }, { poll := .ready (), wakes := s.readWaker })

/-- `drop` of the `PipeReader`. -/
def dropReader (s : PipeState W) : PipeState W × Outcome W Unit :=
  ({ s with readClosed := true, writeWaker := none }, { poll := .ready (), wakes := s.writeWaker })

/-- `drop` of the `PipeWriter`. -/
def dropWriter (s : PipeState W) : PipeState W × Outcome W Unit :=
  ({ s with writeClosed := true, readWaker := none }, { poll := .ready (), wakes := s.readWaker })

end PipeState

/-- The bytes that a read delivered. -/
def Poll.delivered : Poll Bytes → Bytes
  | .ready data => data
  | .pending => []

/-- The bytes of its argument that a write accepted. -/
def Poll.accepted (buf : Bytes) : Poll (Except WriteError Nat) → Bytes
  | .ready (.ok n) => buf.take n
  | _ => []

/-- The waker that a poll leaves behind. -/
def Poll.parked {α : Type} (waker : W) : Poll α → Option W
  | .pending => some waker
  | .ready _ => none

/-- A half that waits with the waker `parked` and has not been woken by an operation that
wakes `wakes`. -/
def unwoken [DecidableEq W] (wakes parked : Option W) : Option W :=
  if wakes = parked then none else parked

/-- The pipe, its two halves, and the history of the bytes. -/
structure Pipe (W : Type) where
  shared : PipeState W
  reader : Bool := true
  writer : Bool := true
  readParked : Option W := none
  writeParked : Option W := none
  accepted : Bytes := []
  delivered : Bytes := []

/-- `pipe`. -/
def pipe (W : Type) (capacity : Nat) : Pipe W where
  shared := { capacity := capacity }

inductive Act (W : Type) where
  | pollRead (waker : W) (remaining : Nat)
  | pollWrite (waker : W) (buf : Bytes)
  | pollFlush
  | pollShutdown
  | dropReader
  | dropWriter

namespace Pipe

variable [DecidableEq W]

/-- An operation takes its half by an exclusive reference, so that a dropped half is not
polled. A half that waits in `poll_write` still waits when it is flushed or shut down. -/
def step (p : Pipe W) : Act W → Option (Pipe W)
  | .pollRead waker remaining =>
    let r := p.shared.pollRead waker remaining
    guarded p.reader
      { p with shared := r.1, delivered := p.delivered ++ r.2.poll.delivered,
               readParked := r.2.poll.parked waker,
               writeParked := unwoken r.2.wakes p.writeParked }
  | .pollWrite waker buf =>
    let r := p.shared.pollWrite waker buf
    guarded p.writer
      { p with shared := r.1, accepted := p.accepted ++ r.2.poll.accepted buf,
               writeParked := r.2.poll.parked waker,
               readParked := unwoken r.2.wakes p.readParked }
  | .pollFlush => guarded p.writer { p with shared := p.shared.pollFlush.1 }
  | .pollShutdown =>
    let r := p.shared.pollShutdown
    guarded p.writer
      { p with shared := r.1, readParked := unwoken r.2.wakes p.readParked,
               writeParked := unwoken r.2.wakes p.writeParked }
  | .dropReader =>
    let r := p.shared.dropReader
    guarded p.reader
      { p with shared := r.1, reader := false, readParked := none,
               writeParked := unwoken r.2.wakes p.writeParked }
  | .dropWriter =>
    let r := p.shared.dropWriter
    guarded p.writer
      { p with shared := r.1, writer := false, writeParked := none,
               readParked := unwoken r.2.wakes p.readParked }

def machine (W : Type) [DecidableEq W] : Machine (Pipe W) (Act W) where
  step := step

/-- Every action of the two halves, in any order. -/
def always : Pipe W → Act W → Prop := fun _ _ => True

/-- Nothing is lost, the capacity holds, and a half that waits has its waker where the
other half takes it when it ends the wait. -/
structure Kept (p : Pipe W) : Prop where
  fifo : p.accepted = p.delivered ++ p.shared.buffer
  bounded : p.shared.filled ≤ p.shared.capacity
  reading : ∀ w, p.readParked = some w →
    p.shared.readWaker = some w ∧ p.shared.filled = 0 ∧ p.shared.writeClosed = false
  writing : ∀ w, p.writeParked = some w →
    p.shared.writeWaker = some w ∧ p.shared.free = 0 ∧ p.shared.readClosed = false
  readerAlive : p.shared.readClosed = !p.reader

theorem unwoken_eq_some {wakes parked : Option W} {w : W} :
    unwoken wakes parked = some w ↔ parked = some w ∧ wakes ≠ some w := by
  unfold unwoken
  by_cases h : wakes = parked
  · simp only [h, if_true]
    constructor
    · intro hw
      exact absurd hw nofun
    · exact fun hw => absurd hw.1 hw.2
  · rw [if_neg h]
    constructor
    · exact fun hw => ⟨hw, fun he => h (he.trans hw.symm)⟩
    · exact And.left

/-- Who waits with the waker that an operation takes has been woken by it. -/
theorem not_unwoken_take {registered parked : Option W} {w : W}
    (h : ∀ w, parked = some w → registered = some w) : unwoken registered parked ≠ some w := by
  intro hw
  obtain ⟨hparked, hne⟩ := unwoken_eq_some.mp hw
  exact hne (h w hparked)

variable {p q : Pipe W}

omit [DecidableEq W] in
theorem kept_pipe (capacity : Nat) : (pipe W capacity).Kept where
  fifo := rfl
  bounded := Nat.zero_le _
  reading := nofun
  writing := nofun
  readerAlive := rfl

theorem Kept.pollRead {waker : W} {remaining : Nat} (h : p.Kept)
    (hs : p.step (.pollRead waker remaining) = some q) : q.Kept := by
  obtain ⟨-, rfl⟩ := guarded_eq_some.mp hs
  by_cases hempty : p.shared.filled = 0
  · by_cases hclosed : p.shared.writeClosed = true
    · simp only [PipeState.pollRead, if_pos hempty, if_pos hclosed]
      refine ⟨?_, h.bounded, nofun, fun w hw => ?_, h.readerAlive⟩
      · simpa [Poll.delivered] using h.fifo
      · exact h.writing w (unwoken_eq_some.mp hw).1
    · simp only [PipeState.pollRead, if_pos hempty, if_neg hclosed]
      refine ⟨?_, h.bounded, fun w hw => ?_, fun w hw => ?_, h.readerAlive⟩
      · simpa [Poll.delivered] using h.fifo
      · exact ⟨hw, hempty, Bool.eq_false_iff.mpr hclosed⟩
      · exact h.writing w (unwoken_eq_some.mp hw).1
  · simp only [PipeState.pollRead, if_neg hempty]
    refine ⟨?_, ?_, nofun, fun w hw => ?_, h.readerAlive⟩
    · simpa [Poll.delivered] using h.fifo
    · have hlen := h.bounded
      simp only [PipeState.filled, List.length_drop] at hlen ⊢
      omega
    -- the read has woken the writer that waited for room
    · exact absurd hw (not_unwoken_take fun w hw => (h.writing w hw).1)

theorem Kept.pollWrite {waker : W} {buf : Bytes} (h : p.Kept)
    (hs : p.step (.pollWrite waker buf) = some q) : q.Kept := by
  obtain ⟨-, rfl⟩ := guarded_eq_some.mp hs
  by_cases hclosed : p.shared.writeClosed = true
  · simp only [PipeState.pollWrite, if_pos hclosed]
    refine ⟨?_, h.bounded, fun w hw => ?_, nofun, h.readerAlive⟩
    · simpa [Poll.accepted] using h.fifo
    · exact h.reading w (unwoken_eq_some.mp hw).1
  by_cases hdropped : p.shared.readClosed = true
  · simp only [PipeState.pollWrite, if_neg hclosed, if_pos hdropped]
    refine ⟨?_, h.bounded, fun w hw => ?_, nofun, h.readerAlive⟩
    · simpa [Poll.accepted] using h.fifo
    · exact h.reading w (unwoken_eq_some.mp hw).1
  by_cases hfull : p.shared.free = 0
  · simp only [PipeState.pollWrite, if_neg hclosed, if_neg hdropped, if_pos hfull]
    refine ⟨?_, h.bounded, fun w hw => ?_, fun w hw => ?_, h.readerAlive⟩
    · simpa [Poll.accepted] using h.fifo
    · exact h.reading w (unwoken_eq_some.mp hw).1
    · exact ⟨hw, hfull, Bool.eq_false_iff.mpr hdropped⟩
  · simp only [PipeState.pollWrite, if_neg hclosed, if_neg hdropped, if_neg hfull]
    refine ⟨?_, ?_, fun w hw => ?_, nofun, h.readerAlive⟩
    · simp only [Poll.accepted, h.fifo, List.append_assoc]
    · have hlen := h.bounded
      simp only [PipeState.filled, PipeState.free, List.length_append, List.length_take]
        at hlen ⊢
      omega
    -- the write has woken the reader that waited for a byte
    · exact absurd hw (not_unwoken_take fun w hw => (h.reading w hw).1)

theorem Kept.step {a : Act W} (h : p.Kept) (hs : p.step a = some q) : q.Kept := by
  cases a with
  | pollRead => exact h.pollRead hs
  | pollWrite => exact h.pollWrite hs
  | pollFlush =>
    obtain ⟨-, rfl⟩ := guarded_eq_some.mp hs
    exact ⟨h.fifo, h.bounded, h.reading, h.writing, h.readerAlive⟩
  | pollShutdown =>
    obtain ⟨-, rfl⟩ := guarded_eq_some.mp hs
    refine ⟨h.fifo, h.bounded, fun w hw => ?_, fun w hw => ?_, h.readerAlive⟩
    · exact absurd hw (not_unwoken_take fun w hw => (h.reading w hw).1)
    · exact h.writing w (unwoken_eq_some.mp hw).1
  | dropReader =>
    obtain ⟨-, rfl⟩ := guarded_eq_some.mp hs
    refine ⟨h.fifo, h.bounded, nofun, fun w hw => ?_, rfl⟩
    exact absurd hw (not_unwoken_take fun w hw => (h.writing w hw).1)
  | dropWriter =>
    obtain ⟨-, rfl⟩ := guarded_eq_some.mp hs
    refine ⟨h.fifo, h.bounded, fun w hw => ?_, nofun, h.readerAlive⟩
    exact absurd hw (not_unwoken_take fun w hw => (h.reading w hw).1)

theorem kept_of_reach {capacity : Nat}
    (hreach : (machine W).Reach always (pipe W capacity) p) : p.Kept :=
  hreach.invariant (I := Kept) (kept_pipe capacity) fun _ _ _ h _ hs => h.step hs

theorem capacity_step {a : Act W} (hs : p.step a = some q) :
    q.shared.capacity = p.shared.capacity := by
  cases a with
  | pollRead waker remaining =>
    obtain ⟨-, rfl⟩ := guarded_eq_some.mp hs
    simp only [PipeState.pollRead]
    split
    · split <;> rfl
    · rfl
  | pollWrite waker buf =>
    obtain ⟨-, rfl⟩ := guarded_eq_some.mp hs
    simp only [PipeState.pollWrite]
    split
    · rfl
    · split
      · rfl
      · split <;> rfl
  | pollFlush | pollShutdown | dropReader | dropWriter =>
    obtain ⟨-, rfl⟩ := guarded_eq_some.mp hs
    rfl

theorem capacity_of_reach {capacity : Nat}
    (hreach : (machine W).Reach always (pipe W capacity) p) : p.shared.capacity = capacity :=
  hreach.invariant (I := fun p => p.shared.capacity = capacity) rfl
    fun _ _ _ h _ hs => (capacity_step hs).trans h

omit [DecidableEq W] in
/-- A read with room that returns nothing has found the end of the stream. -/
theorem Kept.eof {waker : W} {remaining : Nat} (h : p.Kept) (hroom : 0 < remaining)
    (hread : (p.shared.pollRead waker remaining).2.poll = .ready []) :
    p.shared.writeClosed = true ∧ p.delivered = p.accepted := by
  by_cases hempty : p.shared.filled = 0
  · have hbuffer : p.shared.buffer = [] := List.length_eq_zero_iff.mp hempty
    by_cases hclosed : p.shared.writeClosed = true
    · exact ⟨hclosed, by rw [h.fifo, hbuffer, List.append_nil]⟩
    · simp only [PipeState.pollRead, if_pos hempty, if_neg hclosed] at hread
      exact absurd hread nofun
  · simp only [PipeState.pollRead, if_neg hempty, Poll.ready.injEq] at hread
    have hlen := congrArg List.length hread
    simp only [List.length_take, PipeState.filled, List.length_nil] at hlen hempty
    omega

/-- **The pipe is a lossless bounded FIFO.** -/
theorem lossless (capacity : Nat) (p : Pipe W)
    (hreach : (machine W).Reach always (pipe W capacity) p) :
    p.accepted = p.delivered ++ p.shared.buffer ∧
      p.shared.buffer.length ≤ capacity ∧
      ∀ waker remaining, 0 < remaining →
        (p.shared.pollRead waker remaining).2.poll = .ready [] →
          p.shared.writeClosed = true ∧ p.delivered = p.accepted := by
  have hkept := kept_of_reach hreach
  refine ⟨hkept.fifo, ?_, fun waker remaining hroom hread => hkept.eof hroom hread⟩
  calc p.shared.buffer.length ≤ p.shared.capacity := hkept.bounded
    _ = capacity := capacity_of_reach hreach

/-- A pipe of two bytes after a write of three, two reads and the end of the writer. -/
def drained : Pipe Nat where
  shared := { capacity := 2, writeClosed := true }
  writer := false
  accepted := [1, 2]
  delivered := [1, 2]

theorem reach_drained : (machine Nat).Reach always (pipe Nat 2) drained := by
  have hrun : (machine Nat).run (pipe Nat 2)
      [.pollWrite 0 [1, 2, 3], .pollRead 1 1, .pollRead 1 8, .dropWriter] = some drained := rfl
  exact Machine.reach_of_run (fun _ _ _ => trivial) hrun

theorem drained_lossless :
    drained.shared.writeClosed = true ∧ drained.delivered = drained.accepted :=
  (lossless 2 drained reach_drained).2.2 1 8 (by decide) rfl

/-- **A half that still waits has a reason to**, so that the two never wait for each
other. -/
theorem not_stranded (capacity : Nat) (hcapacity : 1 ≤ capacity) (p : Pipe W)
    (hreach : (machine W).Reach always (pipe W capacity) p) :
    (p.readParked.isSome → p.shared.buffer = [] ∧ p.shared.writeClosed = false) ∧
      (p.writeParked.isSome → p.shared.buffer.length = capacity ∧ p.reader = true) ∧
      ¬ (p.readParked.isSome ∧ p.writeParked.isSome) := by
  have hkept := kept_of_reach hreach
  have hcap := capacity_of_reach hreach
  have hread : p.readParked.isSome → p.shared.buffer = [] ∧ p.shared.writeClosed = false := by
    intro h
    obtain ⟨w, hw⟩ := Option.isSome_iff_exists.mp h
    obtain ⟨-, hempty, hopen⟩ := hkept.reading w hw
    exact ⟨List.length_eq_zero_iff.mp hempty, hopen⟩
  have hwrite : p.writeParked.isSome → p.shared.buffer.length = capacity ∧ p.reader = true := by
    intro h
    obtain ⟨w, hw⟩ := Option.isSome_iff_exists.mp h
    obtain ⟨-, hfull, halive⟩ := hkept.writing w hw
    have hbounded := hkept.bounded
    have hreader := hkept.readerAlive
    simp only [PipeState.free, PipeState.filled] at hfull hbounded
    exact ⟨by omega, by simpa [halive] using hreader⟩
  refine ⟨hread, hwrite, fun ⟨hr, hw⟩ => ?_⟩
  have hempty := (hread hr).1
  have hfull := (hwrite hw).1
  simp only [hempty, List.length_nil] at hfull
  omega

/-- The same pipe when its writer waits for room. -/
def full : Pipe Nat where
  shared := { buffer := [1, 2], capacity := 2, writeWaker := some 0 }
  writeParked := some 0
  accepted := [1, 2]

theorem reach_full : (machine Nat).Reach always (pipe Nat 2) full := by
  have hrun : (machine Nat).run (pipe Nat 2) [.pollWrite 0 [1, 2, 3], .pollWrite 0 [3]] =
      some full := rfl
  exact Machine.reach_of_run (fun _ _ _ => trivial) hrun

theorem full_not_stranded : full.shared.buffer.length = 2 ∧ full.reader = true :=
  (not_stranded 2 (by decide) full reach_full).2.1 rfl

end Pipe

end P2PTransfer.Backpressure
