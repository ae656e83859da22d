import P2PTransfer.Cli.Disk
import P2PTransfer.Cli.Join
import P2PTransfer.Storage.Path
import P2PTransfer.Transfer.Resume

/-!
# The resume store and who writes to it

The receiver of the command line, `cmd_send` and the commands of the GUI keep their records in
one store. `create_transfer` makes up the id of a record and returns it. `cmd_send` keeps that
id, the receiver goes by the session id of the metadata, and the GUI by its request ids.

## Main definitions

- `Ledger` — the store, and the ids that updates have named without a row
- `Handler`, `Process` — a call of `ReceiverHandler::run` with its session, and all calls
- `writers` — any number of calls on one store
- `Accounted` — no update is lost, and the records of the receiver tell how it ended

## Main results

- `updates_kept` — under which conditions that is so
-/

namespace P2PTransfer.Cli

open Transition Resume Storage

variable {C : Primitives}

/-- Two hexadecimal digits for each byte. -/
def formatHex (bytes : Bytes) : Text :=
  bytes.flatMap fun b => [Nat.digitChar (b.toNat / 16), Nat.digitChar (b.toNat % 16)]

/-- The store, and the ids that updates have named while no row had them. -/
structure Ledger where
  db : Database
  stray : List Text := []

def Ledger.call (l : Ledger) (op : StoreOp) : Ledger where
  db := l.db.apply op
  stray := l.stray ++ (op.updates.filter fun id => (l.db.transfers.find id).isNone).toList

/-- The store after a step that may call it. -/
def Ledger.calls (l : Ledger) : Option StoreOp → Ledger
  | some op => l.call op
  | none => l

section Calls

variable (bytesOf : C.Digest → Bytes) (sessionId : Text) (now : Int)

/-- What the loop of the receiver writes to the store in a step. -/
def Receiver.storeOp (s : Receiver.State C) : Receiver.Act C → Option StoreOp
  | .ack => some (.updateProgress sessionId now
      (asI64 ((s.chunksReceived + 1) * s.metadata.chunkSize)))
  | .verdict | .verdictLost =>
    if s.valid then some (.completeTransfer sessionId now (formatHex (bytesOf s.metadata.checksum)))
    else some (.failTransfer sessionId now)
  | .badFrame _ | .readFailed _ | .joinError _ | .ackError _ => some (.failTransfer sessionId now)
  | _ => none

/-- What the loop of `cmd_send` writes to the store in a step. -/
def Sender.storeOp (s : Sender.State C) : Sender.Act C → Option StoreOp
  | .ack _ => some (.updateProgress sessionId now (asI64 (s.bytesSent + s.lenToInc)))
  | .writeError _ | .badAck _ | .pipelineError _ => some (.failTransfer sessionId now)
  | .verdict f => match s.outcome f with
    | .ok _ =>
      some (.completeTransfer sessionId now (formatHex (bytesOf s.job.metadata.checksum)))
    | .error _ => some (.failTransfer sessionId now)
  | _ => none

end Calls

/-- A call of `ReceiverHandler::run` that has announced a transfer, with the connections that
may join it. `record` is the id that `create_transfer` returned. -/
structure Handler (C : Primitives) where
  record : Text
  metadata : TransferMetadata C
  system : System ℕ (SharedState ℕ) (Connection C)
  replied : Bool

/-- The loop of the call itself; the others have joined. -/
def Handler.primary (h : Handler C) : Receiver.State C := (h.system.parts 0).inner

/-- The call has sent COMPLETE. A flush that fails after it leaves the record as it is. -/
def Handler.completed (h : Handler C) : Prop :=
  h.replied = true ∧ h.primary.pc.ended ∧ h.primary.isValid = some true

/-- The call has ended in another way. -/
def Handler.failed (h : Handler C) : Prop :=
  h.replied = false ∨ h.primary.pc.ended ∧ h.primary.isValid ≠ some true

inductive Process (C : Primitives) where
  | idle
  | receiving (h : Handler C)
  | sending (sessionId : Text) (s : Sender.State C)

theorem Process.receiving_ne_sending {h : Handler C} {id : Text} {s : Sender.State C} :
    Process.receiving h ≠ .sending id s := by simp

inductive Act (C : Primitives) where
  | accept (record : Text) (now : Int) (peerAddr outputPath : Text) (m : TransferMetadata C)
      (keys : ℕ → C.Key) (existing : Bytes) (replied : Bool)
  | receiver (i : ℕ) (b : Receiver.Act C) (now : Int)
  | create (id : Text) (now : Int) (peer path : Text) (job : Job C)
  | adopt (id : Text) (peer path : Text) (job : Job C)
  | sender (a : Sender.Act C) (now : Int)
  | pauseTransfer (requestId : Text) (active : Option Nat) (now : Int)
  | resumeTransfer (requestId : Text) (active : Bool) (now : Int)

/-- Which records `cmd_send` goes on with. -/
def resumable (peer path : Text) (r : TransferRecord) : Bool :=
  decide (Path.ofString r.filePath = Path.ofString path) &&
    (decide (r.peerAddr = peer) || decide (r.peerAddr = "127.0.0.1:9877".toList) ||
      decide (peer <:+: r.peerAddr)) &&
    !(decide (r.status = .completed) || decide (r.status = .failed))

/-- One step of a call. The GUI's commands call the store for a transfer that is active. -/
def writerStep (bytesOf : C.Digest → Bytes) (l : Ledger) (p : Process C) :
    Act C → Option (Ledger × Process C)
  | .accept record now peerAddr outputPath m keys existing replied => match p with
    | .idle => (l.db.createTransfer record now peerAddr outputPath (asI64 m.fileSize)).map fun db =>
        ({ l with db := db }, .receiving ⟨record, m, openSession m keys existing, replied⟩)
    | _ => none
  | .receiver i b now => match p with
    | .receiving h => if h.replied then
        ((connections C ℕ).machine.step h.system (i, b)).map fun system =>
          (l.calls (Receiver.storeOp bytesOf h.metadata.sessionId now
            ((h.system.parts i).state h.system.store) b), .receiving { h with system := system })
        else none
    | _ => none
  | .create id now peer path job => match p with
    | .idle => if (∀ r ∈ l.db.transfers.rows, resumable peer path r = false) ∧
          job.metadata.resumeOffset = 0 then
        (l.db.createTransfer id now peer path (asI64 job.metadata.fileSize)).map fun db =>
          ({ l with db := db }, .sending id (Sender.State.start job))
        else none
    | _ => none
  | .adopt id peer path job => match p with
    | .idle => (l.db.transfers.find id).bind fun r =>
        -- the rows come with the latest update first
        if resumable peer path r ∧ (∀ r' ∈ l.db.transfers.rows,
            resumable peer path r' → r'.updatedAt ≤ r.updatedAt) ∧
            job.metadata.resumeOffset = r.bytesTransferred.toNat then
          some (l, .sending id (Sender.State.start job))
        else none
    | _ => none
  | .sender a now => match p with
    | .sending id s => (Sender.step s a).map fun t =>
        (l.calls (Sender.storeOp bytesOf id now s a), .sending id t)
    | _ => none
  | .pauseTransfer requestId active now =>
    some (l.calls (active.map fun bytes => .pauseTransfer requestId now (asI64 bytes)), p)
  | .resumeTransfer requestId active now =>
    some (l.calls (if active then some (.updateTransferStatus requestId now .inProgress) else none),
      p)

/-- The calls that share a store. -/
def writers (bytesOf : C.Digest → Bytes) (ι : Type) : Components ι Ledger (Process C) (Act C) where
  step _ := writerStep bytesOf

variable {ι : Type} [DecidableEq ι]

/-- A store, and no call on it. -/
def onStore (C : Primitives) (ι : Type) (db : Database) : System ι Ledger (Process C) :=
  ⟨{ db := db }, fun _ => .idle⟩

/-- No update is lost, and the record that a receiver has created tells how its call ended. -/
structure Accounted (n : System ι Ledger (Process C)) : Prop where
  named : n.store.stray = []
  completed : ∀ k h, n.parts k = .receiving h → h.completed →
    ∃ r, n.store.db.transfers.find h.record = some r ∧ r.status = .completed ∧
      r.bytesTransferred = asI64 h.metadata.fileSize
  failed : ∀ k h, n.parts k = .receiving h → h.failed →
    ∃ r, n.store.db.transfers.find h.record = some r ∧ r.status = .failed

/-- The id is that of the record of a receiver that has left its loop. -/
def closedRecord (n : System ι Ledger (Process C)) (id : Text) : Prop :=
  ∃ k h, n.parts k = .receiving h ∧ h.record = id ∧ h.primary.pc.ended

/-- The session id of an accepted transfer is the id of its record, and the reply is sent. A
command of the GUI for an active transfer names a row. And after a receiver has left its loop, what
it has left running, a sender that has adopted its record and the GUI leave that record. -/
def orderly (bytesOf : C.Digest → Bytes) (n : System ι Ledger (Process C)) :
    ι × Act C → Prop
  | (_, .accept record _ _ _ m _ _ replied) => m.sessionId = record ∧ replied = true
  | (k, .receiver i b now) => ∀ h, n.parts k = .receiving h → i ≠ 0 → h.primary.pc.ended →
      Receiver.storeOp bytesOf h.metadata.sessionId now
        ((h.system.parts i).state h.system.store) b = none
  | (k, .sender a now) => ∀ id s, n.parts k = .sending id s →
      Sender.storeOp bytesOf id now s a ≠ none → ¬ closedRecord n id
  | (_, .pauseTransfer requestId active _) => active ≠ none →
      n.store.db.transfers.find requestId ≠ none ∧ ¬ closedRecord n requestId
  | (_, .resumeTransfer requestId active _) => active = true →
      n.store.db.transfers.find requestId ≠ none ∧ ¬ closedRecord n requestId
  | _ => True

namespace Ledger

variable {l : Ledger} {op : StoreOp} {ops : Option StoreOp} {id id' : Text}

/-- An update that names a row strays from none. -/
theorem stray_call (hop : op.updates = some id) (hrow : l.db.transfers.find id ≠ none) :
    (l.call op).stray = l.stray := by
  have hsome : (l.db.transfers.find id).isNone = false := by
    rw [Option.isNone_eq_false_iff, Option.isSome_iff_ne_none]
    exact hrow
  simp only [Ledger.call, hop, Option.filter_some, hsome]
  exact List.append_nil _

theorem stray_calls (hop : ∀ op ∈ ops, op.updates = some id)
    (hrow : ops ≠ none → l.db.transfers.find id ≠ none) : (l.calls ops).stray = l.stray := by
  cases ops with
  | none => rfl
  | some op => exact stray_call (hop op rfl) (hrow (by simp))

/-- Updates leave the rows. -/
theorem find_calls (hop : ∀ op ∈ ops, op.updates = some id)
    (hrow : l.db.transfers.find id' ≠ none) : (l.calls ops).db.transfers.find id' ≠ none := by
  cases ops with
  | none => exact hrow
  | some op =>
    obtain ⟨r, hr⟩ := Option.ne_none_iff_exists'.mp hrow
    obtain ⟨r', hr', -⟩ := Database.find_apply (hop op rfl) hr
    exact Option.ne_none_iff_exists'.mpr ⟨r', hr'⟩

end Ledger

section Calls

variable {bytesOf : C.Digest → Bytes} {sessionId : Text} {now : Int} {op : StoreOp}

theorem Receiver.updates_storeOp {s : Receiver.State C} {b : Receiver.Act C}
    (h : Receiver.storeOp bytesOf sessionId now s b = some op) : op.updates = some sessionId := by
  unfold Receiver.storeOp at h
  split at h
  · obtain rfl := Option.some.inj h
    rfl
  · split at h <;> obtain rfl := Option.some.inj h <;> rfl
  · split at h <;> obtain rfl := Option.some.inj h <;> rfl
  all_goals first | (obtain rfl := Option.some.inj h; rfl) | cases h

theorem Sender.updates_storeOp {s : Sender.State C} {a : Sender.Act C}
    (h : Sender.storeOp bytesOf sessionId now s a = some op) : op.updates = some sessionId := by
  unfold Sender.storeOp at h
  split at h
  case h_5 => split at h <;> obtain rfl := Option.some.inj h <;> rfl
  all_goals first | (obtain rfl := Option.some.inj h; rfl) | cases h

/-- What a step of the receiver writes says whether it has ended, and how. -/
theorem Receiver.storeOp_cases {s t : Receiver.State C} {b : Receiver.Act C}
    (hs : Receiver.step s b = some t) :
    Receiver.storeOp bytesOf sessionId now s b = none ∧
        (t.pc.ended ↔ s.pc.ended) ∧ t.isValid = s.isValid ∨
      ¬ s.pc.ended ∧
        (¬ t.pc.ended ∧ t.isValid = s.isValid ∨
          t.pc.ended ∧ t.isValid = some true ∧
            Receiver.storeOp bytesOf sessionId now s b =
              some (.completeTransfer sessionId now (formatHex (bytesOf s.metadata.checksum))) ∨
          t.pc.ended ∧ (t.isValid = some false ∨ t.isValid = s.isValid) ∧
            Receiver.storeOp bytesOf sessionId now s b = some (.failTransfer sessionId now)) := by
  cases b with
  | ack =>
    cases hp : s.pc with
    | ack index =>
      simp only [Receiver.step, hp, Option.some.injEq] at hs
      subst hs
      refine .inr ⟨by simp, .inl ⟨?_, rfl⟩⟩
      dsimp only
      split <;> simp
    | _ => simp [Receiver.step, hp] at hs
  | ackError detail =>
    cases hp : s.pc with
    | ack index =>
      simp only [Receiver.step, hp, Option.some.injEq] at hs
      subst hs
      exact .inr ⟨by simp, .inr (.inr ⟨rfl, .inr rfl, rfl⟩)⟩
    | _ => simp [Receiver.step, hp] at hs
  | badFrame | readFailed | joinError =>
    obtain ⟨⟨hp, -⟩, rfl⟩ := guarded_eq_some.mp hs
    exact .inr ⟨by rw [hp]; simp, .inr (.inr ⟨rfl, .inr rfl, rfl⟩)⟩
  | verdict | verdictLost =>
    obtain ⟨⟨hp, -⟩, rfl⟩ := guarded_eq_some.mp hs
    refine .inr ⟨by rw [hp]; simp, .inr ?_⟩
    cases hv : s.valid with
    | true => exact .inl ⟨rfl, rfl, if_pos hv⟩
    | false => exact .inr ⟨rfl, .inl rfl, if_neg (by rw [hv]; simp)⟩
  | join index =>
    obtain ⟨⟨hp, -⟩, rfl⟩ := guarded_eq_some.mp hs
    refine .inl ⟨rfl, ?_, rfl⟩
    rw [hp]
    exact Iff.rfl
  | flush | flushFailed =>
    obtain ⟨⟨hp, -⟩, rfl⟩ := guarded_eq_some.mp hs
    refine .inl ⟨rfl, ?_, rfl⟩
    rw [hp]
    exact Iff.rfl
  | _ =>
    obtain ⟨-, rfl⟩ := guarded_eq_some.mp hs
    exact .inl ⟨rfl, Iff.rfl, rfl⟩

end Calls

/-- The record of a loop of the receiver: it has the size of the metadata, and once the loop has
been left it says how. -/
structure Tells (db : Database) (record : Text) (m : TransferMetadata C) (s : Receiver.State C) :
    Prop where
  running : ¬ s.pc.ended → s.isValid = none
  row : ∃ r, db.transfers.find record = some r ∧ r.fileSize = asI64 m.fileSize ∧
    (s.pc.ended →
      (s.isValid = some true → r.status = .completed ∧ r.bytesTransferred = asI64 m.fileSize) ∧
      (s.isValid ≠ some true → r.status = .failed))

namespace Tells

variable {db db' : Database} {record id : Text} {m : TransferMetadata C} {s t : Receiver.State C}
  {op : StoreOp}

/-- An update of another record, or of the record while the loop runs. -/
theorem update (h : Tells db record m s) (hop : op.updates = some id)
    (hid : id = record → ¬ s.pc.ended) : Tells (db.apply op) record m s := by
  obtain ⟨r, hr, hsize, hstatus⟩ := h.row
  refine ⟨h.running, ?_⟩
  by_cases he : id = record
  · obtain ⟨r', hr', hsize'⟩ := Database.find_apply hop hr
    exact ⟨r', hr', hsize'.trans hsize, fun hp => absurd hp (hid he)⟩
  · exact ⟨r, (Database.find_apply_of_ne hop (Ne.symm he)).trans hr, hsize, hstatus⟩

/-- A loop that goes on has yet to say how it ends. -/
theorem of_running (h : Tells db record m s) (hs : ¬ s.pc.ended) (ht : ¬ t.pc.ended)
    (hvalid : t.isValid = s.isValid) : Tells db record m t := by
  obtain ⟨r, hr, hsize, -⟩ := h.row
  exact ⟨fun _ => hvalid.trans (h.running hs), r, hr, hsize, fun hp => absurd hp ht⟩

/-- **A step of the loop.** -/
theorem step {bytesOf : C.Digest → Bytes} {l : Ledger} {now : Int} {b : Receiver.Act C}
    (h : Tells l.db record m s) (hs : Receiver.step s b = some t) :
    Tells (l.calls (Receiver.storeOp bytesOf record now s b)).db record m t := by
  obtain ⟨r, hr, hsize, hstatus⟩ := h.row
  have hcases := @Receiver.storeOp_cases C bytesOf record now s t b hs
  rcases hcases with ⟨hnone, hsame, hv⟩ | ⟨hrun, ⟨hp, hv⟩ | ⟨hp, hv, hop⟩ | ⟨hp, hv, hop⟩⟩
  · -- the store is not called, and the loop has been left if it had been before
    rw [hnone]
    refine ⟨fun hp => hv.trans (h.running fun hs => hp (hsame.mpr hs)), r, hr, hsize, fun hp => ?_⟩
    rw [hv]
    exact hstatus (hsame.mp hp)
  · cases hop : Receiver.storeOp bytesOf record now s b with
    | none => exact h.of_running hrun hp hv
    | some op =>
      have hupdate := h.update (Receiver.updates_storeOp hop) fun _ => hrun
      exact hupdate.of_running hrun hp hv
  · rw [hop]
    obtain ⟨r', hr', hsize', hcompleted, hbytes⟩ :=
      Database.find_completeTransfer now (formatHex (bytesOf s.metadata.checksum)) hr
    exact ⟨fun hne => absurd hp hne, r', hr', hsize'.trans hsize, fun _ =>
      ⟨fun _ => ⟨hcompleted, hbytes.trans hsize⟩, fun hne => absurd hv hne⟩⟩
  · rw [hop]
    obtain ⟨r', hr', hsize', hfailed⟩ := Database.find_failTransfer now hr
    have hne : t.isValid ≠ some true := by
      rcases hv with hv | hv
      · rw [hv]
        simp
      · rw [hv, h.running hrun]
        simp
    exact ⟨fun hne => absurd hp hne, r', hr', hsize'.trans hsize, fun _ =>
      ⟨fun htrue => absurd htrue hne, fun _ => hfailed⟩⟩

/-- A record is created beside those that are there. -/
theorem find_createTransfer {now : Int} {peerAddr filePath : Text} {fileSize : Int}
    (hdb : db.createTransfer id now peerAddr filePath fileSize = some db') :
    db.transfers.find id = none ∧
    (∃ r, db'.transfers.find id = some r ∧ r.fileSize = fileSize) ∧
    ∀ id' ≠ id, db'.transfers.find id' = db.transfers.find id' := by
  obtain ⟨t, ht, rfl⟩ := Option.map_eq_some_iff.mp hdb
  exact ⟨Table.find_of_insert ht, ⟨_, Table.find_insert_self ht, rfl⟩,
    fun id hne => Table.find_insert_of_ne ht hne⟩

theorem create {now : Int} {peerAddr filePath : Text} {fileSize : Int} (h : Tells db record m s)
    (hdb : db.createTransfer id now peerAddr filePath fileSize = some db') :
    Tells db' record m s := by
  obtain ⟨hnone, -, hother⟩ := find_createTransfer hdb
  obtain ⟨r, hr, hrest⟩ := h.row
  refine ⟨h.running, r, ?_, hrest⟩
  rw [hother _ fun he => ?_, hr]
  rw [he, hnone] at hr
  cases hr

end Tells

/-- A call of the receiver goes by the id of its record. -/
structure Handler.Kept (db : Database) (h : Handler C) : Prop where
  named : h.metadata.sessionId = h.record
  replied : h.replied = true
  tells : Tells db h.record h.metadata h.primary

theorem Handler.Kept.start {db db' : Database} {record peerAddr outputPath : Text} {now : Int}
    {m : TransferMetadata C} {keys : ℕ → C.Key} {existing : Bytes} {replied : Bool}
    (hdb : db.createTransfer record now peerAddr outputPath (asI64 m.fileSize) = some db')
    (hnamed : m.sessionId = record) (hreplied : replied = true) :
    (⟨record, m, openSession m keys existing, replied⟩ : Handler C).Kept db' := by
  obtain ⟨-, ⟨r, hr, hsize⟩, -⟩ := Tells.find_createTransfer hdb
  have hpc : ¬ (Receiver.State.start (keys 0) m existing).pc.ended := by
    unfold Receiver.State.start
    simp
  exact ⟨hnamed, hreplied, fun _ => rfl, r, hr, hsize, fun hp => absurd hp hpc⟩

theorem Handler.Kept.update {db : Database} {h : Handler C} {op : StoreOp} {id : Text}
    (hk : h.Kept db) (hop : op.updates = some id)
    (hid : id = h.record → ¬ h.primary.pc.ended) : h.Kept (db.apply op) :=
  ⟨hk.named, hk.replied, hk.tells.update hop hid⟩

theorem Handler.Kept.create {db db' : Database} {h : Handler C} {id : Text} {now : Int}
    {peerAddr filePath : Text} {fileSize : Int} (hk : h.Kept db)
    (hdb : db.createTransfer id now peerAddr filePath fileSize = some db') : h.Kept db' :=
  ⟨hk.named, hk.replied, hk.tells.create hdb⟩

theorem Handler.Kept.receiver {bytesOf : C.Digest → Bytes} {l : Ledger} {h : Handler C} {i : ℕ}
    {b : Receiver.Act C} {now : Int} {system : System ℕ (SharedState ℕ) (Connection C)}
    (hk : h.Kept l.db) (hs : (connections C ℕ).machine.step h.system (i, b) = some system)
    (hok : i ≠ 0 → h.primary.pc.ended →
      Receiver.storeOp bytesOf h.metadata.sessionId now
        ((h.system.parts i).state h.system.store) b = none) :
    ({ h with system := system } : Handler C).Kept
      (l.calls (Receiver.storeOp bytesOf h.metadata.sessionId now
        ((h.system.parts i).state h.system.store) b)).db := by
  obtain ⟨S', c', hstep, rfl⟩ := Components.machine_step.mp hs
  obtain ⟨t, ht, heq⟩ := Option.map_eq_some_iff.mp hstep
  obtain ⟨rfl, rfl⟩ := Prod.mk.inj heq
  refine ⟨hk.named, hk.replied, ?_⟩
  show Tells _ h.record h.metadata (Function.update h.system.parts i _ 0).inner
  rw [hk.named] at hok ⊢
  by_cases hi : i = 0
  · subst hi
    rw [Function.update_self]
    exact Tells.step (s := (h.system.parts 0).state h.system.store)
      ⟨hk.tells.running, hk.tells.row⟩ ht
  · -- a joined connection calls the store only while the call itself runs
    rw [Function.update_of_ne (Ne.symm hi)]
    cases hop : Receiver.storeOp bytesOf h.record now
        ((h.system.parts i).state h.system.store) b with
    | none => exact hk.tells
    | some op =>
      refine hk.tells.update (Receiver.updates_storeOp hop) fun _ hp => ?_
      have hnone := hok hi hp
      rw [hop] at hnone
      cases hnone

section Runs

variable {bytesOf : C.Digest → Bytes} {n n' : System ι Ledger (Process C)}

/-- The invariant of the calls: no two receivers have one record. -/
structure RecordsKept (n : System ι Ledger (Process C)) : Prop where
  stray : n.store.stray = []
  handlers : ∀ k h, n.parts k = .receiving h → h.Kept n.store.db
  senders : ∀ k id s, n.parts k = .sending id s → n.store.db.transfers.find id ≠ none
  distinct : ∀ k k' h h', n.parts k = .receiving h → n.parts k' = .receiving h' →
    h.record = h'.record → k = k'

omit [DecidableEq ι] in
theorem recordsKept_start (db : Database) : RecordsKept (onStore C ι db) where
  stray := rfl
  handlers k h hk := by cases hk
  senders k id s hk := by cases hk
  distinct k k' h h' hk := by cases hk

omit [DecidableEq ι] in
theorem RecordsKept.accounted (h : RecordsKept n) : Accounted n where
  named := h.stray
  completed k hd hk hc := by
    obtain ⟨r, hr, -, hstatus⟩ := (h.handlers k hd hk).tells.row
    obtain ⟨hcompleted, hbytes⟩ := (hstatus hc.2.1).1 hc.2.2
    exact ⟨r, hr, hcompleted, hbytes⟩
  failed k hd hk hf := by
    have hkept := h.handlers k hd hk
    obtain ⟨r, hr, -, hstatus⟩ := hkept.tells.row
    rcases hf with hf | ⟨hp, hv⟩
    · rw [hkept.replied] at hf
      cases hf
    · exact ⟨r, hr, (hstatus hp).2 hv⟩

omit [DecidableEq ι] in
/-- The row of the record of a receiver. -/
theorem RecordsKept.row {k : ι} {hd : Handler C} (h : RecordsKept n)
    (hk : n.parts k = .receiving hd) : n.store.db.transfers.find hd.record ≠ none := by
  obtain ⟨r, hr, -⟩ := (h.handlers k hd hk).tells.row
  exact Option.ne_none_iff_exists'.mpr ⟨r, hr⟩

/-- A step of one part that updates at most one row, and this not of a receiver that has left its
loop elsewhere. -/
theorem RecordsKept.update {k : ι} {p : Process C} (h : RecordsKept n) (ops : Option StoreOp)
    (id : Text) (hop : ∀ op ∈ ops, op.updates = some id)
    (hrow : ops ≠ none → n.store.db.transfers.find id ≠ none)
    (hothers : ops ≠ none → ∀ k' ≠ k, ∀ hd, n.parts k' = .receiving hd → id = hd.record →
      ¬ hd.primary.pc.ended)
    (hreceiving : ∀ hd, p = .receiving hd → hd.Kept (n.store.calls ops).db ∧
      ∃ hd', n.parts k = .receiving hd' ∧ hd'.record = hd.record)
    (hsending : ∀ id s, p = .sending id s → n.store.db.transfers.find id ≠ none) :
    RecordsKept ⟨n.store.calls ops, Function.update n.parts k p⟩ where
  stray := (Ledger.stray_calls hop hrow).trans h.stray
  handlers j hd hj := by
    by_cases hjk : j = k
    · subst hjk
      exact (hreceiving hd (by simpa using hj)).1
    · replace hj : n.parts j = .receiving hd := by simpa [hjk] using hj
      cases ops with
      | none => exact h.handlers j hd hj
      | some op => exact (h.handlers j hd hj).update (hop op rfl) (hothers (by simp) j hjk hd hj)
  senders j id s hj := by
    refine Ledger.find_calls hop ?_
    by_cases hjk : j = k
    · subst hjk
      exact hsending id s (by simpa using hj)
    · exact h.senders j id s (by simpa [hjk] using hj)
  distinct j j' hd hd' hj hj' heq := by
    -- the records are those of before
    have hbefore : ∀ i x, Function.update n.parts k p i = .receiving x →
        ∃ x', n.parts i = .receiving x' ∧ x'.record = x.record := by
      intro i x hi
      by_cases hik : i = k
      · subst hik
        exact (hreceiving x (by simpa using hi)).2
      · exact ⟨x, by simpa [hik] using hi, rfl⟩
    obtain ⟨y, hy, hrec⟩ := hbefore j hd hj
    obtain ⟨y', hy', hrec'⟩ := hbefore j' hd' hj'
    exact h.distinct j j' y y' hy hy' (hrec.trans (heq.trans hrec'.symm))

/-- A command of the GUI. -/
theorem RecordsKept.command {k : ι} {ops : Option StoreOp} (h : RecordsKept n) (id : Text)
    (hop : ∀ op ∈ ops, op.updates = some id)
    (hrow : ops ≠ none → n.store.db.transfers.find id ≠ none ∧ ¬ closedRecord n id) :
    RecordsKept ⟨n.store.calls ops, Function.update n.parts k (n.parts k)⟩ := by
  refine h.update ops id hop (fun hne => (hrow hne).1)
    (fun hne j _ hd hj he hp => (hrow hne).2 ⟨j, hd, hj, he.symm, hp⟩)
    (fun hd hk => ⟨?_, hd, hk, rfl⟩) fun id s hk => h.senders k id s hk
  cases ops with
  | none => exact h.handlers k hd hk
  | some op =>
    exact (h.handlers k hd hk).update (hop op rfl) fun he hp =>
      (hrow (by simp)).2 ⟨k, hd, hk, he.symm, hp⟩

/-- A step of one part that creates a record. -/
theorem RecordsKept.create {k : ι} {p : Process C} {db : Database} {id : Text} {now : Int}
    {peerAddr filePath : Text} {fileSize : Int} (h : RecordsKept n)
    (hdb : n.store.db.createTransfer id now peerAddr filePath fileSize = some db)
    (hreceiving : ∀ hd, p = .receiving hd → hd.Kept db ∧ hd.record = id)
    (hsending : ∀ id' s, p = .sending id' s → id' = id) :
    RecordsKept ⟨{ n.store with db := db }, Function.update n.parts k p⟩ := by
  obtain ⟨hnone, ⟨r, hr, -⟩, hother⟩ := Tells.find_createTransfer hdb
  -- the record is that of no receiver
  have hnew : ∀ j hd, n.parts j = .receiving hd → hd.record ≠ id :=
    fun j hd hj he => h.row hj (he ▸ hnone)
  refine ⟨h.stray, fun j hd hj => ?_, fun j id' s hj => ?_, fun j j' hd hd' hj hj' heq => ?_⟩
  · by_cases hjk : j = k
    · subst hjk
      exact (hreceiving hd (by simpa using hj)).1
    · exact (h.handlers j hd (by simpa [hjk] using hj)).create hdb
  · by_cases hjk : j = k
    · subst hjk
      rw [hsending id' s (by simpa using hj), hr]
      simp
    · have hrow := h.senders j id' s (by simpa [hjk] using hj)
      show db.transfers.find id' ≠ none
      rw [hother id' fun he => hrow (he ▸ hnone)]
      exact hrow
  · by_cases hjk : j = k
    · subst hjk
      by_cases hjk' : j' = j
      · exact hjk'.symm
      · have hid := (hreceiving hd (by simpa using hj)).2
        exact absurd (heq ▸ hid) (hnew j' hd' (by simpa [hjk'] using hj'))
    · by_cases hjk' : j' = k
      · subst hjk'
        have hid := (hreceiving hd' (by simpa using hj')).2
        exact absurd (heq.trans hid) (hnew j hd (by simpa [hjk] using hj))
      · exact h.distinct j j' hd hd' (by simpa [hjk] using hj) (by simpa [hjk'] using hj') heq

/-- **A step of the calls.** -/
theorem RecordsKept.step {a : ι × Act C} (h : RecordsKept n) (hok : orderly bytesOf n a)
    (hs : (writers bytesOf ι).machine.step n a = some n') : RecordsKept n' := by
  obtain ⟨k, a⟩ := a
  obtain ⟨l, p, hstep, rfl⟩ := Components.machine_step.mp hs
  dsimp only at hstep ⊢
  cases a with
  | accept record now peerAddr outputPath m keys existing replied =>
    cases hpart : n.parts k with
    | idle =>
      simp only [writers, writerStep, hpart] at hstep
      obtain ⟨db, hdb, heq⟩ := Option.map_eq_some_iff.mp hstep
      obtain ⟨rfl, rfl⟩ := Prod.mk.inj heq
      obtain ⟨hnamed, hreplied⟩ := hok
      refine h.create hdb (fun hd he => ?_) fun _ _ he => absurd he Process.receiving_ne_sending
      obtain rfl := Process.receiving.inj he
      exact ⟨.start hdb hnamed hreplied, rfl⟩
    | _ => simp only [writers, writerStep, hpart, reduceCtorEq] at hstep
  | receiver i b now =>
    cases hpart : n.parts k with
    | receiving hd =>
      simp only [writers, writerStep, hpart, Option.ite_none_right_eq_some] at hstep
      obtain ⟨system, hsys, heq⟩ := Option.map_eq_some_iff.mp hstep.2
      obtain ⟨rfl, rfl⟩ := Prod.mk.inj heq
      have hkept := h.handlers k hd hpart
      refine h.update _ hd.record (fun op hop => ?_) (fun _ => h.row hpart)
        (fun _ j hj hd' hpart' he => absurd (h.distinct j k hd' hd hpart' hpart he.symm) hj)
        (fun hd' he => ?_) fun _ _ he => absurd he Process.receiving_ne_sending
      · rw [← hkept.named]
        exact Receiver.updates_storeOp hop
      · obtain rfl := Process.receiving.inj he
        exact ⟨hkept.receiver hsys (hok hd hpart), hd, hpart, rfl⟩
    | _ => simp only [writers, writerStep, hpart, reduceCtorEq] at hstep
  | create id now peer path job =>
    cases hpart : n.parts k with
    | idle =>
      simp only [writers, writerStep, hpart, Option.ite_none_right_eq_some] at hstep
      obtain ⟨db, hdb, heq⟩ := Option.map_eq_some_iff.mp hstep.2
      obtain ⟨rfl, rfl⟩ := Prod.mk.inj heq
      exact h.create hdb (fun _ he => absurd he.symm Process.receiving_ne_sending)
        fun _ _ he => (Process.sending.inj he).1.symm
    | _ => simp only [writers, writerStep, hpart, reduceCtorEq] at hstep
  | adopt id peer path job =>
    cases hpart : n.parts k with
    | idle =>
      simp only [writers, writerStep, hpart] at hstep
      obtain ⟨r, hr, heq⟩ := Option.bind_eq_some_iff.mp hstep
      simp only [Option.ite_none_right_eq_some, Option.some.injEq, Prod.mk.injEq] at heq
      obtain ⟨-, rfl, rfl⟩ := heq
      refine h.update none id (by simp) (absurd rfl) (absurd rfl)
        (fun _ he => absurd he.symm Process.receiving_ne_sending) fun id' s he => ?_
      rw [← (Process.sending.inj he).1, hr]
      simp
    | _ => simp only [writers, writerStep, hpart, reduceCtorEq] at hstep
  | sender a now =>
    cases hpart : n.parts k with
    | sending id s =>
      simp only [writers, writerStep, hpart] at hstep
      obtain ⟨t, ht, heq⟩ := Option.map_eq_some_iff.mp hstep
      obtain ⟨rfl, rfl⟩ := Prod.mk.inj heq
      have hrow := h.senders k id s hpart
      refine h.update _ id (fun op hop => Sender.updates_storeOp hop) (fun _ => hrow)
        (fun hne j _ hd hj he hp => hok id s hpart hne ⟨j, hd, hj, he.symm, hp⟩)
        (fun _ he => absurd he.symm Process.receiving_ne_sending) fun id' s' he => ?_
      rw [← (Process.sending.inj he).1]
      exact hrow
    | _ => simp only [writers, writerStep, hpart, reduceCtorEq] at hstep
  | pauseTransfer requestId active now =>
    simp only [writers, writerStep, Option.some.injEq, Prod.mk.injEq] at hstep
    obtain ⟨rfl, rfl⟩ := hstep
    refine h.command requestId (fun op hop => ?_) fun hne => hok ?_
    · obtain ⟨bytes, -, rfl⟩ := Option.map_eq_some_iff.mp hop
      rfl
    · rintro rfl
      exact hne rfl
  | resumeTransfer requestId active now =>
    simp only [writers, writerStep, Option.some.injEq, Prod.mk.injEq] at hstep
    obtain ⟨rfl, rfl⟩ := hstep
    refine h.command requestId (fun op hop => ?_) fun hne => hok ?_
    · split at hop
      · obtain rfl := Option.some.inj hop
        rfl
      · cases hop
    · by_contra hactive
      exact hne (if_neg hactive)

/-- **What is written to the store is kept.** If the session id of every accepted transfer is the
id that `create_transfer` made up for it, the replies are sent, the GUI's commands name rows and
nothing writes to the record of a receiver that has left its loop, then no update is lost, and the
record of a receiver is completed after COMPLETE and failed after a failure. -/
theorem updates_kept (db : Database)
    (hreach : (writers bytesOf ι).machine.Reach (orderly bytesOf) (onStore C ι db) n) :
    Accounted n :=
  (hreach.invariant (recordsKept_start db) fun _ _ _ h hok hs => h.step hok hs).accounted

end Runs

/-- A receiver accepts one byte, and then fails to read. -/
def failingCalls (record sessionId : Text) : List (Bool × Act .plain) :=
  [(false, .accept record 0 [] [] { Receiver.sampleMetadata with sessionId := sessionId }
      (fun _ => ()) [] true),
   (false, .receiver 0 (.readError ['x']) 0),
   (false, .receiver 0 (.readFailed ['x']) 1)]

/-- Another one accepts one byte, and takes it. -/
def completingCalls (record : Text) : List (Bool × Act .plain) :=
  (true, .accept record 0 [] [] { Receiver.sampleMetadata with sessionId := record }
      (fun _ => ()) [] true) ::
    ([.readFrame (Receiver.sampleChunk 1), .spawn (Receiver.sampleChunk 1) (Receiver.sampleItem 1),
      .decrypted (Receiver.sampleItem 1) [1], .written (0, [1]), .handed (0, [1]), .hash (0, [1]),
      .join 0, .ack, .verdict, .landed, .flush] : List (Receiver.Act .plain)).map
      fun b => (true, .receiver 0 b 2)

def callsEnd (calls : List (Bool × Act .plain)) : Option (System Bool Ledger (Process .plain)) :=
  (writers id Bool).machine.run (onStore .plain Bool .empty) calls

/-- Where the session ids are the ids of the records, the one is completed and the other failed. -/
theorem updates_kept_of_two :
    ∃ n ∈ callsEnd (completingCalls ['a'] ++ failingCalls ['b'] ['b']), Accounted n ∧
      (n.store.db.transfers.find ['a']).map TransferRecord.status = some .completed ∧
      (n.store.db.transfers.find ['a']).map TransferRecord.bytesTransferred = some 1 ∧
      (n.store.db.transfers.find ['b']).map TransferRecord.status = some .failed := by
  have hok : ∀ n, ∀ a ∈ completingCalls ['a'] ++ failingCalls ['b'] ['b'], orderly id n a := by
    intro n a ha
    rcases List.mem_append.mp ha with ha | ha
    · rcases List.mem_cons.mp ha with rfl | ha
      · exact ⟨rfl, rfl⟩
      · obtain ⟨b, -, rfl⟩ := List.mem_map.mp ha
        exact fun _ _ h0 => absurd rfl h0
    · simp only [failingCalls, List.mem_cons, List.not_mem_nil, or_false] at ha
      rcases ha with rfl | rfl | rfl
      · exact ⟨rfl, rfl⟩
      · exact fun _ _ h0 => absurd rfl h0
      · exact fun _ _ h0 => absurd rfl h0
  have hrun : callsEnd (completingCalls ['a'] ++ failingCalls ['b'] ['b']) = some _ :=
    (Option.some_get rfl).symm
  exact ⟨_, hrun, updates_kept .empty (Machine.reach_of_run hok hrun), by decide +kernel,
    by decide +kernel, by decide +kernel⟩

/-- The metadata has a session id of the sender. -/
theorem updates_not_kept : ¬ ∀ n, (writers id Bool).machine.Reach (fun _ _ => True)
    (onStore .plain Bool .empty) n → Accounted n := by
  intro h
  have hrun : callsEnd (failingCalls ['a'] ['b']) = some _ := (Option.some_get rfl).symm
  have hend := h _ (Machine.reach_of_run (fun _ _ _ => trivial) hrun)
  exact absurd hend.named (by decide)

end P2PTransfer.Cli
