import P2PTransfer.Lib.Table
import P2PTransfer.Transfer.Metadata

/-!
# The resume store

`TransferResumeManager`: a database with one table of transfers and one of contacts. Every
method is one statement under a lock. An `UPDATE` whose id no row has succeeds and changes
nothing.

## Main definitions

- `TransferRecord`, `Contact`, `Database` — the rows and the tables
- `Database.createTransfer`, `Database.updateProgress`, … — the methods that write
- `StoreOp` — the statements as data
-/

namespace P2PTransfer.Resume

open Storage

inductive TransferStatus where
  | pending
  | inProgress
  | paused
  | completed
  | failed
deriving DecidableEq, Repr

/-- The cast of an unsigned number to `i64`. -/
def asI64 (n : Nat) : Int := Int.bmod n (2 ^ 64)

section Cast

variable {n m : Nat}

theorem asI64_of_lt (h : n < 2 ^ 63) : asI64 n = n := by
  have hmod : ((2 ^ 64 : Nat) : Int) = 18446744073709551616 := by norm_num
  unfold asI64 Int.bmod
  simp only [hmod]
  split <;> omega

/-- A number of 64 bits whose first bit is set stands for a negative one. -/
theorem asI64_of_le (h : 2 ^ 63 ≤ n) (hlt : n < 2 ^ 64) : asI64 n = n - 2 ^ 64 := by
  have hmod : ((2 ^ 64 : Nat) : Int) = 18446744073709551616 := by norm_num
  unfold asI64 Int.bmod
  simp only [hmod]
  split <;> omega

/-- What is added is seen, unless it is a multiple of the modulus. -/
theorem asI64_add_ne (hpos : 0 < m) (hlt : m < 2 ^ 64) : asI64 (n + m) ≠ n := by
  have hmod : ((2 ^ 64 : Nat) : Int) = 18446744073709551616 := by norm_num
  unfold asI64 Int.bmod
  simp only [hmod, Nat.cast_add]
  split <;> omega

theorem asI64_range : -2 ^ 63 ≤ asI64 n ∧ asI64 n < 2 ^ 63 := by
  have hmod : ((2 ^ 64 : Nat) : Int) = 18446744073709551616 := by norm_num
  unfold asI64 Int.bmod
  simp only [hmod]
  split <;> omega

end Cast

structure TransferRecord where
  id : Text
  peerAddr : Text
  filePath : Text
  fileSize : Int
  bytesTransferred : Int := 0
  checksum : Option Text := none
  status : TransferStatus := .pending
  createdAt : Int
  updatedAt : Int
deriving DecidableEq

structure Contact where
  name : Text
  peerId : Text
  lastKnownIp : Text
  lastKnownPort : UInt16
  lastSeen : Int
deriving DecidableEq

structure Database where
  transfers : Table TransferRecord.id
  contacts : Table Contact.name

namespace Database

/-- What `CREATE TABLE IF NOT EXISTS` makes of a new file. -/
def empty : Database := ⟨.empty _, .empty _⟩

/-- `create_transfer`, for the id that `Uuid::new_v4` gives. -/
def createTransfer (db : Database) (id : Text) (now : Int) (peerAddr filePath : Text)
    (fileSize : Int) : Option Database :=
  (db.transfers.insert
    { id := id, peerAddr := peerAddr, filePath := filePath, fileSize := fileSize, createdAt := now,
      updatedAt := now }).map fun t => { db with transfers := t }

/-- `UPDATE transfers SET … WHERE id = ?`. -/
def updateTransfer (db : Database) (id : Text) (f : TransferRecord → TransferRecord)
    (hf : ∀ r, (f r).id = r.id) : Database :=
  { db with transfers := db.transfers.update id f hf }

def updateTransferStatus (db : Database) (id : Text) (now : Int) (status : TransferStatus) :
    Database :=
  db.updateTransfer id (fun r => { r with status := status, updatedAt := now }) fun _ => rfl

def updateProgress (db : Database) (id : Text) (now bytesTransferred : Int) : Database :=
  db.updateTransfer id
    (fun r => { r with bytesTransferred := bytesTransferred, status := .inProgress,
                       updatedAt := now })
    fun _ => rfl

def pauseTransfer (db : Database) (id : Text) (now bytesTransferred : Int) : Database :=
  db.updateTransfer id
    (fun r => { r with bytesTransferred := bytesTransferred, status := .paused,
                       updatedAt := now })
    fun _ => rfl

/-- The size is read before the update, and zero if there is no row. -/
def completeTransfer (db : Database) (id : Text) (now : Int) (checksum : Text) : Database :=
  let fileSize := ((db.transfers.find id).map TransferRecord.fileSize).getD 0
  db.updateTransfer id
    (fun r => { r with bytesTransferred := fileSize, checksum := some checksum,
                       status := .completed, updatedAt := now })
    fun _ => rfl

def failTransfer (db : Database) (id : Text) (now : Int) : Database :=
  db.updateTransfer id (fun r => { r with status := .failed, updatedAt := now }) fun _ => rfl

def deleteTransfer (db : Database) (id : Text) : Database :=
  { db with transfers := db.transfers.delete id }

/-- The difference that `cleanup_old_transfers` computes from casts to `i64`. -/
def cleanupCutoff (now : Int) (retentionDays : Nat) : Int :=
  Int.bmod (now - asI64 (retentionDays * 86400)) (2 ^ 64)

/-- `cleanup_old_transfers`, for the number of days that transfers are kept. -/
def cleanupOldTransfers (db : Database) (now : Int) (retentionDays : Nat) : Database :=
  { db with transfers := db.transfers.deleteWhere fun r =>
      decide (r.updatedAt < cleanupCutoff now retentionDays ∧
        (r.status = .completed ∨ r.status = .failed)) }

def upsertContact (db : Database) (now : Int) (name peerId ip : Text) (port : UInt16) : Database :=
  { db with contacts := db.contacts.upsert ⟨name, peerId, ip, port, now⟩ }

def deleteContact (db : Database) (name : Text) : Database :=
  { db with contacts := db.contacts.delete name }

end Database

/-- The statements that write, with the time at which they run. -/
inductive StoreOp where
  | createTransfer (id : Text) (now : Int) (peerAddr filePath : Text) (fileSize : Int)
  | updateTransferStatus (id : Text) (now : Int) (status : TransferStatus)
  | updateProgress (id : Text) (now bytesTransferred : Int)
  | pauseTransfer (id : Text) (now bytesTransferred : Int)
  | completeTransfer (id : Text) (now : Int) (checksum : Text)
  | failTransfer (id : Text) (now : Int)
  | deleteTransfer (id : Text)
  | cleanupOldTransfers (now : Int) (retentionDays : Nat)
  | upsertContact (now : Int) (name peerId ip : Text) (port : UInt16)
  | deleteContact (name : Text)

/-- What a statement leaves. A failed `INSERT` leaves the database as it was. -/
def Database.apply (db : Database) : StoreOp → Database
  | .createTransfer id now peerAddr filePath fileSize =>
    (db.createTransfer id now peerAddr filePath fileSize).getD db
  | .updateTransferStatus id now status => db.updateTransferStatus id now status
  | .updateProgress id now bytes => db.updateProgress id now bytes
  | .pauseTransfer id now bytes => db.pauseTransfer id now bytes
  | .completeTransfer id now checksum => db.completeTransfer id now checksum
  | .failTransfer id now => db.failTransfer id now
  | .deleteTransfer id => db.deleteTransfer id
  | .cleanupOldTransfers now days => db.cleanupOldTransfers now days
  | .upsertContact now name peerId ip port => db.upsertContact now name peerId ip port
  | .deleteContact name => db.deleteContact name

/-- The row that an `UPDATE` of the transfers names. -/
def StoreOp.updates : StoreOp → Option Text
  | .updateTransferStatus id _ _ | .updateProgress id _ _ | .pauseTransfer id _ _
  | .completeTransfer id _ _ | .failTransfer id _ => some id
  | _ => none

namespace Database

variable {db : Database} {op : StoreOp} {id id' : Text}

/-- An update leaves the keys and the sizes. -/
theorem apply_of_updates (db : Database) (h : op.updates = some id) :
    ∃ (f : TransferRecord → TransferRecord) (hf : ∀ r, (f r).id = r.id),
      (db.apply op).transfers = db.transfers.update id f hf ∧ ∀ r, (f r).fileSize = r.fileSize := by
  cases op <;> cases h <;> refine ⟨_, ?_, rfl, fun _ => rfl⟩ <;> exact fun _ => rfl

theorem find_apply_of_ne (h : op.updates = some id) (hne : id' ≠ id) :
    (db.apply op).transfers.find id' = db.transfers.find id' := by
  obtain ⟨f, hf, happly, -⟩ := apply_of_updates db h
  rw [happly, Table.find_update_of_ne hne]

/-- A row stays, and keeps its size. -/
theorem find_apply {r : TransferRecord} (h : op.updates = some id)
    (hr : db.transfers.find id' = some r) :
    ∃ r', (db.apply op).transfers.find id' = some r' ∧ r'.fileSize = r.fileSize := by
  obtain ⟨f, hf, happly, hsize⟩ := apply_of_updates db h
  by_cases he : id' = id
  · subst he
    refine ⟨f r, ?_, hsize r⟩
    rw [happly, Table.find_update_self, hr]
    rfl
  · exact ⟨r, (find_apply_of_ne h he).trans hr, rfl⟩

theorem find_completeTransfer {r : TransferRecord} (now : Int) (checksum : Text)
    (hr : db.transfers.find id = some r) :
    ∃ r', (db.apply (.completeTransfer id now checksum)).transfers.find id = some r' ∧
      r'.fileSize = r.fileSize ∧ r'.status = .completed ∧ r'.bytesTransferred = r.fileSize := by
  refine ⟨{ r with bytesTransferred := r.fileSize, checksum := some checksum,
                   status := .completed, updatedAt := now }, ?_, rfl, rfl, rfl⟩
  show (db.completeTransfer id now checksum).transfers.find id = _
  simp only [completeTransfer, updateTransfer, Table.find_update_self, hr, Option.map_some,
    Option.getD_some]

theorem find_failTransfer {r : TransferRecord} (now : Int) (hr : db.transfers.find id = some r) :
    ∃ r', (db.apply (.failTransfer id now)).transfers.find id = some r' ∧
      r'.fileSize = r.fileSize ∧ r'.status = .failed := by
  refine ⟨{ r with status := .failed, updatedAt := now }, ?_, rfl, rfl⟩
  show (db.failTransfer id now).transfers.find id = _
  simp only [failTransfer, updateTransfer, Table.find_update_self, hr, Option.map_some]

end Database

end P2PTransfer.Resume
