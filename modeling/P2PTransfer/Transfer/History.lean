import P2PTransfer.Transfer.Resume

/-!
# The records over a history of statements

The store holds many records and contacts, and statements on them come in any order. Each record
develops as if it were alone, so what a listing or a query returns can be read off the statements
that name it.

## Main definitions

- `StoreOp.onTransfer`, `StoreOp.onContact` — what a statement does to one record, one contact
- `Database.run` — the database after a history
- `Database.Lists`, `Database.listTransfers`, `Database.listContacts` — the listings
-/

namespace P2PTransfer.Resume

open Storage

/-- What a statement does to the record of an id, if there is one. -/
def StoreOp.onTransfer (id : Text) (r : Option TransferRecord) : StoreOp → Option TransferRecord
  | .createTransfer id' now peerAddr filePath fileSize =>
    if id' = id then some (r.getD
      { id := id, peerAddr := peerAddr, filePath := filePath, fileSize := fileSize,
        createdAt := now, updatedAt := now })
    else r
  | .updateTransferStatus id' now status =>
    if id' = id then r.map fun r => { r with status := status, updatedAt := now } else r
  | .updateProgress id' now bytes =>
    if id' = id then r.map fun r =>
      { r with bytesTransferred := bytes, status := .inProgress, updatedAt := now }
    else r
  | .pauseTransfer id' now bytes =>
    if id' = id then r.map fun r =>
      { r with bytesTransferred := bytes, status := .paused, updatedAt := now }
    else r
  | .completeTransfer id' now checksum =>
    if id' = id then r.map fun r =>
      { r with bytesTransferred := r.fileSize, checksum := some checksum, status := .completed,
               updatedAt := now }
    else r
  | .failTransfer id' now =>
    if id' = id then r.map fun r => { r with status := .failed, updatedAt := now } else r
  | .deleteTransfer id' => if id' = id then none else r
  | .cleanupOldTransfers now days => r.filter fun r =>
      !decide (r.updatedAt < Database.cleanupCutoff now days ∧
        (r.status = .completed ∨ r.status = .failed))
  | .upsertContact _ _ _ _ _ | .deleteContact _ => r

def StoreOp.onContact (name : Text) (c : Option Contact) : StoreOp → Option Contact
  | .upsertContact now name' peerId ip port =>
    if name' = name then some ⟨name', peerId, ip, port, now⟩ else c
  | .deleteContact name' => if name' = name then none else c
  | _ => c

namespace Database

variable {db : Database} {ops : List StoreOp} {op : StoreOp} {id name : Text}

def run (db : Database) (ops : List StoreOp) : Database := ops.foldl apply db

theorem find_updateTransfer (db : Database) {id' : Text} (f : TransferRecord → TransferRecord)
    (hf : ∀ r, (f r).id = r.id) (id : Text) :
    (db.updateTransfer id' f hf).transfers.find id =
      if id' = id then (db.transfers.find id).map f else db.transfers.find id := by
  split
  · next h =>
    subst h
    rw [updateTransfer, Table.find_update_self]
  · next h => rw [updateTransfer, Table.find_update_of_ne fun he => h he.symm]

/-- An `INSERT` makes a new record, and fails where there is one. -/
theorem find_createTransfer (db : Database) {id' : Text} (now : Int) (peerAddr filePath : Text)
    (fileSize : Int) (id : Text) :
    (db.apply (.createTransfer id' now peerAddr filePath fileSize)).transfers.find id =
      (StoreOp.createTransfer id' now peerAddr filePath fileSize).onTransfer id
        (db.transfers.find id) := by
  simp only [apply, createTransfer, StoreOp.onTransfer]
  cases hinsert : db.transfers.insert
      { id := id', peerAddr := peerAddr, filePath := filePath, fileSize := fileSize,
        createdAt := now, updatedAt := now } with
  | none =>
    rw [Option.map_none, Option.getD_none]
    split
    · next h =>
      subst h
      have hmem : id' ∈ db.transfers.rows.map TransferRecord.id := by
        by_contra hfresh
        simp [Table.insert, hfresh] at hinsert
      cases hfind : db.transfers.find id' with
      | none => exact absurd hmem (Table.find_eq_none.mp hfind)
      | some r => rfl
    · rfl
  | some t =>
    rw [Option.map_some, Option.getD_some]
    split
    · next h =>
      subst h
      rw [Table.find_of_insert hinsert]
      exact Table.find_insert_self hinsert
    · next h => exact Table.find_insert_of_ne hinsert fun he => h he.symm

/-- **Records are independent.** A statement does to the record of an id what it does to a record
that is alone. -/
theorem find_apply_transfer (db : Database) (op : StoreOp) (id : Text) :
    (db.apply op).transfers.find id = op.onTransfer id (db.transfers.find id) := by
  cases op with
  | createTransfer id' now peerAddr filePath fileSize =>
    exact find_createTransfer db now peerAddr filePath fileSize id
  | updateTransferStatus id' now status => exact find_updateTransfer db _ _ id
  | updateProgress id' now bytes => exact find_updateTransfer db _ _ id
  | pauseTransfer id' now bytes => exact find_updateTransfer db _ _ id
  | completeTransfer id' now checksum =>
    rw [apply, completeTransfer, find_updateTransfer, StoreOp.onTransfer]
    split
    · next h =>
      subst h
      cases db.transfers.find id' <;> rfl
    · rfl
  | failTransfer id' now => exact find_updateTransfer db _ _ id
  | deleteTransfer id' =>
    rw [apply, deleteTransfer, Table.find_delete, StoreOp.onTransfer]
    exact if_congr eq_comm rfl rfl
  | cleanupOldTransfers now days => exact Table.find_deleteWhere _
  | upsertContact => rfl
  | deleteContact => rfl

theorem find_apply_contact (db : Database) (op : StoreOp) (name : Text) :
    (db.apply op).contacts.find name = op.onContact name (db.contacts.find name) := by
  cases op with
  | upsertContact now name' peerId ip port => exact Table.find_upsert _ _
  | deleteContact name' =>
    rw [apply, deleteContact, Table.find_delete, StoreOp.onContact]
    exact if_congr eq_comm rfl rfl
  | createTransfer id now peerAddr filePath fileSize =>
    simp only [apply, createTransfer, StoreOp.onContact]
    cases db.transfers.insert _ <;> rfl
  | _ => rfl

theorem find_run_transfer (db : Database) (ops : List StoreOp) (id : Text) :
    (db.run ops).transfers.find id =
      ops.foldl (fun r op => op.onTransfer id r) (db.transfers.find id) := by
  induction ops generalizing db with
  | nil => rfl
  | cons op ops ih =>
    rw [run, List.foldl_cons, List.foldl_cons, ← find_apply_transfer]
    exact ih (db.apply op)

theorem find_run_contact (db : Database) (ops : List StoreOp) (name : Text) :
    (db.run ops).contacts.find name =
      ops.foldl (fun c op => op.onContact name c) (db.contacts.find name) := by
  induction ops generalizing db with
  | nil => rfl
  | cons op ops ih =>
    rw [run, List.foldl_cons, List.foldl_cons, ← find_apply_contact]
    exact ih (db.apply op)

/-- `SELECT … ORDER BY updated_at DESC`, which leaves open what comes first of equal times. -/
structure Lists (db : Database) (records : List TransferRecord) : Prop where
  rows : records.Perm db.transfers.rows
  order : records.Pairwise fun a b => b.updatedAt ≤ a.updatedAt

def listTransfers (db : Database) : List TransferRecord :=
  db.transfers.rows.mergeSort fun a b => decide (b.updatedAt ≤ a.updatedAt)

def listContacts (db : Database) : List Contact :=
  db.contacts.rows.mergeSort fun a b => decide (a.name ≤ b.name)

theorem lists_listTransfers (db : Database) : db.Lists db.listTransfers where
  rows := List.mergeSort_perm _ _
  order := by
    have hsorted := @List.pairwise_mergeSort TransferRecord
      (fun a b => decide (b.updatedAt ≤ a.updatedAt))
      (by simp only [decide_eq_true_eq]; omega)
      (by simp only [Bool.or_eq_true, decide_eq_true_eq]; omega) db.transfers.rows
    exact hsorted.imp fun h => of_decide_eq_true h

theorem Lists.mem_iff {records : List TransferRecord} (h : db.Lists records) {r : TransferRecord} :
    r ∈ records ↔ db.transfers.find r.id = some r :=
  h.rows.mem_iff.trans Table.mem_rows_iff

theorem Lists.nodup {records : List TransferRecord} (h : db.Lists records) :
    (records.map TransferRecord.id).Nodup :=
  (h.rows.map _).nodup_iff.mpr db.transfers.nodup

theorem mem_listContacts {c : Contact} :
    c ∈ db.listContacts ↔ db.contacts.find c.name = some c :=
  (List.mergeSort_perm _ _).mem_iff.trans Table.mem_rows_iff

/-- No two contacts of a listing have one name. -/
theorem listContacts_sorted (db : Database) :
    db.listContacts.Pairwise fun a b => a.name < b.name := by
  have hsorted := @List.pairwise_mergeSort Contact (fun a b => decide (a.name ≤ b.name))
    (by simp only [decide_eq_true_eq]; exact fun a b c => le_trans)
    (by simp only [Bool.or_eq_true, decide_eq_true_eq]; exact fun a b => le_total _ _)
    db.contacts.rows
  have hnodup : (db.listContacts.map Contact.name).Nodup :=
    ((List.mergeSort_perm _ _).map _).nodup_iff.mpr db.contacts.nodup
  have hboth := hsorted.and (List.pairwise_map.mp hnodup)
  exact hboth.imp fun h => lt_of_le_of_ne (of_decide_eq_true h.1) h.2

/-- **The store is a family of registers.** After any history, each record and each contact is
what the statements that name it make of it alone, the listings hold every record and every
contact once, and the queries return what the listings hold. -/
theorem run_registers (db : Database) (ops : List StoreOp) :
    (∀ id, (db.run ops).transfers.find id =
      ops.foldl (fun r op => op.onTransfer id r) (db.transfers.find id)) ∧
    (∀ name, (db.run ops).contacts.find name =
      ops.foldl (fun c op => op.onContact name c) (db.contacts.find name)) ∧
    (∀ records, (db.run ops).Lists records →
      (records.map TransferRecord.id).Nodup ∧
        ∀ r, r ∈ records ↔ (db.run ops).transfers.find r.id = some r) ∧
    (db.run ops).Lists (db.run ops).listTransfers ∧
    (db.run ops).listContacts.Pairwise (fun a b => a.name < b.name) ∧
    ∀ c, c ∈ (db.run ops).listContacts ↔ (db.run ops).contacts.find c.name = some c :=
  ⟨find_run_transfer db ops, find_run_contact db ops,
    fun _ h => ⟨h.nodup, fun _ => h.mem_iff⟩, lists_listTransfers _, listContacts_sorted _,
    fun _ => mem_listContacts⟩

end Database

end P2PTransfer.Resume
