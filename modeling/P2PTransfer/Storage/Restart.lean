import P2PTransfer.Network.Discovery
import P2PTransfer.Transfer.Resume

/-!
# The data directory of the desktop program over a restart

At its start the program opens the resume store and then loads its identity, which clears
the data directory when it finds no valid short id. A removed directory is detached from
its path: a database that is open in it can still be written to, and no later start finds
it.

## Main definitions

- `FileSystem` — the data directory and the databases, the detached ones included
- `loadOrCreateIdentity`, `start` — the two steps of a start, and the start
- `Survives` — what a session writes is there at the next start

## Main results

- `survives_iff` — it is exactly when the start finds a valid short id
-/

namespace P2PTransfer.Desktop

open Discovery Resume

/-- `short_id.txt`. A file that is there may still not be read as text. -/
inductive ShortIdFile where
  | missing
  | unreadable
  | readable (content : Text)
deriving DecidableEq

/-- The paths that a start looks at. The resume store is the database file in its own
directory, if the directory is there. -/
structure DataDir where
  identityKey : Bool
  shortId : ShortIdFile
  resume : Option Nat
  config : Bool
deriving DecidableEq

/-- The data directory, and the contents of all database files by their numbers. -/
structure FileSystem where
  dir : DataDir
  files : Nat → Database
  next : Nat

namespace FileSystem

/-- `TransferResumeManager::new`: the number of the file that it has open. -/
def openStore (fs : FileSystem) : FileSystem × Nat :=
  match fs.dir.resume with
  | some file => (fs, file)
  | none =>
    ({ dir := { fs.dir with resume := some fs.next },
       files := Function.update fs.files fs.next Database.empty, next := fs.next + 1 }, fs.next)

/-- Whether `load_or_create_identity` clears the directory. -/
def needsReset (fs : FileSystem) : Bool :=
  match fs.dir.shortId with
  | .missing | .unreadable => true
  | .readable content => !isShortId (trim content)

/-- `load_or_create_identity` on the files, for the id that `generate_random_short_id`
gives. Its removals succeed. -/
def loadOrCreateIdentity (fs : FileSystem) (generated : Text) : FileSystem :=
  let dir := { fs.dir with identityKey := false }
  let dir := if fs.needsReset
    then { dir with resume := none, config := false, shortId := .missing } else dir
  match dir.shortId with
  | .missing => { fs with dir := { dir with shortId := .readable generated } }
  | _ => { fs with dir := dir }

/-- The start of the program. -/
def start (fs : FileSystem) (generated : Text) : FileSystem × Nat :=
  let opened := fs.openStore
  (opened.1.loadOrCreateIdentity generated, opened.2)

/-- The writes of a session through its open file. -/
def session (fs : FileSystem) (file : Nat) (ops : List StoreOp) : FileSystem :=
  { fs with files := Function.update fs.files file (ops.foldl Database.apply (fs.files file)) }

/-- The rows of `db` that `old` has not. -/
structure Includes (new old db : Database) : Prop where
  contacts : ∀ r ∈ db.contacts.rows, r ∉ old.contacts.rows → r ∈ new.contacts.rows
  transfers : ∀ r ∈ db.transfers.rows, r ∉ old.transfers.rows → r ∈ new.transfers.rows

/-- Whatever a session writes, the rows that it leaves are in the database that the next
start opens. -/
def Survives (fs : FileSystem) : Prop :=
  ∀ generated ops, let started := fs.start generated
    let ended := started.1.session started.2 ops
    let reopened := ended.openStore
    Includes (reopened.1.files reopened.2) (started.1.files started.2) (ended.files started.2)

variable {fs : FileSystem} {generated : Text}

@[simp] theorem dir_session (file : Nat) (ops : List StoreOp) :
    (fs.session file ops).dir = fs.dir := rfl

theorem files_session (file : Nat) (ops : List StoreOp) :
    (fs.session file ops).files file = ops.foldl Database.apply (fs.files file) := by
  simp [session]

@[simp] theorem files_loadOrCreateIdentity :
    (fs.loadOrCreateIdentity generated).files = fs.files := by
  simp only [loadOrCreateIdentity]
  split <;> rfl

theorem shortId_openStore : fs.openStore.1.dir.shortId = fs.dir.shortId := by
  simp only [openStore]
  split <;> rfl

theorem needsReset_openStore : fs.openStore.1.needsReset = fs.needsReset := by
  simp only [needsReset, shortId_openStore]

/-- The path leads to the file that has been opened. -/
theorem resume_openStore : fs.openStore.1.dir.resume = some fs.openStore.2 := by
  simp only [openStore]
  split
  · assumption
  · rfl

/-- A clearing start removes the path. -/
theorem resume_of_needsReset (h : fs.needsReset = true) :
    (fs.loadOrCreateIdentity generated).dir.resume = none := by
  simp only [loadOrCreateIdentity, h, if_true]

/-- Any other start leaves it. -/
theorem resume_of_not_needsReset (h : fs.needsReset = false) :
    (fs.loadOrCreateIdentity generated).dir.resume = fs.dir.resume := by
  simp only [loadOrCreateIdentity, h, Bool.false_eq_true, if_false]
  split <;> rfl

theorem openStore_of_some {file : Nat} (h : fs.dir.resume = some file) :
    fs.openStore = (fs, file) := by
  simp only [openStore, h]

/-- Where the path leads nowhere, the next start opens an empty database. -/
theorem files_openStore_of_none (h : fs.dir.resume = none) :
    fs.openStore.1.files fs.openStore.2 = Database.empty := by
  simp only [openStore, h, Function.update_self]

/-- After a start that clears nothing the session writes to the file of the next start. -/
theorem survives_of_not_needsReset (h : fs.needsReset = false) : fs.Survives := by
  intro generated ops
  have hresume : ((fs.start generated).1.session (fs.start generated).2 ops).dir.resume =
      some (fs.start generated).2 := by
    rw [dir_session, start, resume_of_not_needsReset (needsReset_openStore.trans h),
      resume_openStore]
  show Includes _ _ _
  rw [openStore_of_some hresume]
  exact ⟨fun r hr _ => hr, fun r hr _ => hr⟩

/-- Some name is in no row. -/
theorem exists_new_name (db : Database) : ∃ name, name ∉ db.contacts.rows.map Contact.name := by
  obtain ⟨name, hname⟩ := Infinite.exists_notMem_finset (db.contacts.rows.map Contact.name).toFinset
  exact ⟨name, fun h => hname (List.mem_toFinset.mpr h)⟩

/-- A contact that is new to the store is lost when the start has cleared the directory. -/
theorem not_survives_of_needsReset (h : fs.needsReset = true) : ¬ fs.Survives := by
  intro hsurvives
  obtain ⟨name, hname⟩ := exists_new_name ((fs.start []).1.files (fs.start []).2)
  have hkept := (hsurvives [] [.upsertContact 0 name [] [] 0]).contacts ⟨name, [], [], 0, 0⟩
  have hresume : ((fs.start []).1.session (fs.start []).2
      [.upsertContact 0 name [] [] 0]).dir.resume = none := by
    rw [dir_session, start, resume_of_needsReset (needsReset_openStore.trans h)]
  rw [files_session, files_openStore_of_none hresume] at hkept
  refine absurd (hkept ?_ ?_) List.not_mem_nil
  · exact Storage.Table.mem_upsert _ _
  · exact fun hmem => hname (List.mem_map_of_mem hmem)

/-- **A session survives the restart exactly when its start finds a valid short id.** -/
theorem survives_iff (fs : FileSystem) :
    fs.Survives ↔ ∃ content, fs.dir.shortId = .readable content ∧ isShortId (trim content) := by
  have hvalid : fs.needsReset = false ↔
      ∃ content, fs.dir.shortId = .readable content ∧ isShortId (trim content) := by
    unfold needsReset
    cases fs.dir.shortId with
    | missing | unreadable => simp
    | readable content => simp
  rw [← hvalid]
  constructor
  · intro hsurvives
    by_contra hreset
    exact not_survives_of_needsReset (Bool.not_eq_false _ ▸ hreset) hsurvives
  · exact survives_of_not_needsReset

/-- A machine on which the program has never run. -/
def fresh : FileSystem where
  dir := { identityKey := false, shortId := .missing, resume := none, config := false }
  files _ := Database.empty
  next := 0

theorem fresh_not_survives : ¬ fresh.Survives := by
  intro hsurvives
  have hkept := (hsurvives "A1B2C3D4".toList
    [.upsertContact 0 "laptop".toList "DEADBEEF".toList [] 0]).contacts
    ⟨"laptop".toList, "DEADBEEF".toList, [], 0, 0⟩
  exact absurd (hkept (.head _) List.not_mem_nil) List.not_mem_nil

end FileSystem

end P2PTransfer.Desktop
