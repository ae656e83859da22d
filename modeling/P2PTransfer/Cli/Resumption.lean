import P2PTransfer.Cli.Records
import P2PTransfer.Transfer.History

/-!
# The record that a send resumes

`cmd_send` looks through a listing of the store for a record of the same file and the same peer that
has neither been completed nor failed, and begins where that record ends. What it finds is decided
by the statements that have named the record.

## Main definitions

- `existingTransfer`, `resumeOffset` — the record that is found, and the offset that it gives
- `StoreOp.commitOf`, `StoreOp.touchOf` — the count and the time that a statement writes to a record
- `committed`, `touched` — the last of them in a history
-/

namespace P2PTransfer.Cli

open Resume Storage

/-- `list_transfers()?.into_iter().find(…)` -/
def existingTransfer (peer path : Text) (records : List TransferRecord) : Option TransferRecord :=
  records.find? (resumable peer path)

/-- `record.bytes_transferred.max(0) as u64`, or zero without a record. -/
def resumeOffset (r : Option TransferRecord) : Nat :=
  (r.map fun r => r.bytesTransferred.toNat).getD 0

end P2PTransfer.Cli

namespace P2PTransfer.Resume

open Storage

/-- The number of bytes that a statement writes to the record of an id, or the one before. -/
def StoreOp.commitOf (id : Text) (fileSize before : Int) : StoreOp → Int
  | .createTransfer id' _ _ _ _ => if id' = id then 0 else before
  | .updateProgress id' _ bytes | .pauseTransfer id' _ bytes => if id' = id then bytes else before
  | .completeTransfer id' _ _ => if id' = id then fileSize else before
  | _ => before

/-- The time that a statement writes to the record of an id. -/
def StoreOp.touchOf (id : Text) : StoreOp → Option Int
  | .createTransfer id' now _ _ _ | .updateTransferStatus id' now _ | .updateProgress id' now _
  | .pauseTransfer id' now _ | .completeTransfer id' now _ | .failTransfer id' now =>
    if id' = id then some now else none
  | _ => none

def StoreOp.creates : StoreOp → Option Text
  | .createTransfer id _ _ _ _ => some id
  | _ => none

/-- The number of bytes that a history has committed for an id, -/
def committed (ops : List StoreOp) (id : Text) (fileSize : Int) : Int :=
  ops.foldl (StoreOp.commitOf id fileSize) 0

/-- and when it has named the id last. -/
def touched (ops : List StoreOp) (id : Text) : Option Int :=
  (ops.filterMap (StoreOp.touchOf id)).getLast?

variable {ops : List StoreOp} {op : StoreOp} {id : Text} {r : TransferRecord}

theorem committed_append (ops : List StoreOp) (op : StoreOp) (id : Text) (fileSize : Int) :
    committed (ops ++ [op]) id fileSize = op.commitOf id fileSize (committed ops id fileSize) := by
  rw [committed, List.foldl_append]
  rfl

theorem touched_append (ops : List StoreOp) (op : StoreOp) (id : Text) :
    touched (ops ++ [op]) id = (op.touchOf id).or (touched ops id) := by
  rw [touched, List.filterMap_append, List.getLast?_append]
  cases h : op.touchOf id <;> simp [h, touched]

/-- The record after a history on a new store. -/
def recordOf (ops : List StoreOp) (id : Text) : Option TransferRecord :=
  ops.foldl (fun r op => op.onTransfer id r) none

theorem recordOf_append (ops : List StoreOp) (op : StoreOp) (id : Text) :
    recordOf (ops ++ [op]) id = op.onTransfer id (recordOf ops id) := by
  rw [recordOf, List.foldl_append]
  rfl

theorem recordOf_eq (ops : List StoreOp) (id : Text) :
    (Database.empty.run ops).transfers.find id = recordOf ops id :=
  Database.find_run_transfer Database.empty ops id

/-- Only `create_transfer` makes a record. -/
theorem onTransfer_none (h : op.creates ≠ some id) : op.onTransfer id none = none := by
  cases op with
  | createTransfer id' now peerAddr filePath fileSize =>
    exact if_neg fun he => h (congrArg some he)
  | _ => simp [StoreOp.onTransfer]

theorem recordOf_eq_none (h : id ∉ ops.filterMap StoreOp.creates) : recordOf ops id = none := by
  induction ops using List.reverseRecOn with
  | nil => rfl
  | append_singleton ops op ih =>
    rw [List.filterMap_append, List.mem_append, not_or] at h
    rw [recordOf_append, ih h.1]
    apply onTransfer_none
    intro hcreate
    apply h.2
    simp [hcreate]

/-- What a statement leaves of a record: its id and size, the count and the time that the statement
writes, or those before. -/
theorem onTransfer_some {r' : TransferRecord} (h : op.creates ≠ some id)
    (hr : op.onTransfer id (some r) = some r') (hid : r.id = id) :
    r'.id = id ∧ r'.fileSize = r.fileSize ∧
      r'.bytesTransferred = op.commitOf id r.fileSize r.bytesTransferred ∧
      some r'.updatedAt = (op.touchOf id).or (some r.updatedAt) := by
  cases op with
  | createTransfer id' now peerAddr filePath fileSize =>
    have hne : ¬ id' = id := fun he => h (congrArg some he)
    simp only [StoreOp.onTransfer, if_neg hne] at hr
    obtain rfl := Option.some.inj hr
    simp [StoreOp.commitOf, StoreOp.touchOf, hne, hid]
  | cleanupOldTransfers now days =>
    simp only [StoreOp.onTransfer, Option.filter_eq_some_iff] at hr
    obtain rfl := Option.some.inj hr.1
    simp [StoreOp.commitOf, StoreOp.touchOf, hid]
  | deleteTransfer id' =>
    by_cases he : id' = id
    · simp [StoreOp.onTransfer, he] at hr
    · simp only [StoreOp.onTransfer, if_neg he] at hr
      obtain rfl := Option.some.inj hr
      simp [StoreOp.commitOf, StoreOp.touchOf, hid]
  | upsertContact | deleteContact =>
    obtain rfl := Option.some.inj hr
    simp [StoreOp.commitOf, StoreOp.touchOf, hid]
  | updateTransferStatus id' | updateProgress id' | pauseTransfer id' | completeTransfer id'
  | failTransfer id' =>
    by_cases he : id' = id
    · simp only [StoreOp.onTransfer, if_pos he, Option.map_some, Option.some.injEq] at hr
      obtain rfl := hr
      simp [StoreOp.commitOf, StoreOp.touchOf, he, hid]
    · simp only [StoreOp.onTransfer, if_neg he] at hr
      obtain rfl := Option.some.inj hr
      simp [StoreOp.commitOf, StoreOp.touchOf, he, hid]

/-- **A record tells its history.** Where no id is made up twice, a record has the count that has
been committed for it last, and the time at which it has been named last. -/
theorem recordOf_history (hfresh : (ops.filterMap StoreOp.creates).Nodup)
    (hr : recordOf ops id = some r) :
    r.id = id ∧ r.bytesTransferred = committed ops id r.fileSize ∧
      touched ops id = some r.updatedAt := by
  induction ops using List.reverseRecOn generalizing r with
  | nil => cases hr
  | append_singleton ops op ih =>
    rw [List.filterMap_append, List.nodup_append] at hfresh
    obtain ⟨hbefore, -, hdisjoint⟩ := hfresh
    rw [recordOf_append] at hr
    rw [committed_append, touched_append]
    by_cases hcreate : op.creates = some id
    · have hnone : recordOf ops id = none := by
        apply recordOf_eq_none
        intro hmem
        exact hdisjoint id hmem id (by simp [hcreate]) rfl
      rw [hnone] at hr
      cases op with
      | createTransfer id' now peerAddr filePath fileSize =>
        obtain rfl : id' = id := Option.some.inj hcreate
        simp only [StoreOp.onTransfer, if_pos, Option.getD_none, Option.some.injEq] at hr
        obtain rfl := hr
        simp [StoreOp.commitOf, StoreOp.touchOf]
      | _ => cases hcreate
    · cases hold : recordOf ops id with
      | none =>
        rw [hold, onTransfer_none hcreate] at hr
        cases hr
      | some r₀ =>
        obtain ⟨hid, hbytes, htouch⟩ := ih hbefore hold
        rw [hold] at hr
        obtain ⟨hid', hsize, hbytes', htime⟩ := onTransfer_some hcreate hr hid
        refine ⟨hid', ?_, ?_⟩
        · rw [hbytes', hsize, hbytes]
        · rw [htouch, htime]

end P2PTransfer.Resume

namespace P2PTransfer.Cli

open Resume Storage

variable {ops : List StoreOp} {peer path : Text} {records : List TransferRecord}
  {r : TransferRecord}

/-- **What a send resumes from.** After any history of the store in which no id has been made up
twice, and for every listing that the database may give, `cmd_send` finds no record only if none is
resumable. Otherwise it takes one that has been named last among the resumable ones, and begins at
the count that has been committed for that record last. -/
theorem existingTransfer_latest (hfresh : (ops.filterMap StoreOp.creates).Nodup)
    (h : (Database.empty.run ops).Lists records) :
    (existingTransfer peer path records = none ↔
      ∀ id r, (Database.empty.run ops).transfers.find id = some r → ¬ resumable peer path r) ∧
    ∀ r, existingTransfer peer path records = some r →
      (Database.empty.run ops).transfers.find r.id = some r ∧ resumable peer path r ∧
      resumeOffset (existingTransfer peer path records) =
        (committed ops r.id r.fileSize).toNat ∧
      touched ops r.id = some r.updatedAt ∧
      ∀ r', (Database.empty.run ops).transfers.find r'.id = some r' → resumable peer path r' →
        ∃ t, touched ops r'.id = some t ∧ t ≤ r.updatedAt := by
  constructor
  · rw [existingTransfer, List.find?_eq_none]
    constructor
    · intro hnone id r hr
      obtain rfl : r.id = id := Table.key_of_find hr
      exact hnone r (h.mem_iff.mpr hr)
    · intro hnone r hr
      exact hnone r.id r (h.mem_iff.mp hr)
  · intro r hr
    obtain ⟨hres, before, after, hsplit, hbefore⟩ := List.find?_eq_some_iff_append.mp hr
    have hmem : r ∈ records := List.mem_of_find?_eq_some hr
    have hfind := h.mem_iff.mp hmem
    have hhistory := recordOf_history hfresh ((recordOf_eq ops r.id).symm.trans hfind)
    refine ⟨hfind, hres, ?_, hhistory.2.2, fun r' hr' hres' => ?_⟩
    · rw [hr, resumeOffset, Option.map_some, Option.getD_some, hhistory.2.1]
    · have hhistory' := recordOf_history hfresh ((recordOf_eq ops r'.id).symm.trans hr')
      refine ⟨_, hhistory'.2.2, ?_⟩
      have hmem' : r' ∈ before ++ r :: after := hsplit ▸ h.mem_iff.mpr hr'
      have horder := hsplit ▸ h.order
      rcases List.mem_append.mp hmem' with hearly | hlate
      · have hnot := hbefore r' hearly
        rw [hres'] at hnot
        exact absurd hnot (by decide)
      · rcases List.mem_cons.mp hlate with rfl | hafter
        · exact le_rfl
        · exact (List.pairwise_cons.mp (List.pairwise_append.mp horder).2.1).1 r' hafter

/-- Two sends of one file, of which the first one has gone on last. -/
def twoSends : List StoreOp :=
  [.createTransfer ['a'] 1 ['p'] ['/', 'f'] 500, .createTransfer ['b'] 2 ['p'] ['/', 'f'] 500,
    .updateProgress ['b'] 3 200, .updateProgress ['a'] 4 100]

def firstSend : TransferRecord where
  id := ['a']
  peerAddr := ['p']
  filePath := ['/', 'f']
  fileSize := 500
  bytesTransferred := 100
  status := .inProgress
  createdAt := 1
  updatedAt := 4

def secondSend : TransferRecord where
  id := ['b']
  peerAddr := ['p']
  filePath := ['/', 'f']
  fileSize := 500
  bytesTransferred := 200
  status := .inProgress
  createdAt := 2
  updatedAt := 3

theorem existingTransfer_latest_twoSends :
    existingTransfer ['p'] ['/', 'f'] [firstSend, secondSend] = some firstSend ∧
      resumeOffset (existingTransfer ['p'] ['/', 'f'] [firstSend, secondSend]) =
        (committed twoSends ['a'] 500).toNat ∧ committed twoSends ['a'] 500 = 100 := by
  have hlists : (Database.empty.run twoSends).Lists [firstSend, secondSend] :=
    ⟨.refl _, by decide⟩
  have hfound : existingTransfer ['p'] ['/', 'f'] [firstSend, secondSend] = some firstSend := by
    decide +kernel
  have hlatest := (existingTransfer_latest
    (show (twoSends.filterMap StoreOp.creates).Nodup by decide) hlists).2 firstSend hfound
  exact ⟨hfound, hlatest.2.2.1, by decide⟩

end P2PTransfer.Cli
