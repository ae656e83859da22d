import P2PTransfer.Lib.Machine64
import P2PTransfer.Transfer.Resume

/-!
# Deleting old transfers

`cleanup_old_transfers` with its machine arithmetic: a product of unsigned numbers, two casts,
and a difference of signed ones. In a build with overflow checks the product and the difference
may panic. Otherwise the cutoff is right modulo 2 to the 64, and a long retention can put it in
the future.

## Main definitions

- `Database.tryCleanupOldTransfers` — the method, which may panic, and what it returns
- `TransferRecord.isOld` — what it should delete
- `CleansUp` — it deletes that, and returns the number

## Main results

- `tryCleanupOldTransfers_isSome` — when the method does not panic
- `cleansUp_iff` — when it does what it should
- `cleansUp_of_lt` — it does for every retention of less than 2 to the 63 seconds
-/

namespace P2PTransfer.Resume

open Machine64

namespace TransferRecord

def finished (r : TransferRecord) : Bool :=
  decide (r.status = .completed ∨ r.status = .failed)

/-- What the `DELETE` matches. -/
def matched (cutoff : Int) (r : TransferRecord) : Bool :=
  decide (r.updatedAt < cutoff ∧ (r.status = .completed ∨ r.status = .failed))

/-- Finished, and older than the retention in unbounded integers. -/
def isOld (now retentionDays : Nat) (r : TransferRecord) : Bool :=
  r.finished && decide (r.updatedAt < (now : Int) - retentionDays * 86400)

theorem matched_eq (cutoff : Int) (r : TransferRecord) :
    r.matched cutoff = (r.finished && decide (r.updatedAt < cutoff)) := by
  rw [matched, finished, Bool.decide_and, Bool.and_comm]

end TransferRecord

/-- `cleanup_old_transfers` at a second of the clock. -/
def Database.tryCleanupOldTransfers (checks : Bool) (db : Database) (now retentionDays : Nat) :
    Option (Database × Nat) := do
  let retention ← mulU64 checks retentionDays 86400
  let cutoff ← subI64 checks (asI64 now) (asI64 retention)
  return ({ db with transfers := db.transfers.deleteWhere (TransferRecord.matched cutoff) },
    (db.transfers.rows.filter (TransferRecord.matched cutoff)).length)

/-- The method deletes exactly the old records, and returns their number. -/
def CleansUp (checks : Bool) (db : Database) (now retentionDays : Nat) : Prop :=
  ∃ db', db.tryCleanupOldTransfers checks now retentionDays =
      some (db', (db.transfers.rows.filter (TransferRecord.isOld now retentionDays)).length) ∧
    db'.transfers.rows =
      db.transfers.rows.filter (fun r => !TransferRecord.isOld now retentionDays r) ∧
    db'.contacts = db.contacts

/-- Neither the product nor the difference of the casts overflows. -/
def Fits (now retentionDays : Nat) : Prop :=
  retentionDays * 86400 < 2 ^ 64 ∧ -2 ^ 63 ≤ asI64 now - asI64 (retentionDays * 86400) ∧
    asI64 now - asI64 (retentionDays * 86400) < 2 ^ 63

/-- A time is not between two others: both have it on the same side. -/
def Apart (a b t : Int) : Prop := t < min a b ∨ max a b ≤ t

theorem apart_iff {a b t : Int} : Apart a b t ↔ (t < a ↔ t < b) := by
  unfold Apart
  omega

section Cleanup

variable {checks : Bool} {db db' : Database} {now retentionDays retention n : Nat} {cutoff : Int}

/-- The method is its two operations and the statement. -/
theorem tryCleanupOldTransfers_eq_some :
    db.tryCleanupOldTransfers checks now retentionDays = some (db', n) ↔
      ∃ retention cutoff, mulU64 checks retentionDays 86400 = some retention ∧
        subI64 checks (asI64 now) (asI64 retention) = some cutoff ∧
        db' = { db with
          transfers := db.transfers.deleteWhere (TransferRecord.matched cutoff) } ∧
        n = (db.transfers.rows.filter (TransferRecord.matched cutoff)).length := by
  simp only [Database.tryCleanupOldTransfers, Option.bind_eq_bind, Option.bind_eq_some_iff,
    Option.pure_def, Option.some.injEq, Prod.mk.injEq]
  constructor
  · rintro ⟨retention, hmul, cutoff, hsub, hdb, hn⟩
    exact ⟨retention, cutoff, hmul, hsub, hdb.symm, hn.symm⟩
  · rintro ⟨retention, cutoff, hmul, hsub, hdb, hn⟩
    exact ⟨retention, hmul, cutoff, hsub, hdb.symm, hn.symm⟩

theorem asI64_retention (hmul : mulU64 checks retentionDays 86400 = some retention) :
    asI64 retention = asI64 (retentionDays * 86400) :=
  bmod_of_mod (narrow_eq_some hmul)

/-- The cutoff is right modulo 2 to the 64. -/
theorem cutoff_eq (hmul : mulU64 checks retentionDays 86400 = some retention)
    (hsub : subI64 checks (asI64 now) (asI64 retention) = some cutoff) :
    cutoff = Int.bmod ((now : Int) - retentionDays * 86400) (2 ^ 64) := by
  have hdays : ((retentionDays * 86400 : Nat) : Int) = retentionDays * 86400 := by push_cast; rfl
  rw [narrowI64_eq_some hsub, asI64_retention hmul, ← hdays]
  exact bmod_sub_of_bmod now _ _

/-- What a call that returns leaves is what the statement of the store leaves. -/
theorem tryCleanupOldTransfers_store
    (h : db.tryCleanupOldTransfers checks now retentionDays = some (db', n)) :
    db' = db.apply (.cleanupOldTransfers (asI64 now) retentionDays) := by
  obtain ⟨retention, cutoff, hmul, hsub, rfl, rfl⟩ := tryCleanupOldTransfers_eq_some.mp h
  have hcut : cutoff = Database.cleanupCutoff (asI64 now) retentionDays := by
    rw [narrowI64_eq_some hsub, asI64_retention hmul]
    rfl
  rw [hcut]
  rfl

/-- Without overflow checks the method never panics, and with them it does on an overflow. -/
theorem tryCleanupOldTransfers_isSome :
    (db.tryCleanupOldTransfers checks now retentionDays).isSome ↔
      (checks = true → Fits now retentionDays) := by
  cases checks with
  | false =>
    obtain ⟨retention, hmul⟩ :=
      Option.isSome_iff_exists.mp (narrow_unchecked (retentionDays * 86400))
    obtain ⟨cutoff, hsub⟩ :=
      Option.isSome_iff_exists.mp (narrowI64_unchecked (asI64 now - asI64 retention))
    have hcall : (db.tryCleanupOldTransfers false now retentionDays).isSome :=
      Option.isSome_iff_exists.mpr
        ⟨_, tryCleanupOldTransfers_eq_some.mpr ⟨retention, cutoff, hmul, hsub, rfl, rfl⟩⟩
    simp [hcall]
  | true =>
    rw [Option.isSome_iff_exists]
    constructor
    · rintro ⟨⟨db', n⟩, h⟩ -
      obtain ⟨retention, cutoff, hmul, hsub, -, -⟩ := tryCleanupOldTransfers_eq_some.mp h
      have hrange := narrowI64_isSome.mp (Option.isSome_iff_exists.mpr ⟨cutoff, hsub⟩)
      rw [asI64_retention hmul] at hrange
      exact ⟨narrow_isSome.mp (Option.isSome_iff_exists.mpr ⟨retention, hmul⟩), hrange⟩
    · intro h
      obtain ⟨hlt, hrange⟩ := h rfl
      obtain ⟨cutoff, hsub⟩ := Option.isSome_iff_exists.mp (narrowI64_isSome.mpr hrange)
      exact ⟨_, tryCleanupOldTransfers_eq_some.mpr
        ⟨_, cutoff, mulU64_of_lt hlt, hsub, rfl, rfl⟩⟩

theorem matched_eq_isOld_iff {r : TransferRecord} :
    r.matched cutoff = r.isOld now retentionDays ↔
      (r.finished → Apart ((now : Int) - retentionDays * 86400) cutoff r.updatedAt) := by
  rw [TransferRecord.matched_eq, TransferRecord.isOld]
  cases r.finished
  · simp
  · simp [apart_iff, iff_comm]

/-- A call that deletes what it should shows that no finished record is between the cutoffs. -/
theorem CleansUp.apart (h : CleansUp checks db now retentionDays) :
    ∀ r ∈ db.transfers.rows, r.finished →
      Apart ((now : Int) - retentionDays * 86400)
        (Int.bmod ((now : Int) - retentionDays * 86400) (2 ^ 64)) r.updatedAt := by
  intro r hr
  obtain ⟨db', hcall, hrows, -⟩ := h
  obtain ⟨retention, cutoff, hmul, hsub, rfl, -⟩ := tryCleanupOldTransfers_eq_some.mp hcall
  have hkept : r ∈ db.transfers.rows.filter (fun r => !r.matched cutoff) ↔
      r ∈ db.transfers.rows.filter (fun r => !r.isOld now retentionDays) :=
    iff_of_eq (congrArg (r ∈ ·) hrows)
  simp only [List.mem_filter, hr, true_and, Bool.not_eq_true', Bool.eq_false_iff] at hkept
  rw [← cutoff_eq hmul hsub]
  exact matched_eq_isOld_iff.mp (Bool.eq_iff_iff.mpr (not_iff_not.mp hkept))

theorem cleansUp_of_apart (hfits : checks = true → Fits now retentionDays)
    (hapart : ∀ r ∈ db.transfers.rows, r.finished →
      Apart ((now : Int) - retentionDays * 86400)
        (Int.bmod ((now : Int) - retentionDays * 86400) (2 ^ 64)) r.updatedAt) :
    CleansUp checks db now retentionDays := by
  have hsome : (db.tryCleanupOldTransfers checks now retentionDays).isSome :=
    tryCleanupOldTransfers_isSome.mpr hfits
  obtain ⟨⟨db', n⟩, hcall⟩ := Option.isSome_iff_exists.mp hsome
  obtain ⟨retention, cutoff, hmul, hsub, rfl, rfl⟩ := tryCleanupOldTransfers_eq_some.mp hcall
  have hmatched : ∀ r ∈ db.transfers.rows, r.matched cutoff = r.isOld now retentionDays := by
    intro r hr
    rw [matched_eq_isOld_iff, cutoff_eq hmul hsub]
    exact hapart r hr
  have hkept : db.transfers.rows.filter (fun r => !r.matched cutoff) =
      db.transfers.rows.filter (fun r => !r.isOld now retentionDays) := by
    apply List.filter_congr
    intro r hr
    rw [hmatched r hr]
  rw [List.filter_congr hmatched] at hcall
  exact ⟨_, hcall, hkept, rfl⟩

/-- The exact condition: no overflow that panics, and no finished record between the cutoff and
its residue. -/
theorem cleansUp_iff :
    CleansUp checks db now retentionDays ↔
      (checks = true → Fits now retentionDays) ∧
        ∀ r ∈ db.transfers.rows, r.finished →
          Apart ((now : Int) - retentionDays * 86400)
            (Int.bmod ((now : Int) - retentionDays * 86400) (2 ^ 64)) r.updatedAt := by
  constructor
  · intro h
    obtain ⟨db', hcall, -, -⟩ := id h
    exact ⟨tryCleanupOldTransfers_isSome.mp (Option.isSome_iff_exists.mpr ⟨_, hcall⟩), h.apart⟩
  · rintro ⟨hfits, hapart⟩
    exact cleansUp_of_apart hfits hapart

/-- A retention of less than 2 to the 63 seconds is kept, whatever the store holds. -/
theorem cleansUp_of_lt (hnow : now < 2 ^ 63) (hdays : retentionDays * 86400 < 2 ^ 63) :
    CleansUp checks db now retentionDays := by
  have hfits : Fits now retentionDays := by
    unfold Fits
    rw [asI64_of_lt hnow, asI64_of_lt hdays]
    omega
  have hbmod : Int.bmod ((now : Int) - retentionDays * 86400) (2 ^ 64) =
      (now : Int) - retentionDays * 86400 := by
    apply Int.bmod_eq_of_le
    · omega
    · omega
  refine cleansUp_of_apart (fun _ => hfits) ?_
  intro r _ _
  rw [hbmod, apart_iff]

end Cleanup

/-- What a transfer leaves that was created and completed at one second. -/
def justCompleted (id : Text) (now : Int) : Database :=
  (Database.empty.apply (.createTransfer id now [] [] 0)).apply (.completeTransfer id now [])

/-- The seconds of the longest retention wrap to a day less than 2 to the 64, and the cutoff is
tomorrow: it deletes a transfer that was just completed. -/
theorem longest_not_cleansUp :
    ¬ CleansUp false (justCompleted [] 1700000000) 1700000000 (2 ^ 64 - 1) := by
  intro h
  have hcutoff : Int.bmod (((1700000000 : Nat) : Int) - ((2 ^ 64 - 1 : Nat) : Int) * 86400)
      (2 ^ 64) = 1700086400 := by
    decide
  have hexact : ((1700000000 : Nat) : Int) - ((2 ^ 64 - 1 : Nat) : Int) * 86400 < 0 := by
    decide
  have hapart := h.apart
  rw [hcutoff] at hapart
  have hrow : Apart (((1700000000 : Nat) : Int) - ((2 ^ 64 - 1 : Nat) : Int) * 86400) 1700086400
      1700000000 := hapart _ (List.mem_singleton_self _) rfl
  have hold := (apart_iff.mp hrow).mpr (by decide)
  exact absurd (hold.trans hexact) (by decide)

end P2PTransfer.Resume
