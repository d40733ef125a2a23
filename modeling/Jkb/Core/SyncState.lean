import Mathlib.Data.List.Basic

/-!
# Jkb.Core.SyncState

The sync journal of `sync_state.rs`: one row per synced file, which holds the file's last-synced
hash, the base of its next three-way merge, its document structure, and any standing flag.

The functions here are those of one file's row. The changelog entry a write appends is the store's
business and is not part of the row.
-/

namespace Jkb

/-- A row of `sync_state`. -/
structure SyncState where
  uri : String
  serializer : String
  status : String
  lastSyncedHash : Option String
  baseBlobHash : Option String
  parseError : Option String
  quarantineBlobHash : Option String
  document : Option String
  updatedAt : String
deriving Repr, DecidableEq

/-- The row a caller wants. -/
structure SyncStateWrite where
  uri : String
  serializer : String
  status : String
  lastSyncedHash : Option String
  baseBlobHash : Option String
  parseError : Option String
  quarantineBlobHash : Option String
  document : Option String
deriving Repr, DecidableEq

namespace SyncStateWrite

/-- The row as it is stored, stamped with the time of the write. -/
def row (w : SyncStateWrite) (now : String) : SyncState where
  uri := w.uri
  serializer := w.serializer
  status := w.status
  lastSyncedHash := w.lastSyncedHash
  baseBlobHash := w.baseBlobHash
  parseError := w.parseError
  quarantineBlobHash := w.quarantineBlobHash
  document := w.document
  updatedAt := now

/-- The write would change nothing. -/
def unchanged (w : SyncStateWrite) (row : SyncState) : Bool :=
  row.serializer = w.serializer && row.status = w.status &&
    row.lastSyncedHash = w.lastSyncedHash && row.baseBlobHash = w.baseBlobHash &&
    row.parseError = w.parseError && row.quarantineBlobHash = w.quarantineBlobHash &&
    row.document = w.document

end SyncStateWrite

namespace SyncState

/-- `sync_state::upsert` on the file's row: a write that changes nothing is not made, so the row
keeps the time of the write that set it. -/
def upsert (existing : Option SyncState) (now : String) (w : SyncStateWrite) : SyncState :=
  match existing with
  | some row => if w.unchanged row then row else w.row now
  | none => w.row now

theorem upsert_status (existing : Option SyncState) (now : String) (w : SyncStateWrite) :
    (upsert existing now w).status = w.status := by
  cases existing with
  | none => rfl
  | some row =>
      by_cases h : w.unchanged row <;> simp only [upsert, h, if_true]
      · simp only [SyncStateWrite.unchanged, Bool.and_eq_true, decide_eq_true_eq] at h
        exact h.1.1.1.1.1.2
      · rfl

theorem upsert_quarantineBlobHash (existing : Option SyncState) (now : String)
    (w : SyncStateWrite) :
    (upsert existing now w).quarantineBlobHash = w.quarantineBlobHash := by
  cases existing with
  | none => rfl
  | some row =>
      by_cases h : w.unchanged row <;> simp only [upsert, h, if_true]
      · simp only [SyncStateWrite.unchanged, Bool.and_eq_true, decide_eq_true_eq] at h
        exact h.1.2
      · rfl

/-- `sync_state::settle`: clear a standing flag and keep everything else the row holds, its stash
included. -/
def settle (existing : Option SyncState) (now : String) : Option SyncState :=
  match existing with
  | none => none
  | some row =>
      if row.status = "ok" then some row
      else
        some (upsert (some row) now
          { uri := row.uri, serializer := row.serializer, status := "ok"
            lastSyncedHash := row.lastSyncedHash, baseBlobHash := row.baseBlobHash
            parseError := none, quarantineBlobHash := row.quarantineBlobHash
            document := row.document })

end SyncState

end Jkb
