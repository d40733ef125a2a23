import Jkb.Text

/-!
# Jkb.Core.Changelog

The audit log that `undo` reads: entries grouped by the transaction that wrote them. The table and the
operation an entry names are closed sets at the writer and texts in the log, where an entry of a newer
binary may name one that this build does not know.
-/

namespace Jkb.Changelog

open Jkb.Text

/-- What a changelog entry says was done. -/
inductive Op where
  | insert
  | update
  | delete
  | claim
  | release
  | reclaim
  | undo
deriving Repr, DecidableEq

def Op.all : List Op := [.insert, .update, .delete, .claim, .release, .reclaim, .undo]

/-- The string stored in `changelog.op`. -/
def Op.asStr : Op → String
  | .insert => "insert"
  | .update => "update"
  | .delete => "delete"
  | .claim => "claim"
  | .release => "release"
  | .reclaim => "reclaim"
  | .undo => "undo"

/-- The op a stored string names, if this binary knows it. -/
def Op.parse (name : String) : Option Op := Op.all.find? (·.asStr = name)

/-- A table a mutation may be recorded against. -/
inductive Entity where
  | items
  | namespaces
  | placements
  | edges
  | tagDefs
  | tagApplications
  | bindings
  | mounts
  | blobs
  | ingestions
  | containment
  | syncState
  | designUpdates
  | designSnapshots
  | designDocTargets
  | designSources
  | execRequests
  | changelog
deriving Repr, DecidableEq

def Entity.all : List Entity := [.items, .namespaces, .placements, .edges, .tagDefs, .tagApplications,
  .bindings, .mounts, .blobs, .ingestions, .containment, .syncState, .designUpdates, .designSnapshots,
  .designDocTargets, .designSources, .execRequests, .changelog]

/-- The table's name, as stored in `changelog.entity_type`. -/
def Entity.asStr : Entity → String
  | .items => "items"
  | .namespaces => "namespaces"
  | .placements => "placements"
  | .edges => "edges"
  | .tagDefs => "tag_defs"
  | .tagApplications => "tag_applications"
  | .bindings => "bindings"
  | .mounts => "mounts"
  | .blobs => "blobs"
  | .ingestions => "ingestions"
  | .containment => "containment"
  | .syncState => "sync_state"
  | .designUpdates => "design_updates"
  | .designSnapshots => "design_snapshots"
  | .designDocTargets => "design_doc_targets"
  | .designSources => "design_sources"
  | .execRequests => "exec_requests"
  | .changelog => "changelog"

/-- The table a stored name is, if this binary knows it. -/
def Entity.parse (name : String) : Option Entity := Entity.all.find? (·.asStr = name)

/-- How an insert recorded against a table is reversed. -/
inductive InsertInverse where
  | deleteRow
  | never
  | forwardUpdate
  | irreversible
deriving Repr, DecidableEq

def Entity.insertInverse : Entity → InsertInverse
  | .items | .namespaces | .placements | .edges | .tagDefs | .tagApplications | .bindings | .mounts
  | .ingestions | .containment | .designDocTargets | .designSources => .deleteRow
  | .designUpdates => .forwardUpdate
  | .execRequests => .irreversible
  | .syncState | .changelog | .blobs | .designSnapshots => .never

/-- What a writer logs of one mutation. The `undo` marker is not a writer's to log. -/
structure Logged where
  op : String
  entityType : String
  entityId : String
  before : Option String
  not_undo : op ≠ Op.undo.asStr
deriving DecidableEq

/-- A row of `changelog`, as `undo` reads it. -/
structure Entry where
  txnId : Int
  op : String
  entityType : String
  entityId : String
  before : Option String
deriving Repr, DecidableEq

/-- What a writer logs in transaction `txnId`. -/
def Logged.entry (l : Logged) (txnId : Int) : Entry := ⟨txnId, l.op, l.entityType, l.entityId, l.before⟩

/-- `CAST(txn_id AS TEXT)`. -/
def idText (n : Int) : String := String.ofList (showInt n)

/-- The marker that transaction `undone` was reverted by transaction `txnId`. -/
def marker (txnId undone : Int) : Entry :=
  ⟨txnId, Op.undo.asStr, Entity.changelog.asStr, idText undone, none⟩

/-- The id of the next transaction: `COALESCE(MAX(txn_id), 0) + 1`. -/
def nextTxn (log : List Entry) : Int := ((log.map (·.txnId)).max?).getD 0 + 1

theorem Op.parse_eq_some {name : String} {op : Op} : Op.parse name = some op ↔ name = op.asStr := by
  constructor
  · intro h
    simpa [eq_comm] using List.find?_some h
  · rintro rfl
    cases op <;> decide +kernel

theorem Entity.parse_eq_some {name : String} {e : Entity} :
    Entity.parse name = some e ↔ name = e.asStr := by
  constructor
  · intro h
    simpa [eq_comm] using List.find?_some h
  · rintro rfl
    cases e <;> decide +kernel

theorem Op.asStr_inj {a b : Op} : a.asStr = b.asStr ↔ a = b := by
  constructor
  · intro h
    have ha : Op.parse a.asStr = some a := Op.parse_eq_some.mpr rfl
    have hb : Op.parse a.asStr = some b := Op.parse_eq_some.mpr h
    exact Option.some.inj (ha.symm.trans hb)
  · exact congrArg Op.asStr

theorem Entity.asStr_inj {a b : Entity} : a.asStr = b.asStr ↔ a = b := by
  constructor
  · intro h
    have ha : Entity.parse a.asStr = some a := Entity.parse_eq_some.mpr rfl
    have hb : Entity.parse a.asStr = some b := Entity.parse_eq_some.mpr h
    exact Option.some.inj (ha.symm.trans hb)
  · exact congrArg Entity.asStr

theorem idText_injective : Function.Injective idText := by
  intro a b h
  exact showInt_injective (String.ofList_injective h)

/-- The next transaction is above every one in the log. -/
theorem lt_nextTxn {log : List Entry} {e : Entry} (he : e ∈ log) : e.txnId < nextTxn log := by
  have hmem : e.txnId ∈ log.map (·.txnId) := List.mem_map_of_mem he
  obtain ⟨m, hm⟩ := Option.isSome_iff_exists.mp (List.isSome_max?_of_mem hmem)
  have hle := (List.max?_eq_some_iff.mp hm).2 _ hmem
  rw [nextTxn, hm, Option.getD_some]
  omega

end Jkb.Changelog
