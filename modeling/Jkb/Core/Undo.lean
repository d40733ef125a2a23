import Jkb.Core.Changelog
import Jkb.Tx
import Mathlib.Data.List.Sort

/-!
# Jkb.Core.Undo

Undo: a transaction is reverted whole by inverting its changelog entries, newest first, or it is
refused. What a refusal leaves is what there was, and a reverted transaction is marked in the log.

The database below is a parameter: an `Engine` runs the statements that the inverses issue, and
`Outside` adds what the design documents and the JSON library contribute. Nothing is assumed of either.
-/

namespace Jkb.Undo

open Jkb.Changelog Jkb.Text

/-! ## what undo runs on -/

/-- A value that a statement binds or a query answers with. -/
inductive SqlValue where
  | null
  | int (n : Int)
  | real (q : Rat)
  | text (s : String)
deriving DecidableEq

/-- Columns with the values to write there. -/
abbrev Cells := List (String × SqlValue)

/-- Why an operation failed. -/
inductive Error where
  | validation (why : String)
  | database (why : String)
deriving Repr, DecidableEq

def Error.display : Error → String
  | .validation why => "validation: " ++ why
  | .database why => why

/-- The database engine: the tables' columns, and the statements that are run on them. A statement
answers with the number of rows it changed. -/
structure Engine (σ : Type) where
  columns (db : σ) (table : String) : List String
  select (db : σ) (column table : String) (key : String × SqlValue) : Except Error (Option SqlValue)
  insert (db : σ) (table : String) (row : Cells) : Except Error (σ × Nat)
  update (db : σ) (table : String) (set : Cells) (key : String × SqlValue) : Except Error (σ × Nat)
  delete (db : σ) (table : String) (rowid : Int) : Except Error (σ × Nat)

/-- The content of the database, its changelog oldest first, and the newest transaction that predates
undo history. -/
structure Store (σ : Type) where
  content : σ
  log : List Entry
  watermark : Int

/-- The engine, with what others do for `undo`: the JSON library, and the design documents. -/
structure Outside (σ : Type) extends Engine σ where
  parseJson : String → Except String Json
  printJson : Json → String
  undoWouldLose (s : Store σ) (item txn : Int) : Except Error (Option String)
  unrevertable (s : Store σ) (row : Int) : Except Error (Option String)
  /-- Append the update that reverts a design's update, and what is logged of it. -/
  revertUpdate (s : Store σ) (row : Int) : Except Error (σ × List Logged × Nat)
  spansTouched (db : σ) (entries : List Entry) : Except Error (List Int)
  announceSpans (db : σ) (spans : List Int) : Except Error σ
  designsTouched (db : σ) (entries : List Entry) : Except Error (List String)
  announceUndone (db : σ) (designs : List String) : Except Error σ

/-! ## the inverses -/

/-- An inversion. -/
inductive Inverse where
  | itemSnapshot
  | edgeWeight
  | mountConfig
  | containmentRow
  | syncStateRow
  | columns
  | reinsertRow
  | deleteRow
  | designRevert
deriving Repr, DecidableEq

/-- **The** list of inversions: the first that matches is taken, and no table matches any. -/
def inverses : List (Op × Option Entity × Inverse) := [
  (.delete, some .items, .itemSnapshot),
  (.update, some .edges, .edgeWeight),
  (.update, some .mounts, .mountConfig),
  (.update, some .containment, .containmentRow),
  (.update, some .syncState, .syncStateRow),
  (.update, some .items, .columns),
  (.claim, some .items, .columns),
  (.release, some .items, .columns),
  (.reclaim, some .items, .columns),
  (.update, some .bindings, .columns),
  (.update, some .placements, .columns),
  (.update, some .tagApplications, .columns),
  (.update, some .tagDefs, .columns),
  (.update, some .namespaces, .columns),
  (.update, some .ingestions, .columns),
  (.update, some .designDocTargets, .columns),
  (.update, some .designSources, .columns),
  (.delete, some .placements, .reinsertRow),
  (.delete, some .tagApplications, .reinsertRow),
  (.delete, some .edges, .reinsertRow),
  (.delete, some .containment, .reinsertRow),
  (.delete, some .namespaces, .reinsertRow),
  (.insert, some .designUpdates, .designRevert),
  (.insert, none, .deleteRow)]

/-- Entries that ride along with a change and are nobody's work. -/
def bookkeeping : List (Op × Entity) :=
  [(.update, .syncState), (.update, .designSnapshots), (.undo, .changelog)]

/-- Tables that a bare undo reaches past, although an entry on them is work. -/
def passedOver : List Entity := [.execRequests]

/-- Whether an entry is the user's work. One that this build cannot name is. -/
def isWork (op table : String) : Bool :=
  match Op.parse op, Entity.parse table with
  | some op, some table => !bookkeeping.contains (op, table)
  | _, _ => true

/-- The inversion of an entry, if there is one. -/
def inverseFor (op table : String) : Option Inverse :=
  match Op.parse op, Entity.parse table with
  | some op, some table =>
      match inverses.find? fun i => i.1 == op && i.2.1.all (· == table) with
      | some (_, _, inverse) =>
          if inverse = .deleteRow ∧ table.insertInverse ≠ .deleteRow then none else some inverse
      | none => none
  | _, _ => none

/-! ## before-states -/

/-- `Value::get`. -/
def get (v : Json) (key : String) : Option Json :=
  match v with
  | .obj fields => (fields.find? (·.1 = key)).map (·.2)
  | _ => none

def asObject : Json → Option (List (String × Json))
  | .obj fields => some fields
  | _ => none

def asStr : Json → Option String
  | .str s => some s
  | _ => none

def asI64 : Json → Option Int
  | .num n => if i64Min ≤ n ∧ n ≤ i64Max then some n else none
  | _ => none

def asF64 : Json → Option Rat
  | .num n => some n
  | .real q => some q
  | _ => none

/-- The elements of an array under a key. -/
def rowsUnder (snap : Json) (key : String) : List Json :=
  match get snap key with
  | some (.arr xs) => xs
  | _ => []

/-- A value under a key, unless it is null. -/
def presentUnder (snap : Json) (key : String) : Option Json :=
  match get snap key with
  | some .null => none
  | v => v

def textOr (s : Option String) : SqlValue := (s.map SqlValue.text).getD .null
def intOr (n : Option Int) : SqlValue := (n.map SqlValue.int).getD .null

/-- The text under a key, as a bound value. -/
def textCell (snap : Json) (key : String) : String × SqlValue := (key, textOr ((get snap key).bind asStr))

/-- The text under a key, or a default. -/
def textCellOr (snap : Json) (key default : String) : String × SqlValue :=
  (key, .text (((get snap key).bind asStr).getD default))

def intCell (snap : Json) (key : String) : String × SqlValue := (key, intOr ((get snap key).bind asI64))

def position (snap : Json) : String × SqlValue :=
  ("position", .int (((get snap "position").bind asI64).getD 0))

/-- The pair whose before-state is a cascade snapshot. -/
def isCascadeSnapshot (op table : String) : Bool := op = Op.delete.asStr && table = Entity.items.asStr

/-- The column map inside a before-state. -/
def columnMap (op table : String) (before : Option Json) : Option Json :=
  if isCascadeSnapshot op table then before.bind (get · "item") else before

/-- The generic inverse driven by a column map. -/
def rowShaped (op table : String) : Option Inverse :=
  (inverseFor op table).filter fun i => i = .columns ∨ i = .reinsertRow

/-- Tables that gained their `id` after deletes of them had been logged without one. -/
def laterIdColumns : List Entity := [.placements, .tagApplications]

def laterItemColumns : List String := ["content_rev", "chunked_rev"]

/-- The columns that the before-state of a delete in the log may leave out. -/
def toleratedMissing (op table : String) : List String :=
  if op = Op.delete.asStr ∧ (Entity.parse table).any (laterIdColumns.contains ·) then ["id"] else []

/-- `before` must be a non-empty object that names only columns of the table, and for a whole row all of
them but those that may be left out. -/
def checkColumns (columns : List String) (op table : String) (before : Option Json) (wholeRow : Bool)
    (mayOmit : List String) : Except Error Unit :=
  match (before.bind asObject).filter (!·.isEmpty) with
  | none => .error (.validation ("a `" ++ op ++ "` on `" ++ table ++ "` is undone by writing its " ++
      "before-state back to the columns it names, so it must be logged with a non-empty before-state; " ++
      "without one `jkb undo` would restore nothing and report success"))
  | some fields =>
      match fields.find? fun f => !columns.contains f.1 with
      | some (key, _) => .error (.validation ("`" ++ key ++ "` is not a column of `" ++ table ++
          "`, so undoing this `" ++ op ++ "` would not restore it — log the previous value under the " ++
          "column's own name"))
      | none =>
          let missing := columns.filter fun c => !fields.any (·.1 = c) && !mayOmit.contains c
          if wholeRow && !missing.isEmpty then
            .error (.validation ("the before-state for this `" ++ op ++ "` on `" ++ table ++
              "` does not name " ++ ", ".intercalate missing ++ " — undoing a delete re-inserts the " ++
              "row from exactly what is logged, so an unnamed column comes back as its default, or the " ++
              "whole row is silently not restored at all"))
          else .ok ()

section

variable {σ : Type} (x : Outside σ)

/-- Whether a before-state in the log can restore anything. -/
def checkReplayable (db : σ) (op table : String) (before : Option Json) : Except Error Unit :=
  if isCascadeSnapshot op table then
    checkColumns (x.columns db table) op table (columnMap op table before) true laterItemColumns
  else
    match rowShaped op table with
    | none => .ok ()
    | some inverse =>
        checkColumns (x.columns db table) op table before (inverse = .reinsertRow)
          (toleratedMissing op table)

/-- A before-state's value, as bound. -/
def asSql : Json → SqlValue
  | .null => .null
  | .bool b => .int (if b then 1 else 0)
  | .num n => if i64Min ≤ n ∧ n ≤ i64Max then .int n else .real n
  | .real q => .real q
  | .str s => .text s
  | .arr xs => .text (x.printJson (.arr xs))
  | .obj fields => .text (x.printJson (.obj fields))

/-- The before-state's fields, checked again. One that names no column is a refusal. -/
def restorableFields (db : σ) (op table : String) (before : Option Json) : Except Error Cells := do
  checkReplayable x db op table before
  let fields := (((columnMap op table before).bind asObject).getD []).map fun f => (f.1, asSql x f.2)
  if fields.isEmpty then
    .error (.validation ("the before-state logged for this `" ++ op ++ "` on `" ++ table ++
      "` names no column of it, so there is nothing to restore"))
  else return fields

/-- The count of a restoring statement: to have restored nothing is an error. -/
def restored (rows : σ × Nat) (nothingHappened : String) : Except Error (σ × Nat) :=
  if rows.2 = 0 then .error (.validation ("it restored nothing — " ++ nothingHappened)) else .ok rows

/-- `parse::<i64>` of a changelog key. -/
def rowidOf (entityId : String) : Option Int := parseI64 entityId.toList

/-- Put the columns named in `before` back on the row that the key identifies. -/
def restoreColumns (db : σ) (op table entityId : String) (before : Option Json) :
    Except Error (σ × Nat) := do
  if (Entity.parse table).isNone then
    .error (.validation ("cannot restore columns of unknown table '" ++ table ++ "'"))
  let fields ← restorableFields x db op table before
  match rowidOf entityId with
  | none => .error (.validation ("bad " ++ table ++ " row id '" ++ entityId ++ "' in changelog"))
  | some row =>
      let rows ← x.update db table fields ("rowid", .int row)
      restored rows ("no row of `" ++ table ++ "` has rowid " ++ idText row ++ " any more, so its " ++
        "previous values have nowhere to go — put that row back first, or revert the change that " ++
        "removed it")

/-- Put a deleted row back. -/
def reinsertRow (db : σ) (op table : String) (before : Option Json) : Except Error (σ × Nat) := do
  if (Entity.parse table).isNone then
    .error (.validation ("cannot restore a row of unknown table '" ++ table ++ "'"))
  let fields ← restorableFields x db op table before
  x.insert db table fields

/-- `SELECT EXISTS (SELECT 1 FROM table WHERE key)`. -/
def has (db : σ) (table : String) (key : String × SqlValue) : Except Error Bool :=
  (x.select db key.1 table key).map (·.isSome)

/-- An insert that is skipped where a named item is gone. -/
def insertIfItems (db : σ) (table : String) (row : Cells) (items : List SqlValue) :
    Except Error (σ × Nat) := do
  let there ← items.mapM fun id => has x db Entity.items.asStr ("id", id)
  if there.all id then x.insert db table row else return (db, 0)

/-- The id that a snapshot logged for a row, or null for a fresh one. -/
def snapshotRowId (what : String) (row : Json) : Except Error SqlValue :=
  match get row "id" with
  | none | some .null => .ok .null
  | some v =>
      match asI64 v with
      | some n => .ok (.int n)
      | none => .error (.validation (what ++ " in this item snapshot logs `id` as " ++ x.printJson v ++
          ", which is not a row id"))

def restorePlacement (id : Int) (db : σ) (placement : Json) : Except Error (σ × Nat) := do
  let row ← snapshotRowId x "a placement" placement
  x.insert db Entity.placements.asStr [("item_id", .int id), intCell placement "namespace_id",
    textCell placement "role", position placement, textCellOr placement "metadata" "\x7b\x7d",
    ("id", row)]

def restoreTag (id : Int) (db : σ) (tag : Json) : Except Error (σ × Nat) := do
  let row ← snapshotRowId x "a tag application" tag
  x.insert db Entity.tagApplications.asStr [("item_id", .int id), textCell tag "facet",
    textCellOr tag "value" "", textCellOr tag "props" "\x7b\x7d", ("id", row)]

/-- Put an edge back under its logged id, or under a fresh one where a row holds that. -/
def restoreEdge (db : σ) (edge : Json) : Except Error (σ × Nat) := do
  let row ← snapshotRowId x "an edge" edge
  let taken ← has x db Entity.edges.asStr ("id", row)
  let src := intOr ((get edge "src").bind asI64)
  let dst := intOr ((get edge "dst").bind asI64)
  insertIfItems x db Entity.edges.asStr [("id", if taken then .null else row), ("src_item_id", src),
    ("dst_item_id", dst), textCell edge "type", textCellOr edge "props" "\x7b\x7d",
    ("weight", (((get edge "weight").bind asF64).map SqlValue.real).getD .null),
    textCell edge "created_at"] [src, dst]

def restoreContainedBy (id : Int) (db : σ) (c : Json) : Except Error (σ × Nat) :=
  insertIfItems x db Entity.containment.asStr
    [("child_item_id", .int id), intCell c "parent_item_id", position c]
    [intOr ((get c "parent_item_id").bind asI64)]

def restoreContains (id : Int) (db : σ) (c : Json) : Except Error (σ × Nat) :=
  insertIfItems x db Entity.containment.asStr
    [intCell c "child_item_id", ("parent_item_id", .int id), position c]
    [intOr ((get c "child_item_id").bind asI64)]

def restoreBinding (id : Int) (db : σ) (binding : Json) : Except Error (σ × Nat) :=
  x.insert db Entity.bindings.asStr [("item_id", .int id), textCell binding "uri",
    textCell binding "sync_mode", textCell binding "serializer", textCell binding "last_synced_hash",
    textCell binding "last_synced_at"]

/-- Run a restore for each row, and count. -/
def restoreEach (restore : σ → Json → Except Error (σ × Nat)) (acc : σ × Nat) (rows : List Json) :
    Except Error (σ × Nat) :=
  rows.foldlM (fun acc row => (restore acc.1 row).map fun r => (r.1, acc.2 + r.2)) acc

/-- Restore the rows that an item's removal took with it. -/
def restoreChildren (db : σ) (snap : Json) (id : Int) : Except Error (σ × Nat) := do
  let acc ← restoreEach (restorePlacement x id) (db, 0) (rowsUnder snap "placements")
  let acc ← restoreEach (restoreTag x id) acc (rowsUnder snap "tags")
  let acc ← restoreEach (restoreEdge x) acc (rowsUnder snap "edges")
  let acc ← restoreEach (restoreContainedBy x id) acc (presentUnder snap "contained_by").toList
  let acc ← restoreEach (restoreContains x id) acc (rowsUnder snap "contains")
  restoreEach (restoreBinding x id) acc (presentUnder snap "binding").toList

/-- Restore a removed item from its snapshot. -/
def restoreItem (db : σ) (snap : Json) : Except Error (σ × Nat) :=
  match get snap "item" with
  | none => .error (.validation "item snapshot has no `item`")
  | some item =>
      match (get item "id").bind asI64 with
      | none => .error (.validation "item snapshot has no `id`")
      | some id => do
          let (db, put) ← reinsertRow x db Op.delete.asStr Entity.items.asStr (some snap)
          let (db, more) ← restoreChildren x db snap id
          return (db, put + more)

def restoreEdgeWeight (db : σ) (row : Int) (snap : Json) : Except Error (σ × Nat) := do
  let weight := (((get snap "weight").bind asF64).map SqlValue.real).getD .null
  let rows ← x.update db Entity.edges.asStr [("weight", weight)] ("rowid", .int row)
  restored rows ("edge " ++ idText row ++ " is gone, so its previous weight has nowhere to go")

def restoreMountConfig (db : σ) (row : Int) (snap : Json) : Except Error (σ × Nat) := do
  let rows ← x.update db Entity.mounts.asStr [textCell snap "backing_uri", textCell snap "sync_mode",
    textCell snap "serializer", textCell snap "include_glob", textCell snap "exclude_glob",
    textCell snap "conflict_policy"] ("namespace_id", .int row)
  restored rows ("namespace " ++ idText row ++ " has no mount any more, so its previous configuration " ++
    "has nowhere to go")

def restoreContainmentRow (db : σ) (row : Int) (snap : Json) : Except Error (σ × Nat) := do
  let rows ← x.update db Entity.containment.asStr [intCell snap "parent_item_id", position snap]
    ("child_item_id", .int row)
  restored rows ("item " ++ idText row ++ " is contained by nothing now, so its previous container has " ++
    "nowhere to go")

/-- Put a sync journal row back, or clear the basis of one that has no before-state. -/
def revertSyncState (db : σ) (uri : String) (before : Option Json) : Except Error (σ × Nat) :=
  match before with
  | none => do
      let rows ← x.update db Entity.syncState.asStr
        [("last_synced_hash", .null), ("base_blob_hash", .null), ("document", .null)] ("uri", .text uri)
      restored rows ("the sync journal has no row for `" ++ uri ++ "`, so its base was not cleared")
  | some snap => do
      let rows ← x.update db Entity.syncState.asStr [textCell snap "status", textCell snap "serializer",
        textCell snap "last_synced_hash", textCell snap "base_blob_hash", textCell snap "document",
        textCell snap "parse_error", textCell snap "quarantine_blob_hash"] ("uri", .text uri)
      restored rows ("the sync journal has no row for `" ++ uri ++ "` to restore")

/-- Whether a namespace holds a child, a placement or a mount. -/
def namespaceIsOccupied (db : σ) (id : Int) : Except Error Bool := do
  let child ← has x db Entity.namespaces.asStr ("parent_id", .int id)
  let placed ← has x db Entity.placements.asStr ("namespace_id", .int id)
  let mounted ← has x db Entity.mounts.asStr ("namespace_id", .int id)
  return child || placed || mounted

/-- The before-state of an entry, read. -/
def snapshot (e : Entry) : Except String (Option Json) :=
  match e.before with
  | none => .ok none
  | some b => (x.parseJson b).map some

/-- Invert one changelog entry: what is logged of it, and how many rows it changed. -/
def invertEntry (s : Store σ) (e : Entry) : Except Error (σ × List Logged × Nat) := do
  match inverseFor e.op e.entityType with
  | none =>
      if isWork e.op e.entityType then
        .error (.validation ("no inverse for `" ++ e.op ++ "` on `" ++ e.entityType ++
          "`, and the pre-flight did not catch it"))
      else return (s.content, [], 0)
  | some inverse =>
      let rowid : Except Error Int := match rowidOf e.entityId with
        | some row => .ok row
        | none => .error (.validation ("bad entity id '" ++ e.entityId ++ "'"))
      let snap (what : String) : Except Error (Option Json) := (snapshot x e).mapError fun why =>
        .validation ("unreadable " ++ what ++ " in changelog: " ++ why)
      let required (what : String) : Except Error Json := do
        match ← snap what with
        | some v => return v
        | none => .error (.validation ("reversing `" ++ e.op ++ "` on `" ++ e.entityType ++
            "` needs the " ++ what ++ " it was logged with, and this entry has none"))
      let silent (r : σ × Nat) : σ × List Logged × Nat := (r.1, [], r.2)
      match inverse with
      | .itemSnapshot => return silent (← restoreItem x s.content (← required "item snapshot"))
      | .edgeWeight =>
          return silent (← restoreEdgeWeight x s.content (← rowid) (← required "edge before-state"))
      | .syncStateRow =>
          return silent (← revertSyncState x s.content e.entityId (← snap "sync journal before-state"))
      | .designRevert => x.revertUpdate s (← rowid)
      | .mountConfig =>
          return silent (← restoreMountConfig x s.content (← rowid) (← required "mount before-state"))
      | .containmentRow =>
          return silent (← restoreContainmentRow x s.content (← rowid)
            (← required "containment before-state"))
      | .columns =>
          return silent (← restoreColumns x s.content e.op e.entityType e.entityId
            (← snap "column before-state"))
      | .reinsertRow =>
          return silent (← reinsertRow x s.content e.op e.entityType (← snap "deleted row"))
      | .deleteRow =>
          match (Entity.parse e.entityType).filter (·.insertInverse = .deleteRow) with
          | none => .error (.validation ("cannot undo unknown table '" ++ e.entityType ++ "'"))
          | some entity =>
              let row ← rowid
              let occupied ←
                (if entity = .namespaces then namespaceIsOccupied x s.content row else .ok false)
              -- a namespace that later work has moved into is kept
              if occupied then return (s.content, [], 0)
              else return silent (← x.delete s.content entity.asStr row)

/-- The inverses that address a row by its id. -/
def Inverse.byRowid : Inverse → Bool
  | .columns | .deleteRow | .edgeWeight | .mountConfig | .containmentRow | .designRevert => true
  | _ => false

/-- What an error or an answer gives as the reason. -/
def reasonOf : Except Error (Option String) → Option String
  | .ok why => why
  | .error e => some e.display

/-- Why an entry's inverse could not be run, as far as looking at it shows. -/
def blocker (s : Store σ) (txnId : Int) (e : Entry) : Option String :=
  match inverseFor e.op e.entityType with
  | none => some "no inverse for it"
  | some inverse =>
      if (Entity.parse e.entityType).isNone then
        some ("`" ++ e.entityType ++ "` is not a table this build knows")
      else
        match snapshot x e with
        | .error why => some ("its before-state is not readable JSON: " ++ why)
        | .ok snap =>
            match checkReplayable x s.content e.op e.entityType snap with
            | .error why => some why.display
            | .ok () =>
                match rowidOf e.entityId with
                | none =>
                    if inverse.byRowid then
                      some ("its changelog key `" ++ e.entityId ++ "` is not a row id")
                    else none
                | some row =>
                    let lost :=
                      if e.op = Op.insert.asStr ∧ e.entityType = Entity.items.asStr then
                        reasonOf (x.undoWouldLose s row txnId)
                      else none
                    lost.or
                      (if inverse = .designRevert then reasonOf (x.unrevertable s row) else none)

end

end Jkb.Undo
