import Jkb.Journal
import Jkb.Sync.Doc
import Jkb.Table

/-!
# Jkb.Core.Item

Items, the edges between them, and what the database itself keeps beside them: the count of an item's content
changes, and the vector and the provenance row that a removed item takes along.

An item's `contentRev` names the text it holds. It starts at 0, every change of the content raises it, and a
removed item that is put back has the one it had.
-/

namespace Jkb.Item

open Jkb.Text

/-! ## the tables -/

/-- A row of `items`. -/
structure ItemRow where
  id : Int
  uid : Text
  kind : Text
  content : Option Text
  contentHash : Option Text
  contentRev : Int := 0
  chunkedRev : Option Int := none
deriving Repr, DecidableEq

/-- A row of `edges`. -/
structure EdgeRow where
  id : Int
  src : Int
  dst : Int
  type : EdgeType
deriving Repr, DecidableEq

/-- A row of the vec table. -/
structure VectorRow (V : Type) where
  itemId : Int
  embedding : V
deriving Repr, DecidableEq

/-- A row of `vector_sources`. -/
structure SourceRow where
  itemId : Int
  contentRev : Int
  seq : Int
deriving Repr, DecidableEq

/-- The columns of `items` that an update sets, or that a before-state names. -/
structure Columns where
  content : Option (Option Text) := none
  contentHash : Option (Option Text) := none
  chunkedRev : Option (Option Int) := none
deriving Repr, DecidableEq

/-- What the log keeps of a removed item: its row, and the edges that go with it. -/
structure Snapshot where
  item : ItemRow
  edges : List EdgeRow
deriving Repr, DecidableEq

/-- What a writer logs. -/
inductive Change where
  | insertItem (id : Int)
  | updateItem (id : Int) (before : Columns)
  | deleteItem (before : Snapshot)
  | insertEdge (id : Int)
  | updateEdge (id : Int)
  | deleteEdge (before : EdgeRow)
deriving Repr, DecidableEq

/-- The tables, and what the open transaction has logged. -/
structure Store (V : Type) where
  items : AutoTable fun i : ItemRow => i.id
  edges : AutoTable fun e : EdgeRow => e.id
  vectors : Table fun v : VectorRow V => v.itemId
  sources : Table fun r : SourceRow => r.itemId
  log : List Change

namespace Store

variable {V : Type}

def empty : Store V := ⟨.empty, .empty, .empty, .empty, []⟩

/-- The item with an id. -/
def item? (s : Store V) (id : Int) : Option ItemRow := s.items.toTable.find? id

def logged (s : Store V) (change : Change) : Store V := { s with log := s.log ++ [change] }

end Store

/-! ## statements -/

section Statements

variable {V : Type} (s : Store V)

/-- Whether a row other than `id` has a `uid`, or a `content_hash` that is one. -/
def taken (id : Int) (uid : Text) (hash : Option Text) : Bool :=
  s.items.rows.any fun r => r.id ≠ id && (r.uid = uid || (hash.isSome && r.contentHash = hash))

/-- What an `UPDATE` of a row leaves, the trigger on a change of the content included. -/
def ItemRow.set (r : ItemRow) (columns : Columns) : ItemRow :=
  { r with
    content := columns.content.getD r.content
    contentHash := columns.contentHash.getD r.contentHash
    chunkedRev := columns.chunkedRev.getD r.chunkedRev
    contentRev := if columns.content.getD r.content = r.content then r.contentRev else r.contentRev + 1 }

@[simp] theorem ItemRow.id_set (r : ItemRow) (columns : Columns) : (r.set columns).id = r.id := rfl

/-- `UPDATE items SET … WHERE id`, of a row that is there. -/
def updateItem (id : Int) (columns : Columns) : Except Fmt (Store V) :=
  match s.item? id with
  | none => .error ["item ", id]
  | some r =>
      if taken s id r.uid (r.set columns).contentHash then
        .error ["UNIQUE constraint failed: items.content_hash"]
      else
        let items := s.items.updateWhere (·.id = id) (·.set columns) fun _ => rfl
        .ok { s with items }

/-- `DELETE FROM items WHERE id`. The schema takes the item's edges and its provenance row, and a trigger its
vector. -/
def deleteItem (id : Int) : Store V :=
  { s with
    items := s.items.deleteWhere (·.id = id)
    edges := s.edges.deleteWhere fun e => e.src = id || e.dst = id
    vectors := s.vectors.deleteWhere (·.itemId = id)
    sources := s.sources.deleteWhere (·.itemId = id) }

/-- The edge between two items, of a type. -/
def findEdge (src dst : Int) (type : EdgeType) : Option EdgeRow :=
  s.edges.rows.find? fun e => e.src = src && e.dst = dst && e.type = type

/-- `INSERT INTO edges`, under an id of its own or under the next. -/
def insertEdge (id : Option Int) (src dst : Int) (type : EdgeType) : Except Fmt (Store V × Int) :=
  if (findEdge s src dst type).isSome then .error ["UNIQUE constraint failed: edges"]
  else if (s.item? src).isNone || (s.item? dst).isNone then .error ["FOREIGN KEY constraint failed"]
  else
    match id with
    | none =>
        let edges := s.edges.insertNext (fun id => { id, src, dst, type }) fun _ => rfl
        .ok ({ s with edges }, s.edges.nextKey)
    | some id =>
        match s.edges.tryRestore { id, src, dst, type } with
        | some edges => .ok ({ s with edges }, id)
        | none => .error ["UNIQUE constraint failed: edges.id"]

end Statements

/-! ## writers -/

section Writers

variable {V : Type} (s : Store V)

/-- The fields needed to create an item. -/
structure NewItem where
  uid : Text
  kind : Text
  content : Option Text
  contentHash : Option Text
deriving Repr, DecidableEq

/-- Insert an item, or find the one with its `content_hash`. -/
def upsert (new : NewItem) : Except Fmt (Store V × Int) :=
  match new.contentHash.bind fun hash => s.items.rows.find? (·.contentHash = some hash) with
  | some existing => .ok (s, existing.id)
  | none =>
      if taken s s.items.nextKey new.uid new.contentHash then .error ["UNIQUE constraint failed: items.uid"]
      else
        let items := s.items.insertNext (fun id =>
          { id, uid := new.uid, kind := new.kind, content := new.content,
            contentHash := new.contentHash }) fun _ => rfl
        .ok ({ s with items }.logged (.insertItem s.items.nextKey), s.items.nextKey)

/-- Replace an item's content and its hash. -/
def setContent (id : Int) (content : Text) (hash : Option Text) : Except Fmt (Store V) :=
  match s.item? id with
  | none => .error ["item ", id]
  | some r =>
      (updateItem s id { content := some (some content), contentHash := some hash }).map fun s =>
        s.logged (.updateItem id { content := some r.content, contentHash := some r.contentHash })

/-- Any other writer's update of a content, as of a saved view. -/
def writeContent (id : Int) (content : Option Text) : Except Fmt (Store V) :=
  match s.item? id with
  | none => .error ["item ", id]
  | some r =>
      (updateItem s id { content := some content }).map fun s =>
        s.logged (.updateItem id { content := some r.content })

/-- Record the revision that an item's chunks were cut from. -/
def setChunkedRev (id rev : Int) : Except Fmt (Store V) :=
  match s.item? id with
  | none => .error ["item ", id]
  | some r =>
      (updateItem s id { chunkedRev := some (some rev) }).map fun s =>
        s.logged (.updateItem id { chunkedRev := some r.chunkedRev })

/-- What the log keeps of an item. -/
def snapshot (r : ItemRow) : Snapshot := ⟨r, s.edges.rows.filter fun e => e.src = r.id || e.dst = r.id⟩

/-- The kind of a design, which is never deleted. -/
def KIND_DESIGN : Text := "design".toList

/-- Remove an item, as `--force` does. -/
def remove (id : Int) : Except Fmt (Store V) :=
  match s.item? id with
  | none => .error ["item ", id]
  | some r =>
      if r.kind = KIND_DESIGN then .error ["refusing to delete ", String.ofList r.uid, ": it is a design"]
      else .ok ((deleteItem s id).logged (.deleteItem (snapshot s r)))

/-- Link two items. Idempotent: an edge that is there is logged as an update of it. -/
def link (src dst : Int) (type : EdgeType) : Except Fmt (Store V) :=
  match findEdge s src dst type with
  | some e => .ok (s.logged (.updateEdge e.id))
  | none => (insertEdge s none src dst type).map fun (s, id) => s.logged (.insertEdge id)

/-- Unlink two items. -/
def unlink (src dst : Int) (type : EdgeType) : Store V :=
  match findEdge s src dst type with
  | none => s
  | some e => { s with edges := s.edges.deleteWhere (·.id = e.id) }.logged (.deleteEdge e)

end Writers

/-! ## inverses -/

section Inverses

variable {V : Type} (s : Store V)

/-- Put an edge of a removed item back, unless an item of it is gone; under a fresh id where its own is
taken. -/
def restoreEdge (e : EdgeRow) : Except Fmt (Store V) :=
  if (s.item? e.src).isNone || (s.item? e.dst).isNone then .ok s
  else
    let id := if s.edges.rows.any (·.id = e.id) then none else some e.id
    (insertEdge s id e.src e.dst e.type).map (·.1)

/-- Put a removed item back, under its own id and with the revision it had. -/
def restoreItem (snap : Snapshot) : Except Fmt (Store V) :=
  if taken s snap.item.id snap.item.uid snap.item.contentHash then
    .error ["UNIQUE constraint failed: items.uid"]
  else
    match s.items.tryRestore snap.item with
    | none => .error ["UNIQUE constraint failed: items.id"]
    | some items => snap.edges.foldlM restoreEdge { s with items }

/-- Invert one change. -/
def invert : Change → Except Fmt (Store V)
  | .insertItem id => .ok (deleteItem s id)
  | .updateItem id before => updateItem s id before
  | .deleteItem snap => restoreItem s snap
  | .insertEdge id => .ok { s with edges := s.edges.deleteWhere (·.id = id) }
  | .updateEdge id =>
      if s.edges.rows.any (·.id = id) then .ok s
      else .error ["edge ", id, " is gone, so its previous weight has nowhere to go"]
  | .deleteEdge e => (insertEdge s (some e.id) e.src e.dst e.type).map (·.1)

end Inverses

end Jkb.Item
