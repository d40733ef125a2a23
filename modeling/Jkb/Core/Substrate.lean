import Jkb.Core.Edge
import Jkb.Core.Nstype
import Jkb.Core.Query.Parse

/-!
# Jkb.Core.Substrate

The substrate that every engine writes to: items, and the namespaces they are placed in, with the tags,
edges and containment between them. Each writer checks what it was asked for, changes the tables and logs
what undo needs. An item enters a namespace in one place, `place`, and there the namespace's type is asked
whether it accepts the item.
-/

namespace Jkb.Substrate

open Jkb.Text Jkb.Ns Jkb.Nstype

/-! ## the tables -/

/-- The role of a placement. -/
inductive PlacementRole where
  | primary
  | reference
deriving Repr, DecidableEq

def PlacementRole.asStr : PlacementRole → String
  | .primary => "primary"
  | .reference => "reference"

/-- A row of `items`. -/
structure ItemRow extends Query.ItemRow where
  content : Option Text := none
  contentHash : Option Text := none
  mime : Option Text := none
deriving Repr, DecidableEq

/-- A row of `placements`. -/
structure PlacementRow where
  id : Int
  itemId : Int
  namespaceId : Int
  role : PlacementRole
  position : Int
  metadata : Text := "\x7b\x7d".toList
deriving Repr, DecidableEq

/-- A row of `tag_applications`. -/
structure TagRow where
  id : Int
  itemId : Int
  facet : Text
  value : Text
  props : Text := "\x7b\x7d".toList
deriving Repr, DecidableEq

/-- A row of `containment`. -/
structure ContainmentRow where
  child : Int
  parent : Int
  position : Int
deriving Repr, DecidableEq

/-- The columns of `items` that an update sets, or that a before-state names. -/
structure ItemColumns where
  uid : Option Text := none
  kind : Option Text := none
  content : Option (Option Text) := none
  resolution : Option (Option Resolution) := none
deriving Repr, DecidableEq

/-- What a writer logs. -/
inductive Change where
  | namespaces (change : Ns.Change)
  | insertItem (id : Int)
  | updateItem (id : Int) (before : ItemColumns)
  | insertPlacement (id : Int)
  | updatePlacement (before : PlacementRow)
deriving DecidableEq

/-- The tables, and what the open transaction has logged. -/
structure Store where
  namespaces : Namespaces
  mounts : List Int
  items : AutoTable fun i : ItemRow => i.id
  placements : AutoTable fun p : PlacementRow => p.id
  tags : AutoTable fun t : TagRow => t.id
  edges : Edge.Edges
  containment : Table fun c : ContainmentRow => c.child
  transitions : List Query.PhaseRow
  log : List Change

namespace Store

variable (s : Store)

/-- The item with an id. -/
def item? (id : Int) : Option ItemRow := s.items.toTable.find? id

/-- The rows of `namespaces`. -/
def spaces : List Namespace := s.namespaces.rows

def logged (change : Change) : Store := { s with log := s.log ++ [change] }

/-- What a query reads. -/
def queried : Query.Store where
  items := s.items.map (·.toItemRow) fun _ => rfl
  edges := s.edges.rows.map fun e => ⟨e.src, e.dst, e.type⟩
  containment := s.containment.rows.map fun c => ⟨c.child, c.parent⟩
  placements := s.placements.rows.map fun p => ⟨p.itemId, p.namespaceId, p.role.asStr.toList⟩
  tags := s.tags.rows.map fun t => ⟨t.itemId, t.facet, t.value⟩
  namespaces := s.spaces
  transitions := s.transitions

/-- What the writers of the tree read and write. -/
def tree : Ns.Store := ⟨s.namespaces, s.placements.rows.map (·.namespaceId), s.mounts, []⟩

/-- The store after a writer of the tree. A namespace that holds a placement is never deleted, so the
placements stay. -/
def withTree (t : Ns.Store) : Store :=
  { s with namespaces := t.namespaces, mounts := t.mounts, log := s.log ++ t.log.map .namespaces }

end Store

/-! ## namespaces -/

section Namespaces

variable (x : Nstype.Typing) (s : Store)

/-- Make the namespace at a path, and its ancestors. -/
def ensure (now path : Text) : Except Fmt (Store × Int) :=
  (Ns.ensure x.toOutside s.tree now path).map fun (t, id) => (s.withTree t, id)

end Namespaces

/-! ## items -/

section Items

variable (s : Store)

/-- Whether a row has a `uid`, or a `content_hash` that is one. -/
def taken (uid : Text) (hash : Option Text) : Bool :=
  s.items.rows.any fun r => r.uid = uid || (hash.isSome && r.contentHash = hash)

/-- The fields needed to create an item. -/
structure NewItem where
  uid : Text
  kind : Text
  content : Option Text := none
  contentHash : Option Text := none
  mime : Option Text := none
deriving Repr, DecidableEq

/-- A new item under the next id. -/
def insertItem (new : NewItem) : Store × Int :=
  let items := s.items.insertNext (fun id =>
    { id, uid := new.uid, kind := new.kind, content := new.content, contentHash := new.contentHash,
      mime := new.mime }) fun _ => rfl
  ({ s with items }.logged (.insertItem s.items.nextKey), s.items.nextKey)

/-- Insert an item, or find the one with its `content_hash`. -/
def upsert (new : NewItem) : Except Fmt (Store × Int) :=
  match new.contentHash.bind fun hash => s.items.rows.find? (·.contentHash = some hash) with
  | some existing => .ok (s, existing.id)
  | none =>
      if taken s new.uid new.contentHash then .error ["UNIQUE constraint failed: items.uid"]
      else .ok (insertItem s new)

/-- What an `UPDATE` of a row leaves. -/
def ItemRow.set (r : ItemRow) (columns : ItemColumns) : ItemRow :=
  { r with
    uid := columns.uid.getD r.uid
    kind := columns.kind.getD r.kind
    content := columns.content.getD r.content
    resolution := columns.resolution.getD r.resolution }

@[simp] theorem ItemRow.id_set (r : ItemRow) (columns : ItemColumns) : (r.set columns).id = r.id := rfl

/-- `UPDATE items SET … WHERE id`. -/
def updateItem (id : Int) (columns : ItemColumns) : Store :=
  let items := s.items.updateWhere (·.id = id) (·.set columns) fun _ => rfl
  { s with items }

/-- The kind of a design, whose resolution only its own engine writes. -/
def KIND_DESIGN : Text := "design".toList

/-- Set an item's resolution. -/
def setResolution (id : Int) (resolution : Resolution) : Except Fmt Store :=
  match s.item? id with
  | none => .error ["item ", id]
  | some r =>
      if r.kind = KIND_DESIGN then
        .error ["`", shown r.uid, "` is a design: whether it is retired is set only by `jkb design retire ",
          shown r.uid, "` and `jkb design restore ", shown r.uid, "`, never as a resolution"]
      else
        .ok ((updateItem s id { resolution := some (some resolution) }).logged
          (.updateItem id { resolution := some r.resolution }))

end Items

/-! ## placements -/

section Placements

variable (x : Nstype.Typing) (s : Store)

/-- Whether an item may be placed in a namespace, by the type that governs it. -/
def checkPlacement (item ns : Int) : Except Fmt Unit :=
  match s.namespaces.toTable.find? ns with
  | none => .ok ()
  | some n => do
      match ← forNamespace x s.spaces n.path with
      | none => return ()
      | some (_, t) =>
          match s.item? item with
          | none => return ()
          | some i => if t.acceptsKind i.kind then return () else .error (rejectKind n.path t i.kind)

/-- The placement of an item in a namespace, in a role. -/
def findPlacement (item ns : Int) (role : PlacementRole) : Option PlacementRow :=
  s.placements.rows.find? fun p => p.itemId = item && p.namespaceId = ns && p.role = role

/-- Place an item in a namespace, or change the position of its placement there. -/
def place (item ns : Int) (role : PlacementRole) (position : Int) : Except Fmt Store := do
  checkPlacement x s item ns
  match findPlacement s item ns role with
  | some p =>
      let placements := s.placements.updateWhere (·.id = p.id) ({ · with position }) fun _ => rfl
      return { s with placements }.logged (.updatePlacement p)
  | none =>
      if (s.item? item).isNone ∨ (s.namespaces.toTable.find? ns).isNone then
        .error ["FOREIGN KEY constraint failed"]
      else
        let placements := s.placements.insertNext (fun id =>
          { id, itemId := item, namespaceId := ns, role, position }) fun _ => rfl
        return { s with placements }.logged (.insertPlacement s.placements.nextKey)

end Placements

/-! ## edges -/

/-- What an edge reads of the items. -/
def edgeItems (s : Store) : Edge.Items := s.items.toTable.map (fun i => ⟨i.id, i.uid, i.kind⟩) fun _ => rfl

end Jkb.Substrate
