import Jkb.Core.Ns.Path
import Jkb.Journal
import Jkb.Run

/-!
# Jkb.Core.Ns.Tree

The writers of the namespace tree, and undo of what they did. A path is kept in full in every row, so a move
rewrites the rows of the whole subtree, and undo puts back, row by row, what the move overwrote.

The database is a table that keeps its constraints, and a statement that would break one is refused. What the
JSON functions and Unicode contribute is a parameter.
-/

namespace Jkb.Ns

open Jkb.Text

/-! ## the table -/

/-- The rows of `namespaces`, as the schema has them: no two of one path, and every parent there. -/
structure Namespaces extends AutoTable fun n : Namespace => n.id where
  unique : (rows.map (·.path)).Nodup
  linked : ∀ r ∈ rows, ∀ parent ∈ r.parentId, ∃ p ∈ rows, p.id = parent

/-- What a statement leaves of the table, unless a constraint refuses it. -/
def Namespaces.checked (t : AutoTable fun n : Namespace => n.id) : Except Fmt Namespaces :=
  if unique : (t.rows.map (·.path)).Nodup then
    if linked : ∀ r ∈ t.rows, ∀ parent ∈ r.parentId, ∃ p ∈ t.rows, p.id = parent then
      .ok { t with unique, linked }
    else .error ["FOREIGN KEY constraint failed"]
  else .error ["UNIQUE constraint failed: namespaces.path"]

/-- The columns that an update sets, or that a before-state names. -/
structure Columns where
  path : Option Text := none
  parentId : Option (Option Int) := none
  metadata : Option Text := none
deriving Repr, DecidableEq

def Namespace.set (r : Namespace) (columns : Columns) : Namespace :=
  { r with
    path := columns.path.getD r.path
    parentId := columns.parentId.getD r.parentId
    metadata := columns.metadata.getD r.metadata }

/-- What a writer logs. -/
inductive Change where
  | insert (id : Int)
  | update (id : Int) (before : Columns)
  | delete (before : Namespace)
deriving Repr, DecidableEq

/-- The namespaces, which of them each item placement and each mount is on, and what the open transaction has
logged. -/
structure Store where
  namespaces : Namespaces
  placements : List Int
  mounts : List Int
  log : List Change

namespace Store

variable (s : Store)

def rows : List Namespace := s.namespaces.rows

def logged (change : Change) : Store := { s with log := s.log ++ [change] }

/-- `UPDATE namespaces SET … WHERE id`. -/
def update (id : Int) (columns : Columns) : Except Fmt Store :=
  (Namespaces.checked (s.namespaces.updateWhere (·.id = id) (·.set columns) fun _ => rfl)).map
    fun namespaces => { s with namespaces }

/-- `INSERT INTO namespaces`, under the next id. -/
def insertNext (path : Text) (parentId : Option Int) (kind : Kind) (createdAt : Text) :
    Except Fmt (Store × Int) :=
  (Namespaces.checked (s.namespaces.insertNext (fun id =>
      { id, path, parentId, kind, metadata := "\x7b\x7d".toList, createdAt }) fun _ => rfl)).map
    fun namespaces => ({ s with namespaces }, s.namespaces.nextKey)

/-- `INSERT INTO namespaces` of a whole row. -/
def insertRow (r : Namespace) : Except Fmt Store :=
  match s.namespaces.tryRestore r with
  | none => .error ["UNIQUE constraint failed: namespaces.id"]
  | some t => (Namespaces.checked t).map fun namespaces => { s with namespaces }

/-- `DELETE FROM namespaces WHERE id`. The schema takes the placements and the mount along. -/
def deleteRow (id : Int) : Except Fmt Store :=
  (Namespaces.checked (s.namespaces.deleteWhere (·.id = id))).map fun namespaces =>
    { s with
      namespaces
      placements := s.placements.filter (· ≠ id)
      mounts := s.mounts.filter (· ≠ id) }

end Store

/-! ## writers -/

/-- What the writers take from outside: the canonical composition of a segment, and the JSON functions of the
database on a namespace's metadata. -/
structure Outside where
  nfc : Text → Text
  typed : Text → Bool
  setType : Text → Text → Text

/-- The types that reserved namespaces are stamped with. -/
def RESERVED_TYPES : List (Text × Text) := [
  ("tasks".toList, "tasks".toList),
  ("_sys/views".toList, "views".toList),
  ("_sys/sync".toList, "journal".toList),
  ("_sys/transactions".toList, "journal".toList),
  ("_sys/ingestions".toList, "journal".toList)]

/-- The kind a namespace is made with. -/
def kindFor (path : Text) : Kind :=
  if path = "_sys".toList ∨ "_sys/".toList <+: path then .system else .logical

/-- `&t[n..]`, which panics inside of a character. -/
def dropBytes : Nat → Text → Except Fmt Text
  | 0, t => .ok t
  | _ + 1, [] => .error ["byte index is out of bounds"]
  | n + 1, c :: t =>
      if c.utf8Size ≤ n + 1 then dropBytes (n + 1 - c.utf8Size) t else .error ["byte index is not a char boundary"]

section Writers

variable (x : Outside) (s : Store)

/-- Stamp the declared type on a reserved namespace that is not typed, and whether it did. -/
def seedReservedType (path : Text) : Except Fmt (Store × Bool) :=
  match RESERVED_TYPES.find? (·.1 = path), s.rows.find? (·.path = path) with
  | some (_, typeName), some r =>
      if x.typed r.metadata then .ok (s, false)
      else (s.update r.id { metadata := some (x.setType r.metadata typeName) }).map (·, true)
  | _, _ => .ok (s, false)

/-- A path with one segment more. -/
def extend (current segment : Text) : Text :=
  (if current = [] then [] else current ++ ['/']) ++ segment

/-- One segment of `ensure`: the store, the namespace reached, and its path. -/
def ensureSegment (now : Text) (at_ : Store × Option Int × Text) (segment : Text) :
    Except Fmt (Store × Option Int × Text) :=
  let (s, parent, above) := at_
  let current := extend above segment
  match s.rows.find? (·.path = current) with
  | some found => do
      let (s, seeded) ← seedReservedType x s current
      return (if seeded then s.logged (.update found.id { metadata := some found.metadata }) else s,
        some found.id, current)
  | none => do
      let (s, id) ← s.insertNext current parent (kindFor current) now
      let (s, _) ← seedReservedType x s current
      return (s.logged (.insert id), some id, current)

/-- Make the namespace at a path, and its ancestors, where they are not there. -/
def ensure (now path : Text) : Except Fmt (Store × Int) := do
  let normalized ← normalize x.nfc path
  let (s, id, _) ← (segments normalized).foldlM (ensureSegment x now) (s, none, [])
  return (s, id.getD 0)

/-- The namespace above a path, made where it is not there; a path of one segment has none. -/
def ensureParent (now target : Text) : Except Fmt (Store × Option Int) :=
  match rsplitOnce (· = '/') target with
  | some (parent, _) => (ensure x s now parent).map fun (s, id) => (s, some id)
  | none => .ok (s, none)

/-- The path that a move gives a row of its subtree. -/
def newPathOf (source target path : Text) : Except Fmt Text :=
  if path = source then .ok target else (dropBytes (byteLen source) path).map (target ++ ·)

/-- One row of a move. -/
def moveRow (source target : Text) (root : Int) (oldParent : Option Int) (s : Store) (row : Int × Text) :
    Except Fmt Store := do
  let newPath ← newPathOf source target row.2
  let s ← s.update row.1 { path := some newPath }
  return s.logged (.update row.1
    { path := some row.2, parentId := if row.1 = root then some oldParent else none })

/-- Move a subtree to another path. -/
def moveSubtree (now source target : Text) : Except Fmt (Store × Nat) := do
  let source ← normalize x.nfc source
  let target ← normalize x.nfc target
  if target = source ∨ source ++ ['/'] <+: target then
    .error ["cannot move '", shown source, "' into itself"]
  else
    match ← get x.nfc s.rows source with
    | none => .error ["namespace '", shown source, "' does not exist"]
    | some root =>
        if (← get x.nfc s.rows target).isSome then .error ["target '", shown target, "' already exists"]
        else
          let rows ← subtree x.nfc s.rows source
          -- every path the move would write, before any is
          rows.forM fun row => do
            let moved := target ++ (← dropBytes (byteLen source) row.2)
            match normalize x.nfc moved with
            | .ok _ => .ok ⟨⟩
            | .error e => .error ((["moving '", shown source, "' to '", shown target, "' would make '",
                shown moved, "': "] : Fmt) ++ e)
          let (s, newParent) ← ensureParent x s now target
          let oldParent := (s.namespaces.toTable.find? root).bind (·.parentId)
          let s ← rows.foldlM (moveRow source target root oldParent) s
          let s ← s.update root { parentId := some newParent }
          return (s, rows.length)

/-- Remove an empty namespace. -/
def remove (path : Text) : Except Fmt Store := do
  let normalized ← normalize x.nfc path
  match ← get x.nfc s.rows normalized with
  | none => .error ["namespace '", shown normalized, "' does not exist"]
  | some id =>
      let children := s.rows.countP (·.parentId = some id)
      if 0 < children then
        .error ["namespace '", shown normalized, "' has ", children,
          " child namespace(s); remove or move them first"]
      else if 0 < s.placements.count id then
        .error ["namespace '", shown normalized, "' holds ", s.placements.count id,
          " item placement(s); move or unplace them first"]
      else
        match s.namespaces.toTable.find? id with
        | none => .error ["Query returned no rows"]
        | some row => (s.deleteRow id).map (·.logged (.delete row))

end Writers

/-! ## undo -/

/-- Whether a namespace holds a child namespace, an item placement or a mount. -/
def namespaceIsOccupied (s : Store) (id : Int) : Bool :=
  s.rows.any (·.parentId = some id) || s.placements.contains id || s.mounts.contains id

/-- Invert one change. -/
def invert (s : Store) : Change → Except Fmt Store
  | .insert id => if namespaceIsOccupied s id then .ok s else s.deleteRow id
  | .update id before =>
      if s.rows.any (·.id = id) then s.update id before
      else .error ["it restored nothing — no row of `namespaces` has rowid ", id, " any more, so its " ++
        "previous values have nowhere to go — put that row back first, or revert the change that " ++
        "removed it"]
  | .delete r => s.insertRow r

/-! ## runs -/

/-- One call of a writer. -/
inductive Write where
  | ensure (now path : Text)
  | moveSubtree (now source target : Text)
  | remove (path : Text)
deriving Repr, DecidableEq

def Write.run (x : Outside) (s : Store) : Write → Except Fmt Store
  | .ensure now path => (Ns.ensure x s now path).map (·.1)
  | .moveSubtree now source target => (Ns.moveSubtree x s now source target).map (·.1)
  | .remove path => Ns.remove x s path

/-- The store between transactions, and the journal. -/
structure Sys where
  store : Store
  journal : Journal Change

/-- An operation: a transaction of writers' calls, an undo of a transaction or of the last one, or others'
placing of items and mounting of directories. -/
inductive Op where
  | txn (writes : List Write)
  | undo (txn : Nat)
  | undoLast
  | occupy (placements mounts : List Int)
deriving Repr, DecidableEq

/-- The transaction that an operation undoes. -/
def Op.target (s : Sys) : Op → Option Nat
  | .undo target => some target
  | .undoLast => s.journal.lastTxn
  | _ => none

/-- Undo a transaction, or refuse and leave all as it is. -/
def Sys.undo (s : Sys) (txn : Nat) : Sys :=
  match s.journal.undo invert s.store txn with
  | .ok (store, journal) => ⟨store, journal⟩
  | .error _ => s

/-- Carry out one operation. -/
def next (x : Outside) (s : Sys) : Op → Sys
  | .txn writes =>
      match writes.foldlM (Write.run x) s.store with
      | .ok store => ⟨{ store with log := [] }, s.journal.append store.log⟩
      | .error _ => s
  | .undo txn => s.undo txn
  | .undoLast => (s.journal.lastTxn.map s.undo).getD s
  | .occupy placements mounts => { s with store := { s.store with placements, mounts } }

end Jkb.Ns
