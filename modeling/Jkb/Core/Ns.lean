import Jkb.Table
import Jkb.Text
import Jkb.Worklist

/-!
# Jkb.Core.Ns

Namespaces: the logical folder tree. A namespace is a row with a path and the id of its parent; a path is
normalized and checked before it is stored or looked up, and a subtree is walked along the parents.

Unicode's canonical composition, which every segment goes through, is a parameter.
-/

namespace Jkb.Ns

open Jkb.Text Relation

/-- The longest namespace path, in bytes. -/
def maxPathBytes : Nat := 4096

/-- The most segments a path may have. -/
def maxDepth : Nat := 128

/-- `str::len`, of a text. -/
def byteLen (t : Text) : Nat := (String.ofList t).utf8ByteSize

/-- A text in a message. -/
def shown (t : Text) : Piece := .text (String.ofList t)

/-- The segments of a path. -/
def segments (path : Text) : List Text := path.splitOn '/'

/-- Segments as a path. -/
def joined (segments : List Text) : Text := ['/'].intercalate segments

/-- The kind of a namespace. -/
inductive Kind where
  | logical
  | mount
  | system
deriving Repr, DecidableEq

/-- A row of `namespaces`. -/
structure Namespace where
  id : Int
  path : Text
  parentId : Option Int
  kind : Kind
  metadata : Text
  createdAt : Text
deriving Repr, DecidableEq

section Paths

variable (nfc : Text → Text)

/-- Check one segment of `path`, and compose it. -/
def normalizeSegment (path segment : Text) : Except Fmt Text :=
  if segment = [] then .error ["empty segment in '", shown path, "'"]
  else if segment = ['.'] ∨ segment = ['.', '.'] then .error ["path traversal in '", shown path, "'"]
  else if segment.any isControl then .error ["control character in '", shown path, "'"]
  else .ok (nfc segment)

/-- Normalize and check a path. -/
def normalize (path : Text) : Except Fmt Text :=
  if path = [] then .error ["namespace path is empty"]
  else if maxPathBytes < byteLen path then
    .error ["namespace path of ", byteLen path, " bytes; at most ", maxPathBytes]
  else if maxDepth < (segments path).length then
    .error ["namespace path ", (segments path).length, " segments deep; at most ", maxDepth]
  else
    match (segments path).mapM (normalizeSegment nfc path) with
    | .error e => .error e
    | .ok segs =>
        if maxPathBytes < byteLen (joined segs) then
          .error ["namespace path of ", byteLen (joined segs), " bytes once normalized; at most ",
            maxPathBytes]
        else .ok (joined segs)

/-- The id of the namespace at a path, if there is one. -/
def get (rows : List Namespace) (path : Text) : Except Fmt (Option Int) :=
  (normalize nfc path).map fun path => (rows.find? (·.path = path)).map (·.id)

/-- The ids of the namespaces whose parent is `id`. -/
def children (rows : List Namespace) (id : Int) : List Int :=
  (rows.filter (·.parentId = some id)).map (·.id)

theorem mem_children {rows : List Namespace} {id c : Int} :
    c ∈ children rows id ↔ ∃ r ∈ rows, r.parentId = some id ∧ r.id = c := by
  simp [children, and_assoc]

/-- The recursive query that walks the parents down from the rows at `path`. -/
def walk (rows : List Namespace) (path : Text) : List Int :=
  Worklist.closure (children rows) (rows.map (·.id))
    (fun _ _ h => by
      obtain ⟨r, hr, -, rfl⟩ := mem_children.mp h
      exact List.mem_map_of_mem hr)
    ((rows.filter (·.path = path)).map (·.id))

/-- The namespace at a path and all its descendants, with their paths, in the order of the paths. -/
def subtree (rows : List Namespace) (path : Text) : Except Fmt (List (Int × Text)) :=
  (normalize nfc path).map fun path =>
    ((rows.filter (·.id ∈ walk rows path)).map fun r => (r.id, r.path)).mergeSort
      fun a b => decide (a.2 ≤ b.2)

end Paths

end Jkb.Ns
