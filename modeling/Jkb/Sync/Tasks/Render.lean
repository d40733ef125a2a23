import Jkb.Sync.Tasks.Parse

/-!
# Jkb.Sync.Tasks.Render

Rendering a document back to a `tasks.md`: its layout block by block, each task at the indentation of
its depth, then whatever the layout does not mention.
-/

namespace Jkb.Sync.Tasks

open Jkb.Text Jkb.Dsl

/-! ## lookups -/

/-- The parent an id has in a document's edges; of several, the last. -/
def parentOf (doc : SyncDoc) (id : Text) : Option Text :=
  (doc.edges.reverse.find? fun e => e.edgeType = .parentOf ∧ e.dst = id).map (·.src)

/-- The section with a path; of several, the last. -/
def section? (doc : SyncDoc) (path : Text) : Option SyncSection :=
  doc.sections.reverse.find? (·.path = path)

/-- The item with a local id; of several, the last. -/
def lastItem? (doc : SyncDoc) (id : Text) : Option SyncItem :=
  doc.items.reverse.find? (·.localId = id)

/-- Count the parents above an id, stopping at one seen before. -/
def depthFrom (parent : Text → Option Text) : Nat → List Text → Text → Nat
  | 0, _, _ => 0
  | fuel + 1, seen, cur =>
      match parent cur with
      | none => 0
      | some p => if cur ∈ seen then 0 else depthFrom parent fuel (cur :: seen) p + 1

/-- The nesting depth of an id. No chain of distinct children is longer than the list of edges. -/
def depth (doc : SyncDoc) (id : Text) : Nat :=
  depthFrom (parentOf doc) (doc.edges.length + 1) [] id

/-! ## lines -/

/-- Two spaces for each level. -/
def spaces (depth : Nat) : Text := List.replicate (2 * depth) ' '

/-- The mark of a checkbox. -/
def checkbox (status : Option String) : Char :=
  match status with
  | some "done" => 'x'
  | some "in_progress" => '~'
  | some "needs_review" => '?'
  | some "cancelled" => '-'
  | _ => ' '

/-- A task line. -/
def renderTaskLine (depth : Nat) (status : Option String) (title : Text) (words : List Text)
    (id : Text) : Text :=
  spaces depth ++ '-' :: ' ' :: '[' :: checkbox status :: ']' :: ' ' :: lineText title words id

/-- A line of a task's body. -/
def renderBodyLine (depth : Nat) (line : Text) : Text := spaces depth ++ ' ' :: ' ' :: line

/-- An item's content, as the title that carries the modifiers and the lines of its body. -/
def splitContent (content : Text) : Text × List Text :=
  match splitOnce '\n' content with
  | some (title, body) => (title, body.splitOn '\n')
  | none => (content, [])

/-- The lines of one task. -/
def renderTask (item : SyncItem) (depth : Nat) (deps : List Text) : List Text :=
  let (title, body) := splitContent item.content
  renderTaskLine depth item.status title
      ((modifiers item.priority item.due item.tags item.mirrors (deps ++ item.unresolvedNeeds)).map
        Modifier.word) item.localId ::
    body.map (renderBodyLine depth)

/-- What an item is rendered as: a task, or the verbatim text of any other kind. -/
def renderItem (doc : SyncDoc) (item : SyncItem) : Text :=
  if item.kind = "task" then
    ['\n'].intercalate (renderTask item (depth doc item.localId) (depsOf doc item.localId))
  else item.content

/-- What a block is rendered as; nothing, where it names what the document does not have. -/
def renderBlock (doc : SyncDoc) : SyncBlock → Option Text
  | .prose text => some text
  | .section path => (section? doc path).map (·.headerLine)
  | .item id => (lastItem? doc id).map (renderItem doc)

/-- The items that the layout does not mention. -/
def unlisted (doc : SyncDoc) : List SyncItem :=
  doc.items.filter fun i => SyncBlock.item i.localId ∉ doc.layout

/-- Render a document: its layout, and then the items that the layout does not mention. -/
def renderDoc (doc : SyncDoc) : Text :=
  ['\n'].intercalate
      (doc.layout.filterMap (renderBlock doc) ++ (unlisted doc).map (renderItem doc)) ++ ['\n']

end Jkb.Sync.Tasks
