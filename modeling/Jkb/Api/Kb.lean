import Jkb.Core.Containment
import Jkb.Core.Plan
import Jkb.Core.Substrate
import Jkb.Outline
import Jkb.Rooted

/-!
# Jkb.Api.Kb

What `kb.tree` lists. A place is a namespace, or an item by its uid; its children are the namespaces below it and the
items placed directly there, or the items it contains. The walk goes down from the top level into every child that
expands, and stops where the answer is full.
-/

namespace Jkb.Kb

open Jkb.Text Jkb.Ns

/-- Levels a tree descends at most. -/
def MAX_TREE_DEPTH : Nat := 48

/-- Nodes a tree lists at most. -/
def MAX_TREE_NODES : Nat := 10000

/-- The item kind of a document's fragments. -/
def KIND_CHUNK : Text := "chunk".toList

/-- How many levels below a namespace its leaves are counted. -/
def COUNTED_DEPTH : Nat := 256

/-- The longest label of an item, in characters. -/
def LABEL_CHARS : Nat := 80

/-! ## budgets -/

/-- `usize::MAX`. -/
def USIZE_MAX : Nat := 2 ^ 64 - 1

/-- What one read may put in its answer, in bytes. -/
structure Budget where
  left : Nat
  exhausted : Bool := false
deriving Repr, DecidableEq

namespace Budget

/-- No bound. -/
def UNLIMITED : Budget := { left := USIZE_MAX }

/-- Whether a value of a size fits, charging it when it does. Once something has not fitted nothing does. -/
def take (b : Budget) (size : Nat) : Bool × Budget :=
  if b.exhausted then (false, b)
  else
    let cost := min (size + 8) USIZE_MAX
    if b.left < cost then (false, { b with exhausted := true })
    else (true, { b with left := b.left - cost })

end Budget

/-! ## children -/

/-- A direct child of a namespace or container: a namespace, or an item. -/
structure Child where
  kind : Text
  reference : Text
  label : Text
  hasChildren : Bool
  status : Option TaskStatus := none
  priority : Option Int := none
  leafCount : Option Nat := none
  leafKinds : Option (List (Text × Nat)) := none
  nsType : Option Text := none
  nsTypeAbout : Option String := none
  subtaskCount : Option Nat := none
  openSubtaskCount : Option Nat := none
  chunkCount : Option Nat := none
  updated : Option Text := none
deriving Repr, DecidableEq

/-- The substrate, with when each item was updated. -/
structure Store extends Substrate.Store where
  updatedAt : Int → Text

/-- What the listings take from outside: `str::to_lowercase`, and the length of a child as JSON. -/
structure Outside extends Nstype.Typing where
  lower : Text → Text
  size : Child → Nat

/-- The namespaces without a parent, by path. -/
def nsRoots (rows : List Namespace) : List (Int × Text) :=
  ((rows.filter fun r => r.parentId = none).map fun r => (r.id, r.path)).insertionSort fun a b => a.2 ≤ b.2

/-- The namespaces directly below the one at a path, by path. -/
def nsChildren (nfc : Text → Text) (rows : List Namespace) (path : Text) : Except Fmt (List (Int × Text)) :=
  (normalize nfc path).map fun path =>
    ((rows.filter fun c => rows.any fun p => c.parentId = some p.id ∧ p.path = path).map fun r =>
      (r.id, r.path)).insertionSort fun a b => a.2 ≤ b.2

/-- At most so many characters of a text, the last an ellipsis where some are left out. -/
def truncated (t : Text) (n : Nat) : Text := if t.length ≤ n then t else t.take (n - 1) ++ ['…']

/-- Whether a listing shows an item of a status: all, or those that are not terminal. -/
def visible (all : Bool) (status : Option TaskStatus) : Bool := all || !status.any TaskStatus.isTerminal

section Reading

variable (x : Outside) (s : Store) (all : Bool)

/-- A row of `containment`, as its own readers have it. -/
def containedRow (c : Substrate.ContainmentRow) : Containment.Contained := ⟨c.child, c.parent, c.position⟩

theorem child_containedRow (c : Substrate.ContainmentRow) : (containedRow c).child = c.child := rfl

/-- The table `containment`, as its own readers have it. -/
def contained : Containment.ContainmentTable := s.containment.map containedRow child_containedRow

/-- The items contained by an item, in order. -/
def containedItems (parent : Int) : List Substrate.ItemRow :=
  (((contained s).rows.filter fun c => c.parent = parent).insertionSort fun a b =>
    a.position < b.position ∨ (a.position = b.position ∧ a.child ≤ b.child)).filterMap fun c => s.item? c.child

/-- How many items an item contains, and how many of them are not terminal; none of an item that contains none. -/
def childCounts (parent : Int) : Option (Nat × Nat) :=
  let kids := ((contained s).rows.filter fun c => c.parent = parent).filterMap fun c => s.item? c.child
  if kids.isEmpty then none else some (kids.length, kids.countP fun i => !i.status.any TaskStatus.isTerminal)

/-- How many items of a kind are derived from an item; none where there are none. -/
def derivedKindCount (parent : Int) (kind : Text) : Option Nat :=
  let n := s.edges.rows.countP fun e =>
    e.type = .derivedFrom ∧ e.dst = parent ∧ (s.item? e.src).any fun i => i.kind = kind
  if n = 0 then none else some n

/-- The items placed directly in a namespace, in order: those that no item contains. -/
def itemsDirectlyIn (ns : Int) : List Substrate.ItemRow :=
  ((s.placements.rows.filter fun p =>
    p.namespaceId = ns ∧ Containment.parent (contained s) p.itemId = none).insertionSort fun a b =>
      a.position < b.position ∨ (a.position = b.position ∧ a.itemId ≤ b.itemId)).filterMap fun p => s.item? p.itemId

/-- The items that are placed in a namespace or below it, of the visible ones, by kind. -/
def leafKinds (root : Int) : List (Text × Nat) :=
  let sub := root :: Rooted.descend (Ns.children s.spaces) COUNTED_DEPTH root
  let leaves := s.items.rows.filter fun i =>
    visible all i.status && s.placements.rows.any fun p => p.itemId = i.id ∧ p.namespaceId ∈ sub
  ((leaves.map (·.kind)).dedup.insertionSort (· ≤ ·)).map fun k => (k, leaves.countP (·.kind = k))

/-- An item, as a child. -/
def itemChild (i : Substrate.ItemRow) : Child :=
  let subtasks := childCounts s i.id
  let chunks := derivedKindCount s i.id KIND_CHUNK
  { kind := i.kind
    reference := i.uid
    label := truncated (Plan.titleFrom i.uid i.content) LABEL_CHARS
    hasChildren := (subtasks.any fun c => 0 < c.1) || chunks.isSome
    status := i.status
    priority := i.priority
    subtaskCount := subtasks.map (·.1)
    openSubtaskCount := subtasks.map (·.2)
    chunkCount := chunks
    updated := some (s.updatedAt i.id) }

/-- A namespace, as a child. -/
def spaceChild (n : Int × Text) : Except Fmt Child := do
  let below ← nsChildren x.nfc s.spaces n.2
  let kinds := leafKinds s all n.1
  -- chunks are hidden, so they are not counted either
  let kinds := if all then kinds else kinds.filter (·.1 ≠ KIND_CHUNK)
  let count := (kinds.map (·.2)).sum
  let nsType := Nstype.getTypeById x.toTyping s.spaces n.1
  return {
    kind := "namespace".toList
    reference := n.2
    label := ((rsplitOnce (· = '/') n.2).map (·.2)).getD n.2
    hasChildren := !below.isEmpty || 0 < count
    leafCount := some count
    leafKinds := some kinds
    nsType
    nsTypeAbout := nsType.bind fun name => ((Nstype.resolve name).toOption).map (·.about) }

/-- The order of a listing: namespaces, then tasks by priority, then other items; ties by label. -/
def Child.sortKey (c : Child) : Nat × Int × Text :=
  let group := if c.kind = "namespace".toList then 0 else if c.kind = "task".toList then 1 else 2
  (group, c.priority.getD (2 ^ 63 - 1), x.lower c.label)

/-- Whether a sort key is not after another. -/
def keyLe (a b : Nat × Int × Text) : Prop :=
  a.1 < b.1 ∨ (a.1 = b.1 ∧ (a.2.1 < b.2.1 ∨ (a.2.1 = b.2.1 ∧ a.2.2 ≤ b.2.2)))

instance (a b : Nat × Int × Text) : Decidable (keyLe a b) := inferInstanceAs (Decidable (_ ∨ _))

/-- The visible items of a listing. -/
def itemChildren (items : List Substrate.ItemRow) : List Child :=
  (items.filter fun i => visible all i.status).map (itemChild s)

/-- The children of an item that contains others. -/
def containedChildren (parent : Int) : List Child := itemChildren s all (containedItems s parent)

/-- The children of a namespace, or of the top level: namespaces, then items, in the order of a listing. -/
def spaceChildren (spaces : List (Int × Text)) (items : List Substrate.ItemRow) : Except Fmt (List Child) := do
  let spaces ← spaces.mapM (spaceChild x s all)
  return (spaces ++ itemChildren s all items).insertionSort fun a b => keyLe (Child.sortKey x a) (Child.sortKey x b)

/-- The direct children of a place: of a namespace, of the top level, or of an item whose uid names no namespace. -/
def children : Option Text → Except Fmt (List Child)
  | none => spaceChildren x s all (nsRoots s.spaces) []
  | some path => do
      match ← Ns.get x.nfc s.spaces path with
      | some ns => spaceChildren x s all (← nsChildren x.nfc s.spaces path) (itemsDirectlyIn s ns)
      | none =>
          match s.items.rows.find? (·.uid = path) with
          | some i => return containedChildren s all i.id
          | none => .error ["`", shown path, "` is neither a namespace nor an item uid"]

end Reading

/-! ## trees -/

/-- A node of a tree. -/
abbrev TreeNode := Outline.Node Child

/-- Whether, and where, a tree walk stopped early. -/
inductive TreeCut where
  | whole
  | budget
  | nodeCap
deriving Repr, DecidableEq

/-- What a tree walk has listed so far. -/
structure TreeWalk where
  listed : Nat := 0
  cut : TreeCut := .whole
  budget : Budget

section Trees

variable (x : Outside) (s : Store) (all : Bool)

/-- How the walk lists the level that a reference names; none at the last level. -/
abbrev Down := Option (Text → List Text → TreeWalk → Except Fmt (List TreeNode × TreeWalk))

/-- What is below a child, where the walk goes down into it. -/
def nested (down : Down) (ancestors : List Text) (child : Child) (w : TreeWalk) :
    Except Fmt (List TreeNode × TreeWalk) :=
  match down with
  | none => .ok ([], w)
  | some down =>
      if child.hasChildren = true ∧ child.reference ∉ ancestors then
        down child.reference (child.reference :: ancestors) w
      else .ok ([], w)

/-- List a child, and what is below it, unless the walk was cut or is full. -/
def listChild (down : Down) (ancestors : List Text) (st : List TreeNode × TreeWalk) (child : Child) :
    Except Fmt (List TreeNode × TreeWalk) :=
  let (out, w) := st
  if w.cut ≠ .whole then .ok (out, w)
  else if MAX_TREE_NODES ≤ w.listed then .ok (out, { w with cut := .nodeCap })
  else
    let (fits, budget) := w.budget.take (x.size child)
    if fits = false then .ok (out, { w with cut := .budget, budget })
    else
      (nested down ancestors child { w with listed := w.listed + 1, budget }).map fun r =>
        (out ++ [.mk child r.1], r.2)

/-- One level of a tree, and at most so many below it. -/
def level : Nat → Option Text → List Text → TreeWalk → Except Fmt (List TreeNode × TreeWalk)
  | 0, path, ancestors, w => do (← children x s all path).foldlM (listChild x none ancestors) ([], w)
  | n + 1, path, ancestors, w => do
      (← children x s all path).foldlM (listChild x (some fun reference => level n (some reference)) ancestors) ([], w)

/-- How many levels a tree of a depth goes down. -/
def depthLimit (depth : Option Nat) : Nat := (depth.map fun d => min d MAX_TREE_DEPTH).getD MAX_TREE_DEPTH

/-- `kb.tree`: the subtree under a path, descending into any container. -/
def tree (path : Option Text) (depth : Option Nat) (budget : Budget) : Except Fmt (List TreeNode × TreeCut) :=
  (level x s all (depthLimit depth) path path.toList { budget }).map fun r => (r.1, r.2.cut)

end Trees

end Jkb.Kb
