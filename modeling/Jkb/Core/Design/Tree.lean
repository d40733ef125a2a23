import Jkb.Core.Design.Split
import Jkb.Core.Dsl
import Jkb.Core.Plan
import Jkb.Core.Substrate
import Jkb.Rooted

/-!
# Jkb.Core.Design.Tree

Designs nest. A design may be contained by another design of its repo, by the row that a subtask's containment uses,
and a tree's designs share the plans of its root: a span counts a step it is staged into where the step's plan is of
a design with the same root. Only a root has a doc target, for its export holds the text of the whole tree.

The document of a design is a value of the document library, which is a parameter; so are what is read of and written
to an item's metadata, and the queue that a design's updates are announced on.
-/

namespace Jkb.Design.Tree

open Jkb.Text Jkb.Ns Jkb.Ranges

/-! ## the tables -/

/-- `items.kind` of a design. -/
def KIND : Text := "design".toList

/-- `items.kind` of a span. -/
def SPAN_KIND : Text := "design_span".toList

/-- `items.kind` of an execution plan. -/
def PLAN_KIND : Text := "exec_plan".toList

/-- `items.kind` of a thread on a design. -/
def THREAD_KIND : Text := "design_thread".toList

/-- The namespace that designs live under. -/
def ROOT : Text := "designs".toList

/-- How much of a title's slug a uid has. -/
def UID_SLUG_MAX : Nat := 32

/-- The directory every doc target lives under. -/
def DOCS_DIR : Text := "docs/".toList

/-- A row of `design_doc_targets`. -/
structure TargetRow where
  designId : Int
  path : Text
deriving Repr, DecidableEq

/-- What the stored updates of a design add up to, and the newest of them. -/
structure DocRow (Doc : Type) where
  designId : Int
  seq : Int
  doc : Doc

/-- The tables a design is in: those of every item, the items' metadata, the doc targets, the documents, and the queue
of announcements. -/
structure Store (Doc Queue : Type) extends Substrate.Store where
  metadata : Int → Text
  targets : Table fun t : TargetRow => t.designId
  docs : Table fun d : DocRow Doc => d.designId
  queue : Queue

/-- A version of a design: the newest update it includes, and the state vector at it. -/
structure Version where
  seq : Int
  stateVector : List UInt8
deriving Repr, DecidableEq

/-- What the approval of a carried span becomes: the words it attests to in the child, the child's version, and where
it was carried from. -/
structure Carry where
  attested : Text
  version : Text
  design : Text
  base : Text

/-- What the engine takes from outside: Unicode's tables and its canonical composition, the document library, the JSON
functions on an item's metadata, the queue, and two encodings. -/
structure Outside (Doc Queue : Type) extends Nstype.Typing where
  tables : Dsl.Tables
  new : Doc
  text : Doc → Text
  stateVector : Doc → List UInt8
  /-- The range of an anchored span, in UTF-16 units. -/
  range : Doc → Text → Option (Nat × Nat)
  /-- Write a text into a new document; a change of nothing is none. -/
  insert : Doc → Text → Except Fmt (Option Doc)
  /-- Take ranges out, last first, and the anchors of spans. -/
  remove : Doc → List (Nat × Nat) → List Text → Except Fmt (Option Doc)
  /-- Anchor spans. -/
  anchor : Doc → List (Text × Nat × Nat) → Except Fmt (Option Doc)
  attest : Doc → Nat → Nat → Except Fmt Text
  /-- Why a metadata does not parse. -/
  unreadable : Text → Option String
  hasApproval : Text → Bool
  /-- Whether a span's approval holds in a document, by its uid and metadata. -/
  approvalHolds : Doc → Text → Text → Except Fmt Bool
  /-- A carried span's metadata in the design of this uid; none of one that is not an object. -/
  carried : Text → Text → Option Carry → Option Text
  /-- Whether a thread is open, and where in the document it is anchored. -/
  thread : Doc → Text → Text → Except Fmt (Bool × Option (Nat × Nat))
  topicCreate : Queue → Text → Except Fmt Queue
  publish : Queue → Text → Int → Except Fmt Queue
  base64 : List UInt8 → Text
  unbase64 : Text → Option (List UInt8)
  bodyHash : Text → Text

section Reading

variable {Doc Queue : Type} (s : Store Doc Queue)

/-- The table `containment`, as its own readers have it. -/
def contained : Containment.ContainmentTable :=
  s.containment.map (fun c => ⟨c.child, c.parent, c.position⟩) fun _ => rfl

/-- What an item contains directly, in order. -/
def children (parent : Int) : List Int :=
  (((contained s).rows.filter fun c => c.parent = parent).mergeSort fun a b =>
    a.position < b.position ∨ (a.position = b.position ∧ a.child ≤ b.child)).map (·.child)

/-- Whether an item is a design. -/
def isDesign (id : Int) : Bool := (s.item? id).any fun i => i.kind = KIND

/-- The design that a design is nested under, if it is nested under one. -/
def parentOf (design : Int) : Option Int := (Containment.parent (contained s) design).filter fun p => isDesign s p

/-- How many steps the walks along containment take at most. -/
def depth : Nat := (contained s).rows.length

/-- The top of a design's tree. -/
def rootOf (design : Int) : Int := Rooted.climb (parentOf s) (depth s) design

/-- The designs nested directly under a design, in order. -/
def childrenOf (design : Int) : List (Int × Text) :=
  (children s design).filterMap fun c => ((s.item? c).filter fun i => i.kind = KIND).map fun i => (c, i.uid)

/-- Every design below a design, depth first, in order, at most so many levels. -/
def descendantsFrom : Nat → Int → List (Int × Text)
  | 0, _ => []
  | n + 1, design => (childrenOf s design).flatMap fun c => c :: descendantsFrom n c.1

/-- Every design below a design. -/
def descendants (design : Int) : List (Int × Text) := descendantsFrom s (depth s) design

/-- A design's id. -/
def designId (uid : Text) : Except Fmt Int :=
  match s.items.rows.find? (·.uid = uid) with
  | none => .error ["no design `", shown uid, "`"]
  | some i => if i.kind = KIND then .ok i.id else .error ["`", shown uid, "` is a ", shown i.kind, ", not a design"]

/-- The path of an item's primary namespace. -/
def primaryNamespace (item : Int) : Option Text :=
  (s.placements.rows.filter fun p => p.itemId = item && p.role = .primary).findSome? fun p =>
    (s.namespaces.toTable.find? p.namespaceId).map (·.path)

/-- The repo a design's namespace names: the segment after `designs/`. -/
def repoIn («namespace» : Text) : Option Text := do
  let rest ← stripPrefix ROOT «namespace»
  let rest ← stripPrefix ['/'] rest
  let repo ← (rest.splitOn '/').head?
  if repo = [] then none else some repo

/-- The repo a design belongs to. -/
def repoOf (id : Int) : Option Text := (primaryNamespace s id).bind repoIn

/-- Where a design's export is written. -/
def docTarget (id : Int) : Option Text := (s.targets.find? id).map (·.path)

/-- Whether a design is retired. -/
def retiredItem (id : Int) : Bool := (s.item? id).any fun i => i.resolution = some .abandoned

/-- An item's uid, for a message. -/
def uidOf (id : Int) : Text := ((s.item? id).map (·.uid)).getD []

/-- The newest update a design holds. -/
def newestSeq (design : Int) : Int := ((s.docs.find? design).map (·.seq)).getD 0

end Reading

/-- Refuse where a condition holds. -/
def refuseIf (c : Prop) [Decidable c] (why : Fmt) : Except Fmt Unit := if c then .error why else .ok ()

/-! ## plans -/

section Plans

variable {Doc Queue : Type} (s : Store Doc Queue)

/-- The design a plan belongs to: its container. -/
def designOf (planItem : Int) (plan : Text) : Except Fmt Int :=
  match Containment.parent (contained s) planItem with
  | none => .error ["plan ", shown plan, " is contained by no design"]
  | some parent =>
      match s.item? parent with
      | none => .error ["plan ", shown plan, "'s design is gone"]
      | some i =>
          if i.kind ≠ KIND then .error ["plan ", shown plan, " is contained by a ", shown i.kind, ", not a design"]
          else .ok parent

/-- The design a plan step belongs to: its plan's container. -/
def designOfStep (step : Int) (stepUid : Text) : Except Fmt Int :=
  match Containment.parent (contained s) step with
  | none => .error ["plan step ", shown stepUid, " is contained by no plan"]
  | some plan =>
      match s.item? plan with
      | none => .error ["plan step ", shown stepUid, "'s plan is gone"]
      | some i =>
          if i.kind ≠ PLAN_KIND then
            .error ["plan step ", shown stepUid, " is contained by a ", shown i.kind, ", not a plan"]
          else designOf s plan i.uid

/-- The step implemented what was staged into it: it has tasks, all `done`. -/
def implemented (step : Int) : Bool :=
  let tasks := s.items.rows.filter fun i => i.kind = Plan.TASK ∧ i.id ∈ Plan.under (contained s) step
  !tasks.isEmpty && tasks.all fun i => i.status = some .done

/-- The steps that a span's edges stage it into, by uid. -/
def stagesEdges (span : Int) : List (Int × Text) :=
  ((s.edges.rows.filter fun e => e.src = span ∧ e.type = .stages).filterMap fun e =>
    ((s.item? e.dst).filter fun i => i.kind = Plan.STEP_KIND).map fun i => (i.id, i.uid)).mergeSort
      fun a b => decide (a.2 ≤ b.2)

/-- The steps a span counts: those of its own design's tree. -/
def countedSteps (span design : Int) : List (Int × Text) :=
  let edges := stagesEdges s span
  let root := if edges.isEmpty then design else rootOf s design
  edges.filter fun step =>
    match designOfStep s step.1 step.2 with
    | .ok owner => rootOf s owner = root
    | .error _ => false

/-- The state a span's approved words are in, and the uids of the steps it counts. -/
def approvedState (span design : Int) : SpanState × List Text :=
  let steps := countedSteps s span design
  if steps.isEmpty then (.approved, [])
  else (if steps.all fun step => implemented s step.1 then .implemented else .staged, steps.map (·.2))

end Plans

/-! ## spans -/

/-- A span item's id, metadata and design. -/
structure SpanItem where
  id : Int
  uid : Text
  metadata : Text
  design : Int
deriving Repr, DecidableEq

/-- What a write is checked against afterwards: the span pairs that already overlapped, and the spans whose approval
held. -/
structure Before where
  overlaps : List (Text × Text) := []
  held : List Text := []

/-- The pairs of ranges that overlap, each in the order of the uids. -/
def overlapsFrom : List (Text × Nat × Nat) → List (Text × Text)
  | [] => []
  | (u, start, stop) :: rest =>
      (rest.filterMap fun (v, start', stop') =>
        if start < stop' ∧ start' < stop then some (if u < v then (u, v) else (v, u)) else none) ++ overlapsFrom rest

/-- Pairs in order. -/
def pairLe (a b : Text × Text) : Bool := decide (a.1 < b.1 ∨ (a.1 = b.1 ∧ a.2 ≤ b.2))

section Spans

variable {Doc Queue : Type} (x : Outside Doc Queue) (s : Store Doc Queue)

/-- The design's document now, and its version. -/
def load (design : Int) : Doc × Version :=
  match s.docs.find? design with
  | none => (x.new, ⟨0, x.stateVector x.new⟩)
  | some r => (r.doc, ⟨r.seq, x.stateVector r.doc⟩)

/-- The items of a kind that a design contains, in order. -/
def itemsOf (design : Int) (kind : Text) : List Substrate.ItemRow :=
  ((children s design).filterMap s.item?).filter fun i => i.kind = kind

/-- Every span item a design contains. -/
def spanItems (design : Int) : Except Fmt (List SpanItem) :=
  (itemsOf s design SPAN_KIND).mapM fun i =>
    match x.unreadable (s.metadata i.id) with
    | some why => .error ["span ", shown i.uid, " has unreadable metadata: ", why]
    | none => .ok { id := i.id, uid := i.uid, metadata := s.metadata i.id, design }

/-- One span's derived state, and the steps it counts. -/
def view (span : SpanItem) (doc : Doc) : Except Fmt (SpanView × List Text) := do
  let holds ← x.approvalHolds doc span.uid span.metadata
  let range := x.range doc span.uid
  let (words, steps) := approvedState s span.id span.design
  return ({
      uid := span.uid
      anchored := range.isSome
      start := (range.getD (0, 0)).1
      stop := (range.getD (0, 0)).2
      state := if holds then words else .proposed }, steps)

/-- The pairs of a design's spans whose ranges overlap in a document. -/
def overlaps (doc : Doc) (items : List SpanItem) : List (Text × Text) :=
  overlapsFrom <| items.filterMap fun i =>
    ((x.range doc i.uid).filter fun r => r.1 < r.2).map fun r => (i.uid, r.1, r.2)

/-- What a write is checked against, read before it. -/
def beforeWrite (design : Int) (doc : Doc) : Except Fmt Before := do
  let items ← spanItems x s design
  let held ← (items.filter fun i => x.hasApproval i.metadata).mapM fun i => do
    let v ← view x s i doc
    return if v.1.state = .proposed then [] else [i.uid]
  return { overlaps := overlaps x doc items, held := held.flatten }

/-- Refuse a document in which two spans overlap that did not before. -/
def refuseNewOverlaps (doc : Doc) (items : List SpanItem) (before : List (Text × Text)) : Except Fmt Unit :=
  match (((overlaps x doc items).filter (· ∉ before)).mergeSort pairLe).head? with
  | some (a, b) => .error ["span ", shown a, " would overlap span ", shown b,
      ": each piece of a design is in exactly one state, so spans do not overlap"]
  | none => .ok ()

/-- The answer to a write: the spans it demoted. -/
def finish (design : Int) (doc : Doc) (before : Before) : Except Fmt (List Text) := do
  let items ← spanItems x s design
  refuseNewOverlaps x doc items before.overlaps
  let demoted ← (items.filter fun i => i.uid ∈ before.held).mapM fun i => do
    let v ← view x s i doc
    return if v.1.state = .proposed then [i.uid] else []
  return demoted.flatten

/-- The steps that the spans of designs count now, of the spans that count any, by the spans' uids. -/
abbrev Staged := Table fun p : Text × List Text => p.1

/-- The steps that one design's spans count. -/
def stagedOf (out : Staged) (design : Int × Text) : Except Fmt Staged := do
  let doc := (load x s design.1).1
  (← spanItems x s design.1).foldlM (fun out span => do
    let v ← view x s span doc
    return if v.2 = [] then out else out.put (span.uid, v.2)) out

/-- The steps each span of designs counts as staged into now. -/
def stagedSpans (designs : List (Int × Text)) : Except Fmt Staged := designs.foldlM (stagedOf x s) .empty

end Spans

end Jkb.Design.Tree
