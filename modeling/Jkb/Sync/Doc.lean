import Jkb.Text

/-!
# Jkb.Sync.Doc

The document a synced file serializes: its sections, items, edges and block order, as
`serializers/mod.rs` and `jkb-types` declare them. What a file's own text goes into is a `Text`; the
kinds and statuses, which are fixed words, are strings.
-/

namespace Jkb

/-- The type of a typed edge between two items. -/
inductive EdgeType where
  | dependsOn | derivedFrom | references | parentOf | supports | contradicts | refutes | supersedes
  | rulesOut | narrows | constrains | confirms | answers | spawns | discoveredFrom | memberOf | tests
  | verifies | fixes | reducesTo | equivalentInStrengthTo | explainsFailure | informs | stages
deriving Repr, DecidableEq

/-- The string stored in the database. -/
def EdgeType.asStr : EdgeType → String
  | .dependsOn => "depends_on"
  | .derivedFrom => "derived_from"
  | .references => "references"
  | .parentOf => "parent_of"
  | .supports => "supports"
  | .contradicts => "contradicts"
  | .refutes => "refutes"
  | .supersedes => "supersedes"
  | .rulesOut => "rules_out"
  | .narrows => "narrows"
  | .constrains => "constrains"
  | .confirms => "confirms"
  | .answers => "answers"
  | .spawns => "spawns"
  | .discoveredFrom => "discovered_from"
  | .memberOf => "member_of"
  | .tests => "tests"
  | .verifies => "verifies"
  | .fixes => "fixes"
  | .reducesTo => "reduces_to"
  | .equivalentInStrengthTo => "equivalent_in_strength_to"
  | .explainsFailure => "explains_failure"
  | .informs => "informs"
  | .stages => "stages"

/-- Two types are never stored as one string. -/
theorem EdgeType.asStr_injective : Function.Injective EdgeType.asStr := by
  intro a b h
  cases a <;> cases b <;> first | rfl | exact absurd h (by decide)

end Jkb

namespace Jkb.Sync

/-- One block of a document, in file order. -/
inductive SyncBlock where
  | section (path : Text)
  | item (localId : Text)
  | prose (text : Text)
deriving Repr, DecidableEq

/-- A section header that maps to a namespace. -/
structure SyncSection where
  path : Text
  headerLine : Text
deriving Repr, DecidableEq

/-- One item the file serializes. -/
structure SyncItem where
  localId : Text
  kind : String
  content : Text
  sectionPath : Option Text := none
  position : Int := 0
  status : Option String := none
  priority : Option Int := none
  due : Option Text := none
  tags : List (Text × Text) := []
  mirrors : List Text := []
  parent : Option Text := none
  unresolvedNeeds : List Text := []
deriving Repr, DecidableEq

/-- An edge between two items, referenced by their local ids. -/
structure SyncEdge where
  src : Text
  dst : Text
  edgeType : EdgeType
deriving Repr, DecidableEq

/-- A parsed file. The order of its blocks lives in `layout` alone. -/
structure SyncDoc where
  sections : List SyncSection := []
  items : List SyncItem := []
  edges : List SyncEdge := []
  layout : List SyncBlock := []
deriving Repr, DecidableEq

namespace SyncDoc

/-- The local ids of a document's items, in its order. -/
def ids (doc : SyncDoc) : List Text := doc.items.map (·.localId)

/-- The first item with a local id. -/
def item? (doc : SyncDoc) (id : Text) : Option SyncItem := doc.items.find? (·.localId = id)

/-- The edges of one type, as a relation between local ids. -/
def edge (doc : SyncDoc) (kind : EdgeType) (src dst : Text) : Prop := ⟨src, dst, kind⟩ ∈ doc.edges

/-- What a serializer promises of a document: distinct ids, edges between its own items and each
once, and at most one parent. -/
def WellFormed (doc : SyncDoc) : Prop :=
  doc.ids.Nodup ∧ doc.edges.Nodup ∧ (∀ e ∈ doc.edges, e.src ∈ doc.ids ∧ e.dst ∈ doc.ids) ∧
    ∀ e ∈ doc.edges, ∀ e' ∈ doc.edges, e.edgeType = .parentOf → e'.edgeType = .parentOf →
      e.dst = e'.dst → e.src = e'.src

instance (doc : SyncDoc) : Decidable doc.WellFormed := by
  unfold WellFormed
  infer_instance

theorem item?_isSome {doc : SyncDoc} {id : Text} : (doc.item? id).isSome ↔ id ∈ doc.ids := by
  simp [item?, ids]

theorem localId_of_item? {doc : SyncDoc} {id : Text} {i : SyncItem} (h : doc.item? id = some i) :
    i.localId = id := by
  simpa using List.find?_some h

end SyncDoc

end Jkb.Sync
