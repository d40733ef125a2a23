import Jkb.Core.Ns.Tree

/-!
# Jkb.Core.Nstype

Typed namespaces. A namespace may name a type, which governs it and whatever is below it that names none of
its own; a type says which kinds of items may be placed there. A strategy is a type that investigations are
driven by, a contract one that only says what may be placed.

What is read of a namespace's metadata is a parameter.
-/

namespace Jkb.Nstype

open Jkb.Text Jkb.Ns

/-! ## the types of this build -/

/-- Which of the four base roles a strategy's node kind plays. -/
inductive BaseKind where
  | goal
  | node
  | artifact
  | reflection
deriving Repr, DecidableEq

/-- One item kind that a type uses. -/
structure NodeKindSpec where
  kind : String
  base : BaseKind
deriving Repr, DecidableEq

/-- What a type governs. -/
inductive TypeRole where
  | investigation
  | contract
deriving Repr, DecidableEq

def KIND_GOAL : String := "goal"
def KIND_NODE : String := "node"
def KIND_ARTIFACT : String := "artifact"
def KIND_REFLECTION : String := "reflection"
def KIND_TASK : String := "task"
def KIND_VIEW : String := "view"
def KIND_SYMPTOM : String := "symptom"
def KIND_CONJECTURE : String := "conjecture"

/-- Every kind an investigation accepts, beside those of its strategy. -/
def INVESTIGATION_KINDS : List String := [KIND_GOAL, KIND_NODE, KIND_ARTIFACT, KIND_REFLECTION, KIND_TASK]

/-- The registered types. -/
inductive NamespaceType where
  | debugging
  | conjecture
  | tasks
  | views
  | journal
deriving Repr, DecidableEq

/-- `AVAILABLE`. -/
def AVAILABLE : List String := ["debugging", "conjecture-attack", "tasks", "views", "journal"]

namespace NamespaceType

/-- The name stored in a namespace's metadata. -/
def name : NamespaceType → String
  | .debugging => "debugging"
  | .conjecture => "conjecture-attack"
  | .tasks => "tasks"
  | .views => "views"
  | .journal => "journal"

def about : NamespaceType → String
  | .debugging => "localize and fix a hard bug: hypothesis -> experiment -> observation -> " ++
      "root cause -> fix -> verify, over a mutable codebase"
  | .conjecture => "resolve a hard conjecture by proof OR disproof under one structure: diverse " ++
      "approach families, blocked-with-reason routes, adversarial audit, retained graveyard"
  | .tasks => "holds tasks only"
  | .views => "holds saved views only (`kind=view`, content = a query DSL string)"
  | .journal => "surfaces a system table in the VFS; holds no items"

def role : NamespaceType → TypeRole
  | .debugging | .conjecture => .investigation
  | .tasks | .views | .journal => .contract

def nodeKinds : NamespaceType → List NodeKindSpec
  | .debugging => [
      ⟨KIND_SYMPTOM, .goal⟩, ⟨"repro", .artifact⟩, ⟨"hypothesis", .node⟩, ⟨"experiment", .node⟩,
      ⟨"observation", .node⟩, ⟨"suspect-area", .node⟩, ⟨"regression-window", .node⟩,
      ⟨"root-cause", .node⟩, ⟨"fix", .artifact⟩, ⟨"invariant", .node⟩]
  | .conjecture => [
      ⟨KIND_CONJECTURE, .goal⟩, ⟨"approach-family", .node⟩, ⟨"approach", .node⟩, ⟨"reduction", .node⟩,
      ⟨"lemma", .node⟩, ⟨"construction", .artifact⟩, ⟨"invariant", .node⟩, ⟨"candidate-proof", .artifact⟩,
      ⟨"candidate-construction", .artifact⟩, ⟨"parameter-regime", .node⟩, ⟨"obstruction", .node⟩,
      ⟨"gap", .node⟩, ⟨"partial-result", .artifact⟩, ⟨"audit", .node⟩, ⟨"tool", .artifact⟩,
      ⟨"mechanism", .node⟩]
  | .tasks => [⟨KIND_TASK, .node⟩]
  | .views => [⟨KIND_VIEW, .node⟩]
  | .journal => []

/-- The base kinds a type inherits: a contract none, so that what it accepts is exact. -/
def baseKinds : NamespaceType → List String
  | .debugging | .conjecture => INVESTIGATION_KINDS
  | .tasks | .views | .journal => []

/-- Whether a kind is one of the type's. -/
def acceptsKind (t : NamespaceType) (kind : Text) : Bool :=
  t.baseKinds.any (fun k => kind = k.toList) || t.nodeKinds.any fun k => kind = k.kind.toList

/-- Every kind a type accepts, in declaration order. -/
def acceptedKinds (t : NamespaceType) : List String := t.baseKinds ++ t.nodeKinds.map (·.kind)

end NamespaceType

/-- A type by its name. -/
def resolve (name : Text) : Except Fmt NamespaceType :=
  if name = "debugging".toList then .ok .debugging
  else if name = "conjecture-attack".toList then .ok .conjecture
  else if name = "tasks".toList then .ok .tasks
  else if name = "views".toList then .ok .views
  else if name = "journal".toList then .ok .journal
  else .error ["unknown namespace type `", shown name, "`; available: ", ", ".intercalate AVAILABLE]

/-! ## the type that governs a path -/

/-- What is read of a namespace's metadata, over what the writers of the tree take from outside: the type that is
named. -/
structure Typing extends Ns.Outside where
  typeOf : Text → Option Text

/-- A path and every ancestor of it, deepest first: what is before a slash of it. -/
def ancestorPaths (path : Text) : List Text :=
  (path.inits.filter fun p => p = path || (p ++ ['/']).isPrefixOf path).reverse

section Governs

variable (x : Typing)

/-- The typed namespace nearest to a path, with its type: its own, or its nearest typed ancestor's. -/
def effectiveType (rows : List Namespace) (path : Text) : Except Fmt (Option (Text × Text)) := do
  let path ← normalize x.nfc path
  match (ancestorPaths path).findSome? fun p => rows.find? fun r => r.path = p && x.typed r.metadata with
  | none => return none
  | some r =>
      match x.typeOf r.metadata with
      | some name => return some (r.path, name)
      | none => .error ["Invalid column type at index: 1, name: type"]

/-- The type that governs a path, and the namespace it comes from. -/
def forNamespace (rows : List Namespace) (path : Text) : Except Fmt (Option (Text × NamespaceType)) := do
  match ← effectiveType x rows path with
  | none => return none
  | some (source, name) => return some (source, ← resolve name)

/-- The type that a namespace names itself. -/
def getTypeById (rows : List Namespace) (id : Int) : Option Text :=
  (rows.find? (·.id = id)).bind fun r => x.typeOf r.metadata

end Governs

/-- The error about an item that a namespace's type does not accept. -/
def rejectKind (path : Text) (t : NamespaceType) (kind : Text) : Fmt :=
  ["namespace `", shown path, "` is typed `", t.name, "`, which does not accept items of kind `",
    shown kind, "`; it accepts: ",
    if t.acceptedKinds = [] then "nothing (it surfaces a system table and holds no items)"
    else ", ".intercalate t.acceptedKinds]

end Jkb.Nstype
