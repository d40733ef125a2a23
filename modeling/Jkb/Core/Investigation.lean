import Jkb.Core.Nstype.Lifecycle
import Jkb.Core.Substrate

/-!
# Jkb.Core.Investigation

The investigation engine: an investigation is a namespace typed with a strategy, and a unit is an item placed
in it. A unit's outcome is rolled up from its edges, by the strategy that governs the namespace which is
rolled up, and over its whole subtree.
-/

namespace Jkb.Investigation

open Jkb.Text Jkb.Nstype Jkb.Nstype.Lifecycle Jkb.Substrate Fsm
open Jkb.Ns (shown)

/-- What the engine takes from outside, beside the namespaces': the dates and the full-text search of the database. -/
structure Outside extends Nstype.Typing where
  sqlite : Query.Sqlite

/-! ## what is observed of a unit -/

section Facts

variable (s : Store)

/-- `edge::walk` of one hop against the edges: the other items that have an edge of one of some types to
this one. -/
def walkIn (item : Int) (types : List EdgeType) : List Int :=
  ((s.edges.rows.filter fun e => e.dst = item && types.contains e.type).map (·.src)).filter (· ≠ item)

/-- Whether an item has an edge of one of some types into it. -/
def incoming (item : Int) (types : List EdgeType) : Bool :=
  s.edges.rows.any fun e => e.dst = item && types.contains e.type

/-- Whether an item carries `staleness=stale`. -/
def isStale (item : Int) : Bool :=
  s.tags.rows.any fun t => t.itemId = item && t.facet = "staleness".toList && t.value = "stale".toList

/-- Whether something that is not stale verifies a fix. -/
def isVerified (fix : Int) : Bool := (walkIn s fix [.verifies]).any fun verifier => !isStale s verifier

/-- Whether a symptom, or a root cause that answers it, has a verified fix. -/
def hasVerifiedFix (symptom : Int) : Bool :=
  (symptom :: walkIn s symptom [.answers]).any fun candidate =>
    (walkIn s candidate [.fixes]).any fun fix => isVerified s fix

/-- What the edges say of a unit. Nothing goes stale here. -/
def baseEvidence (item : Int) : Evidence where
  refuted := incoming s item [.refutes, .rulesOut]
  superseded := incoming s item [.supersedes]
  confirmed := incoming s item [.confirms, .verifies]
  stale := false

/-- What `debugging` observes: a symptom is confirmed by a verified fix and stale without one, and any other
unit goes stale by its tag. -/
def debuggingEvidence (item : Int) : Evidence :=
  if (s.item? item).map (·.kind) = some KIND_SYMPTOM.toList then
    { baseEvidence s item with confirmed := hasVerifiedFix s item, stale := !hasVerifiedFix s item }
  else { baseEvidence s item with stale := isStale s item }

/-- What a type observes of a unit. -/
def evidence (t : NamespaceType) (item : Int) : Evidence :=
  match t with
  | .debugging => debuggingEvidence s item
  | _ => baseEvidence s item

/-- `get_resolution`, where no resolution is read as `unresolved`. -/
def resolutionOf (item : Int) : Resolution := ((s.item? item).bind (·.resolution)).getD .unresolved

/-- `unit_facts`. -/
def unitFacts (t : NamespaceType) (item : Int) : UnitFacts := (evidence s t item).facts (resolutionOf s item)

end Facts

/-- `unit_machine`. -/
def unitMachine : NamespaceType → UnitMachine
  | .debugging => DEBUGGING
  | _ => BASE

section Engine

variable (x : Outside) (s : Store)

/-! ## rolling up -/

/-- The strategy that governs a path. -/
def requireStrategy (path : Text) : Except Fmt NamespaceType := do
  match ← forNamespace x.toTyping s.spaces path with
  | some (_, t) => return t
  | none => .error ["`", shown path, "` is not an investigation namespace; create one with ",
      "`jkb inv new <type> <path>` (types: ", ", ".intercalate AVAILABLE, ")"]

/-- The `uid` of an item. -/
def uidOf (item : Int) : Except Fmt Text :=
  match s.item? item with
  | some i => .ok i.uid
  | none => .error ["Query returned no rows"]

/-- A change of a unit's resolution. -/
structure Rolled where
  uid : Text
  src : Resolution
  dst : Resolution
deriving Repr, DecidableEq

/-- Perform what a unit's machine asks for. -/
def performUnit (item : Int) (current : Resolution) (at_ : Store × List Rolled) :
    UnitEffect → Except Fmt (Store × List Rolled)
  | .setResolution dst => do
      let s ← setResolution at_.1 item dst
      return (s, at_.2 ++ [⟨← uidOf s item, current, dst⟩])

/-- One unit of a roll-up. -/
def rollUnit (t : NamespaceType) (at_ : Store × List Rolled) (item : Int) : Except Fmt (Store × List Rolled) :=
  let facts := unitFacts at_.1 t item
  match (unitMachine t).reconcile facts with
  | .settled => .ok at_
  | .fired out => out.effects.foldlM (performUnit item facts.resolution) at_
  | .ambiguous events => do
      .error ["`", shown (← uidOf at_.1 item), "` carries evidence for two outcomes at once (",
        " and ".intercalate (events.map Event.name), "), so `", t.name, "` will not choose between them"]

/-- The units that a roll-up of a path is about: everything in its subtree but tasks. -/
def units (path : Text) : Except Fmt (List Int) :=
  Query.evaluate x.nfc x.sqlite s.queried
    { excludeKinds := [KIND_TASK.toList], scope := .subtree path }

/-- Recompute and store every unit's resolution from its edges. -/
def rollUp (path : Text) : Except Fmt (Store × List Rolled) := do
  let t ← requireStrategy x s path
  (← units x s path).foldlM (rollUnit t) (s, [])

end Engine

/-! ## whose a unit is -/

/-- The path of an item's primary namespace, or of any it is placed in. -/
def primaryNamespace (s : Store) (item : Int) : Option Text :=
  let mine := s.placements.rows.filter fun p => p.itemId = item
  let homes := mine.filterMap fun p => (s.namespaces.toTable.find? p.namespaceId).map fun n => (p, n.path)
  let first := homes.mergeSort fun a b =>
    decide (a.1.role = .primary ∧ b.1.role ≠ .primary) ||
      (decide (a.1.role = b.1.role) && decide (a.1.position ≤ b.1.position))
  first.head?.map (·.2)

end Jkb.Investigation
