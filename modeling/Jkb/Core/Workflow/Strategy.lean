import Jkb.Core.Roles
import Jkb.Core.Workflow

/-!
# Jkb.Core.Workflow.Strategy

A strategy: an execution graph, permission toggles that the operator chooses, and attributes that the graph's
guards read.
-/

namespace Jkb.Workflow

open Jkb.Fsm Jkb.Rbac Jkb.Roles

instance : Named Role where
  all := [.operator, .coordinator, .designer, .implementer, .reviewer, .systemicReviewer]
  name := Role.asStr

/-- The grants the operator chooses: the roles beyond the operator. -/
structure Toggles where
  approvesDesign : List Role := [.operator]
  lands : List Role := [.operator]
deriving Repr, DecidableEq

/-- A toggle's declaration. -/
structure ToggleDef where
  name : String
  get : Toggles → List Role
  /-- the workflow events it controls: none, where it controls the op that lands -/
  events : List WorkflowEvent
  domain : List Role
  actsIn : Option Phase

/-- Every toggle. -/
def TOGGLES : List ToggleDef := [
  { name := "approves_design", get := Toggles.approvesDesign, events := [.approveDesign, .rejectDesign],
    domain := [.operator, .coordinator], actsIn := some .designReview },
  { name := "lands", get := Toggles.lands, events := [], domain := [.operator, .coordinator],
    actsIn := none }]

/-- What counts as the same area. -/
inductive AreaScope where
  | file
  | directory
deriving Repr, DecidableEq

/-- When must-fixes count as repeating. -/
structure RepeatedArea where
  scope : AreaScope := .file
  rounds : Nat := 2
deriving Repr, DecidableEq

/-- The most consecutive rounds a strategy may ask for. -/
def MAX_REPEATED_ROUNDS : Nat := 10

/-- Knobs the graph's guards read. -/
structure Attributes where
  repeatedArea : RepeatedArea := {}
deriving Repr, DecidableEq

/-- A strategy, as stored. -/
structure StrategySpec where
  graph : GraphId
  toggles : Toggles := {}
  attributes : Attributes := {}
deriving Repr, DecidableEq

/-- The preset that a task runs when nothing else is set. -/
def DEFAULT_PRESET : String := "design-reviewed"

/-- A named preset. -/
structure Preset where
  name : String
  spec : StrategySpec

/-- The presets. -/
def PRESETS : List Preset := [
  { name := "design-reviewed", spec := { graph := .designGate } },
  { name := "coordinated",
    spec := { graph := .designGate, toggles := { approvesDesign := [.operator, .coordinator] } } },
  { name := "autonomous",
    spec := { graph := .direct, toggles := { lands := [.operator, .coordinator] } } }]

/-- The preset with a name. -/
def preset (name : String) : Option StrategySpec := (PRESETS.find? (·.name = name)).map (·.spec)

/-- The grants that every strategy shares. -/
def BASE : RoleTable Role WorkflowEvent where
  grants := [
    ⟨.operator, WorkflowEvent.all⟩,
    ⟨.coordinator, [.submitWork, .rework, .cancel]⟩,
    ⟨.designer, [.submitDesign]⟩,
    ⟨.implementer, [.submitWork]⟩,
    ⟨.reviewer, []⟩,
    ⟨.systemicReviewer, [.submitSystemic, .systemicRedesign]⟩]

/-- The phases a graph reaches in at most `fuel` steps from some, by rows that name where they go. -/
def reached (g : GraphId) : Nat → List Phase → List Phase
  | 0, seen => seen
  | fuel + 1, seen =>
      reached g fuel (g.machine.transitions.foldl
        (fun seen t =>
          match t.dest with
          | .to dst => if t.src ∈ seen ∧ dst ∉ seen then seen ++ [dst] else seen
          | .stated _ _ => seen) seen)

/-- Whether a graph reaches a phase other than by an operator override. -/
def GraphId.reachesUnforced (g : GraphId) (phase : Phase) : Bool :=
  phase ∈ reached g Phase.all.length [g.machine.initial]

namespace StrategySpec

/-- Who may fire which event: `BASE` and the toggles. -/
def permissions (spec : StrategySpec) : RoleTable Role WorkflowEvent :=
  TOGGLES.foldl
    (fun table t => (t.get spec.toggles).foldl
      (fun table role => t.events.foldl (fun table e => table.grant role e) table) table)
    BASE

/-- What is wrong with one toggle. -/
def toggleProblem (spec : StrategySpec) (t : ToggleDef) : Option String :=
  let roles := t.get spec.toggles
  match roles.find? fun r => r ∉ t.domain with
  | some r => some ("toggle `" ++ t.name ++ "` may name only " ++
      ", ".intercalate (t.domain.map Role.asStr) ++ " (not " ++ r.asStr ++ ")")
  | none =>
      t.actsIn.bind fun phase =>
        if roles.any (· ≠ .operator) && !spec.graph.reachesUnforced phase then
          some ("toggle `" ++ t.name ++ "` acts in `" ++ phase.name ++ "`, which the `" ++
            spec.graph.asStr ++ "` graph reaches only by an operator override — it would say nothing")
        else none

/-- How a defect of a permission table is told. -/
def shownDefect : TableDefect Role WorkflowEvent → String
  | .duplicateRole r => "role `" ++ r.asStr ++ "` has two rows"
  | .ungrantedRole r => "role `" ++ r.asStr ++ "` has no row"
  | .unheldPermission p => "no role holds `" ++ p.asStr ++ "`"
  | .repeatedPermission r p => "role `" ++ r.asStr ++ "` lists `" ++ p.asStr ++ "` twice"

/-- Refuse a strategy that could not mean what it says. -/
def validate (spec : StrategySpec) : Except Fmt Unit :=
  match TOGGLES.findSome? spec.toggleProblem with
  | some why => .error [why]
  | none =>
      let rounds := spec.attributes.repeatedArea.rounds
      if rounds < 2 ∨ MAX_REPEATED_ROUNDS < rounds then
        .error ["repeated_area.rounds of 2 to ", MAX_REPEATED_ROUNDS, " (got ", rounds, ")"]
      else
        match spec.permissions.check.head? with
        | some d => .error ["the strategy's permission table: ", shownDefect d]
        | none => .ok ()

/-- What firing an event requires: observations are anyone's. -/
def requirement (event : WorkflowEvent) : Requirement WorkflowEvent :=
  match Event.kind event with
  | .reconciled => .anyone
  | .applied => .permission event

/-- Whether a holder of some roles may fire an event under a strategy. -/
def authorize (spec : StrategySpec) (roles : List Role) (event : WorkflowEvent) : Decision :=
  spec.permissions.decide roles (requirement event)

end StrategySpec

end Jkb.Workflow
