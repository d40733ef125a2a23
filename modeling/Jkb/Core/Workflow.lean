import Jkb.Core.Phase
import Jkb.Core.TaskStatus
import Jkb.Fsm.Order
import Jkb.Rbac

/-!
# Jkb.Core.Workflow

Task workflows: the phases a piece of work passes through, what may happen to it, the facts the guards read,
and the two graphs that a strategy may run. A second axis over a task, beside its lifecycle status.
-/

namespace Jkb.Workflow

open Jkb.Fsm

instance : State Phase where
  all := Phase.all
  name := Phase.name
  noun := "a workflow"
  isSettled := Phase.isSettled

/-- Something that happens to a task's workflow. -/
inductive WorkflowEvent where
  | submitDesign
  | approveDesign
  | rejectDesign
  | submitWork
  | submitSystemic
  | systemicRedesign
  | rework
  | cancel
  | reopen
  | override
  | reviewPassed
  | reviewFailed
  | reviewRepeated
  | observedLanded
  | observedCancelled
deriving Repr, DecidableEq

namespace WorkflowEvent

def all : List WorkflowEvent :=
  [.submitDesign, .approveDesign, .rejectDesign, .submitWork, .submitSystemic, .systemicRedesign, .rework,
    .cancel, .reopen, .override, .reviewPassed, .reviewFailed, .reviewRepeated, .observedLanded,
    .observedCancelled]

/-- The stored name. -/
def asStr : WorkflowEvent → String
  | .submitDesign => "submit_design"
  | .approveDesign => "approve_design"
  | .rejectDesign => "reject_design"
  | .submitWork => "submit_work"
  | .submitSystemic => "submit_systemic"
  | .systemicRedesign => "systemic_redesign"
  | .rework => "rework"
  | .cancel => "cancel"
  | .reopen => "reopen"
  | .override => "override"
  | .reviewPassed => "review_passed"
  | .reviewFailed => "review_failed"
  | .reviewRepeated => "review_repeated"
  | .observedLanded => "observed_landed"
  | .observedCancelled => "observed_cancelled"

/-- A verdict of a review round. -/
def isVerdict : WorkflowEvent → Bool
  | .reviewPassed | .reviewFailed | .reviewRepeated => true
  | _ => false

/-- Whether the event must carry a written reason. -/
def needsReason : WorkflowEvent → Bool
  | .submitSystemic | .systemicRedesign | .override => true
  | _ => false

end WorkflowEvent

instance : Event WorkflowEvent where
  all := WorkflowEvent.all
  name := WorkflowEvent.asStr
  kind
    | .reviewPassed | .reviewFailed | .reviewRepeated | .observedLanded | .observedCancelled => .reconciled
    | _ => .applied

/-- A workflow event is also a permission: who may fire it. -/
instance : Rbac.Named WorkflowEvent where
  all := WorkflowEvent.all
  name := WorkflowEvent.asStr

/-- Everything a workflow guard may look at. -/
structure WorkflowFacts where
  phase : Phase
  stated : Option Phase := none
  taskStatus : TaskStatus := .«open»
  landed : Fact := .no
  newRound : Fact := .no
  lastRoundMustFix : Fact := .no
  repeatedAreas : Fact := .no

instance : Stateful Phase WorkflowFacts where
  state := WorkflowFacts.phase

/-! ## guards -/

/-- Neither landed nor cancelled. -/
def live (f : WorkflowFacts) : Verdict WorkflowEvent :=
  allOf [
    requireNo f.landed (.new "The work has already landed."),
    requireNo (.ofBool (f.taskStatus = .cancelled)) (.new "The task is cancelled.")]

def freshRound (f : WorkflowFacts) : Verdict WorkflowEvent :=
  requireYes f.newRound (.new ("No review round has been filed since the work was submitted. Run one " ++
    "(`/jkb-review`), then observe again."))

def reviewPassed (f : WorkflowFacts) : Verdict WorkflowEvent :=
  allOf [
    live f,
    freshRound f,
    requireNo f.lastRoundMustFix (.new "The newest round found must-fix findings.")]

def reviewFailed (f : WorkflowFacts) : Verdict WorkflowEvent :=
  allOf [
    live f,
    freshRound f,
    requireYes f.lastRoundMustFix (.new "The newest round found no must-fix."),
    requireNo f.repeatedAreas (.new "The must-fixes repeat an area the rounds before found.")]

def reviewRepeated (f : WorkflowFacts) : Verdict WorkflowEvent :=
  allOf [
    live f,
    freshRound f,
    requireYes f.lastRoundMustFix (.new "The newest round found no must-fix."),
    requireYes f.repeatedAreas (.new "The must-fixes do not repeat an area.")]

def observedLanded (f : WorkflowFacts) : Verdict WorkflowEvent :=
  requireYes f.landed
    (.new "No landing is recorded for this work (a `done` checkbox is not a landing).")

def observedCancelled (f : WorkflowFacts) : Verdict WorkflowEvent :=
  allOf [
    requireYes (.ofBool (f.taskStatus = .cancelled)) (.new "The task is not cancelled."),
    requireNo f.landed (.new "The work landed.")]

/-- The lifecycle put the task back to work. -/
def reopened (f : WorkflowFacts) : Verdict WorkflowEvent :=
  allOf [
    requireNo f.landed (.new ("A landing still speaks for this work. Reopen the task itself first (`jkb " ++
      "task set <uid> --status open`): the workflow follows the task's lifecycle, or the next observe " ++
      "would put it straight back.")),
    requireNo (.ofBool f.taskStatus.isTerminal) (.new ("The task is still finished or cancelled. Reopen " ++
      "the task itself first (`jkb task set <uid> --status open`)."))]

/-! ## graphs -/

/-- A row of a graph. Workflows plan no effects. -/
abbrev Row := Transition Phase WorkflowEvent WorkflowFacts Unit

def row (src : Phase) (event : WorkflowEvent) (dst : Phase) : Row := ⟨src, event, .to dst, none, none⟩

def guarded (src : Phase) (event : WorkflowEvent) (dst : Phase)
    (guard : WorkflowFacts → Verdict WorkflowEvent) : Row :=
  ⟨src, event, .to dst, some guard, none⟩

def overrideFrom (src : Phase) : Row :=
  ⟨src, .override, .stated WorkflowFacts.stated Phase.all, none, none⟩

/-- A graph's table: its own `submit_design` row, then every row every graph shares. -/
def graph (submitDesign : Row) : List Row := [
  submitDesign,
  row .designReview .approveDesign .implement,
  row .designReview .rejectDesign .design,
  row .implement .submitWork .review,
  guarded .review .reviewPassed .landable reviewPassed,
  guarded .review .reviewFailed .implement reviewFailed,
  guarded .review .reviewRepeated .systemicReview reviewRepeated,
  row .systemicReview .submitSystemic .implement,
  row .systemicReview .systemicRedesign .design,
  row .landable .rework .implement,
  -- every live phase can observe its end, be cancelled, and be overridden
  guarded .design .observedLanded .landed observedLanded,
  guarded .designReview .observedLanded .landed observedLanded,
  guarded .implement .observedLanded .landed observedLanded,
  guarded .review .observedLanded .landed observedLanded,
  guarded .systemicReview .observedLanded .landed observedLanded,
  guarded .landable .observedLanded .landed observedLanded,
  guarded .design .observedCancelled .cancelled observedCancelled,
  guarded .designReview .observedCancelled .cancelled observedCancelled,
  guarded .implement .observedCancelled .cancelled observedCancelled,
  guarded .review .observedCancelled .cancelled observedCancelled,
  guarded .systemicReview .observedCancelled .cancelled observedCancelled,
  guarded .landable .observedCancelled .cancelled observedCancelled,
  row .design .cancel .cancelled,
  row .designReview .cancel .cancelled,
  row .implement .cancel .cancelled,
  row .review .cancel .cancelled,
  row .systemicReview .cancel .cancelled,
  row .landable .cancel .cancelled,
  guarded .landed .reopen .implement reopened,
  guarded .cancelled .reopen .implement reopened,
  row .implement .reopen .implement,
  overrideFrom .design,
  overrideFrom .designReview,
  overrideFrom .implement,
  overrideFrom .review,
  overrideFrom .systemicReview,
  overrideFrom .landable,
  overrideFrom .landed,
  overrideFrom .cancelled]

/-- `design-gate`: a written design waits in `design_review`. -/
def DESIGN_GATE : List Row := graph (row .design .submitDesign .designReview)

/-- `direct`: a written design goes straight to implementation. -/
def DIRECT : List Row := graph (row .design .submitDesign .implement)

/-- A workflow machine. -/
abbrev WorkflowMachine := Machine Phase WorkflowEvent WorkflowFacts Unit

/-- Which execution graph a strategy runs. -/
inductive GraphId where
  | designGate
  | direct
deriving Repr, DecidableEq

namespace GraphId

/-- The stored and typed name. -/
def asStr : GraphId → String
  | .designGate => "design-gate"
  | .direct => "direct"

/-- The graph as a checkable machine. -/
def machine (g : GraphId) : WorkflowMachine where
  transitions :=
    match g with
    | .designGate => DESIGN_GATE
    | .direct => DIRECT
  initial := .design

end GraphId

end Jkb.Workflow
