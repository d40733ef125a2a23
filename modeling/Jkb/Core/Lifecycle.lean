import Jkb.Core.AgentId
import Jkb.Core.TaskStatus
import Jkb.Fsm.Order

/-!
# Jkb.Core.Lifecycle

The task lifecycle, declared once: what can happen to a task, the facts its guards read, and the table
of transitions with the effects each of them plans.
-/

namespace Jkb.Lifecycle

open Jkb.Fsm

/-- A task is at rest when it is terminal. -/
instance : State TaskStatus where
  all := TaskStatus.all
  name := TaskStatus.asStr
  noun := "a task"
  isSettled := TaskStatus.isTerminal

/-- Something that happens to a task. -/
inductive TaskEvent where
  | start
  | submitForReview
  | requestChanges
  | land
  | abandon
  | cancel
  | reopen
  | override
  | setFromFile
  | observedOwnerGone
  | observedLanded
deriving Repr, DecidableEq

instance : Event TaskEvent where
  all := [.start, .submitForReview, .requestChanges, .land, .abandon, .cancel, .reopen, .override,
    .setFromFile, .observedOwnerGone, .observedLanded]
  name
    | .start => "start"
    | .submitForReview => "submit_for_review"
    | .requestChanges => "request_changes"
    | .land => "land"
    | .abandon => "abandon"
    | .cancel => "cancel"
    | .reopen => "reopen"
    | .override => "override"
    | .setFromFile => "set_from_file"
    | .observedOwnerGone => "observed_owner_gone"
    | .observedLanded => "observed_landed"
  kind
    | .setFromFile | .observedOwnerGone | .observedLanded => .reconciled
    | _ => .applied

/-- What a transition requires beside the state change. -/
inductive TaskEffect where
  | setStatus (status : TaskStatus)
  | claim (owner : AgentId)
  | releaseClaim
  | reclaimFrom (owner : AgentId)
deriving Repr, DecidableEq

/-- Everything a guard is allowed to look at. -/
structure TaskFacts where
  status : TaskStatus := .«open»
  actor : Option AgentId := none
  claimant : Option AgentId := none
  ownerAlive : Fact := .unknown
  stated : Option TaskStatus := none
  fileBacked : Fact := .unknown
  sessionExists : Fact := .unknown
  workDirty : Fact := .unknown
  hasCommits : Fact := .unknown
  targetReady : Fact := .unknown
  reviewed : Fact := .unknown
  reviewClean : Fact := .unknown
  reviewWaived : Fact := .unknown
  openSubtasks : Fact := .unknown
  landedElsewhere : Fact := .unknown

instance : Stateful TaskStatus TaskFacts where
  state := TaskFacts.status

/-! ## guards -/

/-- Whether the actor may take the claim: it is free, held by the same owner, or held by an owner
proven gone. -/
def claimAvailable (f : TaskFacts) : Verdict TaskEvent :=
  match f.claimant, f.actor with
  | none, _ => .allow
  | some held, actor =>
      if actor = some held then .allow
      else if f.ownerAlive.isNo then .allow
      else
        .deny (.withRemedy
          ("It is held by `" ++ String.ofList held.asStr ++ "`, which is " ++
            (if f.ownerAlive.isYes then "still running"
              else "an owner whose liveness cannot be established here") ++ ".")
          .observedOwnerGone "Free it with `jkb task reclaim` once you know that owner is gone.")

def startGuard (f : TaskFacts) : Verdict TaskEvent := claimAvailable f

/-- The review half of the land gate: reviewed, and no open must-fix. -/
def reviewGate (f : TaskFacts) : Verdict TaskEvent :=
  if f.reviewWaived.isYes then .allow
  else allOf [
    requireYes f.reviewed (.new ("No review is recorded for this head. Run `/jkb-review`, or land " ++
      "anyway with `jkb task land --no-review`.")),
    requireYes f.reviewClean (.new ("Its review has open must-fix findings. Fix or cancel them, or " ++
      "land anyway with `jkb task land --no-review`."))]

/-- Whether the graft may be performed. -/
def landGuard (f : TaskFacts) : Verdict TaskEvent :=
  allOf [
    requireYes (f.sessionExists.or f.hasCommits) (.withRemedy
      "There is no work to land — no session checkout and no commits." .start
      "Open one with `jkb task work <uid>`."),
    requireNo f.workDirty
      (.new "The session has uncommitted changes (or could not be read) — commit them first."),
    requireYes f.hasCommits
      (.new "It has no commits that the land target does not already have."),
    requireNo f.openSubtasks
      (.new ("It still has open subtasks — you work the leaves, and the parent lands after " ++
        "them.")),
    requireYes f.targetReady
      (.new ("The checkout the graft would happen in has uncommitted changes — landing rolls " ++
        "it back on a red gate, which would take them with it.")),
    reviewGate f]

/-- Whether something other than `task land` proves that the work landed. -/
def landedExternally (f : TaskFacts) : Verdict TaskEvent :=
  allOf [
    requireYes f.landedElsewhere
      (.new ("Nothing proves this work landed — no merged pull request, and jkb did " ++
        "not perform the graft itself.")),
    requireNo f.openSubtasks (.new "Its work landed, but it still has open subtasks.")]

def abandonGuard (f : TaskFacts) : Verdict TaskEvent :=
  requireNo f.workDirty
    (.new ("The session has uncommitted changes (or could not be read) — commit or discard them " ++
      "before abandoning it."))

def ownerGone (f : TaskFacts) : Verdict TaskEvent :=
  allOf [
    requireYes (.ofBool f.claimant.isSome) (.new "Nothing holds it."),
    requireNo f.ownerAlive
      (.new "Its owner is still running, or its liveness cannot be established from here.")]

/-- The synced file is only an authority over a task it backs. -/
def fileIsAuthority (f : TaskFacts) : Verdict TaskEvent :=
  allOf [
    requireYes f.fileBacked (.new "This task is not backed by a synced file."),
    requireYes (.ofBool f.stated.isSome) (.new "The file states no status for it.")]

/-- The status the caller named. -/
def stated (f : TaskFacts) : Option TaskStatus := f.stated

/-! ## effects -/

/-- Starting is claiming. -/
def takeClaim (f : TaskFacts) : List TaskEffect :=
  match f.actor with
  | some actor => [.claim actor]
  | none => [.setStatus .inProgress]

/-- Reaching a terminal status releases the claim. -/
def settle (status : TaskStatus) : List TaskEffect :=
  .setStatus status :: if status.isTerminal then [.releaseClaim] else []

def planLand (_ : TaskFacts) : List TaskEffect := settle .done

def planCancel (_ : TaskFacts) : List TaskEffect := settle .cancelled

def planReopen (_ : TaskFacts) : List TaskEffect := [.setStatus .«open»]

/-- Abandoning returns the task to the shelf and drops the claim. -/
def planAbandon (_ : TaskFacts) : List TaskEffect := [.setStatus .«open», .releaseClaim]

def planReview (_ : TaskFacts) : List TaskEffect := [.setStatus .needsReview]

def planChanges (_ : TaskFacts) : List TaskEffect := [.setStatus .inProgress]

def planRelease (f : TaskFacts) : List TaskEffect :=
  match f.claimant with
  | some held => [.reclaimFrom held]
  | none => []

/-- A stated status carries the same obligations as a declared one. -/
def planStated (f : TaskFacts) : List TaskEffect := (f.stated.map settle).getD []

/-! ## the table -/

abbrev TaskRow := Transition TaskStatus TaskEvent TaskFacts TaskEffect

/-- A row whose destination the caller states. -/
def statedRow (src : TaskStatus) (event : TaskEvent) (guard : Option (TaskFacts → Verdict TaskEvent)) :
    TaskRow :=
  ⟨src, event, .stated stated TaskStatus.all, guard, some planStated⟩

def rows : List TaskRow := [
  -- picking work up
  ⟨.«open», .start, .to .inProgress, some startGuard, some takeClaim⟩,
  ⟨.inProgress, .start, .to .inProgress, some startGuard, some takeClaim⟩,
  ⟨.needsReview, .start, .to .inProgress, some startGuard, some takeClaim⟩,
  -- review
  ⟨.inProgress, .submitForReview, .to .needsReview, none, some planReview⟩,
  ⟨.needsReview, .requestChanges, .to .inProgress, none, some planChanges⟩,
  ⟨.needsReview, .submitForReview, .to .needsReview, none, some planReview⟩,
  ⟨.inProgress, .requestChanges, .to .inProgress, none, some planChanges⟩,
  -- landing
  ⟨.inProgress, .land, .to .done, some landGuard, some planLand⟩,
  ⟨.needsReview, .land, .to .done, some landGuard, some planLand⟩,
  ⟨.done, .land, .to .done, none, some planLand⟩,
  -- putting it back
  ⟨.inProgress, .abandon, .to .«open», some abandonGuard, some planAbandon⟩,
  ⟨.needsReview, .abandon, .to .«open», some abandonGuard, some planAbandon⟩,
  ⟨.«open», .abandon, .to .«open», some abandonGuard, some planAbandon⟩,
  -- ending it
  ⟨.«open», .cancel, .to .cancelled, none, some planCancel⟩,
  ⟨.inProgress, .cancel, .to .cancelled, none, some planCancel⟩,
  ⟨.needsReview, .cancel, .to .cancelled, none, some planCancel⟩,
  ⟨.cancelled, .cancel, .to .cancelled, none, some planCancel⟩,
  ⟨.done, .reopen, .to .«open», none, some planReopen⟩,
  ⟨.«open», .reopen, .to .«open», none, some planReopen⟩,
  ⟨.cancelled, .reopen, .to .«open», none, some planReopen⟩,
  -- reconciliation
  ⟨.inProgress, .observedLanded, .to .done, some landedExternally, some planLand⟩,
  ⟨.needsReview, .observedLanded, .to .done, some landedExternally, some planLand⟩,
  ⟨.done, .observedLanded, .to .done, some landedExternally, some planLand⟩,
  ⟨.«open», .observedOwnerGone, .to .«open», some ownerGone, some planRelease⟩,
  ⟨.inProgress, .observedOwnerGone, .to .inProgress, some ownerGone, some planRelease⟩,
  ⟨.needsReview, .observedOwnerGone, .to .needsReview, some ownerGone, some planRelease⟩,
  -- stated destinations
  statedRow .«open» .override none,
  statedRow .inProgress .override none,
  statedRow .needsReview .override none,
  statedRow .done .override none,
  statedRow .cancelled .override none,
  statedRow .«open» .setFromFile (some fileIsAuthority),
  statedRow .inProgress .setFromFile (some fileIsAuthority),
  statedRow .needsReview .setFromFile (some fileIsAuthority),
  statedRow .done .setFromFile (some fileIsAuthority),
  statedRow .cancelled .setFromFile (some fileIsAuthority)]

/-- The task lifecycle. -/
def machine : Machine TaskStatus TaskEvent TaskFacts TaskEffect where
  transitions := rows
  initial := .«open»

theorem name_injective : Function.Injective (State.name : TaskStatus → String) := by
  intro a b h
  cases a <;> cases b <;> first
    | rfl
    | exact absurd h (by decide)

theorem keys_nodup_rows : (rows.map Transition.key).Nodup := by decide

/-- The liveness verdicts are exact for the task lifecycle. -/
theorem machine_check_exact :
    (∀ s, .unreachableState s ∈ machine.check ↔
      s ∈ TaskStatus.all ∧ ¬ Relation.ReflTransGen machine.Leads .«open» s) ∧
    ∀ s, .wedged s ∈ machine.check ↔ s ∈ TaskStatus.all ∧ s.isTerminal = false ∧
      ¬ ∃ t ∈ TaskStatus.all, t.isTerminal = true ∧ Relation.ReflTransGen machine.LeadsTo s t :=
  ⟨(Machine.check_exact name_injective machine).1,
    (Machine.check_exact name_injective machine).2.1 ⟨.done, by decide, rfl⟩⟩

/-- The task lifecycle read backwards answers as it does, of a task that is claimed and done. -/
theorem machine_order_independent :
    machine.apply { status := .done, claimant := some (.agent "a".toList) } =
      ({ machine with transitions := rows.reverse } : Machine _ _ _ _).apply
        { status := .done, claimant := some (.agent "a".toList) } :=
  funext (Machine.order_independent (Machine.keys_nodup_iff.mpr keys_nodup_rows)
    (List.reverse_perm rows).symm _).2.1

/-- The outcome of asking the lifecycle. -/
abbrev TaskOutcome := Outcome TaskStatus TaskEvent TaskEffect

/-- Ask the lifecycle for `event`, given what has been observed. -/
def apply (facts : TaskFacts) (event : TaskEvent) : TaskOutcome := machine.apply facts event

end Jkb.Lifecycle
