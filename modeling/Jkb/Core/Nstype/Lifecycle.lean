import Jkb.Core.Phase
import Jkb.Fsm

/-!
# Jkb.Core.Nstype.Lifecycle

The lifecycle of an investigation's unit: what can be observed of one, and the two tables that say what an
observation means. The strategies agree on what kills and what replaces a unit. By the base table a tombstone
is revived by what confirms it; by the table of `debugging` it is not, and a result goes stale.

What a reconciliation comes to, by either table, is said once, by `concluded`.
-/

namespace Jkb.Nstype.Lifecycle

open Jkb.Fsm

/-! ## observations -/

instance : State Resolution where
  all := Resolution.all
  name := Resolution.asStr
  noun := "an investigation unit"
  isSettled r := r ≠ .unresolved

/-- What happened to a unit. -/
inductive UnitEvent where
  | refuted
  | superseded
  | confirmed
  | wentStale
  | stated
deriving Repr, DecidableEq

instance : Event UnitEvent where
  all := [.refuted, .superseded, .confirmed, .wentStale, .stated]
  name
    | .refuted => "refuted"
    | .superseded => "superseded"
    | .confirmed => "confirmed"
    | .wentStale => "went_stale"
    | .stated => "stated"
  kind
    | .stated => .applied
    | _ => .reconciled

/-- What a unit's machine asks the caller to write. -/
inductive UnitEffect where
  | setResolution (dst : Resolution)
deriving Repr, DecidableEq

/-- What a strategy observed about one unit. -/
structure UnitFacts where
  resolution : Resolution := .unresolved
  refuted : Fact := .unknown
  superseded : Fact := .unknown
  confirmed : Fact := .unknown
  stale : Fact := .unknown
  stated : Option Resolution := none
deriving Repr, DecidableEq

instance : Stateful Resolution UnitFacts where
  state := UnitFacts.resolution

abbrev UnitMachine := Machine Resolution UnitEvent UnitFacts UnitEffect
abbrev UnitRow := Transition Resolution UnitEvent UnitFacts UnitEffect

/-! ## guards -/

def refuted (f : UnitFacts) : Verdict UnitEvent := requireYes f.refuted (.new "nothing refutes it.")

def superseded (f : UnitFacts) : Verdict UnitEvent :=
  allOf [
    requireYes f.superseded (.new "nothing replaces it."),
    requireNo f.refuted (.new ("it is refuted, and a refutation outranks a replacement — unlink the " ++
      "refuting edge if the refutation no longer stands."))]

/-- A refutation, a replacement and staleness all outrank a confirmation. -/
def confirmed (f : UnitFacts) : Verdict UnitEvent :=
  allOf [
    requireYes f.confirmed (.new "nothing confirms it."),
    requireNo f.refuted (.new ("it is refuted, and a refutation outranks a confirmation — unlink the " ++
      "refuting edge if the refutation no longer stands.")),
    requireNo f.superseded (.new ("it has been replaced, and the replacement is what to confirm — " ++
      "confirm the unit that superseded it instead.")),
    requireNo f.stale (.new "the evidence confirming it no longer describes today's system.")]

/-- The evidence that settled a unit no longer applies. -/
def wentStale (f : UnitFacts) : Verdict UnitEvent :=
  allOf [
    requireYes f.stale (.new "the evidence that settled it still applies."),
    requireNo f.refuted (.new "it is refuted."),
    requireNo f.superseded (.new "it has been replaced.")]

/-- The resolution an operator named. -/
def stated (f : UnitFacts) : Option Resolution := f.stated

/-! ## plans -/

def setDerived (dst : Resolution) : List UnitEffect := [.setResolution dst]

def planRefuted (_ : UnitFacts) : List UnitEffect := setDerived .deadEnd

def planSuperseded (_ : UnitFacts) : List UnitEffect := setDerived .superseded

def planConfirmed (_ : UnitFacts) : List UnitEffect := setDerived .success

def planStale (_ : UnitFacts) : List UnitEffect := setDerived .unresolved

def planStated (f : UnitFacts) : List UnitEffect := (f.stated.map setDerived).getD []

/-! ## the two tables -/

/-- One row for each state that an event is declared from. -/
def rowsFrom (states : List Resolution) (event : UnitEvent) (dest : Dest Resolution UnitFacts)
    (guard : UnitFacts → Verdict UnitEvent) (plan : UnitFacts → List UnitEffect) : List UnitRow :=
  states.map fun src => ⟨src, event, dest, some guard, some plan⟩

/-- An operator may name any resolution, from any state. -/
def statedRows : List UnitRow :=
  rowsFrom [.unresolved, .success, .deadEnd, .superseded, .abandoned] .stated
    (.stated stated Resolution.all) (fun _ => .allow) planStated

/-- What every strategy agrees an observation means. -/
def baseRows : List UnitRow :=
  rowsFrom [.unresolved, .success, .superseded, .abandoned] .refuted (.to .deadEnd) refuted planRefuted ++
  rowsFrom [.unresolved, .success, .deadEnd, .abandoned] .superseded (.to .superseded) superseded
    planSuperseded ++
  rowsFrom [.unresolved, .deadEnd, .superseded, .abandoned] .confirmed (.to .success) confirmed
    planConfirmed ++
  statedRows

/-- The base, without the revival of tombstones and with staleness. -/
def debuggingRows : List UnitRow :=
  rowsFrom [.unresolved, .success, .superseded, .abandoned] .refuted (.to .deadEnd) refuted planRefuted ++
  rowsFrom [.unresolved, .success, .abandoned] .superseded (.to .superseded) superseded planSuperseded ++
  rowsFrom [.unresolved, .abandoned] .confirmed (.to .success) confirmed planConfirmed ++
  rowsFrom [.success] .wentStale (.to .unresolved) wentStale planStale ++
  statedRows

def BASE : UnitMachine := ⟨baseRows, .unresolved⟩

def DEBUGGING : UnitMachine := ⟨debuggingRows, .unresolved⟩

/-! ## what a reconciliation concludes -/

/-- Evidence about a unit: what its strategy's facts are made of. -/
structure Evidence where
  refuted : Bool
  superseded : Bool
  confirmed : Bool
  stale : Bool
deriving Repr, DecidableEq

/-- The facts that a strategy fills in of evidence. -/
def Evidence.facts (e : Evidence) (r : Resolution) : UnitFacts where
  resolution := r
  refuted := .ofBool e.refuted
  superseded := .ofBool e.superseded
  confirmed := .ofBool e.confirmed
  stale := .ofBool e.stale

/-- What the base table makes of evidence: a refutation before a replacement, a replacement before a
confirmation that is not stale. -/
def Evidence.concludedBase (e : Evidence) (r : Resolution) : Resolution :=
  if e.refuted then .deadEnd
  else if e.superseded then .superseded
  else if e.confirmed && !e.stale then .success
  else r

/-- What the table of `debugging` makes of evidence. Only a refutation moves a tombstone. -/
def Evidence.concludedDebugging (e : Evidence) (r : Resolution) : Resolution :=
  if e.refuted then .deadEnd
  else if r = .deadEnd ∨ r = .superseded then r
  else if e.superseded then .superseded
  else if e.stale then (if r = .success then .unresolved else r)
  else if e.confirmed then .success
  else r

/-- A reconciliation that comes to a resolution: settled there, or one move to it that asks for it to be
written. -/
def ComesTo (m : UnitMachine) (e : Evidence) (r concluded : Resolution) : Prop :=
  if concluded = r then m.reconcile (e.facts r) = .settled
  else ∃ event, m.reconcile (e.facts r) = .fired (.moved r event concluded [.setResolution concluded])

/-- **The base table is read right.** No evidence is ambiguous to it. -/
theorem base_comesTo (e : Evidence) (r : Resolution) : ComesTo BASE e r (e.concludedBase r) := by
  obtain ⟨refuted, superseded, confirmed, stale⟩ := e
  cases refuted <;> cases superseded <;> cases confirmed <;> cases stale <;> cases r <;>
    first | exact rfl | exact ⟨_, rfl⟩

/-- **The table of `debugging` is read right.** No evidence is ambiguous to it. -/
theorem debugging_comesTo (e : Evidence) (r : Resolution) :
    ComesTo DEBUGGING e r (e.concludedDebugging r) := by
  obtain ⟨refuted, superseded, confirmed, stale⟩ := e
  cases refuted <;> cases superseded <;> cases confirmed <;> cases stale <;> cases r <;>
    first | exact rfl | exact ⟨_, rfl⟩

end Jkb.Nstype.Lifecycle
