import Mathlib.Data.List.Basic

/-!
# Jkb.Fsm

The crate `jkb-fsm`: a lifecycle as a table of guarded transitions, and what a machine answers when
it is asked for one. A guard reads three-valued facts, so a fact nobody could establish licenses
nothing; a move carries its effects, which the caller performs.

Generic over the states, the events, the observation a guard reads and the effects.
-/

namespace Jkb.Fsm

/-! ## facts -/

/-- A three-valued fact: proven true, proven false, or not established. -/
inductive Fact where
  | yes
  | no
  | unknown
deriving Repr, DecidableEq

namespace Fact

def isYes : Fact → Bool
  | .yes => true
  | _ => false

def isNo : Fact → Bool
  | .no => true
  | _ => false

/-- `From<bool>`. -/
def ofBool (b : Bool) : Fact := if b then .yes else .no

/-- Kleene conjunction: one proven `no` settles it. -/
def and : Fact → Fact → Fact
  | .no, _ => .no
  | _, .no => .no
  | .yes, .yes => .yes
  | _, _ => .unknown

/-- Kleene disjunction: one proven `yes` settles it. -/
def or : Fact → Fact → Fact
  | .yes, _ => .yes
  | _, .yes => .yes
  | .no, .no => .no
  | _, _ => .unknown

/-- Kleene negation: `unknown` stays `unknown`. -/
def not : Fact → Fact
  | .yes => .no
  | .no => .yes
  | .unknown => .unknown

theorem ofBool_eq_yes {b : Bool} : ofBool b = .yes ↔ b = true := by
  cases b <;> simp [ofBool]

theorem ofBool_eq_no {b : Bool} : ofBool b = .no ↔ b = false := by
  cases b <;> simp [ofBool]

end Fact

/-! ## states, events and guards -/

/-- A lifecycle state. -/
class State (S : Type) where
  all : List S
  name : S → String
  /-- What an object in these states is called, with its article. -/
  noun : String
  /-- The object owes the system nothing here. -/
  isSettled : S → Bool

/-- Whether an event is asked for or detected. -/
inductive EventKind where
  | applied
  | reconciled
deriving Repr, DecidableEq

/-- Something that can happen to the object. -/
class Event (E : Type) where
  all : List E
  name : E → String
  kind : E → EventKind

/-- The observation a guard reads, which is where the object's state lives. -/
class Stateful (S : outParam Type) (C : Type) where
  state : C → S

/-- The event that would unstick a refusal, and how a person fires it. -/
structure Remedy (E : Type) where
  event : E
  how : String
deriving Repr, DecidableEq

/-- Why a transition was refused, and what to do about it. -/
structure Denial (E : Type) where
  reason : String
  remedy : Option (Remedy E) := none
deriving Repr, DecidableEq

/-- A guard's answer. -/
inductive Verdict (E : Type) where
  | allow
  | deny (denial : Denial E)
deriving Repr, DecidableEq

section Guards

variable {E : Type}

def Denial.new (reason : String) : Denial E := { reason }

def Denial.withRemedy (reason : String) (event : E) (how : String) : Denial E :=
  { reason, remedy := some { event, how } }

/-- Allow when the fact is proven true. -/
def requireYes (fact : Fact) (denial : Denial E) : Verdict E :=
  if fact.isYes then .allow else .deny denial

/-- Allow when the fact is proven false. -/
def requireNo (fact : Fact) (denial : Denial E) : Verdict E :=
  if fact.isNo then .allow else .deny denial

/-- The first denial of a list of clauses. -/
def allOf : List (Verdict E) → Verdict E
  | [] => .allow
  | .deny d :: _ => .deny d
  | .allow :: clauses => allOf clauses

theorem requireYes_eq_allow {fact : Fact} {denial : Denial E} :
    requireYes fact denial = .allow ↔ fact = .yes := by
  cases fact <;> simp [requireYes, Fact.isYes]

theorem requireNo_eq_allow {fact : Fact} {denial : Denial E} :
    requireNo fact denial = .allow ↔ fact = .no := by
  cases fact <;> simp [requireNo, Fact.isNo]

/-- Clauses allow together what each of them allows. -/
theorem allOf_eq_allow {clauses : List (Verdict E)} :
    allOf clauses = .allow ↔ ∀ v ∈ clauses, v = .allow := by
  induction clauses with
  | nil => simp [allOf]
  | cons v clauses ih => cases v <;> simp [allOf, ih]

end Guards

/-! ## the table -/

/-- Where a transition goes: where the table says, or where the caller says, within `among`. -/
inductive Dest (S C : Type) where
  | to (s : S)
  | stated (pick : C → Option S) (among : List S)

/-- One row of the table. -/
structure Transition (S E C X : Type) where
  src : S
  event : E
  dest : Dest S C
  guard : Option (C → Verdict E)
  plan : Option (C → List X)

/-- Whether the machine has an answer for a state and an event, guards not consulted. -/
inductive Acceptance (S : Type) where
  | moves (dst : S)
  | movesAsStated
  | idempotent
  | undefined
deriving Repr, DecidableEq

/-- What came of asking the machine for a transition. -/
inductive Outcome (S E X : Type) where
  | moved (src : S) (event : E) (dst : S) (effects : List X)
  | idempotent (state : S) (event : E)
  | refused (state : S) (event : E) (denial : Denial E)
  | undefined (state : S) (event : E)
deriving Repr, DecidableEq

/-- The state after an outcome: unchanged unless it moved. -/
def Outcome.state {S E X : Type} : Outcome S E X → S
  | .moved _ _ dst _ => dst
  | .idempotent s _ => s
  | .refused s _ _ => s
  | .undefined s _ => s

def Outcome.isMoved {S E X : Type} : Outcome S E X → Bool
  | .moved .. => true
  | _ => false

/-- The effects to perform: none unless it moved. -/
def Outcome.effects {S E X : Type} : Outcome S E X → List X
  | .moved _ _ _ effects => effects
  | _ => []

/-- Why this was refused, as a sentence. -/
def Outcome.refusal {S E X : Type} [State S] [Event E] : Outcome S E X → Option String
  | .refused _ _ denial => some (match denial.remedy with
      | some r => denial.reason ++ " " ++ r.how
      | none => denial.reason)
  | .undefined s e => some ("`" ++ Event.name e ++ "` is not something that can happen to " ++
      State.noun S ++ " that is `" ++ State.name s ++ "`.")
  | _ => none

/-- One reconciliation step. -/
inductive Reconciliation (S E X : Type) where
  | settled
  | fired (o : Outcome S E X)
  | ambiguous (events : List E)
deriving Repr, DecidableEq

/-- A declared lifecycle: the table and where objects start. -/
structure Machine (S E C X : Type) where
  transitions : List (Transition S E C X)
  initial : S

/-- What a row's destination comes to in one context. -/
inductive Resolved (S : Type) where
  | to (s : S)
  | nothing
  | undeclared (s : S)
deriving Repr, DecidableEq

def resolve {S C : Type} [DecidableEq S] (dest : Dest S C) (ctx : C) : Resolved S :=
  match dest with
  | .to s => .to s
  | .stated pick among =>
      match pick ctx with
      | none => .nothing
      | some s => if s ∈ among then .to s else .undeclared s

/-! ## the machine -/

namespace Machine

variable {S E C X : Type} [DecidableEq S] [DecidableEq E]

/-- The declared row for a state and an event. -/
def row (m : Machine S E C X) (s : S) (e : E) : Option (Transition S E C X) :=
  m.transitions.find? fun t => t.src = s ∧ t.event = e

/-- The rows of `e` that land in `s`. -/
def landingHere (m : Machine S E C X) (s : S) (e : E) : List (Transition S E C X) :=
  m.transitions.filter fun t =>
    t.event = e && match t.dest with
      | .to dst => decide (dst = s)
      | .stated _ _ => false

/-- Whether this machine has a transition for a state and an event, before guards. The destination
of an event absorbs it only when no row carrying it has a guard or a plan. -/
def accepts (m : Machine S E C X) (s : S) (e : E) : Acceptance S :=
  match m.row s e with
  | some t =>
      match t.dest with
      | .to dst => .moves dst
      | .stated _ _ => .movesAsStated
  | none =>
      if m.landingHere s e ≠ [] ∧
          (m.landingHere s e).all (fun t => t.guard.isNone && t.plan.isNone) then .idempotent
      else .undefined

variable [State S] [Event E] [Stateful S C]

/-- Ask for `e`, given what has been observed. -/
def apply (m : Machine S E C X) (ctx : C) (e : E) : Outcome S E X :=
  let s := Stateful.state ctx
  match m.row s e with
  | none => if m.accepts s e = .idempotent then .idempotent s e else .undefined s e
  | some t =>
      match (t.guard.map fun g => g ctx).getD .allow with
      | .deny d => .refused s e d
      | .allow =>
          match resolve t.dest ctx with
          | .to dst => .moved s e dst ((t.plan.map fun p => p ctx).getD [])
          | .nothing => .refused s e
              (.new ("`" ++ Event.name e ++ "` needs a target state and none was given."))
          | .undeclared named => .refused s e
              (.new ("`" ++ Event.name e ++ "` cannot lead to `" ++ State.name named ++ "`."))

/-- The reconciliations of the current state whose guards allow them. -/
def candidates (m : Machine S E C X) (ctx : C) : List (Transition S E C X) :=
  m.transitions.filter fun t =>
    t.src = Stateful.state ctx && Event.kind t.event = .reconciled &&
      (match t.dest with
        | .to _ => true
        | .stated _ _ => false) &&
      (match (t.guard.map fun g => g ctx).getD .allow with
        | .allow => true
        | .deny _ => false)

/-- One reconciliation step: a move if exactly one applies, else an only self-loop. -/
def reconcile (m : Machine S E C X) (ctx : C) : Reconciliation S E X :=
  let stays (t : Transition S E C X) : Bool := resolve t.dest ctx = .to (Stateful.state ctx)
  let moves := ((m.candidates ctx).filter fun t => !stays t).map (·.event)
  let loops := ((m.candidates ctx).filter stays).map (·.event)
  match moves, loops with
  | [], [] => .settled
  | [], [e] => .fired (m.apply ctx e)
  | [e], _ => .fired (m.apply ctx e)
  | [], loops => .ambiguous loops
  | moves, _ => .ambiguous moves

/-- **What a move is**: a row of the table for the state and the event, whose guard allowed it, to where
its destination resolves, with what it plans. -/
theorem apply_eq_moved {m : Machine S E C X} {ctx : C} {e e' : E} {s dst : S} {effects : List X}
    (h : m.apply ctx e = .moved s e' dst effects) :
    s = Stateful.state ctx ∧ e' = e ∧ ∃ t ∈ m.transitions, t.src = Stateful.state ctx ∧ t.event = e ∧
      m.row (Stateful.state ctx) e = some t ∧ (∀ g, t.guard = some g → g ctx = .allow) ∧
      resolve t.dest ctx = .to dst ∧ effects = (t.plan.map fun p => p ctx).getD [] := by
  cases hrow : m.row (Stateful.state ctx) e with
  | none =>
      simp only [apply, hrow] at h
      split at h <;> cases h
  | some t =>
      have hkey := List.find?_some hrow
      simp only [decide_eq_true_eq] at hkey
      simp only [apply, hrow] at h
      split at h
      · cases h
      · rename_i hallow
        split at h
        · rename_i hdest
          obtain ⟨rfl, rfl, rfl, rfl⟩ := Outcome.moved.inj h
          refine ⟨rfl, rfl, t, List.mem_of_find?_eq_some hrow, hkey.1, hkey.2, rfl, fun g hg => ?_, hdest,
            rfl⟩
          simpa [hg] using hallow
        · cases h
        · cases h

/-- What a reconciliation fires is what the machine answers to some event. -/
theorem exists_apply_of_fired {m : Machine S E C X} {ctx : C} {o : Outcome S E X}
    (h : m.reconcile ctx = .fired o) : ∃ e, o = m.apply ctx e := by
  simp only [reconcile] at h
  split at h
  · cases h
  · cases h
    exact ⟨_, rfl⟩
  · cases h
    exact ⟨_, rfl⟩
  · cases h
  · cases h

/-- An event that a row declares is answered. -/
theorem apply_ne_undefined {m : Machine S E C X} {ctx : C} {e : E} {t : Transition S E C X}
    (h : m.row (Stateful.state ctx) e = some t) (s : S) (e' : E) : m.apply ctx e ≠ .undefined s e' := by
  intro hund
  simp only [apply, h] at hund
  split at hund
  · cases hund
  · split at hund <;> cases hund

/-- **A move goes where `accepts` says.** An event that moves the object is one the table answers
from that state, with the destination reached unless the caller states it. -/
theorem accepts_of_moved {m : Machine S E C X} {ctx : C} {e e' : E} {s dst : S}
    {effects : List X} (h : m.apply ctx e = .moved s e' dst effects) :
    m.accepts (Stateful.state ctx) e = .moves dst ∨
      m.accepts (Stateful.state ctx) e = .movesAsStated := by
  obtain ⟨-, -, t, -, -, -, hrow, -, hdest, -⟩ := apply_eq_moved h
  match hto : t.dest with
  | .stated pick among => exact Or.inr (by simp [accepts, hrow, hto])
  | .to d =>
      rw [hto, resolve, Resolved.to.injEq] at hdest
      exact Or.inl (by simp [accepts, hrow, hto, hdest])

end Machine

end Jkb.Fsm
