import Jkb.Fsm.Order

/-!
# Jkb.Notify.Lifecycle

The notification lifecycle of one session: where its notification stands, what happens to it, and the
table of transitions. Every effect of a plan changes what is on the screen or what is remembered of it.
-/

namespace Jkb.Notify

open Fsm

/-- Where one session's notification stands. -/
inductive NotifState where
  | absent
  | awaitingTool
  | awaitingUser
deriving Repr, DecidableEq

def NotifState.asStr : NotifState → String
  | .absent => "absent"
  | .awaitingTool => "awaiting_tool"
  | .awaitingUser => "awaiting_user"

instance : State NotifState where
  all := [.absent, .awaitingTool, .awaitingUser]
  name := NotifState.asStr
  noun := "a notification"
  isSettled
    | .absent => true
    | _ => false

/-- What happened. -/
inductive NotifEvent where
  | needed
  | toolFinished
  | userActed
  | turnEnded
  | sessionEnded
  | sessionGone
deriving Repr, DecidableEq

/-- That the session is gone is the one event nobody asks for. -/
instance : Event NotifEvent where
  all := [.needed, .toolFinished, .userActed, .turnEnded, .sessionEnded, .sessionGone]
  name
    | .needed => "needed"
    | .toolFinished => "tool_finished"
    | .userActed => "user_acted"
    | .turnEnded => "turn_ended"
    | .sessionEnded => "session_ended"
    | .sessionGone => "session_gone"
  kind
    | .sessionGone => .reconciled
    | _ => .applied

/-- Something applying a move must do. -/
inductive NotifEffect where
  | post
  | withdraw
  | remember
  | forget
deriving Repr, DecidableEq

/-- Whether an effect changes what the user can see. -/
def NotifEffect.touchesScreen : NotifEffect → Bool
  | .post | .withdraw => true
  | .remember | .forget => false

/-- What a guard reads. -/
structure NotifCtx where
  state : NotifState
  toolNamed : Bool
  toolMatches : Fact
  sessionAlive : Fact

instance : Stateful NotifState NotifCtx where
  state := NotifCtx.state

/-- The two states that a `needed` can land in. -/
def posted : List NotifState := [.awaitingTool, .awaitingUser]

/-- Where a `needed` lands: it says whether the prompt named a tool. -/
def neededDest (c : NotifCtx) : Option NotifState :=
  some (if c.toolNamed then .awaitingTool else .awaitingUser)

def neededPlan (_ : NotifCtx) : List NotifEffect := [.post, .remember]

/-- Withdraw and forget, together. -/
def clearPlan (_ : NotifCtx) : List NotifEffect := [.withdraw, .forget]

/-- Withdraw without believing that anything is there. -/
def sweepPlan (_ : NotifCtx) : List NotifEffect := [.withdraw]

/-- A tool finishing is evidence about this prompt only when it is the same tool. -/
def toolMatchesGuard (c : NotifCtx) : Verdict NotifEvent :=
  requireYes c.toolMatches (.new "a different tool finished; this prompt is still waiting.")

/-- Liveness is by evidence. -/
def sessionGoneGuard (c : NotifCtx) : Verdict NotifEvent :=
  requireNo c.sessionAlive (.new "the session that posted this may still be alive.")

abbrev NotifRow := Transition NotifState NotifEvent NotifCtx NotifEffect

def rows : List NotifRow := [
  -- something needs attention
  ⟨.absent, .needed, .stated neededDest posted, none, some neededPlan⟩,
  ⟨.awaitingTool, .needed, .stated neededDest posted, none, some neededPlan⟩,
  ⟨.awaitingUser, .needed, .stated neededDest posted, none, some neededPlan⟩,
  -- the user dealt with it
  ⟨.awaitingTool, .toolFinished, .to .absent, some toolMatchesGuard, some clearPlan⟩,
  ⟨.awaitingTool, .userActed, .to .absent, none, some clearPlan⟩,
  ⟨.awaitingUser, .userActed, .to .absent, none, some clearPlan⟩,
  -- the turn or session ended
  ⟨.awaitingTool, .turnEnded, .to .absent, none, some clearPlan⟩,
  ⟨.awaitingUser, .turnEnded, .to .absent, none, some clearPlan⟩,
  ⟨.awaitingTool, .sessionEnded, .to .absent, none, some clearPlan⟩,
  ⟨.awaitingUser, .sessionEnded, .to .absent, none, some clearPlan⟩,
  -- the blind sweeps
  ⟨.absent, .turnEnded, .to .absent, none, some sweepPlan⟩,
  ⟨.absent, .sessionEnded, .to .absent, none, some sweepPlan⟩,
  -- nothing pending
  ⟨.absent, .toolFinished, .to .absent, none, none⟩,
  ⟨.absent, .userActed, .to .absent, none, none⟩,
  -- the world moved
  ⟨.awaitingTool, .sessionGone, .to .absent, some sessionGoneGuard, some clearPlan⟩,
  ⟨.awaitingUser, .sessionGone, .to .absent, some sessionGoneGuard, some clearPlan⟩]

/-- The notification lifecycle. -/
def machine : Machine NotifState NotifEvent NotifCtx NotifEffect where
  transitions := rows
  initial := .absent

/-! ## what the plans do -/

/-- The effects of a move, by where it leaves and where it goes. -/
inductive Planned : NotifState → NotifState → List NotifEffect → Prop
  | needs (src dst : NotifState) (h : dst ≠ .absent) : Planned src dst [.post, .remember]
  | clears (src : NotifState) : Planned src .absent [.withdraw, .forget]
  | sweeps : Planned .absent .absent [.withdraw]
  | stays : Planned .absent .absent []

/-- What a row plans when it moves a notification. -/
def Plans (t : NotifRow) : Prop :=
  ∀ c dst, t.src = c.state → resolve t.dest c = .to dst →
    Planned c.state dst ((t.plan.map fun p => p c).getD [])

section Rows

variable {src : NotifState} {e : NotifEvent} {guard : Option (NotifCtx → Verdict NotifEvent)}

theorem plans_needed : Plans ⟨src, e, .stated neededDest posted, guard, some neededPlan⟩ := by
  intro c dst hsrc hdest
  refine .needs c.state dst fun habsent => ?_
  rw [habsent] at hdest
  cases hnamed : c.toolNamed <;> simp [resolve, neededDest, posted, hnamed] at hdest

theorem plans_clear : Plans ⟨src, e, .to .absent, guard, some clearPlan⟩ := by
  intro c dst hsrc hdest
  obtain rfl := Resolved.to.inj hdest
  exact .clears c.state

theorem plans_sweep : Plans ⟨.absent, e, .to .absent, guard, some sweepPlan⟩ := by
  intro c dst hsrc hdest
  obtain rfl := Resolved.to.inj hdest
  rw [← show NotifState.absent = c.state from hsrc]
  exact .sweeps

theorem plans_stay : Plans ⟨.absent, e, .to .absent, guard, none⟩ := by
  intro c dst hsrc hdest
  obtain rfl := Resolved.to.inj hdest
  rw [← show NotifState.absent = c.state from hsrc]
  exact .stays

end Rows

theorem plans_rows : ∀ t ∈ rows, Plans t := by
  simp only [rows, List.forall_mem_cons]
  exact ⟨plans_needed, plans_needed, plans_needed, plans_clear, plans_clear, plans_clear, plans_clear,
    plans_clear, plans_clear, plans_clear, plans_sweep, plans_sweep, plans_stay, plans_stay,
    plans_clear, plans_clear, fun _ h => absurd h List.not_mem_nil⟩

/-- **Every row keeps the record and the screen in step**: a move posts and remembers, or withdraws and
forgets; and what does less than that does it where nothing is remembered. -/
theorem planned_of_moved {c : NotifCtx} {e e' : NotifEvent} {src dst : NotifState}
    {effects : List NotifEffect} (h : machine.apply c e = .moved src e' dst effects) :
    Planned c.state dst effects := by
  obtain ⟨-, -, t, ht, hsrc, -, -, -, hdest, rfl⟩ := Machine.apply_eq_moved h
  exact plans_rows t ht c dst hsrc hdest

/-- That a session is gone moves nothing unless it is proven. -/
theorem effects_sessionGone {c : NotifCtx} (h : c.sessionAlive ≠ .no) :
    (machine.apply c .sessionGone).effects = [] := by
  cases hout : machine.apply c .sessionGone with
  | moved src e dst effects =>
      obtain ⟨-, -, t, ht, -, hevent, -, hguard, -, -⟩ := Machine.apply_eq_moved hout
      have hrows : ∀ t ∈ rows, t.event = .sessionGone → t.guard = some sessionGoneGuard := by
        simp [rows]
      have hallow := hguard _ (hrows t ht hevent)
      cases halive : c.sessionAlive with
      | no => exact absurd halive h
      | yes | unknown => simp [sessionGoneGuard, requireNo, halive, Fact.isNo] at hallow
  | idempotent s e | refused s e d | undefined s e => rfl

end Jkb.Notify
