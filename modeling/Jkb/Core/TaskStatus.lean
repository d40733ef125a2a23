import Jkb.Prim

/-!
# Jkb.Core.TaskStatus

How far along a task is, as `items.status` stores it.
-/

namespace Jkb

/-- The status of a task. -/
inductive TaskStatus where
  | «open»
  | inProgress
  | needsReview
  | done
  | cancelled
deriving Repr, DecidableEq

namespace TaskStatus

/-- Every status, in declaration order. -/
def all : List TaskStatus := [.«open», .inProgress, .needsReview, .done, .cancelled]

/-- The stored string. -/
def asStr : TaskStatus → String
  | .«open» => "open"
  | .inProgress => "in_progress"
  | .needsReview => "needs_review"
  | .done => "done"
  | .cancelled => "cancelled"

/-- Whether no further work is expected. -/
def isTerminal : TaskStatus → Bool
  | .done | .cancelled => true
  | _ => false

/-- The status of a stored string, if it is one's. -/
def fromManualStr (s : String) : Option TaskStatus := all.find? (·.asStr = s)

theorem fromManualStr_asStr (s : TaskStatus) : fromManualStr s.asStr = some s := by
  cases s <;> decide

/-- How far through the lifecycle a status is. -/
def stage : TaskStatus → Nat
  | .«open» => 0
  | .inProgress => 1
  | .needsReview => 2
  | .done | .cancelled => 3

/-- Whether a move goes backwards through the lifecycle: not shown, if either side is no status. -/
def movedBackwards (src dst : Option String) : Bool :=
  match src.bind fromManualStr, dst.bind fromManualStr with
  | some src, some dst => dst.stage < src.stage
  | _, _ => false

end TaskStatus

end Jkb
