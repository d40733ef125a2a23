import Jkb.Text

/-!
# Jkb.Core.Phase

Where a task's workflow stands, and how an item's units end, as the database stores them.
-/

namespace Jkb

open Jkb.Text

/-- The phase of a workflow. -/
inductive Phase where
  | design
  | designReview
  | implement
  | review
  | systemicReview
  | landable
  | landed
  | cancelled
deriving Repr, DecidableEq

namespace Phase

/-- Every phase, in declaration order. -/
def all : List Phase :=
  [.design, .designReview, .implement, .review, .systemicReview, .landable, .landed, .cancelled]

/-- The stored name. -/
def name : Phase → String
  | .design => "design"
  | .designReview => "design_review"
  | .implement => "implement"
  | .review => "review"
  | .systemicReview => "systemic_review"
  | .landable => "landable"
  | .landed => "landed"
  | .cancelled => "cancelled"

/-- Whether the workflow is over. -/
def isSettled : Phase → Bool
  | .landed | .cancelled => true
  | _ => false

/-- Parse a stored or typed name. -/
def parse (name : String) : Option Phase := all.find? fun p => p.name = name

theorem name_of_parse {name : String} {p : Phase} (h : parse name = some p) : p.name = name := by
  simpa using List.find?_some h

end Phase

/-- How a unit of work ended. -/
inductive Resolution where
  | unresolved
  | success
  | deadEnd
  | superseded
  | abandoned
deriving Repr, DecidableEq

namespace Resolution

/-- Every resolution, in declaration order. -/
def all : List Resolution := [.unresolved, .success, .deadEnd, .superseded, .abandoned]

/-- The stored string. -/
def asStr : Resolution → String
  | .unresolved => "unresolved"
  | .success => "success"
  | .deadEnd => "dead_end"
  | .superseded => "superseded"
  | .abandoned => "abandoned"

/-- Parse a resolution; the empty text means `unresolved`. -/
def fromStrOpt (s : String) : Option Resolution :=
  if s = "" then some .unresolved else all.find? fun r => r.asStr = s

end Resolution

end Jkb
