import Mathlib.Data.List.Basic

/-!
# Jkb.Rbac

The crate `jkb-rbac`: which role holds which permission, as data. A table is a list of rows, of which the
first for a role is the one that counts; one that is built at run time adds grants to a fixed one. A request
says what it requires, and a caller is allowed where one of its roles holds that.
-/

namespace Jkb.Rbac

/-- One row of a table: a role and everything it may do. -/
structure Grant (R P : Type*) where
  role : R
  permits : List P

/-- Which role holds which permission. -/
structure RoleTable (R P : Type*) where
  grants : List (Grant R P)

namespace RoleTable

variable {R P : Type*} [DecidableEq R] [DecidableEq P]

/-- What `role` may do; nothing for a role with no row. The first row wins. -/
def permissionsOf (t : RoleTable R P) (role : R) : List P :=
  ((t.grants.find? (·.role = role)).map (·.permits)).getD []

/-- Whether `role` holds `permission`. -/
def permits (t : RoleTable R P) (role : R) (permission : P) : Bool :=
  permission ∈ t.permissionsOf role

/-- Every role that holds `permission`, in the order of the rows, each once. -/
def rolesFor (t : RoleTable R P) (permission : P) : List R :=
  (t.grants.map (·.role)).eraseDups.filter fun role => t.permits role permission

/-- Also let `role` do `permission`: a role with no row gains one. -/
def grant (t : RoleTable R P) (role : R) (permission : P) : RoleTable R P :=
  if t.grants.any (·.role = role) then
    { grants := t.grants.modify (t.grants.findIdx (·.role = role)) fun g =>
        if permission ∈ g.permits then g else { g with permits := g.permits ++ [permission] } }
  else { grants := t.grants ++ [⟨role, [permission]⟩] }

/-- No longer let `role` do `permission`. -/
def revoke (t : RoleTable R P) (role : R) (permission : P) : RoleTable R P :=
  { grants := t.grants.modify (t.grants.findIdx (·.role = role)) fun g =>
      { g with permits := g.permits.filter (· ≠ permission) } }

end RoleTable

/-- A domain's roles or permissions: all of them, and what each is called. -/
class Named (α : Type*) where
  all : List α
  name : α → String

/-- Something wrong with a table. -/
inductive TableDefect (R P : Type*) where
  | duplicateRole (role : R)
  | ungrantedRole (role : R)
  | unheldPermission (permission : P)
  | repeatedPermission (role : R) (permission : P)
deriving Repr, DecidableEq

/-- What an action needs before it may be taken. -/
inductive Requirement (P : Type*) where
  | anyone
  | permission (p : P)
  | nobody (why : String)

/-- Why an action was refused, and the roles that would have been allowed. -/
structure Refusal where
  reason : String
  allowedRoles : List String := []
deriving Repr, DecidableEq

/-- The refusal as a text. -/
def Refusal.shown (r : Refusal) : String :=
  if r.allowedRoles = [] then r.reason
  else r.reason ++ " (allowed: " ++ ", ".intercalate r.allowedRoles ++ ")"

/-- An authorization decision. -/
inductive Decision where
  | allow
  | deny (refusal : Refusal)
deriving Repr, DecidableEq

namespace RoleTable

variable {R P : Type*} [DecidableEq R] [DecidableEq P] [Named R] [Named P]

/-- What is wrong with the rows themselves, with the roles seen before them. -/
def rowDefects (seen : List R) : List (Grant R P) → List (TableDefect R P)
  | [] => []
  | g :: rows =>
      (if g.role ∈ seen then [.duplicateRole g.role] else []) ++
        ((List.range g.permits.length).filterMap fun i =>
          (g.permits[i]?).bind fun p =>
            if p ∈ g.permits.take i then some (.repeatedPermission g.role p) else none) ++
        rowDefects (g.role :: seen) rows

/-- Everything wrong with a table. -/
def check (t : RoleTable R P) : List (TableDefect R P) :=
  rowDefects [] t.grants ++
    ((Named.all.filter fun role => role ∉ t.grants.map (·.role)).map .ungrantedRole) ++
    (Named.all.filter fun p => t.rolesFor p = []).map .unheldPermission

/-- The decision for a subject that holds `roles`. -/
def decide (t : RoleTable R P) (roles : List R) : Requirement P → Decision
  | .anyone => .allow
  | .nobody why => .deny { reason := why }
  | .permission p =>
      if roles.any fun r => t.permits r p then .allow
      else
        .deny {
          reason := "`" ++ Named.name p ++ "` needs a role that holds it, and this caller holds " ++
            (if roles = [] then "no role" else ", ".intercalate (roles.map Named.name))
          allowedRoles := (t.rolesFor p).map Named.name }

/-- Who is allowed what a permission guards: who holds it. -/
theorem decide_eq_allow {t : RoleTable R P} {roles : List R} {p : P} :
    t.decide roles (.permission p) = .allow ↔ ∃ r ∈ roles, t.permits r p = true := by
  rw [decide, ← List.any_eq_true]
  split <;> simp_all

end RoleTable

end Jkb.Rbac
