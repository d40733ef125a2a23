import Jkb.Rbac
import Jkb.Table
import Jkb.Text
import Jkb.Tx
import Jkb.Worklist

/-!
# Jkb.Core.Roles

Grants of roles. A bearer token resolves to a grant, of which only the hash of the token is kept; a grant
that was minted by another names it, and revoking a grant takes everything that it minted with it.

`resolve` looks at one row and its parent, and a live grant's whole chain of minters is right all the same:
`Chained` is what every row keeps with the row that minted it, and `chained_run` carries it over any run.
-/

namespace Jkb.Roles

open Jkb.Rbac Jkb.Text Relation

/-- A role a caller can hold. -/
inductive Role where
  | operator
  | coordinator
  | designer
  | implementer
  | reviewer
  | systemicReviewer
deriving Repr, DecidableEq

/-- The stored and printed name. -/
def Role.asStr : Role → String
  | .operator => "operator"
  | .coordinator => "coordinator"
  | .designer => "designer"
  | .implementer => "implementer"
  | .reviewer => "reviewer"
  | .systemicReviewer => "systemic_reviewer"

/-- Which role may grant which. The operator grants anything; a coordinator grants the workers that do the
work, never a reviewer. -/
def GRANTABLE : RoleTable Role Role where
  grants :=
    [ ⟨.operator, [.operator, .coordinator, .designer, .implementer, .reviewer, .systemicReviewer]⟩,
      ⟨.coordinator, [.designer, .implementer]⟩,
      ⟨.designer, []⟩,
      ⟨.implementer, []⟩,
      ⟨.reviewer, []⟩,
      ⟨.systemicReviewer, []⟩ ]

/-- The `agent` label of the dev container's own credential, for listings only. -/
def containerAgent : Text := "container".toList

/-- The longest agent label a grant records, in bytes. -/
def maxAgentBytes : Nat := 128

/-- One grant. -/
structure GrantRow where
  id : Int
  role : Role
  agent : Text
  scope : Option Int
  parent : Option Int
  grantedAt : Text
  revokedAt : Option Text := none
  container : Bool
deriving Repr, DecidableEq

/-- A row of `role_grants`: a grant and the hash of its token. -/
structure Stored extends GrantRow where
  tokenHash : Text
deriving Repr, DecidableEq

/-- The table `role_grants`: ids are never reissued, and `token_hash` is unique. -/
structure Grants where
  table : AutoTable fun r : Stored => r.id
  hashes : (table.rows.map (·.tokenHash)).Nodup

namespace Grants

def empty : Grants := ⟨.empty, List.nodup_nil⟩

/-- The rows, in the order of their ids. -/
abbrev rows (t : Grants) : List Stored := t.table.rows

end Grants

/-- A character an agent label may hold. -/
def isAgentChar (c : Char) : Bool :=
  c.isAlphanum || c == '-' || c == '_' || c == '.' || c == '@' || c == ':'

/-- Whether an agent label can be recorded: 1 to 128 bytes, each a letter, a digit or one of `-_.@:`. -/
def checkAgent (agent : Text) : Except Fmt Unit :=
  if agent = [] ∨ (String.ofList agent).utf8ByteSize > maxAgentBytes ∨ ¬ agent.all isAgentChar then
    .error ["an agent label of 1 to ", maxAgentBytes, " letters, digits and `-_.@:` (got `",
      String.ofList agent, "`)"]
  else .ok ()

/-- Who is minting: the operator, or a grant as it was when the request was admitted. -/
inductive Minter where
  | operator
  | grant (held : GrantRow)

/-- A grant by id, revoked or not. -/
def get (t : Grants) (id : Int) : Option GrantRow := (t.table.find? id).map (·.toGrantRow)

/-- The grants that `id` minted. -/
def children (t : Grants) (id : Int) : List Int :=
  (t.rows.filter (·.parent = some id)).map (·.id)

/-- The children of a grant are those that name it as their parent. -/
theorem mem_children {t : Grants} {id c : Int} :
    c ∈ children t id ↔ ∃ r ∈ t.rows, r.parent = some id ∧ r.id = c := by
  simp [children, and_assoc]

/-- The recursive query of `revoke`: the grant, and everything it minted. -/
def tree (t : Grants) (id : Int) : List Int :=
  Worklist.closure (children t) (t.rows.map (·.id))
    (fun _ _ h => by
      obtain ⟨r, hr, -, rfl⟩ := mem_children.mp h
      exact List.mem_map_of_mem hr)
    ((t.rows.filter (·.id = id)).map (·.id))

/-- What `revoke` sets in a row. -/
def Stored.revoke (now : Text) (r : Stored) : Stored := { r with revokedAt := some now }

@[simp] theorem Stored.id_revoke (now : Text) (r : Stored) : (r.revoke now).id = r.id := rfl
@[simp] theorem Stored.role_revoke (now : Text) (r : Stored) : (r.revoke now).role = r.role := rfl
@[simp] theorem Stored.parent_revoke (now : Text) (r : Stored) : (r.revoke now).parent = r.parent := rfl
@[simp] theorem Stored.scope_revoke (now : Text) (r : Stored) : (r.revoke now).scope = r.scope := rfl
@[simp] theorem Stored.container_revoke (now : Text) (r : Stored) :
    (r.revoke now).container = r.container := rfl
@[simp] theorem Stored.tokenHash_revoke (now : Text) (r : Stored) :
    (r.revoke now).tokenHash = r.tokenHash := rfl
@[simp] theorem Stored.revokedAt_revoke (now : Text) (r : Stored) :
    (r.revoke now).revokedAt = some now := rfl

/-- Whether a row is one that revoking `id` writes. -/
def doomed (t : Grants) (id : Int) (r : Stored) : Bool := r.id ∈ tree t id && r.revokedAt.isNone

/-- Revoke grant `id` and, recursively, everything it minted. -/
def revoke (t : Grants) (id : Int) (now : Text) : Grants where
  table := t.table.updateWhere (doomed t id) (Stored.revoke now) fun _ => rfl
  hashes := by
    have hsame : ((t.table.updateWhere (doomed t id) (Stored.revoke now) fun _ => rfl).rows.map
        (·.tokenHash)) = t.rows.map (·.tokenHash) := by
      show (List.map _ (List.map _ _)) = _
      rw [List.map_map]
      refine List.map_congr_left fun r _ => ?_
      by_cases h : doomed t id r = true <;> simp [h]
    rw [hsame]
    exact t.hashes

/-- Revoke every grant of a list. -/
def revokeAll (t : Grants) (ids : List Int) (now : Text) : Grants :=
  ids.foldl (fun t id => revoke t id now) t

/-- Revoke every live grant scoped to `task`, and what they minted. -/
def revokeTask (t : Grants) (task : Int) (now : Text) : Grants :=
  revokeAll t ((t.rows.filter fun r => r.scope = some task ∧ r.revokedAt = none).map (·.id)) now

/-- Whether `g`'s minter may still grant its role: the operator, when it has no parent. -/
def grantableNow (t : Grants) (g : GrantRow) : Bool :=
  match g.parent with
  | none => true
  | some parent => (get t parent).any fun p => GRANTABLE.permits p.role g.role

section Tokens

variable (hash : Text → Text)

/-- `INSERT` of a grant under the hash of a fresh token, or the reason there is no token. -/
def insert (t : Grants) (role : Role) (agent : Text) (scope parent : Option Int) (container : Bool)
    (fresh : Except Fmt Text) (now : Text) : Except Fmt (Grants × GrantRow × Text) := do
  let token ← fresh
  let g : GrantRow :=
    { id := t.table.nextKey, role, agent, scope, parent, grantedAt := now, container }
  if h : ∀ r ∈ t.rows, r.tokenHash ≠ hash token then
    let table := t.table.insertNext
      (fun id => { g with id, tokenHash := hash token }) fun _ => rfl
    let hashes : (table.rows.map (·.tokenHash)).Nodup := by
      show ((t.rows ++ [_]).map fun r : Stored => r.tokenHash).Nodup
      rw [List.map_append, List.nodup_append]
      refine ⟨t.hashes, List.nodup_singleton _, ?_⟩
      intro a ha b hb
      obtain ⟨r, hr, rfl⟩ := List.mem_map.mp ha
      rw [List.map_singleton, List.mem_singleton] at hb
      exact hb ▸ h r hr
    return (⟨table, hashes⟩, g, token)
  else .error ["UNIQUE constraint failed: role_grants.token_hash"]

/-- Who a new grant is recorded as minted by, as the minter is now. -/
def minterNow (t : Grants) (minter : Minter) (role : Role) (scope : Option Int) :
    Except Fmt (Option Int) :=
  match minter with
  | .operator => .ok none
  | .grant held =>
      match get t held.id with
      | none => .error ["the minting grant does not exist"]
      | some g =>
          if g.revokedAt.isSome then .error ["a revoked grant mints nothing"]
          else if ¬ GRANTABLE.permits g.role role then
            .error ["a ", g.role.asStr, " may not grant ", role.asStr, " (it may grant: ",
              ", ".intercalate ((GRANTABLE.permissionsOf g.role).map Role.asStr), ")"]
          else if g.scope.isSome ∧ scope ≠ g.scope then
            .error ["a grant scoped to a task may mint only grants scoped to that same task"]
          else .ok (some g.id)

/-- Mint a grant of `role` to `agent`, and its token. -/
def mint (t : Grants) (minter : Minter) (role : Role) (agent : Text) (scope : Option Int)
    (fresh : Except Fmt Text) (now : Text) : Except Fmt (Grants × GrantRow × Text) := do
  checkAgent agent
  let parent ← minterNow t minter role scope
  insert hash t role agent scope parent false fresh now

/-- The live grant `token` names, if any. -/
def resolve (t : Grants) (token : Text) : Option GrantRow :=
  match t.rows.find? fun r => r.tokenHash = hash token ∧ r.revokedAt = none with
  | none => none
  | some r => if grantableNow t r.toGrantRow then some r.toGrantRow else none

/-- Replace the dev container's credential. -/
def rotateContainer (t : Grants) (fresh : Except Fmt Text) (now : Text) :
    Except Fmt (Grants × GrantRow × Text) :=
  let t := revokeAll t ((t.rows.filter fun r => r.container ∧ r.revokedAt = none).map (·.id)) now
  insert hash t .coordinator containerAgent none none true fresh now

/-- A write to the grants. -/
inductive Op where
  | mint (minter : Minter) (role : Role) (agent : Text) (scope : Option Int) (fresh : Except Fmt Text)
      (now : Text)
  | revoke (id : Int) (now : Text)
  | revokeTask (task : Int) (now : Text)
  | rotateContainer (fresh : Except Fmt Text) (now : Text)

/-- A write, in a transaction of its own. -/
def Op.run (t : Grants) : Op → Except Fmt Grants
  | .mint minter role agent scope fresh now => (Roles.mint hash t minter role agent scope fresh now).map (·.1)
  | .revoke id now => .ok (Roles.revoke t id now)
  | .revokeTask task now => .ok (Roles.revokeTask t task now)
  | .rotateContainer fresh now => (Roles.rotateContainer hash t fresh now).map (·.1)

/-- The grants after a write: as they were, where it is refused. -/
def next (t : Grants) (op : Op) : Grants := Tx.commit (op.run hash t) t

end Tokens

/-! ## what revoking does -/

/-- `c` is a grant that `p` minted. -/
def Minted (t : Grants) (p c : Int) : Prop := ∃ g, get t c = some g ∧ g.parent = some p

/-- `k` is the grant `id`, or was minted by it, one grant through another. -/
def Descends (t : Grants) (id k : Int) : Prop := ReflTransGen (Minted t) id k

/-- A stored grant is read under its id. -/
theorem get_of_mem {t : Grants} {r : Stored} (h : r ∈ t.rows) : get t r.id = some r.toGrantRow := by
  rw [get, Table.find?_of_mem h]
  rfl

/-- A grant that is read is stored. -/
theorem get_eq_some {t : Grants} {id : Int} {g : GrantRow} :
    get t id = some g ↔ ∃ r ∈ t.rows, r.id = id ∧ r.toGrantRow = g := by
  simp [get, Table.find?_eq_some, and_assoc]

/-- A grant is minted by its parent. -/
theorem minted_iff {t : Grants} {p c : Int} : Minted t p c ↔ c ∈ children t p := by
  simp only [Minted, get_eq_some, mem_children]
  grind

/-- The tree of a grant that is there is what descends from it. -/
theorem mem_tree {t : Grants} {id k : Int} :
    k ∈ tree t id ↔ (∃ r ∈ t.rows, r.id = id) ∧ Descends t id k := by
  rw [tree, Worklist.mem_closure]
  have hrel : (fun x y => y ∈ children t x) = Minted t := by
    funext x y
    exact propext minted_iff.symm
  simp only [Worklist.Reached, hrel, Descends, List.mem_map, List.mem_filter, decide_eq_true_eq]
  grind

/-- A grant is in its own tree. -/
theorem self_mem_tree {t : Grants} {r : Stored} (h : r ∈ t.rows) : r.id ∈ tree t r.id :=
  mem_tree.mpr ⟨⟨r, h, rfl⟩, .refl⟩

/-- What a row's minter is in the recursive query, the row is. -/
theorem tree_closed {t : Grants} {id p : Int} {r : Stored} (hr : r ∈ t.rows) (hp : r.parent = some p)
    (h : p ∈ tree t id) : r.id ∈ tree t id := by
  obtain ⟨hid, hpath⟩ := mem_tree.mp h
  exact mem_tree.mpr ⟨hid, hpath.tail ⟨_, get_of_mem hr, hp⟩⟩

/-- A revocation takes what is in the tree and not revoked yet. -/
theorem doomed_eq_true {t : Grants} {id : Int} {r : Stored} :
    doomed t id r = true ↔ r.id ∈ tree t id ∧ r.revokedAt = none := by
  simp [doomed]

/-- The grants after a revocation. -/
theorem mem_revoke {t : Grants} {id : Int} {now : Text} {r : Stored} :
    r ∈ (revoke t id now).rows ↔ ∃ x ∈ t.rows, (if doomed t id x then x.revoke now else x) = r :=
  AutoTable.mem_updateWhere

/-- **The live grants** after a revocation: those that were live and are not in the tree. -/
theorem mem_live_revoke {t : Grants} {id : Int} {now : Text} {r : Stored} :
    (r ∈ (revoke t id now).rows ∧ r.revokedAt = none) ↔
      (r ∈ t.rows ∧ r.revokedAt = none) ∧ r.id ∉ tree t id := by
  rw [mem_revoke]
  constructor
  · rintro ⟨⟨x, hx, rfl⟩, hlive⟩
    by_cases hd : doomed t id x = true
    · rw [if_pos hd] at hlive
      cases hlive
    · rw [if_neg hd] at hlive ⊢
      exact ⟨⟨hx, hlive⟩, fun htree => hd (doomed_eq_true.mpr ⟨htree, hlive⟩)⟩
  · rintro ⟨⟨hr, hlive⟩, htree⟩
    exact ⟨⟨r, hr, if_neg fun hd => htree (doomed_eq_true.mp hd).1⟩, hlive⟩

/-- A revocation leaves every row where it was, but for the time it was revoked at. -/
theorem get_revoke (t : Grants) (id : Int) (now : Text) (k : Int) :
    get (revoke t id now) k = (get t k).map fun g =>
      if k ∈ tree t id ∧ g.revokedAt = none then { g with revokedAt := some now } else g := by
  have hfind := Table.find?_updateWhere t.table.toTable (doomed t id) (Stored.revoke now) (fun _ => rfl) k
  unfold get
  rw [show (revoke t id now).table.find? k = _ from hfind]
  cases hx : t.table.find? k with
  | none => rfl
  | some x =>
      obtain rfl : x.id = k := (Table.find?_eq_some.mp hx).2
      simp only [Option.map_some, doomed_eq_true]
      split <;> rfl

/-- A revocation changes no role. -/
theorem role_get_revoke {t : Grants} {id k : Int} {now : Text} :
    (get (revoke t id now) k).map (·.role) = (get t k).map (·.role) := by
  rw [get_revoke]
  cases get t k with
  | none => rfl
  | some g =>
      simp only [Option.map_some]
      split <;> rfl

/-- What a grant may mint does not depend on who is revoked. -/
theorem grantableNow_revoke {t : Grants} {id : Int} {now : Text} {g : GrantRow} :
    grantableNow (revoke t id now) g = grantableNow t g := by
  unfold grantableNow
  cases g.parent with
  | none => rfl
  | some p =>
      have hrole := @role_get_revoke t id p now
      have hany : ∀ x : Option GrantRow, (x.any fun p => GRANTABLE.permits p.role g.role) =
          (x.map (·.role)).any fun role => GRANTABLE.permits role g.role := by
        intro x
        cases x <;> rfl
      simp only [hany, hrole]

section Resolve

variable {hash : Text → Text}

/-- **What a token resolves to**: the live row with its hash, where its minter may grant its role. -/
theorem resolve_eq_some {t : Grants} {token : Text} {g : GrantRow} :
    resolve hash t token = some g ↔
      ∃ r, (r ∈ t.rows ∧ r.revokedAt = none) ∧ r.tokenHash = hash token ∧ grantableNow t g = true ∧
        r.toGrantRow = g := by
  unfold resolve
  constructor
  · intro h
    split at h
    · cases h
    · rename_i r hfind
      have hr := List.find?_some hfind
      simp only [decide_eq_true_eq] at hr
      split at h
      · rename_i hgrant
        cases h
        exact ⟨r, ⟨List.mem_of_find?_eq_some hfind, hr.2⟩, hr.1, hgrant, rfl⟩
      · cases h
  · rintro ⟨r, ⟨hr, hlive⟩, hhash, hgrant, rfl⟩
    split
    · rename_i hnone
      have hnot := List.find?_eq_none.mp hnone r hr
      simp [hhash, hlive] at hnot
    · rename_i x hfind
      have hx := List.find?_some hfind
      simp only [decide_eq_true_eq] at hx
      -- hashes are unique, so the row found is the row meant
      obtain rfl : x = r := List.inj_on_of_nodup_map t.hashes (List.mem_of_find?_eq_some hfind) hr
        (hx.1.trans hhash.symm)
      rw [if_pos hgrant]

/-- Revoking takes from what resolves exactly what is in the tree. -/
theorem resolve_revoke {t : Grants} {id : Int} {now token : Text} {g : GrantRow} :
    resolve hash (revoke t id now) token = some g ↔
      resolve hash t token = some g ∧ g.id ∉ tree t id := by
  simp only [resolve_eq_some, mem_live_revoke, grantableNow_revoke]
  constructor
  · rintro ⟨r, ⟨hr, htree⟩, hhash, hgrant, rfl⟩
    exact ⟨⟨r, hr, hhash, hgrant, rfl⟩, htree⟩
  · rintro ⟨⟨r, hr, hhash, hgrant, rfl⟩, htree⟩
    exact ⟨r, ⟨hr, htree⟩, hhash, hgrant, rfl⟩

end Resolve

/-! ## what every row keeps with its minter -/

/-- What a grant keeps with the grant that minted it: its role is one that the minter's may grant, its
scope is the minter's where that has one, and it is not live without it. -/
structure Under (p c : GrantRow) : Prop where
  permits : GRANTABLE.permits p.role c.role = true
  scope : p.scope.isSome = true → c.scope = p.scope
  live : c.revokedAt = none → p.revokedAt = none

/-- What holds of the grants between writes: the minter of each is there and above it, and at most one
live grant is the container's. -/
structure Chained (t : Grants) : Prop where
  minter : ∀ c ∈ t.rows, ∀ id, c.parent = some id →
    ∃ p ∈ t.rows, p.id = id ∧ Under p.toGrantRow c.toGrantRow
  one : ∀ r ∈ t.rows, ∀ r' ∈ t.rows, r.container = true → r'.container = true →
    r.revokedAt = none → r'.revokedAt = none → r = r'

/-- Without grants, every live one has a live parent. -/
theorem chained_empty : Chained .empty :=
  ⟨fun _ h => absurd h List.not_mem_nil, fun _ h => absurd h List.not_mem_nil⟩

/-- A revocation leaves no live grant below a revoked one. -/
theorem Chained.revoke {t : Grants} (h : Chained t) (id : Int) (now : Text) :
    Chained (revoke t id now) := by
  constructor
  · intro c' hc' q hq
    obtain ⟨c, hc, hcc⟩ := mem_revoke.mp hc'
    have hparent : c.parent = some q := by
      rw [← hq, ← hcc]
      split <;> rfl
    obtain ⟨p, hp, rfl, hunder⟩ := h.minter c hc q hparent
    refine ⟨_, mem_revoke.mpr ⟨p, hp, rfl⟩, ?_, ?_⟩
    · split <;> rfl
    · subst hcc
      refine ⟨?_, ?_, ?_⟩
      · have := hunder.permits
        split <;> split <;> exact this
      · have := hunder.scope
        split <;> split <;> exact this
      · intro hlive
        -- a child that is still live is outside the tree, and then so is its minter
        have hkept := mem_live_revoke.mp ⟨hc', hlive⟩
        have hc_live : c.revokedAt = none := by
          by_cases hd : doomed t id c = true
          · exact (doomed_eq_true.mp hd).2
          · rw [if_neg hd] at hlive
            exact hlive
        have hout : ¬ doomed t id p = true := by
          intro hd
          have hin := tree_closed hc hparent (doomed_eq_true.mp hd).1
          refine hkept.2 ?_
          split <;> exact hin
        rw [if_neg hout]
        exact hunder.live hc_live
  · intro r hr r' hr' hcr hcr' hlive hlive'
    obtain ⟨hr, -⟩ := mem_live_revoke.mp ⟨hr, hlive⟩
    obtain ⟨hr', -⟩ := mem_live_revoke.mp ⟨hr', hlive'⟩
    exact h.one r hr.1 r' hr'.1 hcr hcr' hlive hlive'

/-- Nor do many. -/
theorem Chained.revokeAll {t : Grants} (h : Chained t) (ids : List Int) (now : Text) :
    Chained (revokeAll t ids now) := by
  induction ids generalizing t with
  | nil => exact h
  | cons id ids ih => exact ih (h.revoke id now)

/-- What is live after revoking a list was live before, and is not in it. -/
theorem live_of_revokeAll {t : Grants} {ids : List Int} {now : Text} {r : Stored}
    (hr : r ∈ (revokeAll t ids now).rows) (hlive : r.revokedAt = none) :
    r ∈ t.rows ∧ r.id ∉ ids := by
  induction ids generalizing t with
  | nil => exact ⟨hr, List.not_mem_nil⟩
  | cons id ids ih =>
      obtain ⟨hmem, hnot⟩ := ih hr
      obtain ⟨⟨hold, -⟩, htree⟩ := mem_live_revoke.mp ⟨hmem, hlive⟩
      refine ⟨hold, fun hid => ?_⟩
      rcases List.mem_cons.mp hid with rfl | hid
      · exact htree (self_mem_tree hold)
      · exact hnot hid

section Writes

variable {hash : Text → Text}

/-- An insert adds one row under the next id. -/
theorem insert_eq_ok {t t' : Grants} {role : Role} {agent : Text} {scope parent : Option Int}
    {container : Bool} {fresh : Except Fmt Text} {now : Text} {g : GrantRow} {token : Text}
    (h : insert hash t role agent scope parent container fresh now = .ok (t', g, token)) :
    g = { id := t.table.nextKey, role, agent, scope, parent, grantedAt := now, container } ∧
      ∀ r, r ∈ t'.rows ↔ r ∈ t.rows ∨ r = { g with tokenHash := hash token } := by
  obtain ⟨token', -, h⟩ := Tx.bind_eq_ok.mp h
  dsimp only at h
  split at h
  · cases h
    exact ⟨rfl, fun _ => AutoTable.mem_insertNext⟩
  · cases h

/-- **An insert** keeps the grants chained, where the new one is under the minter it names and no live
grant is the container's if it is. -/
theorem Chained.insert {t t' : Grants} (h : Chained t) {g : GrantRow} {row : Stored}
    (hrow : row.toGrantRow = g) (hlive : g.revokedAt = none)
    (hrows : ∀ r, r ∈ t'.rows ↔ r ∈ t.rows ∨ r = row)
    (hparent : ∀ id, g.parent = some id → ∃ p ∈ t.rows, p.id = id ∧ Under p.toGrantRow g)
    (hone : g.container = true → ∀ r ∈ t.rows, r.container = true → r.revokedAt ≠ none) :
    Chained t' := by
  subst hrow
  constructor
  · intro c hc id hid
    rcases (hrows c).mp hc with hc | rfl
    · obtain ⟨p, hp, hpid⟩ := h.minter c hc id hid
      exact ⟨p, (hrows p).mpr (Or.inl hp), hpid⟩
    · obtain ⟨p, hp, hpid⟩ := hparent id hid
      exact ⟨p, (hrows p).mpr (Or.inl hp), hpid⟩
  · intro r hr r' hr' hcr hcr' hrl hrl'
    rcases (hrows r).mp hr with hr | rfl <;> rcases (hrows r').mp hr' with hr' | rfl
    · exact h.one r hr r' hr' hcr hcr' hrl hrl'
    · exact absurd hrl (hone hcr' r hr hcr)
    · exact absurd hrl' (hone hcr r' hr' hcr')
    · rfl

/-- The minter that is recorded is live, and may grant what is asked of it. -/
theorem minterNow_eq_ok {t : Grants} {minter : Minter} {role : Role} {scope parent : Option Int}
    (h : minterNow t minter role scope = .ok parent) {id : Int} (hid : parent = some id) :
    ∃ p ∈ t.rows, p.id = id ∧ p.revokedAt = none ∧ GRANTABLE.permits p.role role = true ∧
      (p.scope.isSome = true → scope = p.scope) := by
  subst hid
  cases minter with
  | operator => cases h
  | grant held =>
      cases hget : get t held.id with
      | none => simp [minterNow, hget] at h
      | some g =>
          simp only [minterNow, hget] at h
          obtain ⟨p, hp, hpid, rfl⟩ := get_eq_some.mp hget
          split at h
          · cases h
          · rename_i hlive
            split at h
            · cases h
            · rename_i hpermits
              split at h
              · cases h
              · rename_i hscope
                cases h
                refine ⟨p, hp, rfl, by simpa using hlive, by simpa using hpermits, fun hsome => ?_⟩
                by_contra hne
                exact hscope ⟨hsome, hne⟩

/-- Nor does a mint. -/
theorem chained_mint {t t' : Grants} (h : Chained t) {minter : Minter} {role : Role} {agent : Text}
    {scope : Option Int} {fresh : Except Fmt Text} {now : Text} {g : GrantRow} {token : Text}
    (hmint : mint hash t minter role agent scope fresh now = .ok (t', g, token)) : Chained t' := by
  obtain ⟨-, -, hmint⟩ := Tx.bind_eq_ok.mp hmint
  obtain ⟨parent, hminter, hinsert⟩ := Tx.bind_eq_ok.mp hmint
  obtain ⟨hg, hrows⟩ := insert_eq_ok hinsert
  refine h.insert rfl (by rw [hg]) hrows (fun id hid => ?_) (fun hc => by rw [hg] at hc; cases hc)
  obtain ⟨p, hp, hpid, hlive, hpermits, hscope⟩ := minterNow_eq_ok hminter (hg ▸ hid)
  refine ⟨p, hp, hpid, ?_, ?_, fun _ => hlive⟩
  · rw [hg]
    exact hpermits
  · rw [hg]
    exact hscope

/-- Nor does a new grant of the container. -/
theorem chained_rotateContainer {t t' : Grants} (h : Chained t) {fresh : Except Fmt Text} {now : Text}
    {g : GrantRow} {token : Text} (hrotate : rotateContainer hash t fresh now = .ok (t', g, token)) :
    Chained t' := by
  obtain ⟨hg, hrows⟩ := insert_eq_ok hrotate
  refine (h.revokeAll _ now).insert rfl (by rw [hg]) hrows (fun id hid => ?_) (fun _ r hr hc hlive => ?_)
  · rw [hg] at hid
    cases hid
  · -- a live container row would have been in the list
    obtain ⟨hold, hnot⟩ := live_of_revokeAll hr hlive
    exact hnot (List.mem_map_of_mem (List.mem_filter.mpr ⟨hold, by simp [hc, hlive]⟩))

/-- **Every write** keeps the grants chained. -/
theorem chained_next {t : Grants} (h : Chained t) (op : Op) : Chained (next hash t op) := by
  refine @Tx.commit_rel _ _ (fun t t' => Chained t → Chained t') _ _ id (fun t' hok h => ?_) h
  cases op with
  | mint minter role agent scope fresh now =>
      obtain ⟨⟨_, _, _⟩, hmint, rfl⟩ := Tx.map_eq_ok.mp hok
      exact chained_mint h hmint
  | revoke id now =>
      cases hok
      exact h.revoke id now
  | revokeTask task now =>
      cases hok
      exact h.revokeAll _ now
  | rotateContainer fresh now =>
      obtain ⟨⟨_, _, _⟩, hrotate, rfl⟩ := Tx.map_eq_ok.mp hok
      exact chained_rotateContainer h hrotate

/-- The grants that any run of writes leaves are chained. -/
theorem chained_run (ops : List Op) : Chained (Run.run (next hash) .empty ops) :=
  @Run.run_invariant _ _ (next hash) Chained (fun _ op h => chained_next h op) _ chained_empty ops

end Writes

/-! ## the chain of a live grant -/

/-- `a` is the grant `g`, or one of those it goes back to, one minter after another. -/
def Ancestor (t : Grants) (g a : GrantRow) : Prop :=
  ReflTransGen (fun c p => ∃ id, c.parent = some id ∧ get t id = some p) g a

/-- What a grant that resolves is held to: its whole chain is unrevoked, each link is one that the table
allows, and a scope anywhere above it is its own. -/
def Upheld (t : Grants) (g : GrantRow) : Prop :=
  ∀ a, Ancestor t g a → a.revokedAt = none ∧ (a.scope.isSome = true → g.scope = a.scope) ∧
    ∀ id, a.parent = some id → ∃ p, get t id = some p ∧ GRANTABLE.permits p.role a.role = true

/-- A live grant is upheld by those that it descends from. -/
theorem Chained.upheld {t : Grants} (h : Chained t) {r : Stored} (hr : r ∈ t.rows)
    (hlive : r.revokedAt = none) : Upheld t r.toGrantRow := by
  have hchain : ∀ a, Ancestor t r.toGrantRow a → ∃ x ∈ t.rows, x.toGrantRow = a ∧
      x.revokedAt = none ∧ (x.scope.isSome = true → r.scope = x.scope) := by
    intro a ha
    induction ha with
    | refl => exact ⟨r, hr, rfl, hlive, fun _ => rfl⟩
    | tail _ hstep ih =>
        obtain ⟨c, hc, rfl, hc_live, hc_scope⟩ := ih
        obtain ⟨id, hid, hget⟩ := hstep
        obtain ⟨p, hp, rfl, hunder⟩ := h.minter c hc id hid
        rw [get_of_mem hp] at hget
        obtain rfl := Option.some.inj hget
        refine ⟨p, hp, rfl, hunder.live hc_live, fun hsome => ?_⟩
        have hsame := hunder.scope hsome
        exact (hc_scope (by rw [hsame]; exact hsome)).trans hsame
  intro a ha
  obtain ⟨x, hx, rfl, hx_live, hx_scope⟩ := hchain a ha
  refine ⟨hx_live, hx_scope, fun id hid => ?_⟩
  obtain ⟨p, hp, rfl, hunder⟩ := h.minter x hx id hid
  exact ⟨p.toGrantRow, get_of_mem hp, hunder.permits⟩

/-- In grants that are chained, the tree of a revocation is what descends from it, of what there is. -/
theorem Chained.mem_tree_iff {t : Grants} (h : Chained t) {id k : Int} {g : GrantRow}
    (hk : get t k = some g) : k ∈ tree t id ↔ Descends t id k := by
  rw [mem_tree, and_iff_right_iff_imp]
  intro hpath
  rcases hpath.cases_head with rfl | ⟨c, ⟨g', hc, hparent⟩, -⟩
  · obtain ⟨r, hr, hid, -⟩ := get_eq_some.mp hk
    exact ⟨r, hr, hid⟩
  · obtain ⟨r, hr, -, rfl⟩ := get_eq_some.mp hc
    obtain ⟨p, hp, hid, -⟩ := h.minter r hr id hparent
    exact ⟨p, hp, hid⟩

/-- **A grant never outlives or exceeds its minter.** After any run of mints, revocations and rotations:
a token resolves only to a grant whose whole chain is unrevoked and allowed; revoking a grant makes it and
what descends from it unresolvable, and leaves every other row, and every other column of these, as it was;
and at most one grant that resolves is the container's. -/
theorem grants_run (hash : Text → Text) (ops : List Op) :
    let t := Run.run (next hash) .empty ops
    (∀ token g, resolve hash t token = some g → get t g.id = some g ∧ Upheld t g) ∧
      (∀ id now,
        (∀ token g, resolve hash (revoke t id now) token = some g ↔
          resolve hash t token = some g ∧ ¬ Descends t id g.id) ∧
        (∀ k, ¬ Descends t id k → get (revoke t id now) k = get t k) ∧
        ∀ k, Descends t id k → get (revoke t id now) k =
          (get t k).map fun g => { g with revokedAt := g.revokedAt.or (some now) }) ∧
      ∀ token token' g g', resolve hash t token = some g → resolve hash t token' = some g' →
        g.container = true → g'.container = true → g = g' := by
  intro t
  have h : Chained t := chained_run ops
  refine ⟨fun token g hres => ?_, fun id now => ⟨fun token g => ?_, fun k hk => ?_, fun k hk => ?_⟩,
    fun token token' g g' hres hres' hc hc' => ?_⟩
  · obtain ⟨r, ⟨hr, hlive⟩, -, -, rfl⟩ := resolve_eq_some.mp hres
    exact ⟨get_of_mem hr, h.upheld hr hlive⟩
  · rw [resolve_revoke]
    refine and_congr_right fun hres => not_congr ?_
    obtain ⟨r, ⟨hr, -⟩, -, -, rfl⟩ := resolve_eq_some.mp hres
    exact h.mem_tree_iff (get_of_mem hr)
  · rw [get_revoke]
    cases hget : get t k with
    | none => rfl
    | some g => rw [Option.map_some, if_neg fun hin => hk ((h.mem_tree_iff hget).mp hin.1)]
  · rw [get_revoke]
    cases hget : get t k with
    | none => rfl
    | some g =>
        have hin := (h.mem_tree_iff hget).mpr hk
        obtain ⟨_, _, _, _, _, _, revokedAt, _⟩ := g
        cases revokedAt <;> simp [hin]
  · obtain ⟨r, ⟨hr, hlive⟩, -, -, rfl⟩ := resolve_eq_some.mp hres
    obtain ⟨r', ⟨hr', hlive'⟩, -, -, rfl⟩ := resolve_eq_some.mp hres'
    rw [h.one r hr r' hr' hc hc' hlive hlive']

end Jkb.Roles
