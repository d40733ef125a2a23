import Jkb.Core.Roles
import Jkb.Locks

/-!
# Jkb.Api.Tickets

The harness tickets of a daemon, and who a call that carries one is. A ticket is minted for one tool call and says
which session and which subagent made it; it is released, or expires. A subagent is held to one task: `authorize`
binds it to the task of its first write, and then holds every write to what is in that task's scope.

What is read from tables that have nothing to do with that (the grant that minted a ticket, the role of an agent's
type, the gate of a landing) is in `View`: what the reader answers of them.
-/

namespace Jkb.Tickets

open Jkb.Rbac Jkb.Roles

/-! ## tickets -/

/-- A subagent: its session and its id. -/
abbrev Agent := Text × Text

/-- What a ticket carries. -/
structure Ticket where
  session : Text
  agentId : Option Text
  agentType : Option Text
  toolUseId : Text
  mintedBy : Int
  mintedAt : Nat
deriving Repr, DecidableEq

/-- The subagent that a ticket attests, if it was minted for one's tool call. -/
def Ticket.agent (t : Ticket) : Option Agent := t.agentId.map fun a => (t.session, a)

/-- How long a ticket lives if nothing releases it, in milliseconds. -/
def TICKET_BACKSTOP : Nat := 10 * 60 * 1000

def MAX_LIVE_TICKETS : Nat := 4096

def MAX_SESSION_TICKETS : Nat := 256

/-- The tickets by token, and the order that they expire in. -/
structure Live where
  byToken : Table (fun e : Text × Ticket => e.1) := .empty
  expiry : List (Nat × Text) := []

namespace Live

/-- Drop what has expired: a ticket lives as long as any other, so the oldest are in front. -/
def expire (live : Live) (now : Nat) : Live :=
  let (dead, expiry) := live.expiry.span fun e => TICKET_BACKSTOP ≤ now - e.1
  let byToken := live.byToken.deleteWhere fun e => dead.any (·.2 = e.1)
  -- the queue entry of a released ticket outlives it
  if 2 * byToken.rows.length + 64 < expiry.length then
    { byToken, expiry := expiry.filter fun e => (byToken.find? e.2).isSome }
  else { byToken, expiry }

/-- The live ticket that a token names. -/
def get (live : Live) (token : Text) : Option Ticket := (live.byToken.find? token).map (·.2)

/-- `Tickets::mint`, under a token that was drawn for it; `none` where too many are live. -/
def mint (live : Live) (now : Nat) (token : Text) (t : Ticket) : Option Live :=
  let live := live.expire now
  if MAX_LIVE_TICKETS ≤ live.byToken.rows.length then none
  else if MAX_SESSION_TICKETS ≤ (live.byToken.rows.filter (·.2.session = t.session)).length then none
  else some { byToken := live.byToken.put (token, t), expiry := live.expiry ++ [(t.mintedAt, token)] }

/-- Release the ticket of a tool call, or a subagent's, or a session's. -/
def release (live : Live) (session : Text) (agentId toolUseId : Option Text) : Live :=
  { live with byToken := live.byToken.deleteWhere fun e =>
      e.2.session = session && match toolUseId, agentId with
        | some tool, _ => e.2.toolUseId = tool
        | none, some agent => e.2.agentId = some agent
        | none, none => true }

/-- A subagent holds a live ticket. -/
def holds (live : Live) (agent : Agent) : Bool := live.byToken.rows.any (·.2.agent = some agent)

/-- All that the live ticket of a token can say of who makes a call: of no ticket, anything. -/
def Attests (live : Live) (token : Text) (agent : Option Agent) : Prop :=
  ∀ t, live.get token = some t → t.agent = agent

variable {live : Live} {token : Text} {agent : Option Agent}

theorem get_of_deleteWhere {p : Text × Ticket → Bool} {expiry : List (Nat × Text)} {t : Ticket}
    (h : get { byToken := live.byToken.deleteWhere p, expiry } token = some t) : live.get token = some t := by
  obtain ⟨e, he, rfl⟩ := Option.map_eq_some_iff.mp h
  rw [Table.find?_deleteWhere] at he
  obtain ⟨he, -⟩ := Option.filter_eq_some_iff.mp he
  rw [get, he, Option.map_some]

theorem get_of_expire {now : Nat} {t : Ticket} (h : (live.expire now).get token = some t) :
    live.get token = some t := by
  unfold expire at h
  dsimp only at h
  split at h <;> exact get_of_deleteWhere h

theorem get_of_release {session : Text} {agentId toolUseId : Option Text} {t : Ticket}
    (h : (live.release session agentId toolUseId).get token = some t) : live.get token = some t :=
  get_of_deleteWhere h

theorem get_of_mint {live' : Live} {now : Nat} {token' : Text} {t t' : Ticket} (hne : token' ≠ token)
    (hmint : live.mint now token' t' = some live') (h : live'.get token = some t) : live.get token = some t := by
  unfold mint at hmint
  dsimp only at hmint
  split at hmint
  · cases hmint
  · split at hmint
    · cases hmint
    · cases hmint
      rw [get, Table.find?_put, if_neg hne] at h
      exact get_of_expire h

end Live

/-! ## the tasks, as admission reads them -/

/-- The uids there are, the containment of tasks, and the findings of each task's recorded rounds. -/
structure Tasks where
  idForUid : Text → Option Int
  parent : Int → Option Int
  isFindingOf : Int → Int → Bool

/-- `task::canonical_uid`: a bare slug is a task's. -/
def canonicalUid (reference : Text) : Text :=
  if ':' ∈ reference then reference else "task:".toList ++ reference

/-- `task::resolve_ref`: the item that a reference names, a bare slug as a task's first. -/
def Tasks.resolveRef (tasks : Tasks) (reference : Text) : Option Int :=
  if ':' ∈ reference then tasks.idForUid reference
  else (tasks.idForUid (canonicalUid reference)).or (tasks.idForUid reference)

def MAX_SCOPE_DEPTH : Nat := 64

/-- The walk of `in_scope` up the containment. -/
def Tasks.inScopeFrom (tasks : Tasks) (scope : Int) : Nat → Option Int → Bool
  | 0, _ => false
  | _ + 1, none => false
  | n + 1, some id => id = scope || tasks.isFindingOf scope id || tasks.inScopeFrom scope n (tasks.parent id)

/-- `roles::in_scope`: a task, a finding of one of its rounds, or below either. -/
def Tasks.inScope (tasks : Tasks) (scope target : Int) : Bool := tasks.inScopeFrom scope MAX_SCOPE_DEPTH (some target)

/-- A task is in its own scope. -/
@[simp] theorem Tasks.inScope_self (tasks : Tasks) (task : Int) : tasks.inScope task task = true := by
  simp [inScope, inScopeFrom, MAX_SCOPE_DEPTH]

/-! ## the bindings -/

/-- The task that a subagent is working on. -/
structure Binding where
  agent : Agent
  itemId : Int
deriving Repr, DecidableEq

abbrev Bindings := Table Binding.agent

/-- What `bind_agent` found. -/
inductive Bound where
  | now (task : Int)
  | to (task : Int)
  | elsewhere (task : Int)
deriving Repr, DecidableEq

/-- `roles::agent_binding`. -/
def agentBinding (bindings : Bindings) (agent : Agent) : Option Int := (bindings.find? agent).map (·.itemId)

/-- `roles::bind_agent`: the first bind wins. -/
def bindAgent (bindings : Bindings) (agent : Agent) (task : Int) : Except Fmt (Bindings × Bound) := do
  checkAgent agent.2
  let (bindings, inserted) := bindings.insertOrIgnore ⟨agent, task⟩
  if inserted then pure (bindings, .now task)
  else
    match agentBinding bindings agent with
    | none => .error ["the binding vanished as it was written"]
    | some bound => pure (bindings, if bound = task then .to task else .elsewhere bound)

/-- `roles::unbind_agent`: that exact binding. -/
def unbindAgent (bindings : Bindings) (agent : Agent) (task : Int) : Bindings :=
  bindings.deleteWhere fun b => b.agent = agent && b.itemId = task

variable {bindings bindings' : Bindings} {agent : Agent} {task : Int}

/-- What binding leaves: it is the subagent's first, and the task's now, or it was there and is what it was. -/
theorem bindAgent_eq_ok {bound : Bound} (h : bindAgent bindings agent task = .ok (bindings', bound)) :
    (bound = .now task ∧ agentBinding bindings agent = none ∧
      ∀ a, agentBinding bindings' a = if agent = a then some task else agentBinding bindings a) ∨
      bindings' = bindings ∧ ∃ old, agentBinding bindings agent = some old ∧
        bound = if old = task then .to task else .elsewhere old := by
  obtain ⟨⟨⟩, -, h⟩ := Tx.bind_eq_ok.mp h
  by_cases hfree : bindings.find? agent = none
  · have hnone : agentBinding bindings agent = none := by rw [agentBinding, hfree, Option.map_none]
    have hinsert : (bindings.insertOrIgnore ⟨agent, task⟩).2 = true := by
      rw [Table.insertOrIgnore, dif_pos hfree]
    simp only [hinsert, if_true] at h
    cases h
    refine Or.inl ⟨rfl, hnone, fun a => ?_⟩
    rw [agentBinding, Table.find?_insertOrIgnore]
    by_cases ha : agent = a
    · simp [ha ▸ hfree, ha]
    · simp [ha, agentBinding]
  · have hinsert : bindings.insertOrIgnore ⟨agent, task⟩ = (bindings, false) := by
      rw [Table.insertOrIgnore, dif_neg hfree]
    simp only [hinsert, Bool.false_eq_true, if_false] at h
    obtain ⟨b, hb⟩ := Option.ne_none_iff_exists'.mp hfree
    have hsome : agentBinding bindings agent = some b.itemId := by rw [agentBinding, hb, Option.map_some]
    rw [hsome] at h
    cases h
    exact Or.inr ⟨rfl, b.itemId, hsome, rfl⟩

theorem agentBinding_unbindAgent (a : Agent) : agentBinding (unbindAgent bindings agent task) a =
    if agent = a ∧ agentBinding bindings a = some task then none else agentBinding bindings a := by
  rw [agentBinding, unbindAgent, Table.find?_deleteWhere, agentBinding]
  cases hb : bindings.find? a with
  | none => simp
  | some b =>
      obtain rfl := Table.key_of_find? hb
      by_cases hagent : agent = b.agent <;> by_cases htask : b.itemId = task <;>
        simp [hagent, htask, Option.filter, eq_comm (a := b.agent)]

/-! ## who calls, and what it may -/

/-- What running an op needs. -/
inductive OpPermission where
  | read | hook | taskWrite | taskStatus | taskClaim | review | land | workflow | design | designApprove | grant
  | attest | execRequest | admin
deriving Repr, DecidableEq

/-- Which role may run which class of op. A task's strategy lets others land it; only the container's own credential
attests. -/
def OP_GRANTS : RoleTable Role OpPermission where
  grants :=
    [ ⟨.operator, [.read, .hook, .taskWrite, .taskStatus, .taskClaim, .review, .land, .workflow, .design,
        .designApprove, .grant, .attest, .execRequest, .admin]⟩,
      ⟨.coordinator, [.read, .hook, .execRequest, .taskWrite, .taskStatus, .taskClaim, .workflow, .grant, .design,
        .designApprove]⟩,
      ⟨.designer, [.read, .hook, .execRequest, .taskWrite, .workflow, .design, .designApprove]⟩,
      ⟨.implementer, [.read, .hook, .execRequest, .taskWrite, .taskClaim, .workflow]⟩,
      ⟨.reviewer, [.read, .hook, .execRequest, .review, .workflow, .designApprove]⟩,
      ⟨.systemicReviewer, [.read, .hook, .execRequest, .taskWrite, .workflow]⟩ ]

/-- What an op writes, as far as a task scope is concerned. -/
inductive Target where
  | free
  | task (reference : Text)
  | shared
deriving Repr, DecidableEq

/-- What admission reads of a request: its class, its target, whether it is a `task.move`, and whether it files or
records a review. -/
structure Request where
  permission : OpPermission
  target : Target
  isMove : Bool := false
  isReview : Bool := false
deriving Repr, DecidableEq

/-- A resolved caller. -/
structure Principal where
  roles : List Role
  scope : Option Int
  attested : Option Agent
deriving Repr, DecidableEq

/-- What the reader answers of the tables that are left out: the role and the scope of the grant that minted the
ticket, if it stands; the role of the agent's type; and whether a landing passes the task's strategy and its gate. -/
structure View where
  minter : Option (Role × Option Int)
  roleForAgentType : Option Role
  admitsLanding : Bool
deriving Repr, DecidableEq

inductive ErrorCode where
  | unauthorized | forbidden | internal
deriving Repr, DecidableEq

/-- `rbac::resolve`, of a ticket's token. -/
def resolve (view : View) (bindings : Bindings) (ticket : Option Ticket) : Except ErrorCode Principal :=
  match ticket, view.minter with
  | none, _ | some _, none => .error .unauthorized
  | some t, some (role, scope) =>
      match t.agentId with
      | none => .ok ⟨[role], scope, none⟩
      | some a =>
          let role := t.agentType.bind fun _ => view.roleForAgentType
          .ok ⟨(role.filter (· ≠ .operator)).toList, agentBinding bindings (t.session, a), some (t.session, a)⟩

/-- What authorization asks of the dispatcher. -/
inductive Admit where
  | run
  | bindThenRun (agent : Agent) (task : Int)
deriving Repr, DecidableEq

/-- The task that a request is held to, or the admission of one that names none. -/
def referenceOf (p : Principal) (r : Request) : Except ErrorCode (Text ⊕ Admit) :=
  match r.target with
  | .task reference => .ok (.inl reference)
  | .shared | .free =>
      if r.target = .shared ∧ (p.scope.isSome ∨ p.attested.isSome) then .error .forbidden
      else if r.permission = .land then .error .forbidden
      else if p.scope.isNone ∧ p.attested.isSome ∧ r.isReview then .error .forbidden
      else .ok (.inr .run)

/-- `rbac::authorize`, of a ticket's principal. -/
def authorize (view : View) (tasks : Tasks) (p : Principal) (r : Request) : Except ErrorCode Admit :=
  if .operator ∈ p.roles then .ok .run
  else if p.roles = [] then .error .forbidden
  -- only the container's own credential attests, which is no ticket
  else if r.permission = .attest then .error .forbidden
  else if r.permission ≠ .land ∧ ¬ p.roles.any (OP_GRANTS.permits · r.permission) then .error .forbidden
  else
    match referenceOf p r with
    | .error e => .error e
    | .ok (.inr verdict) => .ok verdict
    | .ok (.inl reference) =>
        match tasks.resolveRef reference with
        -- nothing to scope against: the op itself answers that there is no such task
        | none => .ok .run
        | some target =>
            if r.permission = .land ∧ ¬ view.admitsLanding then .error .forbidden
            else
              match p.scope, p.attested with
              | some scope, _ => if tasks.inScope scope target then .ok .run else .error .forbidden
              | none, some agent => if r.isMove then .error .forbidden else .ok (.bindThenRun agent target)
              | none, none => .ok .run

/-- Whom a ticket attests is whom the principal is, with the task that it is bound to. -/
theorem resolve_attested {view : View} {ticket : Option Ticket} {p : Principal}
    (h : resolve view bindings ticket = .ok p) : ∃ t, ticket = some t ∧ p.attested = t.agent ∧
      ∀ a, p.attested = some a → p.scope = agentBinding bindings a ∧ .operator ∉ p.roles := by
  unfold resolve at h
  split at h
  · cases h
  · cases h
  · next t role scope _ =>
      refine ⟨t, rfl, ?_⟩
      split at h
      · next hnone =>
          cases h
          exact ⟨by rw [Ticket.agent, hnone, Option.map_none], fun a ha => by cases ha⟩
      · next a hsome =>
          cases h
          refine ⟨by rw [Ticket.agent, hsome, Option.map_some], fun b hb => ?_⟩
          obtain rfl := Option.some.inj hb
          refine ⟨rfl, fun hop => ?_⟩
          obtain ⟨-, hne⟩ := Option.filter_eq_some_iff.mp (Option.mem_toList.mp hop)
          simp at hne

theorem referenceOf_eq_ok {p : Principal} {r : Request} {held : Text ⊕ Admit} (h : referenceOf p r = .ok held) :
    (∃ reference, r.target = .task reference ∧ held = .inl reference) ∨
      (∀ reference, r.target ≠ .task reference) ∧ held = .inr .run := by
  cases htarget : r.target with
  | task reference =>
      rw [referenceOf, htarget] at h
      cases h
      exact Or.inl ⟨reference, rfl, rfl⟩
  | free | shared =>
      refine Or.inr ⟨fun _ => nofun, ?_⟩
      simp only [referenceOf, htarget] at h
      split at h
      · cases h
      split at h
      · cases h
      split at h
      · cases h
      · exact (Except.ok.inj h).symm

/-- **What is authorized.** A subagent that is bound to no task is bound to that of its first write; one that is bound
writes only in the scope that it has. -/
theorem authorize_eq_ok {view : View} {tasks : Tasks} {p : Principal} {r : Request} {verdict : Admit}
    (h : authorize view tasks p r = .ok verdict) :
    (∃ agent reference target, verdict = .bindThenRun agent target ∧ p.attested = some agent ∧ p.scope = none ∧
      r.target = .task reference ∧ tasks.resolveRef reference = some target) ∨
      verdict = .run ∧ (.operator ∉ p.roles → ∀ agent, p.attested = some agent → ∀ reference target,
        r.target = .task reference → tasks.resolveRef reference = some target →
          ∃ scope, p.scope = some scope ∧ tasks.inScope scope target = true) := by
  unfold authorize at h
  split at h
  · next hop =>
      cases h
      exact Or.inr ⟨rfl, fun hno => absurd hop hno⟩
  split at h
  · cases h
  split at h
  · cases h
  split at h
  · cases h
  split at h
  · cases h
  · next verdict' hheld =>
      cases h
      obtain ⟨_, -, hne⟩ | ⟨hfree, hrun⟩ := referenceOf_eq_ok hheld
      · cases hne
      · exact Or.inr ⟨Sum.inr.inj hrun, fun _ _ _ reference _ htask => absurd htask (hfree reference)⟩
  · next reference hheld =>
      obtain ⟨_, htarget, heq⟩ | ⟨-, hne⟩ := referenceOf_eq_ok hheld
      swap
      · cases hne
      cases heq
      split at h
      · next hnone =>
          cases h
          refine Or.inr ⟨rfl, fun _ _ _ reference' _ htask hresolve => ?_⟩
          cases htarget.symm.trans htask
          cases hnone.symm.trans hresolve
      · next target hresolve =>
          split at h
          · cases h
          split at h
          · next scope hscope =>
              split at h
              · next hin =>
                  cases h
                  refine Or.inr ⟨rfl, fun _ _ _ reference' _ htask hresolve' => ⟨scope, hscope, ?_⟩⟩
                  cases htarget.symm.trans htask
                  cases hresolve.symm.trans hresolve'
                  exact hin
              · cases h
          · next agent hscope hattested =>
              split at h
              · cases h
              · cases h
                exact Or.inl ⟨agent, reference, target, rfl, hattested, hscope, htarget, hresolve⟩
          · next hattested =>
              cases h
              exact Or.inr ⟨rfl, fun _ _ hsome => by cases hattested.symm.trans hsome⟩

end Jkb.Tickets
