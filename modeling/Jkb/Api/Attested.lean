import Jkb.Api.Tickets
import Jkb.Run

/-!
# Jkb.Api.Attested

The calls of attested subagents, step by step, between everything else that a daemon does. A call looks its ticket
up, fetches its subagent's lock and goes inside of it, is admitted, binds the subagent if this is its first write, and
runs its op; where the op fails, a binding that was made for it is undone.

`Daemon.apart` is what a step must be for the lock to do its work, and `oneTask_run` what then holds after every run:
every write of a subagent's that names a task names one in the scope of one and the same task, and no binding is
removed that a call has gone through under. `accounted_run` says which task that is: the one that it is bound to. An
op that names no task, as the filing of a review, is held by its callee and not here; the log has it as a write of
none.

`hops_released` is a run that is otherwise: a release forgets the lock of a call that is under way.
-/

namespace Jkb.Attested

open Jkb.Tickets Run

/-! ## a call -/

/-- An op as it was admitted: who makes it, the task that it is held to, the binding that was made for it, and the
tasks as admission read them. -/
structure Admitted where
  agent : Option Agent
  scope : Option Int
  fresh : Option Int
  judged : Tasks

/-- Where a call is. -/
inductive Stage where
  | started
  | looked (agent : Agent)
  | waiting (lock : Locks.Ref Agent Nat)
  | entered (agent : Option Agent)
  | binding (agent : Agent) (task : Int) (judged : Tasks)
  | admitted (op : Admitted)
  | undoing (agent : Agent) (task : Int)

structure Call where
  id : Nat
  token : Text
  request : Request
  stage : Stage := .started

/-- What has been done in a subagent's name: an op that went through, with the task that it was held to and the task
that it names and writes, if its target is one; and a binding that was undone. -/
inductive Event where
  | ran (agent : Agent) (scope write : Option Int) (judged : Tasks)
  | unbound (agent : Agent) (task : Int)

/-- A daemon, and what it has done, the latest first. -/
structure Daemon where
  now : Nat := 0
  live : Live := {}
  agents : Locks Agent Nat := {}
  releasing : List (Text × Option Text) := []
  bindings : Bindings := .empty
  tasks : Tasks
  calls : Table Call.id := .empty
  log : List Event := []

/-- What a call's next step finds: what the reader answers, whether the transaction or the op goes through, and the
tasks as an op leaves them that does. -/
structure Choice where
  view : View
  ok : Bool
  tasks : Tasks

/-- A step: of a call, of the harness, of the time, or of anybody else who writes tasks. -/
inductive Step where
  | call (id : Nat) (token : Text) (request : Request)
  | advance (id : Nat) (found : Choice)
  | mint (token : Text) (ticket : Ticket)
  | release (session : Text) (agentId toolUseId : Option Text)
  | forget (session : Text) (agentId : Option Text)
  | tick (ms : Nat)
  | edit (tasks : Tasks)

namespace Daemon

variable (s : Daemon)

def setStage (id : Nat) (stage : Stage) : Daemon :=
  { s with calls := s.calls.updateWhere (·.id = id) (fun c => { c with stage }) fun _ => rfl }

/-- A call is answered, and lets go of its lock. -/
def finish (id : Nat) : Daemon :=
  { s with calls := s.calls.deleteWhere (·.id = id), agents := s.agents.leave id }

/-- `Tickets::agent_lock`, up to the table of the locks: the subagent that the token's ticket attests, if any. -/
def lookup (c : Call) : Daemon :=
  let live := s.live.expire s.now
  let s := { s with live }
  match (live.get c.token).bind Ticket.agent with
  | none => s.setStage c.id (.entered none)
  | some agent => s.setStage c.id (.looked agent)

/-- The locks, without those of subagents that hold no ticket once there are many. -/
def pruned : Locks Agent Nat :=
  if 2 * MAX_SESSION_TICKETS < s.agents.entries.length then s.agents.prune s.live.holds else s.agents

/-- `Tickets::agent_lock`, at the table of the locks. -/
def fetch (c : Call) (agent : Agent) : Daemon :=
  let lock := ⟨c.id, agent, s.pruned.lockOf agent⟩
  { s with agents := s.pruned.fetch c.id agent }.setStage c.id (.waiting lock)

/-- The call goes inside of the lock, or waits. -/
def enter (c : Call) (lock : Locks.Ref Agent Nat) : Daemon :=
  match s.agents.acquire lock with
  | none => s
  | some agents => { s with agents }.setStage c.id (.entered (some lock.key))

/-- `LocalBackend::admit`, on the reader. -/
def admitOp (found : Choice) (c : Call) : Daemon :=
  let live := s.live.expire s.now
  let s := { s with live }
  match resolve found.view s.bindings (live.get c.token) with
  | .error _ => s.finish c.id
  | .ok p =>
      match authorize found.view s.tasks p c.request with
      | .error _ => s.finish c.id
      | .ok .run => s.setStage c.id (.admitted ⟨p.attested, p.scope, none, s.tasks⟩)
      | .ok (.bindThenRun agent task) => s.setStage c.id (.binding agent task s.tasks)

/-- `LocalBackend::admit`, its binding. -/
def bind (found : Choice) (c : Call) (agent : Agent) (task : Int) (judged : Tasks) : Daemon :=
  if found.ok then
    match bindAgent s.bindings agent task with
    | .ok (bindings, .now _) =>
        { s with bindings }.setStage c.id (.admitted ⟨some agent, some task, some task, judged⟩)
    | .ok (_, .to _) => s.setStage c.id (.admitted ⟨some agent, some task, none, judged⟩)
    | .ok (_, .elsewhere _) | .error _ => s.finish c.id
  else s.finish c.id

/-- An op that went through. -/
def ran (c : Call) (op : Admitted) (write : Option Int) (tasks : Tasks) : Daemon :=
  { s with
    tasks
    log := (op.agent.map fun agent => Event.ran agent op.scope write op.judged).toList ++ s.log }.finish c.id

/-- An op that failed: a binding that was made for it is to be undone. -/
def failed (c : Call) (op : Admitted) : Daemon :=
  match op.agent, op.fresh with
  | some agent, some task => s.setStage c.id (.undoing agent task)
  | _, _ => s.finish c.id

/-- `LocalBackend::dispatch`. An op on a task fails where its reference names none; one whose target is no task
names none in the log, whatever its callee writes under checks of its own. -/
def dispatch (found : Choice) (c : Call) (op : Admitted) : Daemon :=
  if found.ok then
    match c.request.target with
    | .task reference =>
        match s.tasks.resolveRef reference with
        | none => s.failed c op
        | some target => s.ran c op (some target) found.tasks
    | .free | .shared => s.ran c op none found.tasks
  else s.failed c op

/-- The undo that `LocalBackend::call` owes. -/
def undo (found : Choice) (c : Call) (agent : Agent) (task : Int) : Daemon :=
  if found.ok then
    let log := if agentBinding s.bindings agent = some task then Event.unbound agent task :: s.log else s.log
    { s with bindings := unbindAgent s.bindings agent task, log }.finish c.id
  else s.finish c.id

/-- A call's next step. -/
def advance (found : Choice) (c : Call) : Daemon :=
  match c.stage with
  | .started => s.lookup c
  | .looked agent => s.fetch c agent
  | .waiting lock => s.enter c lock
  | .entered _ => s.admitOp found c
  | .binding agent task judged => s.bind found c agent task judged
  | .admitted op => s.dispatch found c op
  | .undoing agent task => s.undo found c agent task

/-- A token is drawn for a ticket that no ticket and no call has. -/
def isDrawn (token : Text) : Bool := (s.live.get token).isNone && s.calls.rows.all (·.token ≠ token)

/-- A ticket is minted. -/
def mint (token : Text) (ticket : Ticket) : Daemon :=
  if s.isDrawn token then
    match s.live.mint s.now token { ticket with mintedAt := s.now } with
    | none => { s with live := s.live.expire s.now }
    | some live => { s with live }
  else s

/-- `Tickets::release`, up to the table of the locks: a release that is not of a tool call goes on to that. -/
def release (session : Text) (agentId toolUseId : Option Text) : Daemon :=
  { s with
    live := s.live.release session agentId toolUseId
    releasing := if toolUseId.isNone then (session, agentId) :: s.releasing else s.releasing }

/-- `Tickets::release`, at the table of the locks. -/
def forget (session : Text) (agentId : Option Text) : Daemon :=
  if (session, agentId) ∈ s.releasing then
    { s with
      agents := s.agents.drop fun a => a.1 = session && agentId.all (· = a.2)
      releasing := s.releasing.erase (session, agentId) }
  else s

/-- A step of the daemon; one that cannot be taken leaves it as it is. -/
def next : Step → Daemon
  | .call id token request => { s with calls := (s.calls.insertOrIgnore ⟨id, token, request, .started⟩).1 }
  | .advance id found => (s.calls.find? id).elim s (s.advance found)
  | .mint token ticket => s.mint token ticket
  | .release session agentId toolUseId => s.release session agentId toolUseId
  | .forget session agentId => s.forget session agentId
  | .tick ms => { s with now := s.now + ms }
  | .edit tasks => { s with tasks }

/-- The step leaves one lock for each subagent and one meaning for each reference: no call is given a new lock of a
subagent that another of its calls has a lock of; and none runs its op on a task that its reference did not name when
it was admitted. -/
def apart : Step → Bool
  | .advance id _ =>
      match s.calls.find? id with
      | none => true
      | some c =>
          match c.stage with
          | .looked agent => s.pruned.Alone agent
          | .admitted op =>
              match c.request.target with
              | .task reference =>
                  op.agent.isNone || (s.tasks.resolveRef reference).all (op.judged.resolveRef reference = some ·)
              | .free | .shared => true
          | _ => true
  | _ => true

end Daemon

/-! ## what is promised -/

/-- Every task that a write of a subagent's has named is in the scope of one task, as it was when the write was
admitted. -/
def OneTask (log : List Event) (agent : Agent) : Prop :=
  ∃ task, ∀ scope target judged, .ran agent scope (some target) judged ∈ log → judged.inScope task target = true

/-- No binding has been removed that a call had gone through under. -/
def Kept : List Event → Prop
  | [] => True
  | .unbound agent task :: log => (∀ write judged, .ran agent (some task) write judged ∉ log) ∧ Kept log
  | .ran .. :: log => Kept log

/-! ## what every step keeps -/

/-- Nothing has gone through in a subagent's name but on no task, and held to none. -/
def Clean (log : List Event) (agent : Agent) : Prop :=
  ∀ scope write judged, .ran agent scope write judged ∈ log → scope = none ∧ write = none

/-- Every task that a write of a subagent's has named is in the scope of a task. -/
def Under (log : List Event) (agent : Agent) (task : Int) : Prop :=
  ∀ scope target judged, .ran agent scope (some target) judged ∈ log → judged.inScope task target = true

/-- What an agent that has named no task has done is under any task. -/
theorem Clean.under {log : List Event} {agent : Agent} (h : Clean log agent) (task : Int) : Under log agent task :=
  fun scope target judged hran => nomatch (h scope (some target) judged hran).2

namespace Daemon

/-- A call is inside of a subagent's lock. -/
def Inside (s : Daemon) (id : Nat) (agent : Agent) : Prop :=
  ∃ lock ∈ s.agents.held, lock.client = id ∧ lock.key = agent

/-- What a subagent's writes have named is in the scope of the task that it is bound to; those of one that is bound
to none have named nothing. -/
def Accounted (s : Daemon) (agent : Agent) : Prop :=
  match agentBinding s.bindings agent with
  | none => Clean s.log agent
  | some task => Under s.log agent task

/-- What is known of a call where it is. Past its entry it is inside of its subagent's lock, and what it has read of
the subagent's binding is so still. -/
def StageOk (s : Daemon) (c : Call) : Prop :=
  match c.stage with
  | .started => True
  | .looked agent => s.live.Attests c.token (some agent)
  | .waiting lock => lock ∈ s.agents.refs ∧ lock.client = c.id ∧ s.live.Attests c.token (some lock.key)
  | .entered agent => s.live.Attests c.token agent ∧ ∀ a, agent = some a → s.Inside c.id a
  | .binding agent task judged =>
      s.Inside c.id agent ∧ agentBinding s.bindings agent = none ∧
        ∃ reference, c.request.target = .task reference ∧ judged.resolveRef reference = some task
  | .admitted op => ∀ agent, op.agent = some agent →
      s.Inside c.id agent ∧ op.scope = agentBinding s.bindings agent ∧
        (∀ task, op.fresh = some task → op.scope = some task ∧ Clean s.log agent) ∧
        ∀ reference target, c.request.target = .task reference → op.judged.resolveRef reference = some target →
          ∃ scope, op.scope = some scope ∧ op.judged.inScope scope target = true
  | .undoing agent task => s.Inside c.id agent ∧ agentBinding s.bindings agent = some task ∧ Clean s.log agent

/-- What every step keeps. -/
structure Inv (s : Daemon) : Prop where
  serial : s.agents.Serial
  stage : ∀ c ∈ s.calls.rows, s.StageOk c
  accounted : ∀ agent, s.Accounted agent
  kept : Kept s.log

/-- A subagent is bound as it was, and nothing new has gone through in its name. -/
def Agrees (s s' : Daemon) (agent : Agent) : Prop :=
  agentBinding s'.bindings agent = agentBinding s.bindings agent ∧
    ∀ scope write judged, .ran agent scope write judged ∈ s'.log → .ran agent scope write judged ∈ s.log

/-- A step takes nothing from the calls but the one that makes it, and does nothing in the name of a subagent but the
one whose lock that call is inside of. -/
structure Frame (s s' : Daemon) (who : Option Nat) : Prop where
  live : ∀ c ∈ s.calls.rows, ∀ a, s.live.Attests c.token a → s'.live.Attests c.token a
  refs : ∀ r ∈ s.agents.refs, some r.client ≠ who → r ∈ s'.agents.refs
  held : ∀ r ∈ s.agents.held, some r.client ≠ who → r ∈ s'.agents.held
  agent : ∀ agent, Agrees s s' agent ∨ (∃ id, who = some id ∧ s.Inside id agent) ∧ s'.Accounted agent

variable {s s' : Daemon} {agent : Agent} {who : Option Nat}

theorem agrees_refl (s : Daemon) (agent : Agent) : Agrees s s agent := ⟨rfl, fun _ _ _ h => h⟩

/-- What the log says of an agent does not change where it agrees. -/
theorem Agrees.clean (h : Agrees s s' agent) (hclean : Clean s.log agent) : Clean s'.log agent :=
  fun scope write judged hran => hclean scope write judged (h.2 scope write judged hran)

/-- Nor does what the agent accounts for. -/
theorem Agrees.accounted (h : Agrees s s' agent) (hs : s.Accounted agent) : s'.Accounted agent := by
  unfold Accounted at hs ⊢
  rw [h.1]
  cases hb : agentBinding s.bindings agent with
  | none =>
      rw [hb] at hs
      exact h.clean hs
  | some task =>
      rw [hb] at hs
      exact fun scope target judged hran => hs scope target judged (h.2 scope (some target) judged hran)

/-- Only one call is inside of a subagent's lock. -/
theorem Inside.unique (hs : s.agents.Serial) {id id' : Nat} (h : s.Inside id agent) (h' : s.Inside id' agent) :
    id = id' := by
  obtain ⟨lock, hlock, rfl, hkey⟩ := h
  obtain ⟨lock', hlock', rfl, hkey'⟩ := h'
  rw [hs.exclusive hlock hlock' (hkey.trans hkey'.symm)]

/-- A call of another client stays inside of its lock. -/
theorem Frame.inside (h : Frame s s' who) {id : Nat} (hid : some id ≠ who) (hin : s.Inside id agent) :
    s'.Inside id agent := by
  obtain ⟨lock, hlock, rfl, hkey⟩ := hin
  exact ⟨lock, h.held lock hlock hid, rfl, hkey⟩

/-- What is done in the name of a subagent is not done beside a call that is inside of its lock. -/
theorem Frame.agrees (h : Frame s s' who) (hs : s.agents.Serial) {id : Nat} (hid : some id ≠ who)
    (hin : s.Inside id agent) : Agrees s s' agent := by
  obtain hagrees | ⟨⟨id', rfl, hin'⟩, -⟩ := h.agent agent
  · exact hagrees
  · exact absurd (congrArg some (hin.unique hs hin')) hid

/-- **What is known of a call outlasts what the others do.** -/
theorem Frame.stageOk (h : Frame s s' who) (hs : s.agents.Serial) {c : Call} (hc : c ∈ s.calls.rows)
    (hid : some c.id ≠ who) (hok : s.StageOk c) : s'.StageOk c := by
  unfold StageOk at hok ⊢
  cases hstage : c.stage with
  | started => trivial
  | looked agent =>
      rw [hstage] at hok
      exact h.live c hc _ hok
  | waiting lock =>
      rw [hstage] at hok
      obtain ⟨hlock, hclient, hattests⟩ := hok
      exact ⟨h.refs lock hlock (hclient ▸ hid), hclient, h.live c hc _ hattests⟩
  | entered agent =>
      rw [hstage] at hok
      exact ⟨h.live c hc _ hok.1, fun a ha => h.inside hid (hok.2 a ha)⟩
  | binding agent task judged =>
      rw [hstage] at hok
      obtain ⟨hin, hfree, hnamed⟩ := hok
      exact ⟨h.inside hid hin, (h.agrees hs hid hin).1.trans hfree, hnamed⟩
  | admitted op =>
      rw [hstage] at hok
      intro agent hagent
      obtain ⟨hin, hscope, hfresh, hnamed⟩ := hok agent hagent
      have hagrees := h.agrees hs hid hin
      refine ⟨h.inside hid hin, hscope.trans hagrees.1.symm, fun task htask => ?_, hnamed⟩
      exact ⟨(hfresh task htask).1, hagrees.clean (hfresh task htask).2⟩
  | undoing agent task =>
      rw [hstage] at hok
      obtain ⟨hin, hbound, hclean⟩ := hok
      have hagrees := h.agrees hs hid hin
      exact ⟨h.inside hid hin, hagrees.1.trans hbound, hagrees.clean hclean⟩

/-- The invariant, from a frame and what is known of the call that made the step. -/
theorem Frame.inv (h : Frame s s' who) (hs : s.Inv) (hserial : s'.agents.Serial) (hkept : Kept s'.log)
    (hcalls : ∀ c ∈ s'.calls.rows, some c.id ≠ who ∧ c ∈ s.calls.rows ∨ s'.StageOk c) : s'.Inv where
  serial := hserial
  kept := hkept
  accounted agent := (h.agent agent).elim (fun hagrees => hagrees.accounted (hs.accounted agent)) And.right
  stage c hc := (hcalls c hc).elim (fun hold => h.stageOk hs.serial hold.2 hold.1 (hs.stage c hold.2)) id

/-! ## a call's steps -/

variable {c c' : Call} {stage : Stage} {found : Choice}

theorem frame_refl (s : Daemon) : Frame s s who :=
  ⟨fun _ _ _ h => h, fun _ h _ => h, fun _ h _ => h, fun agent => Or.inl (agrees_refl s agent)⟩

/-- A call has moved on, and nothing else has. -/
theorem Frame.setStage (h : Frame s s' (some c.id)) (hs : s.Inv) (hc : s.calls.find? c.id = some c)
    (hcalls : s'.calls = s.calls) (hserial : s'.agents.Serial) (hkept : Kept s'.log)
    (hstage : s'.StageOk { c with stage }) : (s'.setStage c.id stage).Inv := by
  have hframe : Frame s (s'.setStage c.id stage) (some c.id) := ⟨h.live, h.refs, h.held, h.agent⟩
  refine hframe.inv hs hserial hkept fun c' hc' => ?_
  simp only [Daemon.setStage, Table.mem_updateWhere] at hc'
  obtain ⟨old, hold, rfl⟩ := hc'
  rw [hcalls] at hold
  by_cases hid : old.id = c.id
  · obtain rfl : old = c := Option.some.inj ((Table.find?_of_mem hold).symm.trans (hid ▸ hc))
    simp only [decide_true, if_true]
    exact Or.inr hstage
  · simp only [hid, decide_false, Bool.false_eq_true, if_false]
    exact Or.inl ⟨fun heq => hid (Option.some.inj heq), hold⟩

/-- A call has been answered, and has let go of its lock. -/
theorem Frame.finish (h : Frame s s' (some c.id)) (hs : s.Inv) (hcalls : s'.calls = s.calls)
    (hserial : s'.agents.Serial) (hkept : Kept s'.log) : (s'.finish c.id).Inv := by
  have hframe : Frame s (s'.finish c.id) (some c.id) := {
    live := h.live
    refs := fun r hr hid => List.mem_filter.mpr ⟨h.refs r hr hid, by simpa using hid⟩
    held := fun r hr hid => List.mem_filter.mpr ⟨h.held r hr hid, by simpa using hid⟩
    agent := h.agent }
  refine hframe.inv hs hserial.leave hkept fun c' hc' => Or.inl ?_
  obtain ⟨hmem, hid⟩ := Table.mem_deleteWhere.mp hc'
  exact ⟨by simpa using hid, hcalls ▸ hmem⟩

/-- Tickets that expire leave the calls. -/
theorem live_expire (s : Daemon) : Frame s { s with live := s.live.expire s.now } who :=
  { frame_refl s with live := fun _ _ _ h t ht => h t (Live.get_of_expire ht) }

/-- To look a token up keeps the invariant. -/
theorem inv_lookup (hs : s.Inv) (hc : s.calls.find? c.id = some c) : (s.lookup c).Inv := by
  have hframe : Frame s { s with live := s.live.expire s.now } (some c.id) := live_expire s
  unfold lookup
  dsimp only
  split
  · next hnone =>
      refine hframe.setStage hs hc rfl hs.serial hs.kept ⟨fun t ht => ?_, nofun⟩
      rwa [ht] at hnone
  · next agent hsome =>
      refine hframe.setStage hs hc rfl hs.serial hs.kept fun t ht => ?_
      rwa [ht] at hsome

theorem refs_pruned (s : Daemon) : s.pruned.refs = s.agents.refs := by
  unfold pruned
  split <;> rfl

theorem held_pruned (s : Daemon) : s.pruned.held = s.agents.held := by
  unfold pruned
  split <;> rfl

theorem serial_pruned (hs : s.agents.Serial) : s.pruned.Serial := by
  unfold pruned
  split
  · exact hs.prune _
  · exact hs

/-- So does fetching the agent's lock. -/
theorem inv_fetch (hs : s.Inv) (hc : s.calls.find? c.id = some c) (hok : s.live.Attests c.token (some agent))
    (halone : s.pruned.Alone agent) : (s.fetch c agent).Inv := by
  have hframe : Frame s { s with agents := s.pruned.fetch c.id agent } (some c.id) := { frame_refl s with
    refs := fun r hr _ => Locks.refs_subset_fetch (s.refs_pruned.symm ▸ hr)
    held := fun r hr _ => by rwa [Locks.held_fetch, held_pruned] }
  exact hframe.setStage hs hc rfl ((serial_pruned hs.serial).fetch halone) hs.kept ⟨Locks.mem_refs_fetch, rfl, hok⟩

/-- So does entering it. -/
theorem inv_enter {lock : Locks.Ref Agent Nat} (hs : s.Inv) (hc : s.calls.find? c.id = some c)
    (hlock : lock ∈ s.agents.refs) (hclient : lock.client = c.id) (hok : s.live.Attests c.token (some lock.key)) :
    (s.enter c lock).Inv := by
  unfold enter
  cases hacquire : s.agents.acquire lock with
  | none => exact hs
  | some agents =>
      have hserial := hs.serial.acquire hlock hacquire
      obtain ⟨rfl, -⟩ := Locks.acquire_eq_some hacquire
      have hframe : Frame s { s with agents := { s.agents with held := lock :: s.agents.held } } (some c.id) :=
        { frame_refl s with held := fun r hr _ => List.mem_cons_of_mem _ hr }
      refine hframe.setStage hs hc rfl hserial hs.kept ⟨hok, fun a ha => ?_⟩
      exact ⟨lock, List.mem_cons_self, hclient, Option.some.inj ha⟩

/-- So does an admission. -/
theorem inv_admit {attested : Option Agent} (hs : s.Inv) (hc : s.calls.find? c.id = some c)
    (hok : s.live.Attests c.token attested) (hin : ∀ a, attested = some a → s.Inside c.id a) :
    (s.admitOp found c).Inv := by
  have hframe : Frame s { s with live := s.live.expire s.now } (some c.id) := live_expire s
  unfold admitOp
  dsimp only
  split
  · exact hframe.finish hs rfl hs.serial hs.kept
  · next p hresolve =>
      obtain ⟨t, ht, hticket, hscope⟩ := resolve_attested hresolve
      have hattested : p.attested = attested := hticket.trans (hok t (Live.get_of_expire ht))
      split
      · exact hframe.finish hs rfl hs.serial hs.kept
      · next hrun =>
          refine hframe.setStage hs hc rfl hs.serial hs.kept fun a ha => ?_
          obtain ⟨_, _, _, hne, -⟩ | ⟨-, hnamed⟩ := authorize_eq_ok hrun
          · cases hne
          · exact ⟨hin a (hattested.symm.trans ha), (hscope a ha).1, nofun, hnamed (hscope a ha).2 a ha⟩
      · next a task hbind =>
          obtain ⟨_, reference, _, heq, ha, hfree, htask, htarget⟩ | ⟨hne, -⟩ := authorize_eq_ok hbind
          · cases heq
            refine hframe.setStage hs hc rfl hs.serial hs.kept ⟨hin a (hattested.symm.trans ha), ?_, ?_⟩
            · exact (hscope a ha).1.symm.trans hfree
            · exact ⟨reference, htask, htarget⟩
          · cases hne

/-- A subagent that is bound to no task has named none in a write. -/
theorem Accounted.clean (h : s.Accounted agent) (hfree : agentBinding s.bindings agent = none) : Clean s.log agent := by
  rwa [Accounted, hfree] at h

/-- So does binding an agent to the task it names. -/
theorem inv_bind {task : Int} {judged : Tasks} (hs : s.Inv) (hc : s.calls.find? c.id = some c)
    (hin : s.Inside c.id agent) (hfree : agentBinding s.bindings agent = none)
    (hnamed : ∃ reference, c.request.target = .task reference ∧ judged.resolveRef reference = some task) :
    (s.bind found c agent task judged).Inv := by
  have hfinish : (s.finish c.id).Inv := (frame_refl s).finish hs rfl hs.serial hs.kept
  have hclean := (hs.accounted agent).clean hfree
  unfold bind
  split
  swap
  · exact hfinish
  split
  · next bindings _ hbind =>
      obtain ⟨-, -, hbindings⟩ | ⟨-, old, hold, -⟩ := bindAgent_eq_ok hbind
      swap
      · cases hfree.symm.trans hold
      have hbound : agentBinding bindings agent = some task := (hbindings agent).trans (if_pos rfl)
      have hframe : Frame s { s with bindings } (some c.id) := { frame_refl s with
        agent := fun a => by
          by_cases ha : agent = a
          · subst ha
            refine Or.inr ⟨⟨c.id, rfl, hin⟩, ?_⟩
            rw [Accounted, hbound]
            exact hclean.under task
          · exact Or.inl ⟨(hbindings a).trans (if_neg ha), fun _ _ _ h => h⟩ }
      refine hframe.setStage hs hc rfl hs.serial hs.kept fun a ha => ?_
      obtain rfl := Option.some.inj ha
      refine ⟨hin, hbound.symm, fun t ht => ⟨ht, hclean⟩, fun reference target htask htarget => ?_⟩
      obtain ⟨_, htask', htarget'⟩ := hnamed
      cases htask.symm.trans htask'
      cases htarget.symm.trans htarget'
      exact ⟨task, rfl, judged.inScope_self task⟩
  · next hbind =>
      obtain ⟨hne, -⟩ | ⟨-, old, hold, -⟩ := bindAgent_eq_ok hbind
      · cases hne
      · cases hfree.symm.trans hold
  · exact hfinish
  · exact hfinish

/-- An op that goes through in a subagent's name is on what is in the scope of the task that it is bound to. -/
theorem inv_ran {op : Admitted} {write : Option Int} {tasks : Tasks} (hs : s.Inv)
    (hok : ∀ agent, op.agent = some agent → s.Inside c.id agent ∧ op.scope = agentBinding s.bindings agent ∧
      ∀ target, write = some target → ∃ scope, op.scope = some scope ∧ op.judged.inScope scope target = true) :
    (s.ran c op write tasks).Inv := by
  unfold ran
  cases hagent : op.agent with
  | none => exact Frame.finish { frame_refl s with } hs rfl hs.serial hs.kept
  | some agent =>
      obtain ⟨hin, hscope, hwrite⟩ := hok agent hagent
      refine Frame.finish { frame_refl s with agent := fun a => ?_ } hs rfl hs.serial hs.kept
      by_cases ha : agent = a
      · subst ha
        refine Or.inr ⟨⟨c.id, rfl, hin⟩, ?_⟩
        have haccounted := hs.accounted agent
        unfold Accounted at haccounted ⊢
        dsimp only [Option.map_some, Option.toList_some, List.cons_append, List.nil_append]
        rw [← hscope] at haccounted ⊢
        cases hop : op.scope with
        | none =>
            rw [hop] at haccounted
            rintro scope write' judged hran
            obtain heq | hold := List.mem_cons.mp hran
            · cases heq
              refine ⟨rfl, Option.eq_none_iff_forall_not_mem.mpr fun target htarget => ?_⟩
              obtain ⟨scope, hsome, -⟩ := hwrite target htarget
              cases hop.symm.trans hsome
            · exact haccounted scope write' judged hold
        | some task =>
            rw [hop] at haccounted
            rintro scope target judged hran
            obtain heq | hold := List.mem_cons.mp hran
            · cases heq
              obtain ⟨scope, hsome, hinScope⟩ := hwrite target rfl
              cases hop.symm.trans hsome
              exact hinScope
            · exact haccounted scope target judged hold
      · refine Or.inl ⟨rfl, fun scope write' judged hran => ?_⟩
        obtain heq | hold := List.mem_cons.mp hran
        · cases heq
          exact absurd rfl ha
        · exact hold

/-- So does an operation that fails, whose binding is taken back. -/
theorem inv_failed {op : Admitted} (hs : s.Inv) (hc : s.calls.find? c.id = some c)
    (hok : ∀ agent, op.agent = some agent → s.Inside c.id agent ∧ ∀ task, op.fresh = some task →
      agentBinding s.bindings agent = some task ∧ Clean s.log agent) : (s.failed c op).Inv := by
  unfold failed
  split
  · next agent task hagent hfresh =>
      obtain ⟨hin, hbound⟩ := hok agent hagent
      exact (frame_refl s).setStage hs hc rfl hs.serial hs.kept ⟨hin, hbound task hfresh⟩
  · exact (frame_refl s).finish hs rfl hs.serial hs.kept

/-- So does an operation that is dispatched. -/
theorem inv_dispatch {op : Admitted} (hs : s.Inv) (hc : s.calls.find? c.id = some c)
    (hok : s.StageOk { c with stage := .admitted op })
    (happly : ∀ reference target agent, c.request.target = .task reference → op.agent = some agent →
      s.tasks.resolveRef reference = some target → op.judged.resolveRef reference = some target) :
    (s.dispatch found c op).Inv := by
  have hfailed : (s.failed c op).Inv := inv_failed hs hc fun agent hagent => by
    obtain ⟨hin, hscope, hfresh, -⟩ := hok agent hagent
    exact ⟨hin, fun task htask => ⟨hscope.symm.trans (hfresh task htask).1, (hfresh task htask).2⟩⟩
  have hfree : (s.ran c op none found.tasks).Inv := inv_ran hs fun agent hagent =>
    ⟨(hok agent hagent).1, (hok agent hagent).2.1, nofun⟩
  unfold dispatch
  split
  swap
  · exact hfailed
  split
  · next reference htask =>
      split
      · exact hfailed
      · next target htarget =>
          refine inv_ran hs fun agent hagent => ?_
          obtain ⟨hin, hscope, -, hnamed⟩ := hok agent hagent
          refine ⟨hin, hscope, fun _ heq => ?_⟩
          cases heq
          exact hnamed reference target htask (happly reference target agent htask hagent htarget)
  · exact hfree
  · exact hfree

/-- So does taking a binding back. -/
theorem inv_undo {task : Int} (hs : s.Inv) (hin : s.Inside c.id agent)
    (hbound : agentBinding s.bindings agent = some task) (hclean : Clean s.log agent) :
    (s.undo found c agent task).Inv := by
  rw [undo, if_pos hbound]
  split
  swap
  · exact (frame_refl s).finish hs rfl hs.serial hs.kept
  refine Frame.finish { frame_refl s with agent := fun a => ?_ } hs rfl hs.serial
    ⟨fun write judged hran => Option.some_ne_none task (hclean _ _ _ hran).1, hs.kept⟩
  have hlog : ∀ scope write judged, .ran a scope write judged ∈ Event.unbound agent task :: s.log →
      .ran a scope write judged ∈ s.log := fun scope write judged hran =>
    (List.mem_cons.mp hran).resolve_left nofun
  by_cases ha : agent = a
  · subst ha
    have hfree : agentBinding (unbindAgent s.bindings agent task) agent = none := by
      rw [agentBinding_unbindAgent, if_pos ⟨rfl, hbound⟩]
    refine Or.inr ⟨⟨c.id, rfl, hin⟩, ?_⟩
    rw [Accounted, hfree]
    exact fun scope write judged hran => hclean scope write judged (hlog scope write judged hran)
  · refine Or.inl ⟨?_, hlog⟩
    rw [agentBinding_unbindAgent, if_neg fun h => ha h.1]

/-- The call that a step moves, where the step is apart from what the others do. -/
theorem inv_advance (hs : s.Inv) (hc : s.calls.find? c.id = some c) (hapart : s.apart (.advance c.id found) = true) :
    (s.advance found c).Inv := by
  have hok := hs.stage c (Table.mem_of_find? hc)
  unfold apart at hapart
  simp only [hc] at hapart
  unfold StageOk at hok
  unfold advance
  cases hstage : c.stage with
  | started => exact inv_lookup hs hc
  | looked agent =>
      rw [hstage] at hok hapart
      exact inv_fetch hs hc hok (of_decide_eq_true hapart)
  | waiting lock =>
      rw [hstage] at hok
      exact inv_enter hs hc hok.1 hok.2.1 hok.2.2
  | entered attested =>
      rw [hstage] at hok
      exact inv_admit hs hc hok.1 hok.2
  | binding agent task judged =>
      rw [hstage] at hok
      exact inv_bind hs hc hok.1 hok.2.1 hok.2.2
  | admitted op =>
      rw [hstage] at hok hapart
      refine inv_dispatch hs hc hok fun reference target agent htask hagent htarget => ?_
      dsimp only at hapart
      rw [htask] at hapart
      simpa [hagent, htarget] using hapart
  | undoing agent task =>
      rw [hstage] at hok
      exact inv_undo hs hok.1 hok.2.1 hok.2.2

/-- The invariant, after a step that is no call's. -/
theorem Frame.keeps (h : Frame s s' none) (hs : s.Inv) (hserial : s'.agents.Serial) (hlog : s'.log = s.log)
    (hcalls : s'.calls = s.calls) : s'.Inv :=
  h.inv hs hserial (hlog ▸ hs.kept) fun _ hc => Or.inl ⟨nofun, hcalls ▸ hc⟩

/-- So does a new ticket. -/
theorem inv_mint {token : Text} {ticket : Ticket} (hs : s.Inv) : (s.mint token ticket).Inv := by
  unfold mint
  split
  swap
  · exact hs
  next hdrawn =>
    have hother : ∀ c ∈ s.calls.rows, c.token ≠ token := by
      simpa using (Bool.and_eq_true_iff.mp hdrawn).2
    split
    · exact (live_expire s).keeps hs hs.serial rfl rfl
    · next hmint =>
        refine Frame.keeps { frame_refl s with live := fun c hc a h t ht => ?_ } hs hs.serial rfl rfl
        exact h t (Live.get_of_mint (hother c hc).symm hmint ht)

/-- So does forgetting a session. -/
theorem inv_forget {session : Text} {agentId : Option Text} (hs : s.Inv) : (s.forget session agentId).Inv := by
  unfold forget
  split
  · refine Frame.keeps { frame_refl s with } hs ?_ rfl rfl
    exact hs.serial.drop fun a => a.1 = session && agentId.all (· = a.2)
  · exact hs

/-- **Every step that is apart from the others keeps the invariant.** -/
theorem inv_next {step : Step} (hs : s.Inv) (hapart : s.apart step = true) : (s.next step).Inv := by
  cases step with
  | call id token request =>
      have hframe : Frame s (s.next (.call id token request)) none := { frame_refl s with }
      refine hframe.inv hs hs.serial hs.kept fun c hc => ?_
      obtain hold | rfl := Table.mem_insertOrIgnore hc
      · exact Or.inl ⟨nofun, hold⟩
      · exact Or.inr trivial
  | advance id found =>
      rw [next]
      cases hc : s.calls.find? id with
      | none => exact hs
      | some c =>
          obtain rfl := Table.key_of_find? hc
          exact inv_advance hs hc hapart
  | mint token ticket => exact inv_mint hs
  | release session agentId toolUseId =>
      refine Frame.keeps { frame_refl s with live := fun _ _ _ h t ht => ?_ } hs hs.serial rfl rfl
      exact h t (Live.get_of_release ht)
  | forget session agentId => exact inv_forget hs
  | tick ms => exact Frame.keeps { frame_refl s with } hs hs.serial rfl rfl
  | edit tasks => exact Frame.keeps { frame_refl s with } hs hs.serial rfl rfl

end Daemon

/-! ## every run -/

/-- A daemon as it starts: the bindings and the tasks are those of its database, and nothing else is left. -/
def Daemon.start (bindings : Bindings) (tasks : Tasks) : Daemon := { bindings, tasks }

/-- A daemon starts with the invariant. -/
theorem inv_start {bindings : Bindings} {tasks : Tasks} : (Daemon.start bindings tasks).Inv where
  serial := Locks.serial_empty
  stage _ hc := (List.not_mem_nil hc).elim
  accounted agent := by
    unfold Daemon.Accounted
    split <;> exact fun _ _ _ hran => (List.not_mem_nil hran).elim
  kept := trivial

/-- What a subagent's writes have named is in the scope of the task that it is bound to, or of any if they have named
nothing. -/
theorem Daemon.Accounted.oneTask {s : Daemon} {agent : Agent} (h : s.Accounted agent) : OneTask s.log agent := by
  unfold Daemon.Accounted at h
  split at h
  · exact ⟨0, h.under 0⟩
  · next task _ => exact ⟨task, h⟩

/-- What every run leaves whose steps are apart from the others. -/
theorem inv_run (bindings : Bindings) (tasks : Tasks) (steps : List Step)
    (hapart : EveryStep Daemon.next (fun s step => s.apart step = true) (.start bindings tasks) steps) :
    (run Daemon.next (.start bindings tasks) steps).Inv :=
  run_invariant_of_everyStep (fun _ _ hstep hs => Daemon.inv_next hs hstep) hapart inv_start

/-- **A worker never hops.** Whatever the calls, the harness and the others do between the steps of a call, where no
call is given a second lock of a subagent and no reference comes to name another task under way, every write of a
subagent's that names a task names one in the scope of one and the same task, and no binding is removed that a call
has gone through under. -/
theorem oneTask_run (bindings : Bindings) (tasks : Tasks) (steps : List Step)
    (hapart : EveryStep Daemon.next (fun s step => s.apart step = true) (.start bindings tasks) steps) (agent : Agent) :
    OneTask (run Daemon.next (.start bindings tasks) steps).log agent ∧
      Kept (run Daemon.next (.start bindings tasks) steps).log :=
  have hinv := inv_run bindings tasks steps hapart
  ⟨(hinv.accounted agent).oneTask, hinv.kept⟩

/-- **A binding accounts for what its subagent has done**, after every run whose steps are apart from the others: a
subagent that is bound to no task has written none, and one that is bound none out of its scope. -/
theorem accounted_run (bindings : Bindings) (tasks : Tasks) (steps : List Step)
    (hapart : EveryStep Daemon.next (fun s step => s.apart step = true) (.start bindings tasks) steps) (agent : Agent) :
    (run Daemon.next (.start bindings tasks) steps).Accounted agent :=
  (inv_run bindings tasks steps hapart).accounted agent

/-! ## a worker of two tasks -/

/-- Two tasks, `x` and `y`. -/
def twoTasks : Tasks where
  idForUid uid := if uid = "task:x".toList then some 1 else if uid = "task:y".toList then some 2 else none
  parent _ := none
  isFindingOf _ _ := false

/-- The ticket of a tool call of the worker `w` of the session `s`. -/
def ticketOf (toolUseId : String) : Ticket where
  session := "s".toList
  agentId := some "w".toList
  agentType := some "implementer".toList
  toolUseId := toolUseId.toList
  mintedBy := 1
  mintedAt := 0

def edits (reference : String) : Request := { permission := .taskWrite, target := .task reference.toList }

/-- A worker's call moves on, by so many steps that go through, or that fail. -/
def moves (id : Nat) (ok : Bool) (steps : Nat) : List Step :=
  List.replicate steps (.advance id {
    view := { minter := some (.coordinator, none), roleForAgentType := some .implementer, admitsLanding := false }
    ok := ok
    tasks := twoTasks })

/-- The worker's first write, to `x`, up to where it has bound the worker; and its second, of a ticket of its own. -/
def twoWrites (between : List Step) : List Step :=
  [.mint "t_1".toList (ticketOf "u1"), .call 1 "t_1".toList (edits "task:x")] ++ moves 1 true 5 ++ between ++
    [.mint "t_2".toList (ticketOf "u2"), .call 2 "t_2".toList (edits "task:x")]

/-- The worker `w` of the session `s`. -/
def worker : Agent := ("s".toList, "w".toList)

/-- A release of the first tool call, which takes no lock: the second write waits for the first. -/
def waits : List Step :=
  twoWrites [.release "s".toList none (some "u1".toList)] ++ moves 2 true 3 ++ moves 1 true 1 ++ moves 2 true 3

theorem oneTask_waits :
    OneTask (run Daemon.next (.start .empty twoTasks) waits).log worker ∧
      Kept (run Daemon.next (.start .empty twoTasks) waits).log :=
  oneTask_run .empty twoTasks waits (by decide +kernel) worker

theorem accounted_waits :
    agentBinding (run Daemon.next (.start .empty twoTasks) waits).bindings worker = some 1 ∧
      Under (run Daemon.next (.start .empty twoTasks) waits).log worker 1 := by
  have hbound : agentBinding (run Daemon.next (.start .empty twoTasks) waits).bindings worker = some 1 := by
    decide +kernel
  have haccounted := accounted_run .empty twoTasks waits (by decide +kernel) worker
  unfold Daemon.Accounted at haccounted
  rw [hbound] at haccounted
  exact ⟨hbound, haccounted⟩

/-- A release forgets the lock while the first write is under way: the second goes through beside it, the first fails
and undoes the binding, and the third write is to `y`. -/
def hops : List Step :=
  twoWrites [.release "s".toList (some "w".toList) none, .forget "s".toList (some "w".toList)] ++ moves 2 true 5 ++
    moves 1 false 1 ++ moves 1 true 1 ++ [.call 3 "t_2".toList (edits "task:y")] ++ moves 3 true 6

/-- Its worker has written two tasks, neither in the scope of the other, and lost the binding that it wrote the first
under. -/
theorem hops_released :
    ¬ OneTask (run Daemon.next (.start .empty twoTasks) hops).log worker ∧
      ¬ Kept (run Daemon.next (.start .empty twoTasks) hops).log := by
  have hlog : (run Daemon.next (.start .empty twoTasks) hops).log =
      [.ran worker (some 2) (some 2) twoTasks, .unbound worker 1, .ran worker (some 1) (some 1) twoTasks] := rfl
  have hscope : ∀ task target, twoTasks.inScope task target = true → target = task := by
    simp [Tasks.inScope, Tasks.inScopeFrom, MAX_SCOPE_DEPTH, twoTasks]
  rw [hlog]
  constructor
  · rintro ⟨task, hall⟩
    have hx := hscope task 1 (hall (some 1) 1 twoTasks (by simp))
    have hy := hscope task 2 (hall (some 2) 2 twoTasks (by simp))
    omega
  · rintro ⟨hkept, -⟩
    exact hkept (some 1) twoTasks List.mem_cons_self

end Jkb.Attested
