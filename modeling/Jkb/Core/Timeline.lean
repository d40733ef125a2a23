import Jkb.Core.AgentId
import Jkb.Pages
import Jkb.Table
import Mathlib.Data.List.Dedup
import Mathlib.Data.Prod.Lex

/-!
# Jkb.Core.Timeline

A session's timeline: what the transition logs, the claims, the reviews and the session registry say that it did.
Three logs are read a page at a time, with a test in the query that lets more rows through than are the session's;
`speaksFor` decides each row. A log that filled its read bounds the page, since it may hold more past its last row.
-/

namespace Jkb.Timeline

open Jkb.Text Jkb.Tx

/-- The most events of one page. -/
def pageCap : Nat := 500

/-- Which record an event came from; the order breaks ties at the same millisecond. -/
inductive Source where
  | session
  | claim
  | status
  | workflow
  | review
deriving Repr, DecidableEq

namespace Source

def asStr : Source → Text
  | session => "session".toList
  | claim => "claim".toList
  | status => "status".toList
  | workflow => "workflow".toList
  | review => "review".toList

/-- Its place in the tie-break order. -/
def rank : Source → Int
  | session => 0
  | claim => 1
  | status => 2
  | workflow => 3
  | review => 4

def parse (s : Text) : Option Source :=
  [session, claim, status, workflow, review].find? fun v => v.asStr = s

theorem rank_injective : Function.Injective rank := by
  intro a b h
  cases a <;> cases b <;> first | rfl | cases h

theorem parse_asStr (s : Source) : parse s.asStr = some s := by
  cases s <;> decide

instance : LinearOrder Source := .lift' rank rank_injective

end Source

/-- What orders and pages a timeline: the time, the source and the row id. -/
abbrev Key := Int ×ₗ Source ×ₗ Int

namespace Key

abbrev at_ (k : Key) : Int := (ofLex k).1

abbrev source (k : Key) : Source := (ofLex (ofLex k).2).1

abbrev id (k : Key) : Int := (ofLex (ofLex k).2).2

end Key

/-- One thing that happened, from one source. -/
structure Event where
  atMs : Int
  source : Source
  id : Int
  task : Option Text := none
  event : Text
  src : Option Text := none
  dst : Option Text := none
  actor : Option Text := none
  role : Option Text := none
  reason : Option Text := none
  detail : Option Text := none
  refused : Bool := false
deriving Repr, DecidableEq

def Event.key (e : Event) : Key := toLex (e.atMs, toLex (e.source, e.id))

/-- A cursor, as a page's `next` carries it. -/
def cursorOf (k : Key) : Text := showInt k.at_ ++ '.' :: (k.source.asStr ++ '.' :: showInt k.id)

def parseCursor (s : Text) : Except Fmt Key :=
  let key : Option Key := do
    let (at_, rest) ← splitOnce '.' s
    let (source, id) ← splitOnce '.' rest
    return toLex (← parseI64 at_, toLex (← Source.parse source, ← parseI64 id))
  match key with
  | some k => .ok k
  | none => .error ["`", .text (String.ofList s), "` is not a timeline cursor (a page's `next`)"]

/-! ## who an id speaks for -/

/-- What an id names, as far as attribution goes. -/
inductive Who where
  | session (s : Text)
  | agent (id : Text)
  | nobody
deriving Repr, DecidableEq

/-- An RBAC principal. -/
def principal (actor : Text) : Who :=
  match stripPrefix "session:".toList actor with
  | some s => if AgentId.isSessionId s then .session s else .nobody
  | none =>
      match splitOnce '@' actor with
      | some (_, agent) => if agent ≠ [] then .agent agent else .nobody
      | none => .nobody

/-- A claimant, or the agent of a transition. -/
def claimant (raw : Text) : Who :=
  match AgentId.parse raw with
  | .session _ (some s) _ => .session s
  | .agent id => .agent id
  | _ => .nobody

/-- A row of `agent_bindings`. -/
structure Binding where
  session : Text
  agentId : Text
  itemId : Int
deriving Repr, DecidableEq

/-- The table `agent_bindings`. -/
abbrev Bindings := Table fun b : Binding => (b.session, b.agentId)

/-- The sessions that a name speaks for. -/
def Bindings.speaksFor (bindings : Bindings) : Who → List Text
  | .session s => [s]
  | .agent a => ((bindings.rows.filter (·.agentId = a)).map (·.session)).dedup
  | .nobody => []

/-- The sessions that an id speaks for, in the vocabulary of its source. -/
def speaksFor (bindings : Bindings) (source : Source) (actor : Text) : List Text :=
  bindings.speaksFor <|
    match source with
    | .status | .claim => claimant actor
    | .workflow | .review => principal actor
    | .session => .session actor

/-! ## the sources -/

/-- What SQLite reads of a column: a time in Unix milliseconds, and whether evidence says that an event was
refused. -/
structure Ext where
  ms : Text → Option Int
  refused : Option Text → Bool

/-- What is read of a row of `items`. -/
structure Item where
  id : Int
  uid : Text
  claimantId : Option Text
  claimedAt : Option Text
deriving Repr, DecidableEq

/-- A row of `task_transitions`. -/
structure StatusRow where
  id : Int
  itemId : Int
  at_ : Text
  event : Text
  fromStatus : Option Text
  toStatus : Text
  agentId : Option Text
  branch : Option Text
  onto : Option Text
  prNumber : Option Int
  evidence : Option Text
deriving Repr, DecidableEq

/-- A row of `workflow_transitions`. -/
structure WorkflowRow where
  id : Int
  itemId : Int
  at_ : Text
  event : Text
  fromPhase : Option Text
  toPhase : Text
  role : Text
  actor : Text
  reason : Option Text
  spec : Option Text
deriving Repr, DecidableEq

/-- A row of `reviews`. -/
structure ReviewRow where
  id : Int
  itemId : Int
  kind : Text
  ns : Option Text
  actor : Text
  at_ : Text
deriving Repr, DecidableEq

/-- A row of `review_rounds`. -/
structure Round where
  id : Int
  ns : Text
  actor : Text
  recordedAt : Text
deriving Repr, DecidableEq

/-- A row of `review_round_findings`. -/
structure Finding where
  roundId : Int
  itemId : Int
  mustFix : Bool
deriving Repr, DecidableEq

/-- A row of `claude_sessions`: one process's hold on a session. -/
structure HolderRow where
  session : Text
  pid : Text
  inst : Text
  startedAt : Option Int
  startSource : Option Text
  seenAt : Int
  endedAt : Option Int
  endReason : Option Text
deriving Repr, DecidableEq

structure Store where
  items : Table fun i : Item => i.id
  taskTransitions : Table fun t : StatusRow => t.id
  workflowTransitions : Table fun w : WorkflowRow => w.id
  reviews : Table fun v : ReviewRow => v.id
  rounds : Table fun r : Round => r.ns
  findings : List Finding
  bindings : Bindings
  sessions : Table fun h : HolderRow => (h.session, h.pid, h.inst)

/-- One source of a timeline's events, as its query joins it: a row's id, its time, who acted and the event. -/
structure Log (R : Type) where
  source : Source
  rows : List R
  id : R → Int
  at_ : R → Option Int
  actor : R → Option Text
  event : Int → R → Event

section Model

variable (lib : Ext) (s : Store)

/-- The rows of a table whose item there is, each with its item's uid. -/
def join {R : Type} (rows : List R) (itemId : R → Int) : List (R × Text) :=
  rows.filterMap fun r => (s.items.find? (itemId r)).map fun i => (r, i.uid)

/-- The task lifecycle log. -/
def statusLog : Log (StatusRow × Text) where
  source := .status
  rows := join s s.taskTransitions.rows (·.itemId)
  id r := r.1.id
  at_ r := lib.ms r.1.at_
  actor r := r.1.agentId
  event at_ r :=
    let labels := (r.1.branch.map ("branch ".toList ++ ·)).toList ++ (r.1.onto.map ("onto ".toList ++ ·)).toList ++
      (r.1.prNumber.map ("PR #".toList ++ showInt ·)).toList
    { atMs := at_, source := .status, id := r.1.id, event := r.1.event, task := some r.2, src := r.1.fromStatus
      dst := some r.1.toStatus, actor := r.1.agentId
      detail := if labels ≠ [] then some (", ".toList.intercalate labels) else none
      refused := lib.refused r.1.evidence }

/-- The workflow log. -/
def workflowLog : Log (WorkflowRow × Text) where
  source := .workflow
  rows := join s s.workflowTransitions.rows (·.itemId)
  id r := r.1.id
  at_ r := lib.ms r.1.at_
  actor r := some r.1.actor
  event at_ r :=
    { atMs := at_, source := .workflow, id := r.1.id, event := r.1.event, task := some r.2, src := r.1.fromPhase
      dst := some r.1.toPhase, role := some r.1.role, actor := some r.1.actor, reason := r.1.reason
      detail := if r.1.spec.isSome then some ("strategy ".toList ++ r.1.reason.getD []) else none }

/-- The round that a review recorded. -/
def roundOf (v : ReviewRow) : Option Round :=
  if v.kind = "recorded".toList then v.ns.bind s.rounds.find? else none

/-- Who a review names: its round's actor, or its own. -/
def reviewActor (v : ReviewRow) : Text := ((roundOf s v).map (·.actor)).getD v.actor

/-- The reviews. -/
def reviewLog : Log (ReviewRow × Text) where
  source := .review
  rows := join s s.reviews.rows (·.itemId)
  id r := r.1.id
  at_ r := ((roundOf s r.1).bind fun rr => lib.ms rr.recordedAt).or (lib.ms r.1.at_)
  actor r := some (reviewActor s r.1)
  event at_ r :=
    { atMs := at_, source := .review, id := r.1.id, event := r.1.kind, task := some r.2
      actor := some (reviewActor s r.1)
      detail :=
        match roundOf s r.1 with
        | some rr => some (r.1.ns.getD [] ++ ": ".toList ++
            showNat (s.findings.countP fun f => f.roundId = rr.id ∧ f.mustFix) ++ " must-fix".toList)
        | none => r.1.ns }

/-- A claim that is held now. -/
structure Held where
  id : Int
  uid : Text
  owner : Text
  atMs : Option Int
deriving Repr, DecidableEq

def heldClaims : List Held :=
  (s.items.rows.filterMap fun i => i.claimantId.map fun owner =>
    { id := i.id, uid := i.uid, owner, atMs := i.claimedAt.bind lib.ms : Held }).insertionSort fun a b => a.id ≤ b.id

def claimEvent (h : Held) : Option Event :=
  h.atMs.map fun at_ =>
    { atMs := at_, source := .claim, id := h.id, event := "claimed".toList, task := some h.uid, actor := some h.owner }

/-- Every process that has held a session, most recently seen first. -/
def holders (session : Text) : List HolderRow :=
  (s.sessions.rows.filter (·.session = session)).insertionSort fun a b =>
    b.seenAt < a.seenAt ∨ (b.seenAt = a.seenAt ∧ (a.pid < b.pid ∨ (a.pid = b.pid ∧ a.inst ≤ b.inst)))

/-- The start and the end that a registry row holds, where `i` is its place. -/
def holderEvents (row : HolderRow) (i : Nat) : List Event :=
  (row.startedAt.map fun at_ =>
    { atMs := at_, source := .session, id := (i : Int) * 2, event := "start".toList, actor := some row.session
      detail := row.startSource : Event }).toList ++
  (row.endedAt.map fun at_ =>
    { atMs := at_, source := .session, id := (i : Int) * 2 + 1, event := "end".toList, actor := some row.session
      detail := row.endReason : Event }).toList

/-- A session's registry rows as events, numbered in the order of their keys. -/
def registryEvents (rows : List HolderRow) : List Event :=
  ((rows.insertionSort fun a b => a.pid < b.pid ∨ (a.pid = b.pid ∧ a.inst ≤ b.inst)).zipIdx).flatMap fun r =>
    holderEvents r.1 r.2

/-! ## what a query reads -/

/-- The session test on a principal column. -/
def minePrincipal (session : Text) (actor : Option Text) : Bool :=
  actor.any fun a => a = "session:".toList ++ session ||
    ((splitOnce '@' a).any fun p => s.bindings.rows.any fun b => b.session = session && b.agentId = p.2)

/-- `LIKE 'session:%'`. -/
def likeSession (t : Text) : Bool := (t.take 8).map Char.toLower = "session:".toList

/-- The session test on a claimant column. -/
def mineClaimant (session : Text) (actor : Option Text) : Bool :=
  actor.any fun a => (likeSession a && decide ('@' :: (session ++ [':']) <:+: a)) ||
    s.bindings.rows.any fun b => b.session = session && "agent:".toList ++ b.agentId = a

/-- The session test of a source. -/
def mine (session : Text) (source : Source) (actor : Option Text) : Bool :=
  match source with
  | .status => mineClaimant s session actor
  | _ => minePrincipal s session actor

/-- What a log's query reads for a session: its rows that have a time and pass the test, after the cursor, in the order
of time and id, at most `limit`. -/
def Log.read {R : Type} (log : Log R) (session : Text) (after : Option Key) (limit : Nat) : List Event :=
  (((((log.rows.filter fun r => mine s session log.source (log.actor r)).filterMap fun r =>
      (log.at_ r).map (·, r)).filter fun p => after.all fun c =>
        c.at_ < p.1 ∨ (p.1 = c.at_ ∧ (c.source.rank < log.source.rank ∨
          (log.source.rank = c.source.rank ∧ c.id < log.id p.2)))).insertionSort fun p q =>
            p.1 < q.1 ∨ (p.1 = q.1 ∧ log.id p.2 ≤ log.id q.2)).take limit).map fun p => log.event p.1 p.2

/-! ## a page -/

/-- Whether an event is a session's. -/
def ours (session : Text) (source : Source) (e : Event) : Bool :=
  e.actor.any fun a => (speaksFor s.bindings source a).any (· = session)

/-- A read that is full bounds the page at its last row. -/
def bounded (bound : Option Key) (read : List Event) : Option Key :=
  if pageCap + 1 ≤ read.length then
    match read.getLast? with
    | some last => some ((bound.map (min · last.key)).getD last.key)
    | none => bound
  else bound

/-- Put a log's read in. -/
def addRead (session : Text) (r : List Event × Option Key) (read : Source × List Event) :
    List Event × Option Key :=
  (r.1 ++ read.2.filter (ours s session read.1), bounded r.2 read.2)

/-- One page of a session's events after a key, and the cursor for the next page when there is one. -/
def sessionPage (session : Text) (after : Option Key) : List Event × Option Text :=
  let cap := pageCap + 1
  let (logged, bound) := [(Source.status, (statusLog lib s).read s session after cap),
    (Source.workflow, (workflowLog lib s).read s session after cap),
    (Source.review, (reviewLog lib s).read s session after cap)].foldl (addRead s session) ([], none)
  let past (e : Event) : Bool := after.all (· < e.key)
  let merged := logged ++
    ((heldClaims lib s).filterMap claimEvent).filter (fun e => ours s session .claim e && past e) ++
    (registryEvents (holders s session)).filter past
  let sorted := merged.insertionSort fun a b => a.key ≤ b.key
  let found := sorted.filter fun e => bound.all (e.key ≤ ·)
  let page := found.take pageCap
  (page, if bound.isSome ∨ pageCap < found.length then
    ((page.getLast?.map Event.key).or bound).map cursorOf else none)

/-- The events of `timeline.session`: one page after a cursor. -/
def sessionEvents (session : Text) (after : Option Text) : Except Fmt (List Event × Option Text) :=
  if AgentId.isSessionId session then
    match after with
    | some c => (parseCursor c).map fun k => sessionPage lib s session (some k)
    | none => .ok (sessionPage lib s session none)
  else .error ["`", .text (String.ofList session), "` is not a Claude Code session id"]

end Model

end Jkb.Timeline
