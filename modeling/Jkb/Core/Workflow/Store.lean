import Jkb.Core.Reviews
import Jkb.Core.Workflow.Strategy

/-!
# Jkb.Core.Workflow.Store

A task's workflow in the database: the log, the strategy it runs, the facts its guards read, and the ways it
moves. The history is append-only: the current phase is the latest row's, the current strategy that of the
latest row carrying one.

A verdict is taken on the newest round recorded for the task, if it is newer than every round the task had
when it last moved into review. A round that was snapshotted for another task before that, and recorded for
this one after it, is newer in that sense too; `verdict_after_submission` is about the runs that have no such
recording.
-/

namespace Jkb.Workflow

open Jkb.Fsm Jkb.Text Jkb.Roles Jkb.Reviews
open Jkb.Query (Sqlite)
open Jkb.Rbac (Decision)

/-! ## rounds -/

/-- Whether the newest `n` rounds all found must-fixes in a shared area. -/
def repeated (rounds : List Round) (n : Nat) (scope : AreaScope) : Bool :=
  let key (a : Text) : Text :=
    match scope with
    | .file => a
    | .directory => ((rsplitOnce (· = '/') a).map (·.1)).getD []
  if n < 2 ∨ rounds.length < n then false
  else
    match rounds.drop (rounds.length - n) with
    | [] => false
    | first :: rest =>
        (first :: rest).all (fun r => r.mustFix ≠ 0) &&
          (first.areas.map key).any fun a => rest.all fun r => a ∈ r.areas.map key

/-! ## the tables -/

/-- A row of `workflow_strategies`. What its stored text reads as may be an error: a newer version may have
written it. -/
structure Definition where
  name : String
  version : Nat
  spec : Except Fmt StrategySpec
  describe : Text

/-- A row of `workflow_transitions`. -/
structure WorkflowRow where
  id : Int
  itemId : Int
  event : String
  fromPhase : Option String
  toPhase : String
  role : String
  actor : Text
  roundMark : Option Int
  reason : Option Text
  spec : Option StrategySpec
  evidence : Option (List (String × String))
deriving Repr, DecidableEq

/-- What a workflow reads and writes. Whether a landing speaks for a task is the lifecycle's to say. -/
structure Store where
  reviews : Reviews.Store
  landed : Int → Bool
  strategies : List Definition
  log : AutoTable fun r : WorkflowRow => r.id
  grants : Grants

/-- The rounds recorded against a task, oldest first. -/
def rounds (s : Reviews.Store) (task : Int) : List Round := roundsIn s (state s task).namespaces

/-- A task's workflow history, oldest first. -/
def history (s : Store) (task : Int) : List WorkflowRow := s.log.rows.filter fun r => r.itemId = task

/-! ## strategies -/

/-- The definition that, when there is one, replaces the default preset. -/
def DEFAULT_DEFINITION : String := "default"

/-- The longest description accepted, in characters. -/
def MAX_DESCRIBE_CHARS : Nat := 500

def validateDescribe (describe : Text) : Except Fmt Unit :=
  if trim describe = [] ∨ MAX_DESCRIBE_CHARS < describe.length then
    .error ["a description of 1 to ", MAX_DESCRIBE_CHARS, " characters"]
  else .ok ()

/-- Read a stored strategy, and refuse one that does not validate. -/
def fromStored (stored : Except Fmt StrategySpec) : Except Fmt StrategySpec := do
  let spec ← stored
  spec.validate
  return spec

/-- Define, or redefine, a strategy: a new version of it. -/
def define (s : Store) (name : String) (describe : Text) (spec : StrategySpec) :
    Except Fmt (Store × Nat) := do
  if name = "" ∨ 64 < name.utf8ByteSize ∨ ¬ name.toList.all fun c => c.isAlphanum || c = '-' || c = '_' then
    .error ["a strategy name of 1 to 64 letters, digits, `-` and `_` (got `", name, "`)"]
  if (preset name).isSome then
    .error ["`", name, "` is a preset; define a strategy under another name (`--from ", name,
      "` starts from it)"]
  validateDescribe describe
  spec.validate
  let version := ((s.strategies.filter (·.name = name)).map (·.version)).foldl max 0 + 1
  return ({ s with strategies := s.strategies ++ [⟨name, version, .ok spec, describe⟩] }, version)

/-- What a name resolves to: the newest version of a definition, or a preset. -/
def resolveStrategy (s : Store) (name : String) : Except Fmt (String × StrategySpec) :=
  match ((s.strategies.filter (·.name = name)).insertionSort fun a b => b.version ≤ a.version).head? with
  | some d => (fromStored d.spec).map fun spec => (name ++ "@" ++ toString d.version, spec)
  | none =>
      match preset name with
      | some spec => .ok (name, spec)
      | none => .error ["no strategy `", name, "` (presets: ", ", ".intercalate (PRESETS.map (·.name)),
          "; `jkb workflow strategies` lists definitions)"]

/-- The strategy a new task runs. -/
def defaultStrategy (s : Store) : Except Fmt (String × StrategySpec) :=
  resolveStrategy s
    (if s.strategies.any (·.name = DEFAULT_DEFINITION) then DEFAULT_DEFINITION else DEFAULT_PRESET)

/-! ## where a workflow stands -/

/-- A task's phase, by name: the latest row's, or `design`. -/
def currentPhaseName (s : Store) (task : Int) : String :=
  ((history s task).getLast?.map (·.toPhase)).getD Phase.design.name

/-- Where a task's workflow stands. -/
structure Current where
  phase : Phase
  spec : StrategySpec
  source : Text
  history : List WorkflowRow

/-- Where a task's workflow stands. -/
def current (s : Store) (task : Int) : Except Fmt Current :=
  match Phase.parse (currentPhaseName s task) with
  | none => .error ["an unknown workflow phase `", currentPhaseName s task, "`"]
  | some phase =>
      match (history s task).reverse.findSome? fun r => r.spec.map fun spec => (spec, r.reason.getD []) with
      | some (spec, source) =>
          (fromStored (.ok spec)).map fun spec => { phase, spec, source, history := history s task }
      | none =>
          (defaultStrategy s).map fun (name, spec) =>
            { phase, spec, source := ("default:" ++ name).toList, history := history s task }

/-- Whether a row of the history pinned the strategy. -/
def Current.pinned (c : Current) : Bool := c.history.any fun r => r.spec.isSome

/-- Who is acting: the roles held, and the principal to record. -/
structure Actor where
  roles : List Role
  principal : Text
deriving Repr, DecidableEq

/-- The operator. -/
def Actor.operator : Actor := ⟨[.operator], "operator".toList⟩

def Actor.roleLabel (a : Actor) : String := ",".intercalate (a.roles.map Role.asStr)

/-- The mark on the row that last took a task into review. -/
def enteredReview (history : List WorkflowRow) : Option Int :=
  (history.reverse.find? fun r =>
    r.toPhase = Phase.review.name ∧ r.fromPhase ≠ some Phase.review.name).map fun r => r.roundMark.getD 0

/-- Gather the facts that a task's guards read. -/
def observeFacts (s : Store) (task : Int) (current : Current) : Except Fmt WorkflowFacts :=
  match s.reviews.base.item? task with
  | none => .error ["task ", task]
  | some item =>
      let newest := (rounds s.reviews task).getLast?
      .ok {
        phase := current.phase
        taskStatus := item.status.getD .«open»
        landed := .ofBool (s.landed task)
        newRound :=
          match enteredReview current.history, newest with
          | some mark, some r => .ofBool (mark < r.filed)
          | _, _ => .no
        lastRoundMustFix := .ofBool (newest.any fun r => 0 < r.mustFix)
        repeatedAreas := .ofBool (repeated (rounds s.reviews task)
          current.spec.attributes.repeatedArea.rounds current.spec.attributes.repeatedArea.scope) }

/-! ## moves -/

def Fact.asStr : Fact → String
  | .yes => "yes"
  | .no => "no"
  | .unknown => "unknown"

/-- The facts a guard fired on. -/
def evidence (f : WorkflowFacts) : List (String × String) :=
  [("task_status", f.taskStatus.asStr), ("landed", Fact.asStr f.landed),
    ("new_round", Fact.asStr f.newRound), ("last_round_must_fix", Fact.asStr f.lastRoundMustFix),
    ("repeated_areas", Fact.asStr f.repeatedAreas)]

/-- Append a row to a task's history, with the mark of its newest round. -/
def append (s : Store) (task : Int) (event : String) (src : Option Phase) (dst : Phase) (actor : Actor)
    (reason : Option Text) (spec : Option StrategySpec) (evidence : Option (List (String × String))) :
    Store :=
  let mark := (rounds s.reviews task).getLast?.map (·.filed)
  let log := s.log.insertNext
    (fun id => ⟨id, task, event, src.map Phase.name, dst.name, actor.roleLabel, actor.principal, mark,
      reason, spec, evidence⟩) fun _ => rfl
  { s with log }

/-- What a workflow move did. -/
inductive Moved where
  | «to» (src : Phase) (event : WorkflowEvent) (dst : Phase) (revoked : Nat)
  | alreadyThere (phase : Phase)
  | refused (why : String)
deriving Repr, DecidableEq

def checkReason (event : WorkflowEvent) (reason : Option Text) : Except Fmt Unit :=
  if event.needsReason ∧ ¬ reason.any fun r => trim r ≠ [] then
    .error ["`", event.asStr, "` needs a written reason (`--reason …`): it decides who sees the work next"]
  else if reason.any fun r => 4096 < Ns.byteLen r then .error ["a reason of at most 4096 bytes"]
  else .ok ()

/-- The grants that are live. -/
def liveGrants (t : Grants) : Nat := (t.rows.filter fun r => r.revokedAt = none).length

/-- Record what came of asking the graph. A task's first move pins the strategy it is running. -/
def settle (s : Store) (task : Int) (current : Current) (outcome : Outcome Phase WorkflowEvent Unit)
    (actor : Actor) (reason : Option Text) (facts : WorkflowFacts) (now : Text) : Store × Moved :=
  match outcome with
  | .moved src event dst _ =>
      if src = dst then (s, .alreadyThere dst)
      else
        let s := if current.pinned then s
          else append s task "pin_strategy" (some src) src actor (some current.source) (some current.spec) none
        let s := append s task event.asStr (some src) dst actor reason none (some (evidence facts))
        if dst.isSettled then
          let grants := revokeTask s.grants task now
          ({ s with grants }, .to src event dst (liveGrants s.grants - liveGrants grants))
        else (s, .to src event dst 0)
  | .idempotent state _ => (s, .alreadyThere state)
  | other => (s, .refused (other.refusal.getD ("that does not apply in `" ++ facts.phase.name ++ "`")))

/-- Fire an event on a task: the one way a workflow moves by request. -/
def fire (s : Store) (task : Int) (event : WorkflowEvent) (actor : Actor) (reason : Option Text)
    (stated : Option Phase) (now : Text) : Except Fmt (Store × Moved) := do
  checkReason event reason
  let current ← current s task
  match current.spec.authorize actor.roles event with
  | .deny no => return (s, .refused no.shown)
  | .allow =>
      let facts ← observeFacts s task current
      let facts := { facts with stated }
      return settle s task current (current.spec.graph.machine.apply facts event) actor reason facts now

/-- Observe a task and take the one reconciliation that applies. -/
def observe (s : Store) (task : Int) (actor : Actor) (now : Text) : Except Fmt (Store × Moved) := do
  let current ← current s task
  let facts ← observeFacts s task current
  match current.spec.graph.machine.reconcile facts with
  | .settled => return (s, .alreadyThere current.phase)
  | .ambiguous events =>
      return (s, .refused ("more than one observation applies at once (" ++
        ", ".intercalate (events.map WorkflowEvent.asStr) ++ ") — this is a defect in the graph"))
  | .fired outcome => return settle s task current outcome actor none facts now

/-- Park a task's workflow at `landed`: the lifecycle just landed it. -/
def followLanding (s : Store) (task : Int) (now : Text) : Except Fmt (Store × Moved) := do
  let current ← current s task
  if current.phase.isSettled then return (s, .alreadyThere current.phase)
  else
    let facts ← observeFacts s task current
    let facts := { facts with landed := .yes }
    return settle s task current (current.spec.graph.machine.apply facts .observedLanded)
      ⟨[], "lifecycle".toList⟩ none facts now

/-- Pin a task to a strategy: the operator's alone. -/
def setStrategy (s : Store) (task : Int) (name : String) (actor : Actor) :
    Except Fmt (Store × StrategySpec) := do
  if Role.operator ∉ actor.roles then
    .error ["only the operator chooses a task's workflow strategy — an agent choosing a laxer one for ",
      "itself is what the strategy exists to prevent"]
  let (source, spec) ← resolveStrategy s name
  let current ← current s task
  return (append s task "set_strategy" (some current.phase) current.phase actor (some source.toList)
    (some spec) none, spec)

/-! ## runs -/

/-- The operations on workflows, the operations on the review record, and the lifecycle's landings. -/
inductive Op where
  | fire (task : Int) (event : WorkflowEvent) (actor : Actor) (reason : Option Text)
      (stated : Option Phase) (now : Text)
  | observe (task : Int) (actor : Actor) (now : Text)
  | followLanding (task : Int) (now : Text)
  | setStrategy (task : Int) (name : String) (actor : Actor)
  | define (name : String) (describe : Text) (spec : StrategySpec)
  | review (op : Reviews.Op)
  | lifecycle (landed : Int → Bool)

section Runs

variable (nfc : Text → Text) (sys : Sqlite)

/-- Carry out one operation; a refused one changes nothing. -/
def next (s : Store) : Op → Store
  | .fire task event actor reason stated now =>
      Tx.commit ((fire s task event actor reason stated now).map (·.1)) s
  | .observe task actor now => Tx.commit ((observe s task actor now).map (·.1)) s
  | .followLanding task now => Tx.commit ((followLanding s task now).map (·.1)) s
  | .setStrategy task name actor => Tx.commit ((setStrategy s task name actor).map (·.1)) s
  | .define name describe spec => Tx.commit ((define s name describe spec).map (·.1)) s
  | .review op => { s with reviews := Reviews.next nfc sys s.reviews op }
  | .lifecycle landed => { s with landed }

/-- No review is recorded yet, and no workflow has moved. -/
def start (base : Query.Store) (content : Int → Option Text) (landed : Int → Bool)
    (strategies : List Definition) (grants : Grants) : Store :=
  { reviews := Reviews.start base content, landed, strategies, log := .empty, grants }

end Runs

/-! ## what a move writes -/

/-- The newest round of a task, as a history row marks it. -/
def mark (s : Reviews.Store) (task : Int) : Option Int := (rounds s task).getLast?.map (·.filed)

/-- **What a move writes**: to the history of one task, rows that stay in its phase, and then at most one
that leaves it and carries the mark of its newest round. -/
structure Moves (s s' : Store) (task : Int) : Prop where
  reviews : s'.reviews = s.reviews
  others : ∀ t, t ≠ task → history s' t = history s t
  rows : ∃ stays leaves, history s' task = history s task ++ stays ++ leaves ∧
    (∀ r ∈ stays, r.fromPhase = some (currentPhaseName s task) ∧ r.toPhase = currentPhaseName s task) ∧
    (leaves = [] ∨ ∃ r, leaves = [r] ∧ r.fromPhase = some (currentPhaseName s task) ∧
      r.toPhase ≠ currentPhaseName s task ∧ r.roundMark = mark s.reviews task)

/-- A move that writes no more to the log than another, nor to the record, is that move. -/
theorem Moves.congr {s s' s'' : Store} {task : Int} (h : Moves s s' task) (hlog : s''.log = s'.log)
    (hreviews : s''.reviews = s'.reviews) : Moves s s'' task := by
  obtain ⟨hr, ho, hrows⟩ := h
  have hhist : ∀ t, history s'' t = history s' t := fun t => by rw [history, hlog, history]
  exact ⟨hreviews.trans hr, fun t ht => (hhist t).trans (ho t ht), by rw [hhist]; exact hrows⟩

section Append

variable (s : Store) (task : Int) (event : String) (src : Option Phase) (dst : Phase) (actor : Actor)
  (reason : Option Text) (spec : Option StrategySpec) (evidence : Option (List (String × String)))

/-- A row that is appended is one of its task's history alone. -/
theorem history_append (t : Int) :
    history (append s task event src dst actor reason spec evidence) t =
      if t = task then history s t ++ [⟨s.log.nextKey, task, event, src.map Phase.name, dst.name,
        actor.roleLabel, actor.principal, mark s.reviews task, reason, spec, evidence⟩]
      else history s t := by
  show (s.log.rows ++ [_]).filter _ = _
  rw [List.filter_append, List.filter_singleton]
  by_cases h : t = task
  · simp [h, history, mark]
  · simp [h, history, Ne.symm h]

end Append

/-- The phase of a workflow that can be read is the one of its latest row. -/
theorem phase_current {s : Store} {task : Int} {c : Current} (h : current s task = .ok c) :
    c.phase.name = currentPhaseName s task ∧ c.history = history s task := by
  unfold current at h
  split at h
  · cases h
  · next phase hparse =>
      split at h
      · obtain ⟨spec, -, rfl⟩ := Tx.map_eq_ok.mp h
        exact ⟨Phase.name_of_parse hparse, rfl⟩
      · obtain ⟨p, -, rfl⟩ := Tx.map_eq_ok.mp h
        exact ⟨Phase.name_of_parse hparse, rfl⟩

/-- No two phases have one name. -/
theorem name_injective : Function.Injective Phase.name := by
  intro a b h
  cases a <;> cases b <;> first
    | rfl
    | exact absurd h (by decide)

/-- The facts are of the phase that the task is in. -/
theorem facts_observeFacts {s : Store} {task : Int} {c : Current} {f : WorkflowFacts}
    (h : observeFacts s task c = .ok f) : f.phase = c.phase := by
  unfold observeFacts at h
  split at h
  · cases h
  · cases h
    rfl

/-- Rows that stay in a task's phase. -/
structure Stays (s s' : Store) (task : Int) : Prop where
  reviews : s'.reviews = s.reviews
  others : ∀ t, t ≠ task → history s' t = history s t
  rows : ∃ stays, history s' task = history s task ++ stays ∧
    ∀ r ∈ stays, r.fromPhase = some (currentPhaseName s task) ∧ r.toPhase = currentPhaseName s task

/-- A task that nothing is written of stays in its phase. -/
theorem Stays.refl (s : Store) (task : Int) : Stays s s task :=
  ⟨rfl, fun _ _ => rfl, [], by simp, by simp⟩

/-- To stay is a move. -/
theorem Stays.moves {s s' : Store} {task : Int} (h : Stays s s' task) : Moves s s' task := by
  obtain ⟨stays, hrows, hall⟩ := h.rows
  exact ⟨h.reviews, h.others, stays, [], by rw [hrows, List.append_nil], hall, Or.inl rfl⟩

/-- A row at the task's phase stays in it. -/
theorem stays_append {s : Store} {task : Int} {phase : Phase} (h : phase.name = currentPhaseName s task)
    (event : String) (actor : Actor) (reason : Option Text) (spec : Option StrategySpec)
    (evidence : Option (List (String × String))) :
    Stays s (append s task event (some phase) phase actor reason spec evidence) task := by
  refine ⟨rfl, fun t ht => by rw [history_append, if_neg ht], _, by rw [history_append, if_pos rfl], ?_⟩
  simp [h]

/-- A row that leaves the phase, after rows that stay in it, is a move. -/
theorem Stays.append {s t : Store} {task : Int} (h : Stays s t task) {src dst : Phase}
    (hsrc : src.name = currentPhaseName s task) (hne : src ≠ dst) (event : String) (actor : Actor)
    (reason : Option Text) (spec : Option StrategySpec) (evidence : Option (List (String × String))) :
    Moves s (append t task event (some src) dst actor reason spec evidence) task := by
  obtain ⟨stays, hrows, hall⟩ := h.rows
  have hrow := history_append t task event (some src) dst actor reason spec evidence task
  rw [if_pos rfl, hrows] at hrow
  refine ⟨h.reviews, fun u hu => ?_, stays, _, hrow, hall, Or.inr ⟨_, rfl, ?_, ?_, ?_⟩⟩
  · rw [history_append, if_neg hu, h.others u hu]
  · exact congrArg some hsrc
  · rw [← hsrc]
    exact fun he => hne (name_injective he).symm
  · rw [h.reviews]

/-- **What settling does**: it writes a move from the task's phase, or nothing. -/
theorem moves_settle {s s' : Store} {task : Int} {c : Current} {m : Moved}
    (hc : c.phase.name = currentPhaseName s task) {o : Outcome Phase WorkflowEvent Unit}
    (ho : ∀ src e dst x, o = .moved src e dst x → src = c.phase) {actor : Actor} {reason : Option Text}
    {facts : WorkflowFacts} {now : Text} (h : settle s task c o actor reason facts now = (s', m)) :
    Moves s s' task := by
  obtain rfl : (settle s task c o actor reason facts now).1 = s' := congrArg Prod.fst h
  clear h
  unfold settle
  split
  · next src e dst x =>
      obtain rfl := ho src e dst x rfl
      split
      · exact (Stays.refl s task).moves
      · next hne =>
          have hpin : Stays s (if c.pinned then s else append s task "pin_strategy" (some c.phase) c.phase
              actor (some c.source) (some c.spec) none) task := by
            split
            · exact Stays.refl s task
            · exact stays_append hc ..
          have hmoves := hpin.append hc hne e.asStr actor reason none (some (evidence facts))
          dsimp only
          split
          · exact hmoves.congr rfl rfl
          · exact hmoves
  · exact (Stays.refl s task).moves
  · exact (Stays.refl s task).moves

section Steps

variable {nfc : Text → Text} {sys : Sqlite} {s s' : Store} {task : Int}

/-- What a graph answers moves from the phase the facts name. -/
theorem src_of_apply {m : WorkflowMachine} {f : WorkflowFacts} {ev e : WorkflowEvent} {src dst : Phase}
    {x : List Unit} (h : m.apply f ev = .moved src e dst x) : src = f.phase :=
  (Machine.apply_eq_moved h).1

/-- What is settled by a graph, on facts that were observed, moves the task from its phase, or nothing. -/
theorem moves_settle_apply {c : Current} {f f' : WorkflowFacts} {graph : WorkflowMachine} {ev : WorkflowEvent}
    {actor : Actor} {reason : Option Text} {now : Text} {m : Moved} (hc : current s task = .ok c)
    (hf : observeFacts s task c = .ok f)
    (h : settle s task c (graph.apply f' ev) actor reason f' now = (s', m)) (hphase : f'.phase = f.phase) :
    Moves s s' task :=
  moves_settle (phase_current hc).1
    (fun _ _ _ _ ho => (src_of_apply ho).trans (hphase.trans (facts_observeFacts hf))) h

/-- What `fire` writes. -/
theorem moves_fire {event : WorkflowEvent} {actor : Actor} {reason : Option Text} {stated : Option Phase}
    {now : Text} {m : Moved} (h : fire s task event actor reason stated now = .ok (s', m)) :
    Moves s s' task := by
  obtain ⟨⟨⟩, -, h⟩ := Tx.bind_eq_ok.mp h
  obtain ⟨c, hc, h⟩ := Tx.bind_eq_ok.mp h
  split at h
  · cases h
    exact (Stays.refl s task).moves
  · obtain ⟨f, hf, h⟩ := Tx.bind_eq_ok.mp h
    exact moves_settle_apply hc hf (Except.ok.inj h) rfl

/-- What `observe` writes. -/
theorem moves_observe {actor : Actor} {now : Text} {m : Moved}
    (h : observe s task actor now = .ok (s', m)) : Moves s s' task := by
  obtain ⟨c, hc, h⟩ := Tx.bind_eq_ok.mp h
  obtain ⟨f, hf, h⟩ := Tx.bind_eq_ok.mp h
  split at h
  · cases h
    exact (Stays.refl s task).moves
  · cases h
    exact (Stays.refl s task).moves
  · next o hfired =>
      obtain ⟨ev, rfl⟩ := Machine.exists_apply_of_fired hfired
      exact moves_settle_apply hc hf (Except.ok.inj h) rfl

/-- What `follow_landing` writes. -/
theorem moves_followLanding {now : Text} {m : Moved}
    (h : followLanding s task now = .ok (s', m)) : Moves s s' task := by
  obtain ⟨c, hc, h⟩ := Tx.bind_eq_ok.mp h
  split at h
  · cases h
    exact (Stays.refl s task).moves
  · obtain ⟨f, hf, h⟩ := Tx.bind_eq_ok.mp h
    exact moves_settle_apply hc hf (Except.ok.inj h) rfl

/-- What `set_strategy` writes. -/
theorem moves_setStrategy {name : String} {actor : Actor} {spec : StrategySpec}
    (h : setStrategy s task name actor = .ok (s', spec)) : Moves s s' task := by
  obtain ⟨-, h⟩ := Tx.guard_eq_ok.mp h
  obtain ⟨⟨source, spec'⟩, -, h⟩ := Tx.bind_eq_ok.mp h
  obtain ⟨c, hc, h⟩ := Tx.bind_eq_ok.mp h
  cases h
  exact (stays_append (phase_current hc).1 ..).moves

/-- A strategy that is defined writes no history. -/
theorem keeps_define {name : String} {describe : Text} {spec : StrategySpec} {v : Nat}
    (h : define s name describe spec = .ok (s', v)) : Moves s s' task := by
  obtain ⟨-, h⟩ := Tx.guard_eq_ok.mp h
  obtain ⟨-, h⟩ := Tx.guard_eq_ok.mp h
  obtain ⟨⟨⟩, -, h⟩ := Tx.bind_eq_ok.mp h
  obtain ⟨⟨⟩, -, h⟩ := Tx.bind_eq_ok.mp h
  cases h
  exact (Stays.refl s task).moves.congr rfl rfl

/-- **What a step does**: it is an operation on the review record, or it moves the workflow of one task. -/
theorem next_cases (s : Store) (op : Op) :
    (∃ rop, op = .review rop) ∨ ∃ task, Moves s (next nfc sys s op) task := by
  have hcommit : ∀ {α : Type} (task : Int) (x : Except Fmt (Store × α)),
      (∀ s' a, x = .ok (s', a) → Moves s s' task) → Moves s (Tx.commit (x.map (·.1)) s) task := by
    intro α task x hx
    refine @Tx.commit_rel _ _ (fun s s' => Moves s s' task) _ _ (Stays.refl s task).moves fun s' h => ?_
    obtain ⟨⟨t, a⟩, ht, rfl⟩ := Tx.map_eq_ok.mp h
    exact hx t a ht
  cases op with
  | review rop => exact Or.inl ⟨rop, rfl⟩
  | fire task event actor reason stated now =>
      exact Or.inr ⟨task, hcommit _ _ fun _ _ h => moves_fire h⟩
  | observe task actor now => exact Or.inr ⟨task, hcommit _ _ fun _ _ h => moves_observe h⟩
  | followLanding task now => exact Or.inr ⟨task, hcommit _ _ fun _ _ h => moves_followLanding h⟩
  | setStrategy task name actor => exact Or.inr ⟨task, hcommit _ _ fun _ _ h => moves_setStrategy h⟩
  | define name describe spec => exact Or.inr ⟨0, hcommit _ _ fun _ _ h => keeps_define h⟩
  | lifecycle landed => exact Or.inr ⟨0, (Stays.refl s 0).moves.congr rfl rfl⟩

end Steps

/-! ## the last move into review -/

section Entered

variable {s s' : Store} {task : Int}

/-- Whether a task is in review. -/
def inReview (task : Int) (s : Store) : Bool := currentPhaseName s task = Phase.review.name

/-- A move leaves the phase of any other task alone. -/
theorem Moves.phase_of_ne (h : Moves s s' task) {t : Int} (ht : t ≠ task) :
    currentPhaseName s' t = currentPhaseName s t := by
  rw [currentPhaseName, h.others t ht, currentPhaseName]

/-- Rows that are not of a move into review leave the last one what it was. -/
theorem enteredReview_append {rows new : List WorkflowRow}
    (h : ∀ r ∈ new, ¬ (r.toPhase = Phase.review.name ∧ r.fromPhase ≠ some Phase.review.name)) :
    enteredReview (rows ++ new) = enteredReview rows := by
  have hnone : new.reverse.find? (fun r =>
      r.toPhase = Phase.review.name ∧ r.fromPhase ≠ some Phase.review.name) = none := by
    refine List.find?_eq_none.mpr fun r hr => ?_
    simpa using h r (List.mem_reverse.mp hr)
  rw [enteredReview, List.reverse_append, List.find?_append, hnone, Option.none_or, enteredReview]

/-- **A move into review** leaves the mark of the task's newest round. -/
theorem Moves.enters (h : Moves s s' task) (hout : inReview task s = false)
    (hin : inReview task s' = true) :
    enteredReview (history s' task) = some ((mark s.reviews task).getD 0) := by
  simp only [inReview, decide_eq_true_eq, decide_eq_false_iff_not] at hout hin
  obtain ⟨stays, leaves, hrows, hstays, hleaves⟩ := h.rows
  rcases hleaves with rfl | ⟨r, rfl, hfrom, -, hmark⟩
  · refine absurd ?_ hout
    rw [← hin, currentPhaseName, currentPhaseName, hrows, List.append_nil]
    rcases List.eq_nil_or_concat stays with rfl | ⟨init, last, rfl⟩
    · simp
    · have hlast := (hstays last (by simp)).2
      rw [currentPhaseName] at hlast
      simp [hlast]
  · have hto : r.toPhase = Phase.review.name := by
      rw [← hin, currentPhaseName, hrows]
      simp
    have hfrom' : r.fromPhase ≠ some Phase.review.name := by
      rw [hfrom]
      exact fun he => hout (Option.some.inj he)
    rw [hrows, enteredReview, List.reverse_append, List.reverse_singleton, List.singleton_append,
      List.find?_cons_of_pos (by simp [hto, hfrom']), Option.map_some, hmark]

/-- A task that stays in review was last moved there when it was before. -/
theorem Moves.stays (h : Moves s s' task) (hin : inReview task s = true) :
    enteredReview (history s' task) = enteredReview (history s task) := by
  simp only [inReview, decide_eq_true_eq] at hin
  obtain ⟨stays, leaves, hrows, hstays, hleaves⟩ := h.rows
  rw [hrows, List.append_assoc]
  refine enteredReview_append fun r hr hmove => hmove.2 ?_
  rcases List.mem_append.mp hr with hr | hr
  · rw [(hstays r hr).1, hin]
  · rcases hleaves with rfl | ⟨x, rfl, hfrom, -, -⟩
    · exact absurd hr List.not_mem_nil
    · rw [List.mem_singleton.mp hr, hfrom, hin]

end Entered

/-! ## the newest round -/

section Newest

variable {s : Reviews.Store} {task : Int}

/-- A task's rounds are those recorded for it. -/
theorem mem_rounds {x : Round} :
    x ∈ rounds s task ↔ ∃ round, RecordedFor s [task] round ∧ report s round = x := by
  constructor
  · intro h
    obtain ⟨ns, hns, r, hfind, hx⟩ := mem_roundsIn.mp h
    obtain ⟨hr, rfl⟩ := Rounds.find_eq_some.mp hfind
    exact ⟨r, ⟨hr, task, List.mem_singleton_self _, mem_namespaces_state.mp hns⟩, hx⟩
  · rintro ⟨r, ⟨hr, t, ht, hrec⟩, hx⟩
    obtain rfl := List.mem_singleton.mp ht
    exact mem_roundsIn.mpr
      ⟨r.ns, mem_namespaces_state.mpr hrec, r, Rounds.find_eq_some.mpr ⟨hr, rfl⟩, hx⟩

/-- The last of a task's rounds is its newest. -/
theorem exists_newest {x : Round} (h : (rounds s task).getLast? = some x) :
    ∃ round, Newest s [task] round ∧ report s round = x := by
  have hle : ∀ other, RecordedFor s [task] other → other.id ≤ x.filed := fun other hother =>
    (getLast_insertionSort h).2 _
      (List.mem_insertionSort _ |>.mp (mem_rounds.mpr ⟨other, hother, rfl⟩))
  obtain ⟨round, hround, rfl⟩ := mem_rounds.mp (List.mem_of_getLast? h)
  exact ⟨round, ⟨hround, hle⟩, rfl⟩

/-- No round of a task is newer than what its history would mark. -/
theorem id_le_mark {round : RoundRow} (h : RecordedFor s [task] round) :
    round.id ≤ (mark s task).getD 0 := by
  have hmem := mem_rounds.mpr ⟨round, h, rfl⟩
  cases hlast : (rounds s task).getLast? with
  | none => exact absurd (List.getLast?_eq_none_iff.mp hlast ▸ hmem) List.not_mem_nil
  | some x =>
      obtain ⟨newest, hnewest, rfl⟩ := exists_newest hlast
      rw [mark, hlast]
      exact hnewest.2 round h

end Newest

/-! ## verdicts -/

/-- **What a verdict rests on**: the task is in review, its newest round is fresh, and a pass found no
must-fix in it. -/
theorem verdict_of_moved {g : GraphId} {f : WorkflowFacts} {e ev : WorkflowEvent} {src dst : Phase}
    {x : List Unit} (h : g.machine.apply f e = .moved src ev dst x) (hv : ev.isVerdict = true) :
    src = .review ∧ f.newRound = .yes ∧ (ev = .reviewPassed → f.lastRoundMustFix = .no) := by
  obtain ⟨rfl, rfl, t, ht, hsrc, rfl, -, hguard, -, -⟩ := Machine.apply_eq_moved h
  have hrows : g.machine.transitions.filter (fun t => t.event.isVerdict) = [
      guarded .review .reviewPassed .landable reviewPassed,
      guarded .review .reviewFailed .implement reviewFailed,
      guarded .review .reviewRepeated .systemicReview reviewRepeated] := by
    cases g <;> rfl
  have hmem := hrows ▸ List.mem_filter.mpr ⟨ht, hv⟩
  simp only [List.mem_cons, List.not_mem_nil, or_false] at hmem
  rcases hmem with rfl | rfl | rfl
  · have hclauses := allOf_eq_allow.mp (hguard _ rfl)
    simp only [List.forall_mem_cons, freshRound, requireYes_eq_allow, requireNo_eq_allow] at hclauses
    exact ⟨hsrc.symm, hclauses.2.1, fun _ => hclauses.2.2.1⟩
  · have hclauses := allOf_eq_allow.mp (hguard _ rfl)
    simp only [List.forall_mem_cons, freshRound, requireYes_eq_allow] at hclauses
    exact ⟨hsrc.symm, hclauses.2.1, fun h => nomatch h⟩
  · have hclauses := allOf_eq_allow.mp (hguard _ rfl)
    simp only [List.forall_mem_cons, freshRound, requireYes_eq_allow] at hclauses
    exact ⟨hsrc.symm, hclauses.2.1, fun h => nomatch h⟩

/-- A settlement that moves writes its row. -/
theorem settle_to {s s' : Store} {task : Int} {c : Current} {o : Outcome Phase WorkflowEvent Unit}
    {actor : Actor} {reason : Option Text} {facts : WorkflowFacts} {now : Text} {src dst : Phase}
    {ev : WorkflowEvent} {n : Nat}
    (h : settle s task c o actor reason facts now = (s', .to src ev dst n)) :
    ∃ x, o = .moved src ev dst x := by
  have hmoved : (settle s task c o actor reason facts now).2 = .to src ev dst n := by rw [h]
  unfold settle at hmoved
  split at hmoved
  · next src' ev' dst' x =>
      split at hmoved
      · cases hmoved
      · dsimp only at hmoved
        split at hmoved
        · cases hmoved
          exact ⟨x, rfl⟩
        · cases hmoved
          exact ⟨x, rfl⟩
  · cases hmoved
  · cases hmoved

/-- **What a verdict judges**: a task in review, on its newest round, which is newer than the mark of its
last move there; and a pass is of a round that held no must-fix. -/
theorem judged_of_observe {s s' : Store} {task : Int} {actor : Actor} {now : Text} {src dst : Phase}
    {ev : WorkflowEvent} {n : Nat} (h : observe s task actor now = .ok (s', .to src ev dst n))
    (hv : ev.isVerdict = true) :
    src = .review ∧ inReview task s = true ∧ ∃ round m, Newest s.reviews [task] round ∧
      enteredReview (history s task) = some m ∧ m < round.id ∧
      (ev = .reviewPassed → Clean s.reviews round) := by
  obtain ⟨c, hc, h⟩ := Tx.bind_eq_ok.mp h
  obtain ⟨f, hf, h⟩ := Tx.bind_eq_ok.mp h
  have hphase : f.phase = c.phase := facts_observeFacts hf
  obtain ⟨hname, hhistory⟩ := phase_current hc
  split at h
  · cases h
  · cases h
  · next o hfired =>
      obtain ⟨e, rfl⟩ := Machine.exists_apply_of_fired hfired
      obtain ⟨x, hmoved⟩ := settle_to (Except.ok.inj h)
      obtain ⟨rfl, hnew, hpass⟩ := verdict_of_moved hmoved hv
      have hreview : inReview task s = true := by
        rw [inReview, ← hname, ← hphase, ← src_of_apply hmoved]
        rfl
      unfold observeFacts at hf
      split at hf
      · cases hf
      · cases hf
        rw [hhistory] at hnew
        simp only at hnew hpass
        split at hnew
        · next mark x hentered hlast =>
            obtain ⟨round, hround, rfl⟩ := exists_newest hlast
            refine ⟨rfl, hreview, round, mark, hround, hentered, ?_, fun h => ?_⟩
            · exact of_decide_eq_true (Fact.ofBool_eq_yes.mp hnew)
            · simpa [Fact.ofBool_eq_no, report, hlast, Clean] using hpass h
        · cases hnew

/-! ## rounds recorded after they were snapshotted -/

section Fresh

variable (nfc : Text → Text) (sys : Sqlite)

/-- A round that was snapshotted after the task's latest move into review. -/
def SnapshottedSince (s : Store) (ops : List Op) (task : Int) (round : RoundRow) : Prop :=
  ∃ entry, Run.lastEntry (next nfc sys) (inReview task) s ops = some entry ∧
    round ∉ entry.reviews.rounds.rows

/-- A namespace that may be recorded for a task: if the task is in review, it is one nobody has snapshotted
yet, or whose round was snapshotted since the task's latest move there, or is no newer than a round the task
has. -/
def RecordsFresh (s : Store) (ops : List Op) (task : Int) (ns : Text) : Prop :=
  let last := Run.run (next nfc sys) s ops
  inReview task last = true → ∀ round, last.reviews.rounds.find ns = some round →
    SnapshottedSince nfc sys s ops task round ∨
      ∃ other, RecordedFor last.reviews [task] other ∧ round.id ≤ other.id

/-- Every recording of a run that is not refused is of a namespace that may be recorded. -/
def FreshRecordings (s : Store) (ops : List Op) : Prop :=
  ∀ before task ns sha actor source after,
    ops = before ++ .review (.record task ns sha actor source) :: after →
      (∃ t, record nfc sys (Run.run (next nfc sys) s before).reviews task ns sha actor source = .ok t) →
        RecordsFresh nfc sys s before task ns

variable {nfc sys} in
/-- The recordings of a run one step longer are fresh if those of the run are, and the step's is. -/
theorem freshRecordings_concat {s : Store} {ops : List Op} {op : Op} :
    FreshRecordings nfc sys s (ops ++ [op]) ↔ FreshRecordings nfc sys s ops ∧
      ∀ task ns sha actor source, op = .review (.record task ns sha actor source) →
        (∃ t, record nfc sys (Run.run (next nfc sys) s ops).reviews task ns sha actor source = .ok t) →
          RecordsFresh nfc sys s ops task ns := by
  constructor
  · intro h
    refine ⟨fun before task ns sha actor source after hops => ?_, fun task ns sha actor source hop => ?_⟩
    · exact h before task ns sha actor source (after ++ [op]) (by simp [hops])
    · exact h ops task ns sha actor source [] (by rw [hop])
  · rintro ⟨hops, hop⟩ before task ns sha actor source after heq
    rcases List.eq_nil_or_concat after with rfl | ⟨init, last, rfl⟩
    · obtain ⟨rfl, hlast⟩ := List.append_inj' heq rfl
      exact hop task ns sha actor source (List.singleton_inj.mp hlast)
    · rw [List.concat_eq_append, ← List.cons_append, ← List.append_assoc] at heq
      exact hops before task ns sha actor source init (List.append_inj' heq rfl).1

/-- What a run keeps of a task in review: if its newest round is newer than the mark of its latest move
there, it was snapshotted since. -/
structure Marked (s : Store) (ops : List Op) (task : Int) (e : Store) (m : Int) : Prop where
  entry : Run.lastEntry (next nfc sys) (inReview task) s ops = some e
  entered : enteredReview (history (Run.run (next nfc sys) s ops) task) = some m
  newer : ∀ round, Newest (Run.run (next nfc sys) s ops).reviews [task] round →
    round.id ≤ m ∨ round ∉ e.reviews.rounds.rows
  rounds : e.reviews.rounds.rows ⊆ (Run.run (next nfc sys) s ops).reviews.rounds.rows

variable {nfc sys} {base : Query.Store} {content : Int → Option Text} {landed : Int → Bool}
  {strategies : List Definition} {grants : Grants}

/-- Workflow operations leave the record alone, and the others keep what its tables say of each other. -/
theorem kept_reviews (ops : List Op) :
    Kept (Run.run (next nfc sys) (start base content landed strategies grants) ops).reviews := by
  have hstart : Kept (start base content landed strategies grants).reviews := kept_start base content
  refine @Run.run_invariant _ _ (next nfc sys) (fun s => Kept s.reviews) (fun s op hs => ?_) _ hstart ops
  rcases next_cases s op with ⟨rop, rfl⟩ | ⟨task, hmoves⟩
  · exact kept_next nfc sys s.reviews rop hs
  · rw [hmoves.reviews]
    exact hs

/-- A step that a task stays in review over keeps its newest round fresh. -/
theorem Marked.step {s : Store} {ops : List Op} {op : Op} {task : Int} {e : Store} {m : Int}
    (h : Marked nfc sys s ops task e m) (hkept : Kept (Run.run (next nfc sys) s ops).reviews)
    (hop : ∀ task ns sha actor source, op = .review (.record task ns sha actor source) →
      (∃ t, record nfc sys (Run.run (next nfc sys) s ops).reviews task ns sha actor source = .ok t) →
        RecordsFresh nfc sys s ops task ns)
    (hin : inReview task (Run.run (next nfc sys) s ops) = true)
    (hin' : inReview task (next nfc sys (Run.run (next nfc sys) s ops) op) = true) :
    Marked nfc sys s (ops ++ [op]) task e m := by
  have hrun : Run.run (next nfc sys) s (ops ++ [op]) = next nfc sys (Run.run (next nfc sys) s ops) op := by
    simp
  have hentry : Run.lastEntry (next nfc sys) (inReview task) s (ops ++ [op]) = some e := by
    simp [Run.lastEntry_concat, hin, h.entry]
  rcases @next_cases nfc sys (Run.run (next nfc sys) s ops) op with ⟨rop, rfl⟩ | ⟨t, hmoves⟩
  · refine ⟨hentry, by rw [hrun]; exact h.entered, fun round hnewest => ?_, fun r hr => ?_⟩
    · rw [hrun] at hnewest
      have hgrown := grown_next nfc sys (Run.run (next nfc sys) s ops).reviews rop
      rcases recordedFor_next nfc sys hkept hnewest.1 with hold | ⟨ns, sha, actor, source, rfl, hok, hround⟩
      · exact h.newer round (hnewest.of_grown hgrown hold)
      · rcases hround with hfind | hnew
        · rcases hop task ns sha actor source rfl hok hin round hfind with
            ⟨e', he', hnot⟩ | ⟨other, hother, hle⟩
          · rw [h.entry] at he'
            cases he'
            exact Or.inr hnot
          · -- then it is that other round
            have hid : other.id = round.id := by
              have := hnewest.2 other (hother.mono hgrown)
              omega
            obtain rfl := Table.eq_of_key_eq _ hother.1 (Rounds.find_eq_some.mp hfind).1 hid
            exact h.newer other (hnewest.of_grown hgrown hother)
        · exact Or.inr fun hr => hnew (h.rounds hr)
    · rw [hrun]
      exact (grown_next nfc sys _ rop).rounds.subset (h.rounds hr)
  · have hreviews := hmoves.reviews
    refine ⟨hentry, ?_, by rw [hrun, hreviews]; exact h.newer, by rw [hrun, hreviews]; exact h.rounds⟩
    rw [hrun]
    by_cases ht : task = t
    · subst ht
      rw [hmoves.stays hin, h.entered]
    · rw [hmoves.others task ht, h.entered]

/-- A step that moves a task into review marks the newest round it has. -/
theorem marked_of_enters {s : Store} {ops : List Op} {op : Op} {task : Int}
    (hout : inReview task (Run.run (next nfc sys) s ops) = false)
    (hin : inReview task (next nfc sys (Run.run (next nfc sys) s ops) op) = true) :
    Marked nfc sys s (ops ++ [op]) task (next nfc sys (Run.run (next nfc sys) s ops) op)
      ((mark (Run.run (next nfc sys) s ops).reviews task).getD 0) := by
  have hrun : Run.run (next nfc sys) s (ops ++ [op]) = next nfc sys (Run.run (next nfc sys) s ops) op := by
    simp
  have hentry : Run.lastEntry (next nfc sys) (inReview task) s (ops ++ [op]) =
      some (next nfc sys (Run.run (next nfc sys) s ops) op) := by
    simp [Run.lastEntry_concat, hout, hin]
  rcases @next_cases nfc sys (Run.run (next nfc sys) s ops) op with ⟨rop, rfl⟩ | ⟨t, hmoves⟩
  · exact absurd (hout.symm.trans hin) (by decide)
  · obtain rfl : task = t := by
      by_contra ht
      rw [inReview, hmoves.phase_of_ne ht, ← inReview, hout] at hin
      cases hin
    refine ⟨hentry, ?_, fun round hround => ?_, by rw [hrun]; exact List.Subset.refl _⟩
    · rw [hrun, hmoves.enters hout hin]
    · rw [hrun, hmoves.reviews] at hround
      exact Or.inl (id_le_mark hround.1)

/-- **A task in review is marked**, in every state of a run whose recordings are fresh. -/
theorem marked_run {ops : List Op}
    (hfresh : FreshRecordings nfc sys (start base content landed strategies grants) ops) {task : Int}
    (hin : inReview task (Run.run (next nfc sys) (start base content landed strategies grants) ops) = true) :
    ∃ e m, Marked nfc sys (start base content landed strategies grants) ops task e m := by
  -- on the run, from its end: the last step either enters review, or stays in it
  induction ops using List.reverseRecOn with
  | nil => simp [inReview, currentPhaseName, history, start, AutoTable.empty, Table.empty, Phase.name] at hin
  | append_singleton ops op ih =>
      have hkept := @kept_reviews nfc sys base content landed strategies grants ops
      generalize start base content landed strategies grants = s at *
      rw [Run.run_append, Run.run_cons, Run.run_nil] at hin
      by_cases hbefore : inReview task (Run.run (next nfc sys) s ops) = true
      · obtain ⟨hops, hop⟩ := freshRecordings_concat.mp hfresh
        obtain ⟨e, m, h⟩ := ih hops hbefore
        exact ⟨e, m, h.step hkept hop hbefore hin⟩
      · exact ⟨_, _, marked_of_enters (Bool.eq_false_of_not_eq_true hbefore) hin⟩

/-- **A review verdict is about work submitted before it**: in every run whose recordings are fresh, a
verdict that `observe` takes is on a task in review, by its newest round, which was snapshotted after the
task's latest move there; and a pass is of a round that held no must-fix. -/
theorem verdict_after_submission {ops : List Op}
    (hfresh : FreshRecordings nfc sys (start base content landed strategies grants) ops) {task : Int}
    {actor : Actor} {now : Text} {s' : Store} {src dst : Phase} {ev : WorkflowEvent} {revoked : Nat}
    (h : observe (Run.run (next nfc sys) (start base content landed strategies grants) ops) task actor now =
      .ok (s', .to src ev dst revoked)) (hv : ev.isVerdict = true) :
    src = .review ∧ ∃ round,
      Newest (Run.run (next nfc sys) (start base content landed strategies grants) ops).reviews [task] round ∧
      SnapshottedSince nfc sys (start base content landed strategies grants) ops task round ∧
      (ev = .reviewPassed →
        Clean (Run.run (next nfc sys) (start base content landed strategies grants) ops).reviews round) := by
  obtain ⟨rfl, hin, round, m, hnewest, hentered, hlt, hclean⟩ := judged_of_observe h hv
  obtain ⟨e, m', hmarked⟩ := marked_run hfresh hin
  obtain rfl : m' = m := Option.some.inj (hmarked.entered.symm.trans hentered)
  have hnot := (hmarked.newer round hnewest).resolve_left (by omega)
  exact ⟨rfl, round, hnewest, ⟨e, hmarked.entry, hnot⟩, hclean⟩

end Fresh

/-! ## a round snapshotted after the work it judges was submitted, and one snapshotted before -/

/-- Two tasks, and a finished finding that is no must-fix. -/
def twoTasks : Query.Store where
  items :=
    { rows := [{ id := 1, uid := "task:a".toList, kind := "task".toList, status := some .needsReview },
        { id := 2, uid := "task:b".toList, kind := "task".toList, status := some .needsReview },
        { id := 3, uid := "task:f".toList, kind := "task".toList, status := some .done, priority := some 3 }]
      nodup := by decide
      last := 3
      le_last := by decide }

/-- What SQLite answers on a store that nothing asks for a date or a text. -/
def noText : Sqlite := ⟨some, [], fun _ => .ok []⟩

/-- No workflow has moved. -/
def fresh : Store := start twoTasks (fun _ => none) (fun _ => false) [] .empty

/-- The second task is taken into review. -/
def submits : List Op :=
  [.fire 2 .submitDesign .operator none none [], .fire 2 .approveDesign .operator none none [],
    .fire 2 .submitWork .operator none none []]

/-- A round of the first task is recorded for a task. -/
def recordRound (task : Int) : Op :=
  .review (.record task "r/1".toList "a".toList "w".toList (.filed "w".toList))

/-- A round that a worker filed. -/
def fileRound : Op := .review (.recordFiling "r/1".toList [3] "w".toList)

/-- The second task is submitted, and then a round is recorded for it. -/
def recordedFirst : List Op := fileRound :: submits ++ [recordRound 2]

/-- In that run, every round is recorded when it is new. -/
theorem freshRecordings_recordedFirst : FreshRecordings id noText fresh recordedFirst := by
  have hnone : (Run.run (next id noText) fresh (fileRound :: submits)).reviews.rounds.find "r/1".toList =
      none := by
    decide +kernel
  refine freshRecordings_concat.mpr ⟨fun before task ns sha actor source after heq => ?_,
    fun task ns sha actor source heq _ _ round hfind => ?_⟩
  · -- nothing is recorded before the last step
    have hmem : Op.review (.record task ns sha actor source) ∈ fileRound :: submits := by
      rw [heq]
      simp
    simp [fileRound, submits] at hmem
  · cases heq
    exact absurd (hnone.symm.trans hfind) (by simp)

/-- The second task passes on the round recorded for it, which was snapshotted after it was submitted. -/
theorem recordedFirst_passes :
    ∃ s', observe (Run.run (next id noText) fresh recordedFirst) 2 .operator [] =
        .ok (s', .to .review .reviewPassed .landable 0) ∧
      ∃ round, SnapshottedSince id noText fresh recordedFirst 2 round ∧
        Clean (Run.run (next id noText) fresh recordedFirst).reviews round := by
  have hpass : (observe (Run.run (next id noText) fresh recordedFirst) 2 .operator []).map (·.2) =
      .ok (.to .review .reviewPassed .landable 0) := by
    decide +kernel
  obtain ⟨⟨s', m⟩, hs', rfl⟩ := Tx.map_eq_ok.mp hpass
  obtain ⟨-, round, -, hsince, hclean⟩ :=
    verdict_after_submission freshRecordings_recordedFirst hs' rfl
  exact ⟨s', hs', round, hsince, hclean rfl⟩

/-- A round is recorded for the first task, then the second is submitted, and the round is recorded for it
too. -/
def recordedLate : List Op := fileRound :: recordRound 1 :: submits ++ [recordRound 2]

/-- The second task passes, and every round there is was snapshotted before it was submitted. -/
theorem recordedLate_passes :
    (observe (Run.run (next id noText) fresh recordedLate) 2 .operator []).map (·.2) =
      .ok (.to .review .reviewPassed .landable 0) ∧
    ∀ round ∈ (Run.run (next id noText) fresh recordedLate).reviews.rounds.rows,
      (Run.lastEntry (next id noText) (inReview 2) fresh recordedLate).all fun e =>
        round ∈ e.reviews.rounds.rows := by
  decide +kernel

/-- A pass is taken on a round that was filed before the work it judges was submitted. -/
theorem verdict_before_submission : ¬ ∀ (nfc : Text → Text) (sys : Sqlite) (base : Query.Store)
    (content : Int → Option Text) (landed : Int → Bool) (strategies : List Definition) (grants : Grants)
    (ops : List Op) (task : Int) (actor : Actor) (now : Text) (s' : Store) (src dst : Phase)
    (ev : WorkflowEvent) (revoked : Nat),
    let s₀ := start base content landed strategies grants
    let s := Run.run (next nfc sys) s₀ ops
    observe s task actor now = .ok (s', .to src ev dst revoked) → ev.isVerdict = true →
      src = .review ∧ ∃ round, Newest s.reviews [task] round ∧ SnapshottedSince nfc sys s₀ ops task round ∧
        (ev = .reviewPassed → Clean s.reviews round) := by
  intro h
  obtain ⟨hpass, hold⟩ := recordedLate_passes
  obtain ⟨⟨s', m⟩, hs', rfl⟩ := Tx.map_eq_ok.mp hpass
  obtain ⟨-, round, hnewest, ⟨e, he, hnot⟩, -⟩ := h id noText twoTasks (fun _ => none) (fun _ => false) []
    .empty recordedLate 2 .operator [] s' .review .landable .reviewPassed 0 hs' rfl
  have hin := hold round hnewest.1.1
  rw [fresh, he, Option.all_some, decide_eq_true_eq] at hin
  exact hnot hin

end Jkb.Workflow
