import Jkb.Core.Claim
import Jkb.Core.Lifecycle
import Jkb.Tx

/-!
# Jkb.Core.Transition

Performing a transition of the task lifecycle: the machine is asked, and where it moves the whole plan is
applied to the task's row, or none of it, and the move is recorded. `lifecycle_run` is about any run of
the operations on one task's status and claim, and `perform_again` about a verb that is run twice.
-/

namespace Jkb.Transition

open Jkb.Claim Jkb.Fsm Jkb.Lifecycle Jkb.Text

/-- One entry of a task's history. -/
structure HistoryRow where
  event : TaskEvent
  fromStatus : TaskStatus
  toStatus : TaskStatus
  agentId : Option Text
deriving Repr, DecidableEq

/-- A task: its row, its history, and its workflow, of which only the landing is the lifecycle's. -/
structure Task (W : Type) where
  item : Item
  history : List HistoryRow := []
  workflow : W

/-- A created task: open and unclaimed. -/
def created {W : Type} (id : Int) (workflow : W) : Task W :=
  { item := { id, status := .«open» }, workflow }

/-- Write one effect of a plan. -/
def applyEffect (now : Text) (item : Item) : TaskEffect → Except Fmt Item
  | .setStatus status => .ok { item with status }
  | .claim owner => do
      let (got, item) ← claim item owner.asStr now
      if got then return item
      else .error ["task ", item.id, " was claimed by somebody else between the check and the write"]
  | .releaseClaim => .ok (clear item).2
  | .reclaimFrom owner => .ok (reclaim item owner.asStr).2

/-- Apply a plan. -/
def applyEffects (now : Text) (item : Item) (effects : List TaskEffect) : Except Fmt Item :=
  effects.foldlM (applyEffect now) item

section Perform

variable {W : Type} (followLanding : W → Except Fmt W)

/-- Ask the lifecycle for `event`, and if it moves, write the whole plan and record it. A landing parks
the workflow in the same transaction. -/
def perform (task : Task W) (facts : TaskFacts) (event : TaskEvent) (now : Text) :
    Except Fmt (TaskOutcome × Task W) :=
  match Lifecycle.apply facts event with
  | .moved src e dst effects => do
      let item ← applyEffects now task.item effects
      let row : HistoryRow := ⟨event, src, dst, facts.actor.map AgentId.asStr⟩
      let workflow ←
        (if dst = .done ∧ (event = .land ∨ event = .observedLanded) then followLanding task.workflow
          else .ok task.workflow)
      return (.moved src e dst effects, { item, history := task.history ++ [row], workflow })
  | outcome => .ok (outcome, task)

/-- The status and the claimant of a task's row, among what has been observed. -/
def agreeing (task : Task W) (facts : TaskFacts) : TaskFacts :=
  { facts with
    status := task.item.status
    claimant := task.item.claimantId.map AgentId.parse }

/-- Free the claim if `judge` answers that its owner is gone. What `observe` reads elsewhere is given. -/
def reclaimJudged (task : Task W) (judge : ClaimInfo → Fact) (fileBacked openSubtasks : Fact)
    (now : Text) : Except Fmt (Task W) :=
  match claimed task.item with
  | none => .ok task
  | some c =>
      match judge c with
      | .no => do
          let facts : TaskFacts :=
            { agreeing task { fileBacked, openSubtasks } with
              claimant := some (AgentId.parse c.owner)
              ownerAlive := .no }
          let (_, task) ← perform followLanding task facts .observedOwnerGone now
          return task
      | _ => .ok task

/-! ## operations -/

/-- An operation on one task's status and claim. The facts of a transition are those given, with the
row's own status and claimant. -/
inductive Op where
  | perform (event : TaskEvent) (facts : TaskFacts) (now : Text)
  | claim (owner now : Text)
  | release (owner : Text)
  | clearIf (expectedOwner : Text)
  | reclaimJudged (judge : ClaimInfo → Fact) (fileBacked openSubtasks : Fact) (now : Text)

/-- An operation, in a transaction of its own. -/
def Op.run (task : Task W) : Op → Except Fmt (Task W)
  | .perform event facts now => (Transition.perform followLanding task (agreeing task facts) event now).map (·.2)
  | .claim owner now => (Claim.claim task.item owner now).map fun p => { task with item := p.2 }
  | .release owner => .ok { task with item := (Claim.release task.item owner).2 }
  | .clearIf owner => .ok { task with item := (Claim.clearIf task.item owner).2 }
  | .reclaimJudged judge fileBacked openSubtasks now =>
      Transition.reclaimJudged followLanding task judge fileBacked openSubtasks now

/-- The task after an operation: as it was, where the operation is refused. -/
def next (task : Task W) (op : Op) : Task W := Tx.commit (op.run followLanding task) task

end Perform

/-! ## what the plans do -/

/-- The effects of a move, by where it goes. -/
inductive Planned (f : TaskFacts) : TaskStatus → List TaskEffect → Prop
  | claims (owner : AgentId) (h : f.actor = some owner) : Planned f .inProgress [.claim owner]
  | sets (s : TaskStatus) (h : s.isTerminal = false) : Planned f s [.setStatus s]
  | settles (s : TaskStatus) : Planned f s [.setStatus s, .releaseClaim]
  | reclaims (owner : AgentId) : Planned f f.status [.reclaimFrom owner]

/-- What a row plans when it moves a task. -/
def Plans (t : TaskRow) : Prop :=
  ∀ f dst, t.src = f.status → (∀ g, t.guard = some g → g f = .allow) → resolve t.dest f = .to dst →
    Planned f dst ((t.plan.map fun p => p f).getD [])

section Rows

variable {src dst : TaskStatus} {e : TaskEvent} {guard : Option (TaskFacts → Verdict TaskEvent)}

/-- A row plans well if its effects lead to where it goes. -/
theorem plans_to {plan : TaskFacts → List TaskEffect}
    (h : ∀ f, src = f.status → (∀ g, guard = some g → g f = .allow) → Planned f dst (plan f)) :
    Plans ⟨src, e, .to dst, guard, some plan⟩ := by
  intro f d hsrc hguard hdest
  obtain rfl := Resolved.to.inj hdest
  exact h f hsrc hguard

/-- The row of a start plans well. -/
theorem plans_start : Plans ⟨src, e, .to .inProgress, guard, some takeClaim⟩ := by
  refine plans_to fun f _ _ => ?_
  unfold takeClaim
  cases hactor : f.actor with
  | none => exact .sets .inProgress rfl
  | some owner => exact .claims owner hactor

/-- So does a row that sets a status that is not terminal. -/
theorem plans_set {s : TaskStatus} {plan : TaskFacts → List TaskEffect} (hs : s.isTerminal = false)
    (h : ∀ f, plan f = [.setStatus s]) : Plans ⟨src, e, .to s, guard, some plan⟩ := by
  refine plans_to fun f _ _ => ?_
  rw [h]
  exact .sets s hs

/-- So does one that sets a status and releases the claim. -/
theorem plans_settle {s : TaskStatus} {plan : TaskFacts → List TaskEffect}
    (h : ∀ f, plan f = [.setStatus s, .releaseClaim]) : Plans ⟨src, e, .to s, guard, some plan⟩ := by
  refine plans_to fun f _ _ => ?_
  rw [h]
  exact .settles s

/-- So does the row of a release. -/
theorem plans_release : Plans ⟨src, e, .to src, some ownerGone, some planRelease⟩ := by
  refine plans_to fun f hsrc hguard => ?_
  have hgone := hguard ownerGone rfl
  unfold planRelease
  cases hclaim : f.claimant with
  | none => simp [ownerGone, hclaim, Fact.ofBool, requireYes, Fact.isYes, allOf] at hgone
  | some owner =>
      subst hsrc
      exact .reclaims owner

/-- So does the row of a stated status. -/
theorem plans_stated : Plans (statedRow src e guard) := by
  intro f d _ _ hdest
  simp only [statedRow, resolve, stated] at hdest
  cases hstated : f.stated with
  | none => simp [hstated] at hdest
  | some s =>
      have hall : s ∈ TaskStatus.all := by cases s <;> decide
      simp only [hstated, if_pos hall, Resolved.to.injEq] at hdest
      subst hdest
      simp only [statedRow, Option.map_some, Option.getD_some, planStated, hstated, settle]
      cases hs : s.isTerminal with
      | true => exact .settles s
      | false => exact .sets s hs

/-- **Every row's plan**, in one look at the table. -/
theorem plans_rows : ∀ t ∈ rows, Plans t := by
  simp only [rows, List.forall_mem_cons]
  refine ⟨plans_start, plans_start, plans_start, ?_, ?_, ?_, ?_, ?_, ?_, ?_, ?_, ?_, ?_, ?_, ?_, ?_, ?_, ?_,
    ?_, ?_, ?_, ?_, ?_, plans_release, plans_release, plans_release, plans_stated, plans_stated, plans_stated,
    plans_stated, plans_stated, plans_stated, plans_stated, plans_stated, plans_stated, plans_stated, ?_⟩
  all_goals first
    | exact plans_set rfl fun _ => rfl
    | exact plans_settle fun _ => rfl
    | simp

end Rows

/-- **What a move of a task plans.** -/
theorem planned_of_moved {f : TaskFacts} {e e' : TaskEvent} {src dst : TaskStatus}
    {effects : List TaskEffect} (h : Lifecycle.apply f e = .moved src e' dst effects) :
    src = f.status ∧ Planned f dst effects := by
  obtain ⟨rfl, -, t, hmem, hsrc, -, -, hguard, hdest, rfl⟩ := Machine.apply_eq_moved h
  exact ⟨rfl, plans_rows t hmem f dst hsrc hguard hdest⟩

/-! ## what a plan leaves -/

/-- Effects are applied one after another. -/
theorem applyEffects_cons {now : Text} {item item' : Item} {x : TaskEffect} {effects : List TaskEffect} :
    applyEffects now item (x :: effects) = .ok item' ↔
      ∃ mid, applyEffect now item x = .ok mid ∧ applyEffects now mid effects = .ok item' := by
  rw [applyEffects, List.foldlM_cons, Tx.bind_eq_ok]
  rfl

/-- No effect changes nothing. -/
theorem applyEffects_nil {now : Text} {item item' : Item} (h : applyEffects now item [] = .ok item') :
    item' = item := (Except.ok.inj h).symm

/-- A plan of one effect. -/
theorem applyEffects_one {now : Text} {item item' : Item} {x : TaskEffect}
    (h : applyEffects now item [x] = .ok item') : applyEffect now item x = .ok item' := by
  obtain ⟨mid, heffect, hrest⟩ := applyEffects_cons.mp h
  rwa [applyEffects_nil hrest]

/-- The plan that takes a claim leaves the task started and held, where the claim was free or the
owner's. -/
theorem applyEffects_claims {now : Text} {item item' : Item} {owner : AgentId}
    (h : applyEffects now item [.claim owner] = .ok item') :
    (item.claimantId = none ∨ item.claimantId = some owner.asStr) ∧
      item' = { item with claimantId := some owner.asStr, claimedAt := some now, status := .inProgress } := by
  obtain ⟨⟨got, mid⟩, hclaim, hgot⟩ := Tx.bind_eq_ok.mp (applyEffects_one h)
  obtain ⟨-, ⟨rfl, hfree, rfl⟩ | ⟨rfl, -⟩⟩ := claim_eq_ok hclaim
  · exact ⟨hfree, (Except.ok.inj hgot).symm⟩
  · cases hgot

/-- A status that is set is the only thing that changes. -/
theorem applyEffects_sets {now : Text} {item item' : Item} {s : TaskStatus}
    (h : applyEffects now item [.setStatus s] = .ok item') : item' = { item with status := s } :=
  (Except.ok.inj (applyEffects_one h)).symm

/-- A task that is settled has no claim. -/
theorem applyEffects_settles {now : Text} {item item' : Item} {s : TaskStatus}
    (h : applyEffects now item [.setStatus s, .releaseClaim] = .ok item') :
    item'.status = s ∧ item'.claimantId = none := by
  obtain ⟨mid, heffect, hrest⟩ := applyEffects_cons.mp h
  obtain rfl := Except.ok.inj heffect
  obtain rfl := Except.ok.inj (applyEffects_one hrest)
  exact ⟨(clears_clearInner _ none).status, claimantId_clear _⟩

/-- A claim that is reclaimed is cleared where its owner has it. -/
theorem applyEffects_reclaims {now : Text} {item item' : Item} {owner : AgentId}
    (h : applyEffects now item [.reclaimFrom owner] = .ok item') :
    item' = (clearInner item (some owner.asStr)).2 := (Except.ok.inj (applyEffects_one h)).symm

/-- **The status a plan leaves** is the one it moves to. -/
theorem Planned.status {f : TaskFacts} {dst : TaskStatus} {effects : List TaskEffect}
    (h : Planned f dst effects) {now : Text} {item item' : Item} (hstatus : f.status = item.status)
    (hok : applyEffects now item effects = .ok item') : item'.status = dst := by
  cases h with
  | claims owner hactor =>
      obtain ⟨-, rfl⟩ := applyEffects_claims hok
      rfl
  | sets s hs =>
      obtain rfl := applyEffects_sets hok
      rfl
  | settles => exact (applyEffects_settles hok).1
  | reclaims owner =>
      obtain rfl := applyEffects_reclaims hok
      exact (clears_clearInner item (some owner.asStr)).status.trans hstatus.symm

/-- **What a plan leaves** is no finished task held, and a claim its owner's. -/
theorem Planned.keeps {f : TaskFacts} {dst : TaskStatus} {effects : List TaskEffect}
    (h : Planned f dst effects) {now : Text} {item item' : Item} (hitem : Settled item)
    (hok : applyEffects now item effects = .ok item') : Settled item' ∧ KeepsOwner item item' := by
  cases h with
  | claims owner hactor =>
      obtain ⟨hfree, rfl⟩ := applyEffects_claims hok
      refine ⟨fun hterminal => (by cases hterminal), fun a b ha hb => ?_⟩
      rw [ha] at hfree
      grind
  | sets s hs =>
      obtain rfl := applyEffects_sets hok
      exact ⟨fun hterminal => absurd hterminal (by simp [hs]), fun a b ha hb => KeepsOwner.refl item a b ha hb⟩
  | settles =>
      obtain ⟨-, hfree⟩ := applyEffects_settles hok
      exact ⟨fun _ => hfree, .of_none hfree⟩
  | reclaims owner =>
      obtain rfl := applyEffects_reclaims hok
      exact (clears_clearInner item (some owner.asStr)).keeps hitem

/-- **A plan applied twice** leaves the status and the claimant that it left once. -/
theorem Planned.twice {f : TaskFacts} {dst : TaskStatus} {effects : List TaskEffect}
    (h : Planned f dst effects) {now later : Text} {item item' item'' : Item}
    (hok : applyEffects now item effects = .ok item') (hagain : applyEffects later item' effects = .ok item'') :
    item''.status = item'.status ∧ item''.claimantId = item'.claimantId := by
  cases h with
  | claims owner hactor =>
      obtain ⟨-, rfl⟩ := applyEffects_claims hok
      obtain ⟨-, rfl⟩ := applyEffects_claims hagain
      exact ⟨rfl, rfl⟩
  | sets s hs =>
      obtain rfl := applyEffects_sets hok
      obtain rfl := applyEffects_sets hagain
      exact ⟨rfl, rfl⟩
  | settles =>
      obtain ⟨hs, hfree⟩ := applyEffects_settles hok
      obtain ⟨hs', hfree'⟩ := applyEffects_settles hagain
      exact ⟨hs'.trans hs.symm, hfree'.trans hfree.symm⟩
  | reclaims owner =>
      obtain rfl := applyEffects_reclaims hok
      obtain rfl := applyEffects_reclaims hagain
      exact ⟨(clears_clearInner _ _).status, clearInner_twice item _⟩

section Perform

variable {W : Type} {followLanding : W → Except Fmt W}

/-- What a transition that is performed is: a plan that was applied, or an outcome that changes
nothing. -/
theorem perform_eq_ok {task task' : Task W} {f : TaskFacts} {e : TaskEvent} {now : Text} {o : TaskOutcome}
    (h : perform followLanding task f e now = .ok (o, task')) :
    o = Lifecycle.apply f e ∧
      ((∃ src dst effects, o = .moved src e dst effects ∧
          applyEffects now task.item effects = .ok task'.item) ∨
        ((∀ src e' dst effects, o ≠ .moved src e' dst effects) ∧ task' = task)) := by
  unfold perform at h
  split at h
  · rename_i src e' dst effects happly
    obtain ⟨rfl, -, -⟩ := Machine.apply_eq_moved happly |>.2
    obtain ⟨item, heffects, h⟩ := Tx.bind_eq_ok.mp h
    obtain ⟨workflow, -, h⟩ := Tx.bind_eq_ok.mp h
    obtain ⟨rfl, rfl⟩ := Prod.mk.inj (Except.ok.inj h)
    exact ⟨happly.symm, Or.inl ⟨src, dst, effects, rfl, heffects⟩⟩
  · rename_i o' hnot
    obtain ⟨rfl, rfl⟩ := Prod.mk.inj (Except.ok.inj h)
    exact ⟨rfl, Or.inr ⟨hnot, rfl⟩⟩

/-- **One transition**, on facts that agree with the row: where it moves, the row has the status it moved
to; and a task is not left finished and held, nor with its claim handed on. -/
theorem perform_keeps {task task' : Task W} {f : TaskFacts} {e : TaskEvent} {now : Text} {o : TaskOutcome}
    (hstatus : f.status = task.item.status) (htask : Settled task.item)
    (h : perform followLanding task f e now = .ok (o, task')) :
    (∀ src e' dst effects, o = .moved src e' dst effects → task'.item.status = dst) ∧
      Settled task'.item ∧ KeepsOwner task.item task'.item := by
  obtain ⟨happly, ⟨src, dst, effects, rfl, heffects⟩ | ⟨hnot, rfl⟩⟩ := perform_eq_ok h
  · obtain ⟨-, hplanned⟩ := planned_of_moved happly.symm
    refine ⟨fun src' e' dst' effects' heq => ?_, hplanned.keeps htask heffects⟩
    rw [hplanned.status hstatus heffects, (Outcome.moved.inj heq).2.2.1]
  · exact ⟨fun src e' dst effects heq => absurd heq (hnot src e' dst effects), htask, .refl _⟩

/-! ## runs -/

/-- **One operation** leaves no finished task held, and a claim its owner's. -/
theorem next_keeps {task : Task W} (htask : Settled task.item) (op : Op) :
    Settled (next followLanding task op).item ∧ KeepsOwner task.item (next followLanding task op).item := by
  unfold next
  cases hrun : op.run followLanding task with
  | error e => exact ⟨htask, .refl _⟩
  | ok task' =>
      cases op with
      | perform event facts now =>
          rw [Op.run] at hrun
          obtain ⟨⟨o, t⟩, hperform, rfl⟩ := Tx.map_eq_ok.mp hrun
          exact (perform_keeps rfl htask hperform).2
      | claim owner now =>
          obtain ⟨⟨got, item⟩, hclaim, rfl⟩ := Tx.map_eq_ok.mp hrun
          exact claim_keeps htask hclaim
      | release owner =>
          obtain rfl := Except.ok.inj hrun
          exact (clears_release task.item owner).keeps htask
      | clearIf owner =>
          obtain rfl := Except.ok.inj hrun
          exact (clears_clearIf task.item owner).keeps htask
      | reclaimJudged judge fileBacked openSubtasks now =>
          simp only [Op.run, reclaimJudged] at hrun
          split at hrun
          · obtain rfl := Except.ok.inj hrun
            exact ⟨htask, .refl _⟩
          · split at hrun
            · obtain ⟨⟨o, t⟩, hperform, hrun⟩ := Tx.bind_eq_ok.mp hrun
              obtain rfl := Except.ok.inj hrun
              exact (perform_keeps rfl htask hperform).2
            · obtain rfl := Except.ok.inj hrun
              exact ⟨htask, .refl _⟩

/-- Where a task stays held, its owner stays. -/
theorem owner_of_throughout {task : Task W} (htask : Settled task.item) {ops : List Op} {a b : Text}
    (hheld : Run.Throughout (next followLanding) (fun t => t.item.claimantId.isSome) task ops)
    (ha : task.item.claimantId = some a)
    (hb : (Run.run (next followLanding) task ops).item.claimantId = some b) : a = b := by
  induction ops generalizing task with
  | nil => exact KeepsOwner.refl task.item a b ha hb
  | cons op ops ih =>
      obtain ⟨hkeeps, howner⟩ := @next_keeps W followLanding task htask op
      obtain ⟨c, hc⟩ := Option.isSome_iff_exists.mp hheld.2.first
      obtain rfl := howner a c ha hc
      exact ih hkeeps hheld.2 hc hb

/-- A new task is settled. -/
theorem settled_created (id : Int) (workflow : W) : Settled (created id workflow).item := fun hterminal =>
  absurd hterminal Bool.false_ne_true

/-- **Any run of operations on a created task** leaves it not both finished and held; from there a claim
changes its owner only by being cleared in between; and a transition that moves leaves the status it says
it moved to. -/
theorem lifecycle_run (id : Int) (workflow : W) (ops : List Op) :
    let task := Run.run (next followLanding) (created id workflow) ops
    ¬ (task.item.status.isTerminal = true ∧ task.item.claimantId.isSome = true) ∧
    (∀ more a b,
      Run.Throughout (next followLanding) (fun t => t.item.claimantId.isSome) task more →
      task.item.claimantId = some a →
      (Run.run (next followLanding) task more).item.claimantId = some b → a = b) ∧
    ∀ facts e now src e' dst effects task',
      perform followLanding task (agreeing task facts) e now = .ok (.moved src e' dst effects, task') →
      task'.item.status = dst := by
  intro task
  have hsettled : Settled task.item :=
    @Run.run_invariant _ _ (next followLanding) (fun t => Settled t.item)
      (fun t op ht => (next_keeps ht op).1) _ (settled_created id workflow) ops
  refine ⟨fun ⟨hterminal, hheld⟩ => ?_, fun more a b hheld ha hb => ?_, ?_⟩
  · rw [hsettled hterminal] at hheld
    cases hheld
  · exact owner_of_throughout hsettled hheld ha hb
  · intro facts e now src e' dst effects task' h
    exact (perform_keeps rfl hsettled h).1 _ _ _ _ rfl

/-- A task that one owner claimed is still that owner's after it is claimed again. -/
theorem lifecycle_run_claimed :
    let task := Run.run (next Except.ok) (created 1 ()) [.claim "host:1".toList "t1".toList]
    ∀ b, (Run.run (next Except.ok) task [.claim "host:1".toList "t2".toList]).item.claimantId = some b →
      "host:1".toList = b :=
  fun b hb => (@lifecycle_run Unit Except.ok 1 () [.claim "host:1".toList "t1".toList]).2.1
    [.claim "host:1".toList "t2".toList] "host:1".toList b ⟨rfl, rfl⟩ rfl hb

/-! ## a verb run twice -/

/-- A verb of the table is declared again where it leads, with the same plan, to the same state. -/
def Repeats (t : TaskRow) : Prop :=
  Event.kind t.event = .applied → t.event ≠ .override →
    ∃ dst, t.dest = .to dst ∧
      ∃ t', machine.row dst t.event = some t' ∧ t'.dest = .to dst ∧ t'.plan = t.plan ∧
        ∀ f f' : TaskFacts, f'.actor = f.actor →
          (t.plan.map fun p => p f') = (t.plan.map fun p => p f)

/-- **Every row of an applied event can be repeated**, but an override's. -/
theorem repeats_rows : ∀ t ∈ rows, Repeats t := by
  have hstart : ∀ f f' : TaskFacts, f'.actor = f.actor → takeClaim f' = takeClaim f := by
    intro f f' hactor
    rw [takeClaim, takeClaim, hactor]
  simp only [rows, List.forall_mem_cons]
  repeat' apply And.intro
  all_goals first
    | exact fun hkind => absurd hkind (by decide)
    | exact fun _ hne => absurd rfl hne
    | exact fun _ _ => ⟨_, rfl, _, rfl, rfl, rfl, fun _ _ _ => rfl⟩
    | exact fun _ _ => ⟨_, rfl, _, rfl, rfl, rfl, fun f f' h => congrArg some (hstart f f' h)⟩
    | exact List.forall_mem_nil _

/-- **A verb is re-runnable.** Where a task is moved by an event that somebody asks for, the override
apart, the same event is answered again on the row that it left, by the same actor; and where it moves,
it leaves the status and the claimant that the first left. -/
theorem perform_again {task task' : Task W} {f f' : TaskFacts} {e : TaskEvent} {now later : Text}
    {src dst : TaskStatus} {effects : List TaskEffect} (hkind : Event.kind e = .applied)
    (hne : e ≠ .override) (hactor : f'.actor = f.actor)
    (hmoved : perform followLanding task (agreeing task f) e now = .ok (.moved src e dst effects, task')) :
    (∀ s e', Lifecycle.apply (agreeing task' f') e ≠ .undefined s e') ∧
      ∀ o task'', perform followLanding task' (agreeing task' f') e later = .ok (o, task'') →
        (∃ src' dst' effects', o = .moved src' e dst' effects') →
          task''.item.status = task'.item.status ∧ task''.item.claimantId = task'.item.claimantId := by
  obtain ⟨happly, ⟨_, _, _, heq, heffects⟩ | ⟨hnot, -⟩⟩ := perform_eq_ok hmoved
  · obtain ⟨rfl, -, rfl, rfl⟩ := Outcome.moved.inj heq
    obtain ⟨-, hplanned⟩ := planned_of_moved happly.symm
    obtain ⟨-, -, t, hmem, -, rfl, -, -, hdest, hplan⟩ := Machine.apply_eq_moved happly.symm
    obtain ⟨dst', hto, t', hrow, -, hsame, hactors⟩ := repeats_rows t hmem hkind hne
    rw [hto, resolve, Resolved.to.injEq] at hdest
    subst hdest
    have hstatus : (agreeing task' f').status = dst' := hplanned.status rfl heffects
    have hrow' : machine.row (Stateful.state (agreeing task' f')) t.event = some t' := by
      show machine.row (agreeing task' f').status t.event = some t'
      rw [hstatus]
      exact hrow
    refine ⟨Machine.apply_ne_undefined hrow', ?_⟩
    rintro o task'' hagain ⟨src', dst', effects', rfl⟩
    obtain ⟨happly', ⟨_, _, _, heq', heffects'⟩ | ⟨hnot, -⟩⟩ := perform_eq_ok hagain
    · obtain ⟨-, -, -, rfl⟩ := Outcome.moved.inj heq'
      obtain ⟨-, -, t₂, -, -, -, hrow₂, -, -, hplan'⟩ := Machine.apply_eq_moved happly'.symm
      obtain rfl := Option.some.inj (hrow'.symm.trans hrow₂)
      -- the same row's plan, which reads nothing of the facts but the actor
      have heffects₂ : effects' = effects := by
        rw [hplan', hplan, hsame, hactors (agreeing task f) (agreeing task' f') hactor]
      exact hplanned.twice heffects (heffects₂ ▸ heffects')
    · exact absurd rfl (hnot _ _ _ _)
  · exact absurd rfl (hnot _ _ _ _)

/-- A task that is started twice by one owner. -/
theorem perform_again_start :
    let facts : TaskFacts := { actor := some (.process "host".toList 1 none) }
    ∃ effects task', perform Except.ok (created 1 ()) (agreeing (created 1 ()) facts) .start "t1".toList =
        .ok (.moved .«open» .start .inProgress effects, task') ∧
      ∀ s e', Lifecycle.apply (agreeing task' facts) .start ≠ .undefined s e' :=
  ⟨_, _, rfl, (@perform_again Unit Except.ok (created 1 ()) _
    { actor := some (.process "host".toList 1 none) } { actor := some (.process "host".toList 1 none) }
    .start "t1".toList "t2".toList _ _ _ rfl (by decide) rfl rfl).1⟩

end Perform

end Jkb.Transition
