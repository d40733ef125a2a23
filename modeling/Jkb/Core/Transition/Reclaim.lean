import Jkb.Core.Transition
import Jkb.Table
import Mathlib.Data.List.Sort

/-!
# Jkb.Core.Transition.Reclaim

The crash-recovery net. A scan reads every claim, asks a judge about each, and frees those whose owner is
judged gone; what it freed is reported. The claim is cleared by a compare-and-set on the owner as it is
parsed and printed again, and the report goes by the transition alone, so a spelling that does not print as
it was stored is reported as freed and is not.
-/

namespace Jkb.Transition

open Jkb.Claim Jkb.Fsm Jkb.Lifecycle Jkb.Text

/-! ## the scan -/

/-- The tasks of a store. -/
abbrev Tasks (W : Type) := Table fun t : Task W => t.item.id

/-- The claim held on a task, by the owner's stored spelling. -/
def Tasks.claimantId {W : Type} (tasks : Tasks W) (id : Int) : Option Text :=
  (tasks.find? id).bind (·.item.claimantId)

/-- What a reclaim scan found: the claims whose owner is proven gone, now freed, and those of owners whose
liveness could not be established. -/
structure Reclaimed where
  cleared : List ClaimInfo := []
  unverifiable : List ClaimInfo := []
deriving Repr, DecidableEq

/-- Every claim that is held, by the ids of the tasks. -/
def claimedAll {W : Type} (tasks : Tasks W) : List ClaimInfo :=
  (tasks.rows.filterMap fun t => claimed t.item).mergeSort fun a b => a.id ≤ b.id

/-- What a judge, which may remember what it was asked, answers about some claims in turn. -/
def judged {J : Type} (judge : J → ClaimInfo → Fact × J) : J → List ClaimInfo → List (ClaimInfo × Fact)
  | _, [] => []
  | j, c :: claims => (c, (judge j c).1) :: judged judge (judge j c).2 claims

section Scan

variable {W : Type} (followLanding : W → Except Fmt W) (observed : Int → Fact × Fact) (now : Text)

/-- The facts about the task of a claim whose owner is judged gone. What `observe` reads beside the task's row
is given. -/
def goneFacts (task : Task W) (c : ClaimInfo) : TaskFacts :=
  { agreeing task { fileBacked := (observed c.id).1, openSubtasks := (observed c.id).2 } with
    claimant := some (AgentId.parse c.owner)
    ownerAlive := .no }

/-- One claim of a scan, judged. -/
def reclaimOne (found : Tasks W × Reclaimed) (c : ClaimInfo × Fact) : Except Fmt (Tasks W × Reclaimed) :=
  match c.2 with
  | .no =>
      match found.1.find? c.1.id with
      | none => .error ["task ", c.1.id]
      | some task => do
          let (outcome, task') ← perform followLanding task (goneFacts observed task c.1) .observedOwnerGone now
          let tasks := found.1.updateWhere (·.item.id = c.1.id)
            (fun t => { task' with item := { task'.item with id := t.item.id } }) fun _ => rfl
          return match outcome with
            | .moved .. => (tasks, { found.2 with cleared := found.2.cleared ++ [c.1] })
            | _ => (tasks, found.2)
  | .unknown => .ok (found.1, { found.2 with unverifiable := found.2.unverifiable ++ [c.1] })
  | .yes => .ok found

/-- Free every claim that the judge answers `no` for, and report those it answers `unknown` for. -/
def reclaimAll {J : Type} (judge : J → ClaimInfo → Fact × J) (j : J) (tasks : Tasks W) :
    Except Fmt (Tasks W × Reclaimed) :=
  (judged judge j (claimedAll tasks)).foldlM (reclaimOne followLanding observed now) (tasks, {})

end Scan

/-! ## one claim -/

/-- What the lifecycle answers about a task whose owner is judged gone: one effect, unless the task is over. -/
theorem apply_gone {f : TaskFacts} {owner : AgentId} (hclaimant : f.claimant = some owner)
    (hgone : f.ownerAlive = .no) :
    if f.status.isTerminal then Lifecycle.apply f .observedOwnerGone = .undefined f.status .observedOwnerGone
    else Lifecycle.apply f .observedOwnerGone =
      .moved f.status .observedOwnerGone f.status [.reclaimFrom owner] := by
  obtain ⟨status, _, claimant, alive, _, _, _, _, _, _, _, _, _, _, _⟩ := f
  obtain rfl : claimant = some owner := hclaimant
  obtain rfl : alive = .no := hgone
  cases status <;> rfl

section One

variable {W : Type} {followLanding : W → Except Fmt W} {observed : Int → Fact × Fact} {now : Text}

/-- Whether a task is there and not over. -/
def Tasks.Live (tasks : Tasks W) (id : Int) : Prop :=
  ∃ task, tasks.find? id = some task ∧ task.item.status.isTerminal = false

/-- Whether an owner is stored as it is printed. -/
def Canonical (owner : Text) : Prop := (AgentId.parse owner).asStr = owner

instance (owner : Text) : Decidable (Canonical owner) := inferInstanceAs (Decidable (_ = _))

/-- One task, replaced under its id. -/
theorem find?_replaced (tasks : Tasks W) {id : Int} {task task' : Task W} (htask : tasks.find? id = some task)
    (hid : task'.item.id = id) (k : Int) :
    (tasks.updateWhere (·.item.id = id) (fun t => { task' with item := { task'.item with id := t.item.id } })
      fun _ => rfl).find? k = if k = id then some task' else tasks.find? k := by
  rw [Table.find?_updateWhere]
  by_cases hk : k = id
  · subst hk
    have hkey := Table.key_of_find? htask
    rw [if_pos rfl, htask, Option.map_some, decide_eq_true hkey, if_pos rfl, hkey, ← hid]
  · rw [if_neg hk]
    cases hfound : tasks.find? k with
    | none => rfl
    | some t =>
        have hne : t.item.id ≠ id := fun h => hk ((Table.key_of_find? hfound).symm.trans h)
        simp [hne]

/-- The compare-and-set. -/
theorem claimantId_reclaim (item : Item) (owner : Text) :
    (reclaim item owner).2.claimantId = if item.claimantId = some owner then none else item.claimantId := by
  unfold reclaim clearInner
  by_cases h : item.claimantId = some owner <;> simp [h]

variable (followLanding observed now) in
/-- What the transition of a claim that is judged gone leaves of the task, and whether it moved. -/
theorem perform_gone (task : Task W) (c : ClaimInfo) :
    ∃ history, perform followLanding task (goneFacts observed task c) .observedOwnerGone now =
      .ok (if task.item.status.isTerminal then (.undefined task.item.status .observedOwnerGone, task)
        else (.moved task.item.status .observedOwnerGone task.item.status [.reclaimFrom (AgentId.parse c.owner)],
          { task with item := (reclaim task.item (AgentId.parse c.owner).asStr).2, history })) := by
  have happly := @apply_gone (goneFacts observed task c) (AgentId.parse c.owner) rfl rfl
  have hstatus : (goneFacts observed task c).status = task.item.status := rfl
  rw [hstatus] at happly
  by_cases hover : task.item.status.isTerminal = true
  · rw [if_pos hover] at happly
    exact ⟨[], by rw [perform, happly, if_pos hover]⟩
  · rw [if_neg hover] at happly
    refine ⟨task.history ++ [⟨.observedOwnerGone, task.item.status, task.item.status, none⟩], ?_⟩
    rw [perform, happly, if_neg hover]
    simp only [reduceCtorEq, or_self, and_false, if_false]
    rfl

variable (followLanding observed now) in
/-- **A claim that is judged gone.** It is cleared where it is still held under the spelling that its owner is
printed as, and reported as cleared wherever the task is not over. -/
theorem reclaimOne_gone {tasks : Tasks W} (found : Reclaimed) {c : ClaimInfo} {task : Task W}
    (htask : tasks.find? c.id = some task) :
    ∃ tasks', reclaimOne followLanding observed now (tasks, found) (c, .no) =
        .ok (tasks', if task.item.status.isTerminal then found
          else { found with cleared := found.cleared ++ [c] }) ∧
      (∀ k, (tasks'.find? k).map (·.item.status) = (tasks.find? k).map (·.item.status)) ∧
      ∀ k, tasks'.claimantId k =
        if k = c.id ∧ task.item.status.isTerminal = false ∧
          tasks.claimantId k = some (AgentId.parse c.owner).asStr then none else tasks.claimantId k := by
  obtain ⟨history, hperform⟩ := perform_gone followLanding observed now task c
  have hid := Table.key_of_find? htask
  have hclaimant : tasks.claimantId c.id = task.item.claimantId := by
    rw [Tasks.claimantId, htask]
    rfl
  have hclears := clears_clearInner task.item (some (AgentId.parse c.owner).asStr)
  simp only [reclaimOne, htask, hperform]
  by_cases hover : task.item.status.isTerminal = true
  · simp only [if_pos hover]
    refine ⟨_, rfl, fun k => ?_, fun k => ?_⟩
    · rw [find?_replaced tasks htask hid]
      by_cases hk : k = c.id
      · rw [if_pos hk, hk, htask]
      · rw [if_neg hk]
    · rw [Tasks.claimantId, find?_replaced tasks htask hid]
      by_cases hk : k = c.id
      · subst hk
        simp [hclaimant, hover]
      · simp [hk, Tasks.claimantId]
  · have hid' : (reclaim task.item (AgentId.parse c.owner).asStr).2.id = c.id := by
      rcases hclears with h | h <;> rw [reclaim, h] <;> exact hid
    simp only [if_neg hover]
    refine ⟨_, rfl, fun k => ?_, fun k => ?_⟩
    · rw [find?_replaced tasks htask hid']
      by_cases hk : k = c.id
      · rw [if_pos hk, hk, htask]
        exact congrArg some hclears.status
      · rw [if_neg hk]
    · rw [Tasks.claimantId, find?_replaced tasks htask hid']
      by_cases hk : k = c.id
      · subst hk
        simp [hclaimant, hover, claimantId_reclaim]
      · simp [hk, Tasks.claimantId]

end One

/-! ## a whole scan -/

section Scan

variable {W J : Type} {followLanding : W → Except Fmt W} {observed : Int → Fact × Fact} {now : Text}
  {judge : J → ClaimInfo → Fact × J}

/-- Which tasks are live is read of their statuses. -/
theorem live_congr {tasks tasks' : Tasks W}
    (h : ∀ k, (tasks'.find? k).map (·.item.status) = (tasks.find? k).map (·.item.status)) (k : Int) :
    tasks'.Live k ↔ tasks.Live k := by
  have hlive : ∀ ts : Tasks W, ts.Live k ↔ ∃ s, (ts.find? k).map (·.item.status) = some s ∧ s.isTerminal = false := by
    intro ts
    simp only [Tasks.Live, Option.map_eq_some_iff]
    constructor
    · rintro ⟨t, ht, hs⟩
      exact ⟨_, ⟨t, ht, rfl⟩, hs⟩
    · rintro ⟨_, ⟨t, ht, rfl⟩, hs⟩
      exact ⟨t, ht, hs⟩
  rw [hlive, hlive, h]

/-- The judge is asked of the claims, in their order. -/
theorem map_fst_judged (judge : J → ClaimInfo → Fact × J) (j : J) (claims : List ClaimInfo) :
    (judged judge j claims).map (·.1) = claims := by
  induction claims generalizing j with
  | nil => rfl
  | cons c claims ih => rw [judged, List.map_cons, ih]

/-- The claims are those of the tasks that have one. -/
theorem mem_claimedAll {tasks : Tasks W} {c : ClaimInfo} :
    c ∈ claimedAll tasks ↔ ∃ task, tasks.find? c.id = some task ∧ claimed task.item = some c := by
  rw [claimedAll, List.mem_mergeSort, List.mem_filterMap]
  refine exists_congr fun task => ⟨fun ⟨hmem, hc⟩ => ⟨?_, hc⟩, fun ⟨htask, hc⟩ => ⟨Table.mem_of_find? htask, hc⟩⟩
  have hid : task.item.id = c.id := by
    obtain ⟨owner, -, rfl⟩ := Option.map_eq_some_iff.mp hc
    rfl
  exact Table.find?_eq_some.mpr ⟨hmem, hid⟩

/-- A scan reads one claim of a task. -/
theorem nodup_claimedAll (tasks : Tasks W) : ((claimedAll tasks).map (·.id)).Nodup := by
  rw [claimedAll, ((List.mergeSort_perm _ _).map _).nodup_iff]
  refine tasks.nodup.sublist (Table.sublist_map_filterMap (fun task c hc => ?_) _)
  obtain ⟨owner, -, rfl⟩ := Option.map_eq_some_iff.mp hc
  rfl

variable (followLanding observed now) in
/-- **What a scan leaves**, of claims whose tasks are there: cleared is each that is judged gone and held, on a
task that is not over, under the spelling its owner prints as; reported is each that is judged gone, on a task
that is not over. -/
theorem foldlM_reclaimOne {claims : List (ClaimInfo × Fact)} {tasks : Tasks W} (found : Reclaimed)
    (hids : (claims.map (·.1.id)).Nodup) (hthere : ∀ c ∈ claims, ∃ task, tasks.find? c.1.id = some task) :
    ∃ after found', claims.foldlM (reclaimOne followLanding observed now) (tasks, found) = .ok (after, found') ∧
      (∀ k, after.claimantId k = none ↔ tasks.claimantId k = none ∨ ∃ c, (c, Fact.no) ∈ claims ∧ c.id = k ∧
        tasks.Live k ∧ tasks.claimantId k = some (AgentId.parse c.owner).asStr) ∧
      (∀ k, after.claimantId k = none ∨ after.claimantId k = tasks.claimantId k) ∧
      ∀ c, c ∈ found'.cleared ↔ c ∈ found.cleared ∨ (c, Fact.no) ∈ claims ∧ tasks.Live c.id := by
  induction claims generalizing tasks found with
  | nil => exact ⟨tasks, found, rfl, by simp, fun _ => Or.inr rfl, by simp⟩
  | cons p claims ih =>
      obtain ⟨c, verdict⟩ := p
      rw [List.map_cons, List.nodup_cons] at hids
      have hother : ∀ c' v, (c', v) ∈ claims → c'.id ≠ c.id := fun c' v hc' hid =>
        hids.1 (hid ▸ List.mem_map_of_mem (f := fun p : ClaimInfo × Fact => p.1.id) hc')
      have hrest := fun p hp => hthere p (List.mem_cons_of_mem _ hp)
      rw [List.foldlM_cons]
      cases verdict with
      | no =>
          obtain ⟨task, htask⟩ := hthere _ List.mem_cons_self
          obtain ⟨tasks₁, hone, hstatus, hclaimant⟩ := reclaimOne_gone followLanding observed now found htask
          have hthere₁ : ∀ p ∈ claims, ∃ task, tasks₁.find? p.1.id = some task := by
            intro p hp
            obtain ⟨t, ht⟩ := hrest p hp
            have hsome := hstatus p.1.id
            rw [ht] at hsome
            obtain ⟨t', ht', -⟩ := Option.map_eq_some_iff.mp hsome
            exact ⟨t', ht'⟩
          obtain ⟨after, found', hok, hnone, hsame, hcleared⟩ := ih _ hids.2 hthere₁
          have hlive : task.item.status.isTerminal = false ↔ tasks.Live c.id := by
            simp [Tasks.Live, htask]
          refine ⟨after, found', by rw [hone]; exact hok, fun k => ?_, fun k => ?_, fun c' => ?_⟩
          · rw [hnone, hclaimant]
            simp only [live_congr hstatus, hlive, List.mem_cons, Prod.mk.injEq, and_true]
            by_cases hk : k = c.id
            · subst hk
              have hnot : ∀ c', (c', Fact.no) ∈ claims → c'.id ≠ c.id := fun c' => hother c' .no
              grind
            · grind
          · rcases hsame k with h | h
            · exact Or.inl h
            · rw [h, hclaimant]
              split
              · exact Or.inl rfl
              · exact Or.inr rfl
          · rw [hcleared, live_congr hstatus]
            by_cases hover : task.item.status.isTerminal = true
            · have hdead : ¬ tasks.Live c.id := fun h => by simp [hlive.mpr h] at hover
              rw [if_pos hover]
              grind
            · have halive : tasks.Live c.id := hlive.mp (by simpa using hover)
              rw [if_neg hover]
              grind
      | yes =>
          obtain ⟨after, found', hok, hnone, hsame, hcleared⟩ := ih found hids.2 hrest
          exact ⟨after, found', hok, by simpa using hnone, hsame, by simpa using hcleared⟩
      | unknown =>
          obtain ⟨after, found', hok, hnone, hsame, hcleared⟩ :=
            ih { found with unverifiable := found.unverifiable ++ [c] } hids.2 hrest
          exact ⟨after, found', hok, by simpa using hnone, hsame, by simpa using hcleared⟩

variable (followLanding observed now judge) in
/-- **A scan reports exactly what it freed**: it names the tasks whose claim was held and is not any more; a claim
that the judge kept stays; and so does one that, its task standing where it stood, is not held any more by the
owner it was read with. -/
structure ReclaimsExactly (j : J) (tasks : Tasks W) : Prop where
  cleared : ∃ after found, reclaimAll followLanding observed now judge j tasks = .ok (after, found) ∧
    (∀ id, (∃ c ∈ found.cleared, c.id = id) ↔ tasks.claimantId id ≠ none ∧ after.claimantId id = none) ∧
    ∀ c v, (c, v) ∈ judged judge j (claimedAll tasks) → v ≠ .no →
      after.claimantId c.id = tasks.claimantId c.id
  changed : ∀ c, (c, Fact.no) ∈ judged judge j (claimedAll tasks) → ∀ (others after : Tasks W) found found',
    (others.find? c.id).map (·.item.status) = (tasks.find? c.id).map (·.item.status) →
    others.claimantId c.id ≠ some c.owner →
      reclaimOne followLanding observed now (others, found) (c, .no) = .ok (after, found') →
        after.claimantId c.id = others.claimantId c.id

/-- A claim that is judged was read of a task. -/
theorem task_of_judged {j : J} {tasks : Tasks W} {c : ClaimInfo} {v : Fact}
    (h : (c, v) ∈ judged judge j (claimedAll tasks)) :
    ∃ task, tasks.find? c.id = some task ∧ task.item.claimantId = some c.owner := by
  have hmem : c ∈ claimedAll tasks := by
    rw [← map_fst_judged judge j (claimedAll tasks)]
    exact List.mem_map_of_mem (f := Prod.fst) h
  obtain ⟨task, htask, hc⟩ := mem_claimedAll.mp hmem
  obtain ⟨owner, howner, rfl⟩ := Option.map_eq_some_iff.mp hc
  exact ⟨task, htask, howner⟩

/-- **A scan reports exactly what it freed where the owners judged gone are stored as they are printed**, those of
tasks that are over apart: nothing is freed of these, and nothing is reported. -/
theorem reclaimsExactly_iff (j : J) (tasks : Tasks W) :
    ReclaimsExactly followLanding observed now judge j tasks ↔
      ∀ c, (c, Fact.no) ∈ judged judge j (claimedAll tasks) → tasks.Live c.id → Canonical c.owner := by
  have hids : ((judged judge j (claimedAll tasks)).map (·.1.id)).Nodup := by
    have := nodup_claimedAll tasks
    rwa [← map_fst_judged judge j (claimedAll tasks), List.map_map] at this
  obtain ⟨after, found, hok, hnone, hsame, hcleared⟩ := foldlM_reclaimOne followLanding observed now {} hids
    fun p hp => (task_of_judged (c := p.1) (v := p.2) hp).imp fun _ h => h.1
  -- a task has one claim, and so one judgement
  have hone : ∀ c v c' v', (c, v) ∈ judged judge j (claimedAll tasks) →
      (c', v') ∈ judged judge j (claimedAll tasks) → c.id = c'.id → c = c' ∧ v = v' := by
    intro c v c' v' hc hc' hid
    exact Prod.mk.inj (List.inj_on_of_nodup_map hids hc hc' hid)
  have hheld : ∀ c v, (c, v) ∈ judged judge j (claimedAll tasks) → tasks.claimantId c.id = some c.owner := by
    intro c v hc
    obtain ⟨task, htask, howner⟩ := task_of_judged hc
    rw [Tasks.claimantId, htask]
    exact howner
  constructor
  · intro h c hc hlive
    obtain ⟨after', found', hok', hreports, -⟩ := h.cleared
    cases hok.symm.trans hok'
    -- what is reported was freed, under the spelling that its owner is printed as
    have hfreed := ((hreports c.id).mp ⟨c, (hcleared c).mpr (Or.inr ⟨hc, hlive⟩), rfl⟩).2
    rcases (hnone c.id).mp hfreed with hfree | ⟨c', hc', hid, -, hprinted⟩
    · rw [hheld c .no hc] at hfree
      cases hfree
    · obtain ⟨rfl, -⟩ := hone c .no c' .no hc hc' hid.symm
      rw [hheld c .no hc] at hprinted
      exact (Option.some.inj hprinted).symm
  · intro hcanonical
    refine ⟨⟨after, found, hok, fun id => ?_, fun c v hc hv => ?_⟩,
      fun c hc others after found found' hstatus hne hstep => ?_⟩
    · constructor
      · rintro ⟨c, hc, rfl⟩
        rcases (hcleared c).mp hc with hnil | ⟨hno, hlive⟩
        · exact absurd hnil List.not_mem_nil
        · have hclaim := hheld c .no hno
          refine ⟨by rw [hclaim]; nofun, (hnone _).mpr (Or.inr ⟨c, hno, rfl, hlive, ?_⟩)⟩
          rw [hclaim, hcanonical c hno hlive]
      · rintro ⟨hclaim, hgone⟩
        rcases (hnone id).mp hgone with hfree | ⟨c, hno, rfl, hlive, -⟩
        · exact absurd hfree hclaim
        · exact ⟨c, (hcleared c).mpr (Or.inr ⟨hno, hlive⟩), rfl⟩
    · rcases hsame c.id with h | h
      · rcases (hnone c.id).mp h with hfree | ⟨c', hno, hid, -, -⟩
        · rw [h, hfree]
        · exact absurd (hone c v c' .no hc hno hid.symm).2 hv
      · exact h
    · obtain ⟨read, hread, -⟩ := task_of_judged hc
      rw [hread] at hstatus
      obtain ⟨task, hfound, hsameStatus⟩ := Option.map_eq_some_iff.mp hstatus
      obtain ⟨_, hstep', -, hclaimant⟩ := reclaimOne_gone followLanding observed now found hfound
      cases hstep'.symm.trans hstep
      rw [hclaimant]
      refine if_neg fun h => ?_
      have hstands : task.item.status = read.item.status := hsameStatus
      have hlive : tasks.Live c.id := ⟨read, hread, hstands ▸ h.2.1⟩
      rw [hcanonical c hc hlive] at h
      exact hne h.2.2

end Scan

/-- **Owners read back, and reclaiming reports what it freed.** An owner that is built reads back from its stored
spelling; and a scan reports exactly what it freed if and only if every owner that is judged gone is stored as it
is printed, on a task that is not over. -/
theorem reclaim_reports {W J : Type} (followLanding : W → Except Fmt W) (observed : Int → Fact × Fact) (now : Text)
    (judge : J → ClaimInfo → Fact × J) (j : J) (tasks : Tasks W) :
    (∀ id, AgentId.Built id → AgentId.parse id.asStr = id) ∧
    (ReclaimsExactly followLanding observed now judge j tasks ↔
      ∀ c, (c, Fact.no) ∈ judged judge j (claimedAll tasks) → tasks.Live c.id → Canonical c.owner) :=
  ⟨fun _ => AgentId.Built.parse_asStr, reclaimsExactly_iff j tasks⟩

/-- A claim that is stored with a padded process id is reported as freed, and stays. -/
theorem padded_claim_stays :
    ¬ ReclaimsExactly Except.ok (fun _ => (.no, .no)) "t".toList (fun (_ : Unit) _ => (.no, ())) ()
      (⟨[{ item := ⟨1, .inProgress, some "host:007".toList, none⟩, workflow := () }], List.nodup_singleton _⟩ :
        Tasks Unit) := by
  rw [reclaimsExactly_iff]
  intro h
  have hpadded := h ⟨1, "host:007".toList, none⟩ (by simp [claimedAll, claimed, judged])
    ⟨_, Table.find?_eq_some.mpr ⟨List.mem_singleton_self _, rfl⟩, rfl⟩
  exact absurd hpadded (by decide)

end Jkb.Transition
