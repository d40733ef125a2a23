import Jkb.Core.Query

/-!
# Jkb.Core.Query.Ready

The work queues. What can be worked on is spelled three times: `is:ready`, `is:frontier`, and two
predicates on one task. `is:ready` and the predicates agree of every item; `is:frontier` also lets a
dependency go whose outcome is recorded, and `queues_agree_iff` says where that shows.
-/

namespace Jkb.Query

open Jkb.Text

/-! ## the predicates on one task -/

/-- Whether a task depends on one that is not settled. -/
def isBlocked (s : Store) (task : Int) : Bool :=
  s.edges.any fun e => e.src = task && e.type = .dependsOn &&
    (s.item? e.dst).any fun d => notTerminal d.status

/-- Whether a task has a child that is not terminal. -/
def hasOpenSubtasks (s : Store) (task : Int) : Bool :=
  s.containment.any fun ct => ct.parent = task && (s.item? ct.child).any fun c => notTerminal c.status

/-- The query `is:ready`. -/
def isReady : Query := { ready := true }

/-- The query `is:frontier`, with the claim. -/
def isFrontier : Query := { frontier := true, claimed := some false }

/-- Nothing is left to wait for, by the predicates. -/
def Workable (s : Store) (i : ItemRow) : Prop :=
  notTerminal i.status = true ∧ i.claimantId = none ∧ isBlocked s i.id = false ∧
    hasOpenSubtasks s i.id = false

/-! ## what the queries select -/

theorem any_dependencies {s : Store} {i : ItemRow} {p : ItemRow → Bool} :
    (dependencies s i).any p = true ↔
      ∃ e ∈ s.edges, e.src = i.id ∧ e.type = .dependsOn ∧ (s.item? e.dst).any p = true := by
  simp only [dependencies, List.any_eq_true, List.mem_filterMap, List.mem_filter, decide_eq_true_eq,
    Option.any_eq_true]
  constructor
  · rintro ⟨d, ⟨e, ⟨he, hsrc, htype⟩, hd⟩, hp⟩
    exact ⟨e, he, hsrc, htype, d, hd, hp⟩
  · rintro ⟨e, he, hsrc, htype, d, hd, hp⟩
    exact ⟨d, ⟨e, ⟨he, hsrc, htype⟩, hd⟩, hp⟩

theorem isBlocked_eq (s : Store) (i : ItemRow) :
    isBlocked s i.id = (dependencies s i).any fun d => notTerminal d.status := by
  rw [Bool.eq_iff_iff, any_dependencies]
  simp [isBlocked, and_assoc]

theorem hasOpenSubtasks_eq (s : Store) (i : ItemRow) : hasOpenSubtasks s i.id = !subtaskClause s i := by
  rw [Bool.eq_iff_iff, subtaskClause, Bool.not_not]
  simp only [hasOpenSubtasks, contents, List.any_eq_true, List.mem_filterMap, List.mem_filter,
    decide_eq_true_eq, Bool.and_eq_true, Option.any_eq_true]
  constructor
  · rintro ⟨ct, hct, hparent, c, hc, hopen⟩
    exact ⟨c, ⟨ct, ⟨hct, hparent⟩, hc⟩, hopen⟩
  · rintro ⟨c, ⟨ct, ⟨hct, hparent⟩, hc⟩, hopen⟩
    exact ⟨ct, hct, hparent, c, hc, hopen⟩

section

variable {nfc : Text → Text} {sys : Sqlite} {s : Store} {i : ItemRow}

theorem selects_isReady (hi : i ∈ s.items.rows) :
    Selects nfc sys s isReady i.id ↔ readyClause s i = true := by
  rw [selects_iff hi rfl rfl rfl rfl]
  simp [accepts, columnClauses, tagClauses, scopeClause, graphClauses, isReady]

theorem selects_isFrontier (hi : i ∈ s.items.rows) :
    Selects nfc sys s isFrontier i.id ↔ i.claimantId = none ∧ frontierClause s i = true := by
  rw [selects_iff hi rfl rfl rfl rfl]
  simp [accepts, columnClauses, tagClauses, scopeClause, graphClauses, isFrontier, and_comm]

/-- **`is:ready` is the predicates**, of any item. -/
theorem readyClause_iff : readyClause s i = true ↔ Workable s i := by
  rw [readyClause, Workable, isBlocked_eq, hasOpenSubtasks_eq]
  simp only [Bool.and_eq_true, Bool.not_eq_true', Bool.not_eq_false', Option.isNone_iff_eq_none]
  tauto

variable (s i) in
/-- A task that only `is:frontier` hands out: it waits for nothing but dependencies that are not terminal,
of which each has an outcome recorded. -/
def WaitsForOutcomes : Prop :=
  notTerminal i.status = true ∧ i.claimantId = none ∧ hasOpenSubtasks s i.id = false ∧
    isBlocked s i.id = true ∧
    ∀ d ∈ dependencies s i, notTerminal d.status = true → unresolved d.resolution = false

/-- `is:frontier` selects what `is:ready` does, and what waits for nothing but recorded outcomes. -/
theorem frontierClause_iff (hres : i.resolution = none) :
    (i.claimantId = none ∧ frontierClause s i = true) ↔ Workable s i ∨ WaitsForOutcomes s i := by
  rw [frontierClause, Workable, WaitsForOutcomes, isBlocked_eq, hasOpenSubtasks_eq]
  simp only [unresolved, hres, decide_true, Bool.true_or, Bool.and_true, Bool.and_eq_true,
    Bool.not_eq_true', Bool.not_eq_false', List.any_eq_false, List.any_eq_true, Bool.not_eq_true]
  constructor
  · rintro ⟨hclaim, ⟨hopen, hdeps⟩, hsub⟩
    by_cases hblocked : ∃ d ∈ dependencies s i, notTerminal d.status = true
    · refine Or.inr ⟨hopen, hclaim, hsub, hblocked, fun d hd hterm => ?_⟩
      simpa [hterm] using hdeps d hd
    · refine Or.inl ⟨hopen, hclaim, fun d hd => ?_, hsub⟩
      exact Bool.not_eq_true _ ▸ fun hterm => hblocked ⟨d, hd, hterm⟩
  · rintro (⟨hopen, hclaim, hdeps, hsub⟩ | ⟨hopen, hclaim, hsub, -, hdeps⟩)
    · exact ⟨hclaim, ⟨hopen, fun d hd => by simp [hdeps d hd]⟩, hsub⟩
    · refine ⟨hclaim, ⟨hopen, fun d hd => ?_⟩, hsub⟩
      rintro ⟨hterm, hlive⟩
      exact absurd hlive (by simp [hdeps d hd hterm])

variable (nfc sys s i) in
/-- The queues and the predicates say the same of an item. -/
def QueuesAgree : Prop :=
  (Selects nfc sys s isReady i.id ↔ Selects nfc sys s isFrontier i.id) ∧
    (Selects nfc sys s isReady i.id ↔ Workable s i) ∧ (Selects nfc sys s isFrontier i.id ↔ Workable s i)

/-- **Where the queues agree**: of an item with no resolution, unless it waits for nothing but
dependencies that are not terminal and have an outcome. -/
theorem queues_agree_iff (hi : i ∈ s.items.rows) (hres : i.resolution = none) :
    QueuesAgree nfc sys s i ↔ ¬ WaitsForOutcomes s i := by
  have hdisjoint : ¬ (Workable s i ∧ WaitsForOutcomes s i) := by
    rintro ⟨⟨-, -, hfree, -⟩, -, -, -, hblocked, -⟩
    rw [hfree] at hblocked
    cases hblocked
  rw [QueuesAgree, selects_isReady hi, selects_isFrontier hi, readyClause_iff, frontierClause_iff hres]
  tauto

end

/-! ## a task that only one of them hands out -/

/-- An open task that depends on a hypothesis that came to a dead end. -/
def deadEndStore : Store where
  items :=
    { rows := [{ id := 1, uid := "task:a".toList, kind := "task".toList, status := some .«open» },
        { id := 2, uid := "h:b".toList, kind := "hypothesis".toList, resolution := some .deadEnd }]
      nodup := by decide
      last := 2
      le_last := by decide }
  edges := [⟨1, 2, .dependsOn⟩]

/-- The frontier hands that task out, and `is:ready` does not. -/
theorem queues_disagree : ¬ ∀ (nfc : Text → Text) (sys : Sqlite) (s : Store), ∀ i ∈ s.items.rows,
    i.kind = "task".toList → i.resolution = none → QueuesAgree nfc sys s i := by
  intro h
  have hmem : (⟨1, "task:a".toList, "task".toList, some .«open», none, none, none, none⟩ : ItemRow) ∈
      deadEndStore.items.rows := List.mem_cons_self
  have hagree := (h id ⟨some, [], fun _ => .ok []⟩ deadEndStore _ hmem rfl rfl).1
  rw [selects_isReady hmem, selects_isFrontier hmem] at hagree
  exact absurd (hagree.mpr (by decide)) (by decide)

/-- An open task that depends on a task that is done, and on a hypothesis that has no outcome yet. -/
def waitingStore : Store where
  items :=
    { rows := [{ id := 1, uid := "task:a".toList, kind := "task".toList, status := some .«open» },
        { id := 2, uid := "task:c".toList, kind := "task".toList, status := some .done },
        { id := 3, uid := "h:b".toList, kind := "hypothesis".toList }]
      nodup := by decide
      last := 3
      le_last := by decide }
  edges := [⟨1, 2, .dependsOn⟩, ⟨1, 3, .dependsOn⟩]

/-- The queues agree of that task: the hypothesis holds it back in both. -/
theorem queues_agree_done :
    isBlocked waitingStore 1 = true ∧ QueuesAgree id ⟨some, [], fun _ => .ok []⟩ waitingStore
      ⟨1, "task:a".toList, "task".toList, some .«open», none, none, none, none⟩ := by
  refine ⟨by decide, (queues_agree_iff List.mem_cons_self rfl).mpr ?_⟩
  rintro ⟨-, -, -, -, hdeps⟩
  exact absurd (hdeps ⟨3, "h:b".toList, "hypothesis".toList, none, none, none, none, none⟩ (by decide) (by decide))
    (by decide)

end Jkb.Query
