import Jkb.Core.Containment
import Jkb.Core.Reviews

/-!
# Jkb.Core.Plan

An execution plan, as it is shown: its steps in order, the tasks under each, and whether the plan is archived.
The tasks are listed by a walk that goes down through tasks alone and stops at a depth; what archives the plan is
a count over everything inside a step. `listsCounted_iff` says when the two speak of the same tasks.
-/

namespace Jkb.Plan

open Jkb.Containment Jkb.Graph Jkb.Text Relation

/-- What a plan reads of a row of `items`. -/
structure PlanItem where
  id : Int
  uid : Text
  kind : Text
  content : Option Text
  status : Option Text
  priority : Option Int
  claimantId : Option Text
deriving Repr, DecidableEq

/-- The table `items`: no two items share a uid. -/
structure Items where
  table : Table fun i : PlanItem => i.id
  unique : (table.rows.map (·.uid)).Nodup

/-- The tables a plan is read from. -/
structure Store where
  items : Items
  containment : ContainmentTable

/-- A task under a plan's step. -/
structure PlanTask where
  uid : Text
  title : Text
  status : Option Text
  priority : Option Int
  depth : Nat
  claimedBy : Option Text
  strategy : Text
deriving Repr, DecidableEq

/-- One step of a plan. -/
structure StepView (Span : Type) where
  uid : Text
  text : Text
  spans : List Span
  tasks : List PlanTask

/-- A plan with its steps and their tasks. -/
structure PlanView (Span : Type) where
  uid : Text
  title : Text
  design : Text
  archived : Bool
  steps : List (StepView Span)

/-- The kind of a plan's step. -/
def STEP_KIND : Text := "plan_step".toList

/-- The kind of a task. -/
def TASK : Text := "task".toList

/-- The deepest level of tasks that is listed under a step. -/
def maxDepth : Nat := 64

/-- The statuses a task ends in. -/
def terminalList : List Text := ["done".toList, "cancelled".toList]

/-- Whether a status is one a task ends in; no status is none. -/
def terminal (status : Option Text) : Bool := status.any (· ∈ terminalList)

/-- The title of an item: its first non-blank line, or its uid. -/
def titleFrom (uid : Text) (content : Option Text) : Text :=
  match content.map Reviews.firstNonblank with
  | some (c :: line) => c :: line
  | _ => uid

section Reading

variable (s : Store)

/-- The rows of what an item contains, in order. -/
def contents (parent : Int) : List Contained :=
  (s.containment.rows.filter fun c => c.parent = parent).mergeSort fun a b =>
    a.position < b.position ∨ (a.position = b.position ∧ a.child ≤ b.child)

/-- The items of a kind that an item contains, in order. -/
def childrenOfKind (parent : Int) (kind : Text) : List PlanItem :=
  (contents s parent).filterMap fun c => (s.items.table.find? c.child).filter fun i => i.kind = kind

/-- The tasks under an item, depth first, from a depth. `source` is the strategy a task runs. -/
def tasksUnder (source : Int → Except Fmt Text) (parent : Int) (depth : Nat) : Except Fmt (List PlanTask) :=
  if h : maxDepth < depth then .ok []
  else do
    let listed ← (childrenOfKind s parent TASK).mapM fun i => do
      let strategy ← source i.id
      let below ← tasksUnder source i.id (depth + 1)
      .ok (⟨i.uid, titleFrom i.uid i.content, i.status, i.priority, depth, i.claimantId, strategy⟩ :: below)
    .ok listed.flatten
termination_by maxDepth + 1 - depth

/-- What an item contains directly. -/
def below (t : ContainmentTable) (p : Int) : List Int := (t.rows.filter fun c => c.parent = p).map (·.child)

/-- What is below has a row of the containment. -/
theorem child_mem {t : ContainmentTable} (p c : Int) (h : c ∈ below t p) : c ∈ t.rows.map (·.child) := by
  obtain ⟨r, hr, rfl⟩ := List.mem_map.mp h
  exact List.mem_map_of_mem (List.mem_of_mem_filter hr)

/-- Everything inside an item, at any depth. -/
def under (t : ContainmentTable) (p : Int) : List Int :=
  Worklist.closure (below t) (t.rows.map (·.child)) child_mem (below t p)

/-- The tasks that a step is counted by: every task inside it. -/
def counted (step : Int) : List PlanItem :=
  s.items.table.rows.filter fun i => i.kind = TASK ∧ i.id ∈ under s.containment step

/-- The tasks inside a step: how many, how many `done`, and how many over. -/
structure StepTasks where
  count : Nat
  done : Nat
  terminal : Nat
deriving Repr, DecidableEq

/-- What `StepTasks` counts for a step. -/
def stepTasks (step : Int) : StepTasks where
  count := (counted s step).length
  done := (counted s step).countP fun i => i.status = some "done".toList
  terminal := (counted s step).countP fun i => terminal i.status

/-- The step implemented what was staged into it: it has tasks, all `done`. -/
def StepTasks.implemented (t : StepTasks) : Bool := 0 < t.count ∧ t.done = t.count

/-- The step's work is over: it has tasks, all terminal. -/
def StepTasks.finished (t : StepTasks) : Bool := 0 < t.count ∧ t.terminal = t.count

variable {Span : Type} (stagedInto : Span → List Text) (source : Int → Except Fmt Text) (spans : List Span)

/-- The view of a step. -/
def stepView (step : PlanItem) : Except Fmt (StepView Span) := do
  let tasks ← tasksUnder s source step.id 0
  .ok { uid := step.uid, text := step.content.getD [], spans := spans.filter fun p => step.uid ∈ stagedInto p,
        tasks }

/-- The view of a plan. -/
def view (plan : Int) (uid title design : Text) : Except Fmt (PlanView Span) := do
  let steps := childrenOfKind s plan STEP_KIND
  let views ← steps.mapM (stepView s stagedInto source spans)
  .ok { uid, title, design, archived := steps.all (fun i => (stepTasks s i.id).finished) && !steps.isEmpty,
        steps := views }

end Reading

/-! ## what an item contains -/

section Contents

variable {s : Store}

/-- The contents of an item are its rows. -/
theorem mem_contents {p : Int} {c : Contained} : c ∈ contents s p ↔ c ∈ s.containment.rows ∧ c.parent = p := by
  simp [contents, List.mem_mergeSort]

/-- An item is inside of another if a row says so. -/
theorem inside_iff {t : ContainmentTable} {c p : Int} : Inside t c p ↔ ∃ r ∈ t.rows, r.parent = p ∧ r.child = c := by
  rw [Inside, parent, Option.map_eq_some_iff]
  refine exists_congr fun r => ?_
  rw [Table.find?_eq_some]
  tauto

/-- The children of a kind. -/
theorem mem_childrenOfKind {p : Int} {kind : Text} {i : PlanItem} :
    i ∈ childrenOfKind s p kind ↔ i ∈ s.items.table.rows ∧ i.kind = kind ∧ Inside s.containment i.id p := by
  simp only [childrenOfKind, List.mem_filterMap, mem_contents, Option.filter_eq_some_iff, decide_eq_true_eq,
    Table.find?_eq_some, inside_iff]
  constructor
  · rintro ⟨c, ⟨hc, hp⟩, ⟨hi, hid⟩, hkind⟩
    exact ⟨hi, hkind, c, hc, hp, hid.symm⟩
  · rintro ⟨hi, hkind, c, hc, hp, hid⟩
    exact ⟨c, ⟨hc, hp⟩, ⟨hi, hid.symm⟩, hkind⟩

/-- What an item contains is listed once. -/
theorem nodup_childrenOfKind (p : Int) (kind : Text) : ((childrenOfKind s p kind).map (·.id)).Nodup := by
  have hrows : ((contents s p).map (·.child)).Nodup := by
    rw [contents, ((List.mergeSort_perm _ _).map _).nodup_iff]
    exact s.containment.nodup.sublist (List.filter_sublist.map _)
  refine hrows.sublist (Table.sublist_map_filterMap (fun c i hi => ?_) _)
  obtain ⟨hfound, -⟩ := Option.filter_eq_some_iff.mp hi
  exact Table.key_of_find? hfound

/-- The closure of a count is exact: it holds what is inside the item, at any depth. -/
theorem mem_under {t : ContainmentTable} {c p : Int} : c ∈ under t p ↔ TransGen (Inside t) c p := by
  have hbelow : ∀ x y, y ∈ below t x ↔ Function.swap (Inside t) x y := by
    intro x y
    simp only [below, List.mem_map, List.mem_filter, decide_eq_true_eq, Function.swap, inside_iff, and_assoc]
  have hrel : (fun x y => y ∈ below t x) = Function.swap (Inside t) := by
    funext x y
    exact propext (hbelow x y)
  rw [under, Worklist.mem_closure, Worklist.Reached, hrel]
  constructor
  · rintro ⟨m, hm, hpath⟩
    exact TransGen.tail' (reflTransGen_swap.mp hpath) ((hbelow p m).mp hm)
  · intro hpath
    obtain ⟨m, hcm, hm⟩ := TransGen.tail'_iff.mp hpath
    exact ⟨m, (hbelow p m).mpr hm, reflTransGen_swap.mpr hcm⟩

/-- What a step counts is every task below it. -/
theorem mem_counted {step : Int} {i : PlanItem} :
    i ∈ counted s step ↔ i ∈ s.items.table.rows ∧ i.kind = TASK ∧ TransGen (Inside s.containment) i.id step := by
  simp [counted, mem_under]

end Contents

/-! ## the walk -/

section Walk

variable {s : Store}

/-- A task some levels below an item, through tasks alone. -/
def TaskChain (s : Store) : Nat → Int → PlanItem → Prop
  | 0, p, i => i ∈ childrenOfKind s p TASK
  | n + 1, p, i => ∃ m ∈ childrenOfKind s p TASK, TaskChain s n m.id i

/-- The items of the walk that goes down some levels. -/
def walked (s : Store) : Nat → Int → List PlanItem
  | 0, _ => []
  | n + 1, p => (childrenOfKind s p TASK).flatMap fun i => i :: walked s n i.id

/-- What the walk reaches is what a chain of tasks leads to. -/
theorem mem_walked {n : Nat} {p : Int} {i : PlanItem} : i ∈ walked s n p ↔ ∃ k < n, TaskChain s k p i := by
  induction n generalizing p with
  | zero => simp [walked]
  | succ n ih =>
      simp only [walked, List.mem_flatMap, List.mem_cons, ih]
      constructor
      · rintro ⟨m, hm, rfl | ⟨k, hk, hchain⟩⟩
        · exact ⟨0, Nat.succ_pos n, hm⟩
        · exact ⟨k + 1, Nat.succ_lt_succ hk, m, hm, hchain⟩
      · rintro ⟨k, hk, hchain⟩
        cases k with
        | zero => exact ⟨i, hchain, Or.inl rfl⟩
        | succ k =>
            obtain ⟨m, hm, hchain⟩ := hchain
            exact ⟨m, hm, Or.inr ⟨k, Nat.lt_of_succ_lt_succ hk, hchain⟩⟩

/-- A task that a chain leads to is inside. -/
theorem TaskChain.inside {n : Nat} {p : Int} {i : PlanItem} (h : TaskChain s n p i) : i ∈ counted s p := by
  induction n generalizing p with
  | zero =>
      obtain ⟨hi, hkind, hin⟩ := mem_childrenOfKind.mp h
      exact mem_counted.mpr ⟨hi, hkind, .single hin⟩
  | succ n ih =>
      obtain ⟨m, hm, hchain⟩ := h
      obtain ⟨hi, hkind, hin⟩ := mem_counted.mp (ih hchain)
      exact mem_counted.mpr ⟨hi, hkind, hin.tail (mem_childrenOfKind.mp hm).2.2⟩

/-- In a forest, what is at or inside two items of one container is so for one item. -/
theorem eq_of_inside {t : ContainmentTable} (hforest : Forest t) {a i j p : Int}
    (hi : ReflTransGen (Inside t) a i) (hj : ReflTransGen (Inside t) a j) (hip : Inside t i p)
    (hjp : Inside t j p) : i = j := by
  have huniq : Relator.RightUnique (Inside t) := fun _ _ _ h h' => Option.some.inj (h.symm.trans h')
  -- two siblings, one inside the other, would put their container inside itself
  have hone : ∀ {i j}, ReflTransGen (Inside t) i j → Inside t i p → Inside t j p → i = j := by
    intro i j hpath hip hjp
    rcases hpath.cases_head with rfl | ⟨q, hiq, hqj⟩
    · rfl
    · obtain rfl := huniq hiq hip
      exact absurd (TransGen.tail' hqj hjp) (hforest q)
  rcases ReflTransGen.total_of_right_unique huniq hi hj with h | h
  · exact hone h hip hjp
  · exact (hone h hjp hip).symm

/-- **The walk lists a task once.** -/
theorem nodup_walked (hforest : Forest s.containment) (n : Nat) (p : Int) : (walked s n p).Nodup := by
  induction n generalizing p with
  | zero => exact List.nodup_nil
  | succ n ih =>
      have hat : ∀ {i j : PlanItem}, j ∈ i :: walked s n i.id → ReflTransGen (Inside s.containment) j.id i.id := by
        intro i j hj
        rcases List.mem_cons.mp hj with rfl | hj
        · exact .refl
        · obtain ⟨k, -, hchain⟩ := mem_walked.mp hj
          exact (mem_counted.mp hchain.inside).2.2.to_reflTransGen
      rw [walked, List.nodup_flatMap]
      refine ⟨fun i _ => List.nodup_cons.mpr ⟨fun hmem => ?_, ih i.id⟩, ?_⟩
      · obtain ⟨k, -, hchain⟩ := mem_walked.mp hmem
        exact hforest i.id (mem_counted.mp hchain.inside).2.2
      · refine (List.pairwise_map.mp (nodup_childrenOfKind p TASK)).imp_of_mem fun {i j} hi hj hne => ?_
        intro a hai haj
        exact hne (eq_of_inside hforest (hat hai) (hat haj) (mem_childrenOfKind.mp hi).2.2
          (mem_childrenOfKind.mp hj).2.2)

/-- What the listing reads of the items it walks. -/
theorem tasksUnder_eq {source : Int → Except Fmt Text} {p : Int} {depth : Nat} {ts : List PlanTask}
    (h : tasksUnder s source p depth = .ok ts) :
    ts.map (fun t => (t.uid, t.status)) = (walked s (maxDepth + 1 - depth) p).map fun i => (i.uid, i.status) := by
  induction hn : maxDepth + 1 - depth generalizing p depth ts with
  | zero =>
      rw [tasksUnder, dif_pos (by omega)] at h
      cases h
      rfl
  | succ n ih =>
      rw [tasksUnder, dif_neg (by omega)] at h
      obtain ⟨listed, hlisted, hts⟩ := Tx.bind_eq_ok.mp h
      obtain rfl := Except.ok.inj hts
      rw [walked, List.map_flatten, List.map_flatMap, List.flatMap]
      congr 1
      have hrows := Tx.mapM_eq_ok.mp hlisted
      clear h hlisted hts
      generalize childrenOfKind s p TASK = children at hrows
      induction hrows with
      | nil => rfl
      | cons hrow _ ih' =>
          obtain ⟨strategy, -, hrow⟩ := Tx.bind_eq_ok.mp hrow
          obtain ⟨below, hbelow, hrow⟩ := Tx.bind_eq_ok.mp hrow
          obtain rfl := Except.ok.inj hrow
          rw [List.map_cons, List.map_cons, ih', List.map_cons, List.map_cons, ih hbelow (by omega)]

end Walk

/-! ## the listing and the count -/

section Listing

variable {s : Store} {Span : Type} {stagedInto : Span → List Text} {source : Int → Except Fmt Text}
  {spans : List Span} {plan : Int} {uid title design : Text}

/-- The uids of items that are listed once are listed once. -/
theorem nodup_uids {is : List PlanItem} (hrows : ∀ i ∈ is, i ∈ s.items.table.rows) (h : is.Nodup) :
    (is.map (·.uid)).Nodup :=
  h.map_on fun i hi j hj huid => List.inj_on_of_nodup_map s.items.unique (hrows i hi) (hrows j hj) huid

variable (s) in
/-- The tasks that a step's listing shows are the ones it is counted by, each once. -/
structure ListsCounted (step : PlanItem) (v : StepView Span) : Prop where
  uid : v.uid = step.uid
  once : (v.tasks.map (·.uid)).Nodup
  counted : (v.tasks.map (·.uid)).Perm ((counted s step.id).map (·.uid))

variable (s plan) in
/-- **A plan's listing and its archived flag speak of the same tasks**: the tasks listed under each step are those
that the step is counted by, and the plan is archived exactly if it has a step and every step lists a task and only
terminal ones. -/
structure SpeaksOfSame (v : PlanView Span) : Prop where
  steps : List.Forall₂ (ListsCounted s) (childrenOfKind s plan STEP_KIND) v.steps
  archived : v.archived = true ↔
    v.steps ≠ [] ∧ ∀ step ∈ v.steps, step.tasks ≠ [] ∧ ∀ t ∈ step.tasks, terminal t.status = true

variable (s) in
/-- Every task inside an item is inside it through tasks alone, and not too deep. -/
def ReachedByTasks (p : Int) : Prop := ∀ i ∈ counted s p, ∃ n ≤ maxDepth, TaskChain s n p i

/-- A step's listing shows the tasks it is counted by where they are reached through tasks, and only there. -/
theorem listsCounted_iff (hforest : Forest s.containment) {step : PlanItem} {v : StepView Span}
    (hview : stepView s stagedInto source spans step = .ok v) :
    ListsCounted s step v ↔ ReachedByTasks s step.id := by
  obtain ⟨tasks, htasks, hv⟩ := Tx.bind_eq_ok.mp hview
  obtain rfl := Except.ok.inj hv
  have huids : tasks.map (·.uid) = (walked s (maxDepth + 1) step.id).map (·.uid) := by
    have h := congrArg (List.map Prod.fst) (tasksUnder_eq htasks)
    simpa [List.map_map, Function.comp_def] using h
  have hinside : ∀ i ∈ walked s (maxDepth + 1) step.id, i ∈ counted s step.id := by
    intro i hi
    obtain ⟨n, -, hchain⟩ := mem_walked.mp hi
    exact hchain.inside
  have hrows : ∀ i ∈ counted s step.id, i ∈ s.items.table.rows := fun i hi => (mem_counted.mp hi).1
  have hnodup := nodup_walked hforest (maxDepth + 1) step.id
  constructor
  · intro h i hi
    have hmem := h.counted.mem_iff.mpr (List.mem_map_of_mem (f := fun i : PlanItem => i.uid) hi)
    rw [huids] at hmem
    obtain ⟨j, hj, huid⟩ := List.mem_map.mp hmem
    obtain rfl := List.inj_on_of_nodup_map s.items.unique (hrows j (hinside j hj)) (hrows i hi) huid
    obtain ⟨n, hn, hchain⟩ := mem_walked.mp hj
    exact ⟨n, Nat.le_of_lt_succ hn, hchain⟩
  · intro h
    have hperm : (walked s (maxDepth + 1) step.id).Perm (counted s step.id) := by
      refine (List.perm_ext_iff_of_nodup hnodup ?_).mpr fun i => ⟨hinside i, fun hi => ?_⟩
      · exact (List.Nodup.of_map _ s.items.table.nodup).filter _
      · obtain ⟨n, hn, hchain⟩ := h i hi
        exact mem_walked.mpr ⟨n, Nat.lt_succ_of_le hn, hchain⟩
    refine ⟨rfl, ?_, ?_⟩
    · rw [huids]
      exact nodup_uids (fun i hi => hrows i (hinside i hi)) hnodup
    · rw [huids]
      exact hperm.map _

/-- Where a listing shows the tasks that a step is counted by, the step is finished exactly if it lists a task and
only terminal ones. -/
theorem finished_iff {step : PlanItem} {v : StepView Span}
    (hview : stepView s stagedInto source spans step = .ok v) (h : ListsCounted s step v) :
    (stepTasks s step.id).finished = true ↔ v.tasks ≠ [] ∧ ∀ t ∈ v.tasks, terminal t.status = true := by
  obtain ⟨tasks, htasks, hv⟩ := Tx.bind_eq_ok.mp hview
  obtain rfl := Except.ok.inj hv
  have hrow : ∀ i ∈ counted s step.id, ∃ t ∈ tasks, t.uid = i.uid := fun i hi =>
    List.mem_map.mp (h.counted.mem_iff.mpr (List.mem_map_of_mem hi))
  have hlen : tasks.length = (counted s step.id).length := by simpa using h.counted.length_eq
  -- a row of the listing shows the status of the item whose uid it shows
  have hshown : ∀ t ∈ tasks, ∀ i ∈ counted s step.id, t.uid = i.uid → t.status = i.status := by
    intro t ht i hi huid
    have hpair : (t.uid, t.status) ∈ (walked s (maxDepth + 1) step.id).map fun i => (i.uid, i.status) := by
      have hrows := tasksUnder_eq htasks
      rw [Nat.sub_zero] at hrows
      rw [← hrows]
      exact List.mem_map_of_mem (f := fun t : PlanTask => (t.uid, t.status)) ht
    obtain ⟨j, hj, hpair⟩ := List.mem_map.mp hpair
    obtain ⟨n, -, hchain⟩ := mem_walked.mp hj
    obtain ⟨hjuid, hjstatus⟩ := Prod.mk.inj hpair
    have hji := List.inj_on_of_nodup_map s.items.unique (mem_counted.mp hchain.inside).1 (mem_counted.mp hi).1
      (hjuid.trans huid)
    rw [← hjstatus, hji]
  rw [StepTasks.finished, stepTasks, decide_eq_true_eq, List.countP_eq_length, ← hlen, List.length_pos_iff]
  refine and_congr_right fun _ => ⟨fun hall t ht => ?_, fun hall i hi => ?_⟩
  · obtain ⟨i, hi, huid⟩ := List.mem_map.mp (h.counted.mem_iff.mp
      (List.mem_map_of_mem (f := fun t : PlanTask => t.uid) ht))
    rw [hshown t ht i hi huid.symm]
    exact hall i hi
  · obtain ⟨t, ht, huid⟩ := hrow i hi
    rw [← hshown t ht i hi huid]
    exact hall t ht

/-- The listings of a plan's steps show the tasks that the steps are counted by where those are reached. -/
theorem listsCounted_steps (hforest : Forest s.containment) {v : PlanView Span}
    (hview : view s stagedInto source spans plan uid title design = .ok v) :
    List.Forall₂ (ListsCounted s) (childrenOfKind s plan STEP_KIND) v.steps ↔
      ∀ step ∈ childrenOfKind s plan STEP_KIND, ReachedByTasks s step.id := by
  obtain ⟨views, hviews, hv⟩ := Tx.bind_eq_ok.mp hview
  obtain rfl := Except.ok.inj hv
  exact Tx.forall₂_iff (Tx.mapM_eq_ok.mp hviews) fun _ _ h => listsCounted_iff hforest h

/-- **A plan's listing and its archived flag speak of the same tasks exactly where every task inside a step is
reached from it through tasks alone, within the depth that is listed.** -/
theorem speaksOfSame_iff (hforest : Forest s.containment) {v : PlanView Span}
    (hview : view s stagedInto source spans plan uid title design = .ok v) :
    SpeaksOfSame s plan v ↔ ∀ step ∈ childrenOfKind s plan STEP_KIND, ReachedByTasks s step.id := by
  have hlists := listsCounted_steps hforest hview
  obtain ⟨views, hviews, hv⟩ := Tx.bind_eq_ok.mp hview
  obtain rfl := Except.ok.inj hv
  have hrows := Tx.mapM_eq_ok.mp hviews
  refine ⟨fun h => hlists.mp h.steps, fun h => ⟨hlists.mpr h, ?_⟩⟩
  have hfinished : (∀ step ∈ childrenOfKind s plan STEP_KIND, (stepTasks s step.id).finished = true) ↔
      ∀ w ∈ views, w.tasks ≠ [] ∧ ∀ t ∈ w.tasks, terminal t.status = true :=
    Tx.forall_iff_of_forall₂ hrows fun step w hstep hw =>
      finished_iff hw ((listsCounted_iff hforest hw).mpr (h step hstep))
  have hempty : (childrenOfKind s plan STEP_KIND).isEmpty = false ↔ views ≠ [] := by
    rw [← List.length_pos_iff, ← hrows.length_eq, List.length_pos_iff, List.isEmpty_eq_false_iff]
  simp only [Bool.and_eq_true, List.all_eq_true, Bool.not_eq_true', hfinished, hempty]
  exact and_comm

/-- A walk succeeds where every task's strategy can be read. -/
theorem exists_tasksUnder (hsource : ∀ i, ∃ strategy, source i = .ok strategy) (p : Int) (depth : Nat) :
    ∃ ts, tasksUnder s source p depth = .ok ts := by
  induction hn : maxDepth + 1 - depth generalizing p depth with
  | zero => exact ⟨[], by rw [tasksUnder, dif_pos (by omega)]⟩
  | succ n ih =>
      rw [tasksUnder, dif_neg (by omega)]
      have hlisted : ∃ listed, ((childrenOfKind s p TASK).mapM fun i => do
          let strategy ← source i.id
          let below ← tasksUnder s source i.id (depth + 1)
          Except.ok ((⟨i.uid, titleFrom i.uid i.content, i.status, i.priority, depth, i.claimantId, strategy⟩ :
            PlanTask) :: below)) = .ok listed := by
        refine Tx.exists_mapM fun i _ => ?_
        obtain ⟨strategy, hstrategy⟩ := hsource i.id
        obtain ⟨below, hbelow⟩ := ih i.id (depth + 1) (by omega)
        exact ⟨_, by rw [hstrategy, hbelow]; rfl⟩
      obtain ⟨listed, hlisted⟩ := hlisted
      exact ⟨listed.flatten, by rw [hlisted]; rfl⟩

/-- The view of a plan does not fail where the strategies can be read. -/
theorem exists_view (hsource : ∀ i, ∃ strategy, source i = .ok strategy) :
    ∃ v, view s stagedInto source spans plan uid title design = .ok v := by
  have hviews : ∃ views, (childrenOfKind s plan STEP_KIND).mapM (stepView s stagedInto source spans) = .ok views := by
    refine Tx.exists_mapM fun step _ => ?_
    obtain ⟨tasks, htasks⟩ := exists_tasksUnder hsource step.id 0
    exact ⟨_, by rw [stepView, htasks]; rfl⟩
  obtain ⟨views, hviews⟩ := hviews
  exact ⟨_, by rw [view, hviews]; rfl⟩

end Listing

/-! ## a plan with a task below the depth that is listed -/

/-- The items of a chain: a plan, a step in it, and tasks, each in the one before; the last task is open. -/
def link (n : Nat) : PlanItem where
  id := n
  uid := showNat n
  kind := if n = 0 then "exec_plan".toList else if n = 1 then STEP_KIND else TASK
  content := none
  status := if n ≤ 1 then none else if n = maxDepth + 3 then some "open".toList else some "done".toList
  priority := none
  claimantId := none

/-- A plan with one step, and tasks in it to one level below what is listed. -/
def deep : Store where
  items :=
    { table :=
        { rows := (List.range (maxDepth + 4)).map link
          nodup := by
            rw [List.map_map]
            exact List.nodup_range.map fun _ _ h => Int.ofNat.inj h }
      unique := by
        rw [List.map_map]
        exact List.nodup_range.map fun _ _ h => showNat_injective h }
  containment :=
    { rows := (List.range (maxDepth + 3)).map fun n : Nat => ⟨n + 1, n, 0⟩
      nodup := by
        rw [List.map_map]
        exact List.nodup_range.map fun a b h => by
          simp only [Function.comp_apply] at h
          omega }

/-- The containments of the deep plan: each contains the next. -/
theorem inside_deep {c p : Int} : Inside deep.containment c p ↔ ∃ n < maxDepth + 3, p = (n : Nat) ∧ c = n + 1 := by
  simp only [inside_iff, deep, List.mem_map, List.mem_range]
  constructor
  · rintro ⟨r, ⟨n, hn, rfl⟩, rfl, rfl⟩
    exact ⟨n, hn, rfl, rfl⟩
  · rintro ⟨n, hn, rfl, rfl⟩
    exact ⟨_, ⟨n, hn, rfl⟩, rfl, rfl⟩

/-- They are a forest. -/
theorem forest_deep : Forest deep.containment := by
  refine acyclic_of_rank (fun i => maxDepth + 4 - i.toNat) fun c p h => ?_
  obtain ⟨n, hn, rfl, rfl⟩ := inside_deep.mp h
  simp only [maxDepth] at hn ⊢
  omega

/-- A chain of the deep plan goes down one item for each of its links. -/
theorem id_of_taskChain {n : Nat} {p : Int} {i : PlanItem} (h : TaskChain deep n p i) : i.id = p + n + 1 := by
  induction n generalizing p with
  | zero =>
      obtain ⟨k, -, rfl, hi⟩ := inside_deep.mp (mem_childrenOfKind.mp h).2.2
      rw [hi]
      simp
  | succ n ih =>
      obtain ⟨m, hm, hchain⟩ := h
      obtain ⟨k, -, rfl, hid⟩ := inside_deep.mp (mem_childrenOfKind.mp hm).2.2
      rw [ih hchain, hid]
      push_cast
      omega

/-- Every task of it is below its step. -/
theorem transGen_deep {n : Nat} (h : n < maxDepth + 2) : TransGen (Inside deep.containment) (n + 2 : Int) 1 := by
  induction n with
  | zero => exact .single (inside_deep.mpr ⟨1, by decide, rfl, rfl⟩)
  | succ n ih =>
      refine .head (inside_deep.mpr ⟨n + 2, by omega, ?_, ?_⟩) (ih (by omega))
      · push_cast
        rfl
      · push_cast
        rfl

/-- It has a view. -/
theorem exists_view_deep :
    ∃ v, view deep (fun _ : Unit => []) (fun _ => .ok []) [] 0 [] [] [] = .ok v :=
  exists_view fun _ => ⟨[], rfl⟩

/-- The deep plan's listing misses its last task. -/
theorem deep_plan_differs : Forest deep.containment ∧
    ¬ ∀ v, view deep (fun _ : Unit => []) (fun _ => .ok []) [] 0 [] [] [] = .ok v → SpeaksOfSame deep 0 v := by
  refine ⟨forest_deep, fun h => ?_⟩
  obtain ⟨v, hview⟩ := exists_view_deep
  have hstep : link 1 ∈ childrenOfKind deep 0 STEP_KIND := by
    rw [mem_childrenOfKind]
    exact ⟨List.mem_map_of_mem (List.mem_range.mpr (by decide)), rfl, inside_deep.mpr ⟨0, by decide, rfl, rfl⟩⟩
  have htask : link (maxDepth + 3) ∈ counted deep (link 1).id := by
    rw [mem_counted]
    exact ⟨List.mem_map_of_mem (List.mem_range.mpr (by decide)), rfl, transGen_deep (by decide : maxDepth + 1 < _)⟩
  obtain ⟨n, hn, hchain⟩ := (listsCounted_steps forest_deep hview).mp (h v hview).steps _ hstep _ htask
  have hid := id_of_taskChain hchain
  simp only [link, maxDepth] at hid hn
  omega

/-- What the deep plan's steps list and what is counted are the same only if every task is within reach. -/
theorem speaksOfSame_deep : ∃ v, view deep (fun _ : Unit => []) (fun _ => .ok []) [] 0 [] [] [] = .ok v ∧
    (SpeaksOfSame deep 0 v ↔ ∀ step ∈ childrenOfKind deep 0 STEP_KIND, ReachedByTasks deep step.id) := by
  obtain ⟨v, hview⟩ := exists_view_deep
  exact ⟨v, hview, speaksOfSame_iff forest_deep hview⟩

end Jkb.Plan
