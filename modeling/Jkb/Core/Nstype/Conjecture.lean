import Jkb.Core.Edge.Walk
import Jkb.Core.Investigation.Buckets

/-!
# Jkb.Core.Nstype.Conjecture

The acceptance test of a conjecture. It is done when a candidate of a kind that the goal accepts has succeeded, has
been audited, and rests on no open gap. The gaps are those in the candidate's dependency closure, which is walked
as far as `MAX_CLOSURE_DEPTH`.
-/

namespace Jkb.Nstype.Conjecture

open Jkb.Bfs Jkb.Text Jkb.Substrate Jkb.Investigation Relation
open Jkb.Edge (Direction Edges)

/-- The tag facet that records a goal's acceptance preset. -/
def FACET_ACCEPTANCE : String := "acceptance"
def ACCEPT_PROVE : String := "prove"
def ACCEPT_DISPROVE : String := "disprove"

def KIND_CANDIDATE_PROOF : String := "candidate-proof"
def KIND_CANDIDATE_CONSTRUCTION : String := "candidate-construction"
def KIND_GAP : String := "gap"
def KIND_AUDIT : String := "audit"

/-- The kinds that can resolve the conjecture, one for each direction. -/
def CANDIDATE_KINDS : List String := [KIND_CANDIDATE_PROOF, KIND_CANDIDATE_CONSTRUCTION]

/-- How deep a `depends_on` closure is followed. -/
def MAX_CLOSURE_DEPTH : Nat := 64

/-- A store whose edges have ids that SQLite issues. -/
structure Linked where
  store : Store
  issued : ∀ e ∈ store.edges.rows, 0 < e.id ∧ e.id ≤ i64Max

/-- The edges of a store, as a graph to walk. -/
def Linked.graph (s : Linked) : Edge.Graph := ⟨s.store.edges, s.issued⟩

/-- The verdict of an acceptance test. -/
structure DoneState where
  done : Bool
  summary : Fmt

/-! ## the acceptance test -/

/-- The value of a goal's `acceptance` tag: of several, the one that their index has first. -/
def preset (s : Store) (goal : Int) : Option Text :=
  (((s.tags.rows.filter fun t => t.itemId = goal ∧ t.facet = FACET_ACCEPTANCE.toList).map (·.value)).insertionSort
    fun a b => a ≤ b).head?

/-- The kinds that a preset restricts a goal to. -/
def presetKinds (value : Text) : Option (List String) :=
  if value = ACCEPT_PROVE.toList then some [KIND_CANDIDATE_PROOF]
  else if value = ACCEPT_DISPROVE.toList then some [KIND_CANDIDATE_CONSTRUCTION]
  else none

section Predicate

variable (x : Outside) (s : Linked) (path : Text)

/-- The candidate kinds that satisfy the goal at a path: the first goal that is for one direction decides. -/
def acceptedKinds : Except Fmt (List String) := do
  let goals ← Query.evaluate x.nfc x.sqlite s.store.queried
    { kinds := [KIND_CONJECTURE.toList, KIND_GOAL.toList], scope := .subtree path }
  return (goals.findSome? fun goal => (preset s.store goal).bind presetKinds).getD CANDIDATE_KINDS

/-- Whether an audit verifies a candidate. -/
def survivedAudit (candidate : Int) : Bool :=
  (Edge.walk s.graph [.verifies] candidate 1 .«in»).any fun verifier =>
    (s.store.item? verifier.item).map (·.kind) = some KIND_AUDIT.toList

/-- Whether an item is a gap that nothing has settled. -/
def isOpenGap (i : ItemRow) : Bool :=
  i.kind = KIND_GAP.toList && i.resolution.getD .unresolved = .unresolved

/-- The open gaps in the `depends_on` closure of a unit. -/
def openGapsUnder (node : Int) : List Int :=
  ((Edge.walk s.graph [.dependsOn] node MAX_CLOSURE_DEPTH .out).map (·.item)).filter fun item =>
    (s.store.item? item).any isOpenGap

/-- Look at the candidates in turn, counting those that are not audited and those that rest on an open gap. -/
def judge : List Int → Nat → Nat → DoneState
  | [], unaudited, auditedButGapped =>
      ⟨false, [unaudited, " candidate(s) not yet through audit, ", auditedButGapped,
        " audited but still resting on an open gap — a reduction with a residual is not a resolution"]⟩
  | candidate :: candidates, unaudited, auditedButGapped =>
      if resolutionOf s.store candidate ≠ .success ∨ survivedAudit s candidate = false then
        judge candidates (unaudited + 1) auditedButGapped
      else if openGapsUnder s candidate = [] then
        ⟨true, ["a candidate survived adversarial audit with no open gap in its dependency closure"]⟩
      else judge candidates unaudited (auditedButGapped + 1)

/-- The acceptance test for the conjecture at a path. -/
def goalPredicate : Except Fmt DoneState := do
  let accepted ← acceptedKinds x s path
  let candidates ← Query.evaluate x.nfc x.sqlite s.store.queried
    { kinds := accepted.map String.toList, scope := .subtree path }
  if candidates = [] then return ⟨false, ["no ", " or ".intercalate accepted, " submitted yet"]⟩
  return judge s candidates 0 0

/-! ## what it is for -/

/-- An item is placed in a namespace below the path. -/
def Below (i : ItemRow) : Prop :=
  ∃ found, Ns.subtree x.nfc s.store.spaces path = .ok found ∧
    ∃ p ∈ s.store.placements.rows, p.itemId = i.id ∧ p.namespaceId ∈ found.map (·.1)

/-- What is to be resolved: a conjecture or a goal below the path. -/
structure IsGoal (i : ItemRow) : Prop where
  stored : i ∈ s.store.items.rows
  kind : i.kind = KIND_CONJECTURE.toList ∨ i.kind = KIND_GOAL.toList
  placed : Below x s path i

/-- A goal's acceptance is some value: of the tags that it has for it, the one that their index has first. -/
def Tagged (s : Store) (goal : Int) (value : Text) : Prop :=
  (∃ t ∈ s.tags.rows, t.itemId = goal ∧ t.facet = FACET_ACCEPTANCE.toList ∧ t.value = value) ∧
    ∀ t ∈ s.tags.rows, t.itemId = goal → t.facet = FACET_ACCEPTANCE.toList → value ≤ t.value

/-- **The direction that decides**: the first goal below the path that is to be proved or disproved has this value. -/
def Decides (value : Text) : Prop :=
  ∃ i, IsGoal x s path i ∧ Tagged s.store i.id value ∧ ∀ j v, IsGoal x s path j → j.id < i.id →
    Tagged s.store j.id v → v ≠ ACCEPT_PROVE.toList ∧ v ≠ ACCEPT_DISPROVE.toList

/-- **The kinds that can resolve it**: a proof, unless it is to be disproved, and a construction, unless it is to be
proved. -/
def Accepts (kind : Text) : Prop :=
  kind = KIND_CANDIDATE_PROOF.toList ∧ ¬ Decides x s path ACCEPT_DISPROVE.toList ∨
    kind = KIND_CANDIDATE_CONSTRUCTION.toList ∧ ¬ Decides x s path ACCEPT_PROVE.toList

/-- A unit that stands as a candidate: it is below the path, of a kind that the goal accepts, has succeeded, and an
audit verifies it. -/
structure Stands (i : ItemRow) : Prop where
  stored : i ∈ s.store.items.rows
  placed : Below x s path i
  accepted : Accepts x s path i.kind
  success : i.resolution = some .success
  audited : ∃ a ∈ s.store.items.rows, a.kind = KIND_AUDIT.toList ∧ s.store.edges.Arc .verifies a.id i.id

/-- An item is a gap that nothing has settled. -/
def OpenGap (item : Int) : Prop := ∃ i ∈ s.store.items.rows, i.id = item ∧ isOpenGap i = true

/-- **The conjecture is resolved**: some candidate that stands depends on no open gap, however far away. -/
def Resolved : Prop :=
  ∃ i, Stands x s path i ∧ ∀ g, OpenGap s g → ¬ ReflTransGen (s.store.edges.Arc .dependsOn) i.id g

/-- What the walk overlooks: the open gaps that a candidate depends on are all farther away than it goes. -/
def Overlooked : Prop :=
  ∃ i, Stands x s path i ∧ (∃ g, OpenGap s g ∧ ReflTransGen (s.store.edges.Arc .dependsOn) i.id g) ∧
    ∀ g, OpenGap s g → ∀ n ≤ MAX_CLOSURE_DEPTH, ¬ Steps (s.store.edges.Arc .dependsOn) n i.id g

end Predicate

/-! ## the test is exact, as far as it looks -/

variable {x : Outside} {s : Linked} {path : Text} {i : ItemRow}

/-- The kinds that a goal accepts are candidates, and there are some. -/
theorem presetKinds_sub {value : Text} {kinds : List String} (h : presetKinds value = some kinds) :
    kinds ≠ [] ∧ ∀ k ∈ kinds, k ∈ CANDIDATE_KINDS := by
  unfold presetKinds at h
  split_ifs at h
  · obtain rfl := Option.some.inj h
    exact ⟨List.cons_ne_nil _ _, List.forall_iff_forall_mem.mp (by decide)⟩
  · obtain rfl := Option.some.inj h
    exact ⟨List.cons_ne_nil _ _, List.forall_iff_forall_mem.mp (by decide)⟩

theorem acceptedKinds_sub {kinds : List String} (h : acceptedKinds x s path = .ok kinds) :
    kinds ≠ [] ∧ ∀ k ∈ kinds, k ∈ CANDIDATE_KINDS := by
  obtain ⟨goals, -, h⟩ := Tx.bind_eq_ok.mp h
  obtain rfl := Except.ok.inj h
  cases hfound : goals.findSome? fun goal => (preset s.store goal).bind presetKinds with
  | none => exact ⟨List.cons_ne_nil _ _, fun k hk => hk⟩
  | some kinds =>
      obtain ⟨goal, -, hgoal⟩ := List.exists_of_findSome?_eq_some hfound
      obtain ⟨value, -, hvalue⟩ := Option.bind_eq_some_iff.mp hgoal
      exact presetKinds_sub hvalue

/-- A candidate is neither an audit nor a gap. -/
theorem kind_of_accepted {kinds : List String} (h : acceptedKinds x s path = .ok kinds)
    (hi : i.kind ∈ kinds.map String.toList) : i.kind ≠ KIND_AUDIT.toList ∧ i.kind ≠ KIND_GAP.toList := by
  obtain ⟨k, hk, heq⟩ := List.mem_map.mp hi
  have hall : ∀ k ∈ CANDIDATE_KINDS, k.toList ≠ KIND_AUDIT.toList ∧ k.toList ≠ KIND_GAP.toList :=
    List.forall_iff_forall_mem.mp (by decide)
  rw [← heq]
  exact hall k ((acceptedKinds_sub h).2 k hk)

/-- Whose kinds are among some, and who is placed in the subtree. -/
theorem evaluate_kinds {found : List (Int × Text)} (hfound : Ns.subtree x.nfc s.store.spaces path = .ok found)
    (kinds : List Text) :
    ∃ ids, Query.evaluate x.nfc x.sqlite s.store.queried { kinds, scope := .subtree path } = .ok ids ∧
      ids.Pairwise (· ≤ ·) ∧ ∀ c, c ∈ ids ↔ ∃ i ∈ s.store.items.rows, i.id = c ∧ (kinds = [] ∨ i.kind ∈ kinds) ∧
        ∃ p ∈ s.store.placements.rows, p.itemId = i.id ∧ p.namespaceId ∈ found.map (·.1) := by
  have heval := evaluate_subtree (x := x) s.store kinds [] path
  rw [hfound] at heval
  refine ⟨_, heval, ?_, fun c => ?_⟩
  · have hsorted := @List.pairwise_mergeSort Int (fun a b => decide (a ≤ b)) (by simpa using fun _ _ _ => Int.le_trans)
      (by simpa using Int.le_total)
    simpa only [decide_eq_true_eq] using hsorted _
  simp only [List.mem_mergeSort, List.mem_map (f := fun i : ItemRow => i.id), List.mem_filter, placedIn,
    List.isEmpty_nil, Bool.true_or, Bool.and_true, Bool.and_eq_true, Bool.or_eq_true, List.isEmpty_iff,
    List.contains_iff_mem, List.any_eq_true, decide_eq_true_eq]
  constructor
  · rintro ⟨i, ⟨hi, hkind, hplaced⟩, hid⟩
    exact ⟨i, hi, hid, hkind, hplaced⟩
  · rintro ⟨i, hi, hid, hkind, hplaced⟩
    exact ⟨i, ⟨hi, hkind, hplaced⟩, hid⟩

/-! ## the kinds that a goal accepts -/

theorem preset_eq_some {s : Store} {goal : Int} {value : Text} : preset s goal = some value ↔ Tagged s goal value := by
  have hsorted := List.pairwise_insertionSort (fun a b : Text => a ≤ b)
    ((s.tags.rows.filter fun t => t.itemId = goal ∧ t.facet = FACET_ACCEPTANCE.toList).map (·.value))
  have hmem : ∀ v, v ∈ ((s.tags.rows.filter fun t => t.itemId = goal ∧ t.facet = FACET_ACCEPTANCE.toList).map
      (·.value)).insertionSort (fun a b => a ≤ b) ↔
        ∃ t ∈ s.tags.rows, t.itemId = goal ∧ t.facet = FACET_ACCEPTANCE.toList ∧ t.value = v := by
    intro v
    simp [and_assoc]
  rw [preset]
  generalize ((s.tags.rows.filter fun t => t.itemId = goal ∧ t.facet = FACET_ACCEPTANCE.toList).map
    (·.value)).insertionSort (fun a b => a ≤ b) = values at hsorted hmem ⊢
  cases values with
  | nil => exact iff_of_false nofun fun h => List.not_mem_nil ((hmem value).mpr h.1)
  | cons first rest =>
      have hleast : ∀ v ∈ first :: rest, first ≤ v := by
        intro v hv
        obtain rfl | hv := List.mem_cons.mp hv
        · exact le_refl v
        · exact (List.pairwise_cons.mp hsorted).1 v hv
      rw [List.head?_cons, Option.some.injEq]
      constructor
      · rintro rfl
        refine ⟨(hmem first).mp List.mem_cons_self, fun t ht hgoal hfacet => ?_⟩
        exact hleast _ ((hmem _).mpr ⟨t, ht, hgoal, hfacet, rfl⟩)
      · rintro ⟨hin, hle⟩
        obtain ⟨t, ht, hgoal, hfacet, hfirst⟩ := (hmem first).mp List.mem_cons_self
        exact le_antisymm (hleast value ((hmem value).mpr hin)) (hfirst ▸ hle t ht hgoal hfacet)

/-- A preset restricts the kinds exactly where it is for one direction. -/
theorem presetKinds_eq_none {value : Text} :
    presetKinds value = none ↔ value ≠ ACCEPT_PROVE.toList ∧ value ≠ ACCEPT_DISPROVE.toList := by
  unfold presetKinds
  split_ifs with hprove hdisprove
  · exact iff_of_false nofun fun h => h.1 hprove
  · exact iff_of_false nofun fun h => h.2 hdisprove
  · exact iff_of_true rfl ⟨hprove, hdisprove⟩

/-- One direction decides at most. -/
theorem Decides.unique {v w : Text} (hv : Decides x s path v) (hw : Decides x s path w)
    (hv' : presetKinds v ≠ none) (hw' : presetKinds w ≠ none) : v = w := by
  obtain ⟨i, hi, hiv, hifirst⟩ := hv
  obtain ⟨j, hj, hjw, hjfirst⟩ := hw
  obtain hlt | heq | hlt := Int.lt_trichotomy i.id j.id
  · exact absurd (presetKinds_eq_none.mpr (hjfirst i v hi hlt hiv)) hv'
  · rw [← heq] at hjw
    exact Option.some.inj ((preset_eq_some.mpr hiv).symm.trans (preset_eq_some.mpr hjw))
  · exact absurd (presetKinds_eq_none.mpr (hifirst j w hj hlt hjw)) hw'

/-- What is found first among the goals is what decides. -/
theorem findSome?_goals {goals : List Int} (hsorted : goals.Pairwise (· ≤ ·))
    (hgoals : ∀ c, c ∈ goals ↔ ∃ i, IsGoal x s path i ∧ i.id = c) :
    match goals.findSome? fun goal => (preset s.store goal).bind presetKinds with
    | none => ∀ v, presetKinds v ≠ none → ¬ Decides x s path v
    | some kinds => ∃ v, Decides x s path v ∧ presetKinds v = some kinds := by
  cases hfound : goals.findSome? fun goal => (preset s.store goal).bind presetKinds with
  | none =>
      rintro v hv ⟨i, hi, htag, -⟩
      have hnone := List.findSome?_eq_none_iff.mp hfound i.id ((hgoals _).mpr ⟨i, hi, rfl⟩)
      rw [preset_eq_some.mpr htag, Option.bind_some] at hnone
      exact hv hnone
  | some kinds =>
      obtain ⟨before, goal, after, rfl, hgoal, hbefore⟩ := List.findSome?_eq_some_iff.mp hfound
      obtain ⟨v, hv, hkinds⟩ := Option.bind_eq_some_iff.mp hgoal
      obtain ⟨i, hi, rfl⟩ := (hgoals goal).mp (List.mem_append_right _ List.mem_cons_self)
      refine ⟨v, ⟨i, hi, preset_eq_some.mp hv, fun j w hj hlt hw => ?_⟩, hkinds⟩
      -- a goal with a smaller id comes before this one
      have hmem : j.id ∈ before := by
        have hin := (hgoals j.id).mpr ⟨j, hj, rfl⟩
        refine (List.mem_append.mp hin).resolve_right fun hlater => ?_
        have hle : ∀ c ∈ i.id :: after, i.id ≤ c := by
          have hcons := List.pairwise_cons.mp (List.pairwise_append.mp hsorted).2.1
          intro c hc
          obtain rfl | hc := List.mem_cons.mp hc
          · exact Int.le_refl _
          · exact hcons.1 c hc
        exact absurd (hle j.id hlater) (by omega)
      have hnone := hbefore j.id hmem
      rw [preset_eq_some.mpr hw, Option.bind_some] at hnone
      exact presetKinds_eq_none.mp hnone

/-- **The accepted kinds are those that can resolve it.** -/
theorem mem_acceptedKinds {kinds : List String} (h : acceptedKinds x s path = .ok kinds) {k : Text} :
    k ∈ kinds.map String.toList ↔ Accepts x s path k := by
  obtain ⟨goals, hgoals, h⟩ := Tx.bind_eq_ok.mp h
  obtain rfl := Except.ok.inj h
  have heval := evaluate_subtree (x := x) s.store [KIND_CONJECTURE.toList, KIND_GOAL.toList] [] path
  rw [hgoals] at heval
  obtain ⟨found, hfound, -⟩ := Tx.map_eq_ok.mp heval.symm
  obtain ⟨goals', hgoals', hsorted, hmem⟩ := evaluate_kinds hfound [KIND_CONJECTURE.toList, KIND_GOAL.toList]
  obtain rfl := Except.ok.inj (hgoals.symm.trans hgoals')
  have hisGoal : ∀ c, c ∈ goals ↔ ∃ i, IsGoal x s path i ∧ i.id = c := by
    intro c
    rw [hmem]
    constructor
    · rintro ⟨i, hi, hid, hkind, hplaced⟩
      exact ⟨i, ⟨hi, by simpa using hkind, found, hfound, hplaced⟩, hid⟩
    · rintro ⟨i, ⟨hi, hkind, found', hfound', hplaced⟩, hid⟩
      obtain rfl := Except.ok.inj (hfound.symm.trans hfound')
      exact ⟨i, hi, hid, by simpa using hkind, hplaced⟩
  have hfirst := findSome?_goals hsorted hisGoal
  have hprove : presetKinds ACCEPT_PROVE.toList = some [KIND_CANDIDATE_PROOF] := rfl
  have hdisprove : presetKinds ACCEPT_DISPROVE.toList = some [KIND_CANDIDATE_CONSTRUCTION] := rfl
  cases hfindSome : goals.findSome? fun goal => (preset s.store goal).bind presetKinds with
  | none =>
      rw [hfindSome] at hfirst
      have hnotProve := hfirst _ (hprove ▸ Option.some_ne_none _)
      have hnotDisprove := hfirst _ (hdisprove ▸ Option.some_ne_none _)
      simp [Accepts, hnotProve, hnotDisprove, CANDIDATE_KINDS]
  | some kinds =>
      rw [hfindSome] at hfirst
      obtain ⟨v, hv, hkinds⟩ := hfirst
      have hv' : presetKinds v ≠ none := hkinds ▸ Option.some_ne_none _
      have hother : ∀ w, Decides x s path w → presetKinds w ≠ none → w = v := fun w hw hw' => hw.unique hv hw' hv'
      unfold presetKinds at hkinds
      split_ifs at hkinds with hv₁ hv₂
      · subst hv₁
        obtain rfl := Option.some.inj hkinds
        have hnot : ¬ Decides x s path ACCEPT_DISPROVE.toList := fun hw =>
          absurd (hother _ hw (hdisprove ▸ Option.some_ne_none _)) (by decide)
        simp [Accepts, hv, hnot]
      · subst hv₂
        obtain rfl := Option.some.inj hkinds
        have hnot : ¬ Decides x s path ACCEPT_PROVE.toList := fun hw =>
          absurd (hother _ hw (hprove ▸ Option.some_ne_none _)) (by decide)
        simp [Accepts, hv, hnot]

/-! ## what the test finds -/

/-- **Surviving an audit** is to be verified by one. -/
theorem survivedAudit_iff (hi : i ∈ s.store.items.rows) (hkind : i.kind ≠ KIND_AUDIT.toList) :
    survivedAudit s i.id = true ↔
      ∃ a ∈ s.store.items.rows, a.kind = KIND_AUDIT.toList ∧ s.store.edges.Arc .verifies a.id i.id := by
  have hwalk := fun b => @Edge.mem_walk s.graph [.verifies] .«in» i.id 1 b
  rw [survivedAudit, List.any_eq_true]
  constructor
  · rintro ⟨r, hr, hkind⟩
    obtain ⟨a, hitem, hkind⟩ := Option.map_eq_some_iff.mp (of_decide_eq_true hkind)
    obtain ⟨ha, hid⟩ := Table.find?_eq_some.mp hitem
    obtain ⟨hne, n, hn, hsteps⟩ := (hwalk r.item).mp (List.mem_map_of_mem hr)
    have hone : n = 1 := by
      rcases Nat.le_one_iff_eq_zero_or_eq_one.mp hn with rfl | hone
      · exact absurd hsteps.symm hne
      · exact hone
    subst hone
    obtain ⟨_, rfl, hadj⟩ := hsteps
    exact ⟨a, ha, hkind, hid ▸ Edge.adjacent_in.mp hadj⟩
  · rintro ⟨a, ha, haudit, harc⟩
    have hne : a.id ≠ i.id := by
      intro heq
      rw [s.store.items.toTable.eq_of_key_eq ha hi heq] at haudit
      exact hkind haudit
    obtain ⟨r, hr, hitem⟩ := List.mem_map.mp
      ((hwalk a.id).mpr ⟨hne, 1, Nat.le_refl 1, i.id, rfl, Edge.adjacent_in.mpr harc⟩)
    have hfind : s.store.item? r.item = some a := by
      rw [hitem]
      exact Table.find?_of_mem ha
    exact ⟨r, hr, by rw [hfind, Option.map_some, haudit, decide_eq_true_eq]⟩

theorem openGap_iff {g : Int} : OpenGap s g ↔ (s.store.item? g).any isOpenGap = true := by
  rw [Option.any_eq_true]
  constructor
  · rintro ⟨i, hi, rfl, hopen⟩
    exact ⟨i, Table.find?_of_mem hi, hopen⟩
  · rintro ⟨i, hi, hopen⟩
    obtain ⟨hi, hid⟩ := Table.find?_eq_some.mp hi
    exact ⟨i, hi, hid, hopen⟩

/-- **The gaps under a unit** that is none itself are those within the depth of the walk. -/
theorem openGapsUnder_eq_nil (hi : i ∈ s.store.items.rows) (hkind : i.kind ≠ KIND_GAP.toList) :
    openGapsUnder s i.id = [] ↔
      ∀ g, OpenGap s g → ∀ n ≤ MAX_CLOSURE_DEPTH, ¬ Steps (s.store.edges.Arc .dependsOn) n i.id g := by
  have hwalk := fun b => @Edge.mem_walk s.graph [.dependsOn] .out i.id MAX_CLOSURE_DEPTH b
  simp only [Edge.adjacent_out] at hwalk
  rw [openGapsUnder, List.filter_eq_nil_iff]
  constructor
  · intro hnone g hgap n hn hsteps
    have hne : g ≠ i.id := by
      rintro rfl
      obtain ⟨k, hk, hid, hopen⟩ := hgap
      rw [s.store.items.toTable.eq_of_key_eq hk hi hid] at hopen
      simp only [isOpenGap, Bool.and_eq_true, decide_eq_true_eq] at hopen
      exact hkind hopen.1
    exact hnone g ((hwalk g).mpr ⟨hne, n, hn, hsteps⟩) (openGap_iff.mp hgap)
  · intro hnone g hg hopen
    obtain ⟨-, n, hn, hsteps⟩ := (hwalk g).mp hg
    exact hnone g (openGap_iff.mpr hopen) n hn hsteps

/-- Looking at the candidates finds one that is audited and rests on no open gap, if there is one. -/
theorem judge_done (candidates : List Int) (unaudited auditedButGapped : Nat) :
    (judge s candidates unaudited auditedButGapped).done = true ↔ ∃ c ∈ candidates,
      resolutionOf s.store c = .success ∧ survivedAudit s c = true ∧ openGapsUnder s c = [] := by
  induction candidates generalizing unaudited auditedButGapped with
  | nil =>
      simp only [judge, List.not_mem_nil, false_and, exists_false]
      exact iff_of_false Bool.false_ne_true not_false
  | cons c candidates ih =>
      rw [judge, List.exists_mem_cons_iff]
      split_ifs with hopen hgaps
      · rw [ih, or_iff_right]
        rintro ⟨hsuccess, haudit, -⟩
        rcases hopen with hopen | hopen
        · exact hopen hsuccess
        · rw [haudit] at hopen
          cases hopen
      · rw [not_or, not_not, Bool.not_eq_false] at hopen
        exact iff_of_true rfl (Or.inl ⟨hopen.1, hopen.2, hgaps⟩)
      · rw [ih, or_iff_right]
        rintro ⟨-, -, hnil⟩
        exact hgaps hnil

/-- **The test answers**, and is done where a candidate stands that depends on no open gap within the depth that is
walked. -/
theorem goalPredicate_done (hstrategy : requireStrategy x s.store path = .ok .conjecture) :
    ∃ verdict, goalPredicate x s path = .ok verdict ∧ (verdict.done = true ↔ ∃ i, Stands x s path i ∧
      ∀ g, OpenGap s g → ∀ n ≤ MAX_CLOSURE_DEPTH, ¬ Steps (s.store.edges.Arc .dependsOn) n i.id g) := by
  obtain ⟨found, hfound, -⟩ := subtree_of_requireStrategy hstrategy
  obtain ⟨goals, hgoals, -, -⟩ := evaluate_kinds hfound [KIND_CONJECTURE.toList, KIND_GOAL.toList]
  have haccepted : ∃ kinds, acceptedKinds x s path = .ok kinds := ⟨_, Tx.bind_eq_ok.mpr ⟨goals, hgoals, rfl⟩⟩
  obtain ⟨kinds, hkinds⟩ := haccepted
  obtain ⟨ids, hids, -, hmem⟩ := evaluate_kinds hfound (kinds.map String.toList)
  have hne : kinds.map String.toList ≠ [] := fun h => (acceptedKinds_sub hkinds).1 (List.map_eq_nil_iff.mp h)
  -- the candidates that pass are those that stand, with no open gap near
  have hpass : (∃ c ∈ ids, resolutionOf s.store c = .success ∧ survivedAudit s c = true ∧ openGapsUnder s c = []) ↔
      ∃ i, Stands x s path i ∧
        ∀ g, OpenGap s g → ∀ n ≤ MAX_CLOSURE_DEPTH, ¬ Steps (s.store.edges.Arc .dependsOn) n i.id g := by
    constructor
    · rintro ⟨c, hc, hsuccess, haudit, hgaps⟩
      obtain ⟨i, hi, rfl, hkind, hplaced⟩ := (hmem c).mp hc
      have hkind := hkind.resolve_left hne
      obtain ⟨hnotAudit, hnotGap⟩ := kind_of_accepted hkinds hkind
      refine ⟨i, ⟨hi, ⟨found, hfound, hplaced⟩, (mem_acceptedKinds hkinds).mp hkind, ?_,
        (survivedAudit_iff hi hnotAudit).mp haudit⟩, (openGapsUnder_eq_nil hi hnotGap).mp hgaps⟩
      rw [resolutionOf, Store.item?, Table.find?_of_mem hi, Option.bind_some] at hsuccess
      rcases hres : i.resolution with _ | r <;> rw [hres] at hsuccess
      · cases hsuccess
      · exact congrArg some hsuccess
    · rintro ⟨i, ⟨hi, ⟨found', hfound', hplaced⟩, haccepts, hsuccess, haudit⟩, hgaps⟩
      obtain rfl := Except.ok.inj (hfound.symm.trans hfound')
      have hkind := (mem_acceptedKinds hkinds).mpr haccepts
      obtain ⟨hnotAudit, hnotGap⟩ := kind_of_accepted hkinds hkind
      refine ⟨i.id, (hmem i.id).mpr ⟨i, hi, rfl, Or.inr hkind, hplaced⟩, ?_,
        (survivedAudit_iff hi hnotAudit).mpr haudit, (openGapsUnder_eq_nil hi hnotGap).mpr hgaps⟩
      rw [resolutionOf, Store.item?, Table.find?_of_mem hi, Option.bind_some, hsuccess]
      rfl
  by_cases hnil : ids = []
  · refine ⟨_, Tx.bind_eq_ok.mpr ⟨kinds, hkinds, Tx.bind_eq_ok.mpr ⟨ids, hids, if_pos hnil⟩⟩, ?_⟩
    rw [← hpass, hnil]
    simp
  · exact ⟨_, Tx.bind_eq_ok.mpr ⟨kinds, hkinds, Tx.bind_eq_ok.mpr ⟨ids, hids, if_neg hnil⟩⟩,
      (judge_done ids 0 0).trans hpass⟩

/-- **A conjecture is called resolved exactly when it is**, but where a gap is overlooked and no candidate makes up
for it. -/
theorem goalPredicate_exact (hstrategy : requireStrategy x s.store path = .ok .conjecture) :
    (∃ verdict, goalPredicate x s path = .ok verdict ∧ (verdict.done = true ↔ Resolved x s path)) ↔
      (Overlooked x s path → Resolved x s path) := by
  obtain ⟨verdict, hverdict, hdone⟩ := goalPredicate_done hstrategy
  -- what is resolved is called so
  have hsound : Resolved x s path → verdict.done = true := by
    rintro ⟨i, hi, hnone⟩
    exact hdone.mpr ⟨i, hi, fun g hg n _ hsteps => hnone g hg (exists_steps_iff.mp ⟨n, hsteps⟩)⟩
  constructor
  · rintro ⟨verdict', hverdict', hiff⟩ ⟨i, hi, -, hfar⟩
    obtain rfl := Except.ok.inj (hverdict.symm.trans hverdict')
    exact hiff.mp (hdone.mpr ⟨i, hi, hfar⟩)
  · intro hcovered
    refine ⟨verdict, hverdict, fun h => ?_, hsound⟩
    obtain ⟨i, hi, hfar⟩ := hdone.mp h
    by_contra hnot
    refine hnot (hcovered ⟨i, hi, ?_, hfar⟩)
    by_contra hnone
    exact hnot ⟨i, hi, fun g hg hreach => hnone ⟨g, hg, hreach⟩⟩

/-! ## a gap that is far away -/

/-- A candidate that succeeded, the audit that verifies it, and a gap. -/
def chainProof : ItemRow :=
  { id := 3, uid := "p".toList, kind := KIND_CANDIDATE_PROOF.toList, resolution := some .success }

def chainAudit : ItemRow := { id := 2, uid := "a".toList, kind := KIND_AUDIT.toList }

def chainGap : ItemRow := { id := 68, uid := "g".toList, kind := KIND_GAP.toList }

/-- A lemma that a chain of dependencies passes through. -/
def chainLemma (k : Nat) : ItemRow := { id := 4 + k, uid := "l".toList ++ (Nat.toDigits 10 k), kind := "lemma".toList }

/-- Where a unit of the chain is placed. -/
def chainPlacement (k : Nat) : PlacementRow :=
  { id := 1 + k, itemId := 1 + k, namespaceId := 1, role := .primary, position := k }

/-- A dependency of a chain. -/
def chainEdge (k : Nat) : Edge.EdgeRow :=
  { id := 2 + k, src := 3 + k, dst := 4 + k, type := .dependsOn, weight := none, props := [] }

/-- A conjecture with a candidate that an audit verified, and an open gap at the end of the 65 dependencies below. -/
def longChain : Linked where
  store :=
    { namespaces :=
        { rows := [⟨1, "lab".toList, none, .logical, "@conjecture-attack".toList, []⟩]
          nodup := by decide
          last := 1
          le_last := by decide
          unique := by decide
          linked := by decide }
      mounts := []
      items :=
        { rows := [{ id := 1, uid := "c".toList, kind := KIND_CONJECTURE.toList }, chainAudit, chainProof] ++
            (List.range 64).map chainLemma ++ [chainGap]
          nodup := by decide +kernel
          last := 68
          le_last := by decide +kernel }
      placements :=
        { rows := (List.range 68).map chainPlacement
          nodup := by decide +kernel
          last := 68
          le_last := by decide +kernel }
      tags := .empty
      edges :=
        { table :=
            { rows := { id := 1, src := 2, dst := 3, type := .verifies, weight := none, props := [] } ::
                (List.range 65).map chainEdge
              nodup := by decide +kernel
              last := 66
              le_last := by decide +kernel }
          unique := by decide +kernel }
      containment := .empty
      transitions := []
      log := [] }
  issued := by decide +kernel

theorem longChain_arc {a b : Int} :
    longChain.store.edges.Arc .dependsOn a b ↔ ∃ k : Nat, k < 65 ∧ a = 3 + k ∧ b = 4 + k := by
  constructor
  · rintro ⟨e, he, rfl, rfl, htype⟩
    rcases List.mem_cons.mp he with rfl | he
    · cases htype
    · obtain ⟨k, hk, rfl⟩ := List.mem_map.mp he
      exact ⟨k, List.mem_range.mp hk, rfl, rfl⟩
  · rintro ⟨k, hk, rfl, rfl⟩
    exact ⟨chainEdge k, List.mem_cons_of_mem _ (List.mem_map_of_mem (List.mem_range.mpr hk)), rfl, rfl, rfl⟩

/-- The chain is one: what is so many steps away is that far down. -/
theorem longChain_steps {n : Nat} {g : Int} :
    Steps (longChain.store.edges.Arc .dependsOn) n 3 g ↔ n ≤ 65 ∧ g = 3 + n := by
  induction n generalizing g with
  | zero =>
      constructor
      · rintro rfl
        exact ⟨Nat.zero_le _, rfl⟩
      · rintro ⟨-, rfl⟩
        rfl
  | succ n ih =>
      constructor
      · rintro ⟨c, hc, hcg⟩
        obtain ⟨-, rfl⟩ := ih.mp hc
        obtain ⟨k, hk, hkn, rfl⟩ := longChain_arc.mp hcg
        omega
      · rintro ⟨hn, rfl⟩
        exact ⟨3 + n, ih.mpr ⟨by omega, rfl⟩, longChain_arc.mpr ⟨n, by omega, rfl, by push_cast; omega⟩⟩

theorem longChain_openGap {g : Int} : OpenGap longChain g ↔ g = 68 := by
  have honly : ∀ i ∈ longChain.store.items.rows, isOpenGap i = true → i.id = 68 :=
    List.forall_iff_forall_mem.mp (by decide +kernel)
  constructor
  · rintro ⟨i, hi, rfl, hopen⟩
    exact honly i hi hopen
  · rintro rfl
    exact ⟨chainGap, List.mem_append_right _ List.mem_cons_self, rfl, by decide⟩

theorem longChain_strategy : requireStrategy plain longChain.store "lab".toList = .ok .conjecture := rfl

/-- The units of the lab are placed in it. -/
theorem longChain_subtree : ∃ found, Ns.subtree plain.nfc longChain.store.spaces "lab".toList = .ok found ∧
    1 ∈ found.map (·.1) := by
  have hroot : Ns.normalize plain.nfc "lab".toList = .ok "lab".toList := rfl
  have hwalk : 1 ∈ Ns.walk longChain.store.spaces "lab".toList := by
    rw [Ns.walk, Worklist.mem_closure]
    exact ⟨1, List.mem_cons_self, .refl⟩
  rw [Ns.subtree, hroot]
  refine ⟨_, rfl, List.mem_map.mpr ⟨(1, "lab".toList), List.mem_mergeSort.mpr (List.mem_map.mpr ?_), rfl⟩⟩
  exact ⟨_, List.mem_filter.mpr ⟨List.mem_cons_self, decide_eq_true hwalk⟩, rfl⟩

/-- Without a tag, either direction resolves the goal. -/
theorem longChain_accepted : acceptedKinds plain longChain "lab".toList = .ok CANDIDATE_KINDS := by
  obtain ⟨found, hfound, -⟩ := subtree_of_requireStrategy longChain_strategy
  obtain ⟨goals, hgoals, -⟩ := evaluate_kinds hfound [KIND_CONJECTURE.toList, KIND_GOAL.toList]
  refine Tx.bind_eq_ok.mpr ⟨goals, hgoals, ?_⟩
  have hnone : goals.findSome? (fun goal => (preset longChain.store goal).bind presetKinds) = none :=
    List.findSome?_eq_none_iff.mpr fun _ _ => rfl
  rw [hnone]
  rfl

/-- **A residual passes as a resolution**: the candidate rests on an open gap, 65 dependencies away, and the
conjecture is done. -/
theorem goalPredicate_longChain :
    (∃ verdict, goalPredicate plain longChain "lab".toList = .ok verdict ∧ verdict.done = true) ∧
      ¬ Resolved plain longChain "lab".toList := by
  have honly : ∀ i ∈ longChain.store.items.rows, i.resolution = some .success → i.id = 3 :=
    List.forall_iff_forall_mem.mp (by decide +kernel)
  constructor
  · obtain ⟨verdict, hverdict, hdone⟩ := goalPredicate_done longChain_strategy
    obtain ⟨found, hfound, hlab⟩ := longChain_subtree
    refine ⟨verdict, hverdict, hdone.mpr ⟨chainProof, ⟨?_, ⟨found, hfound, ?_⟩,
      (mem_acceptedKinds longChain_accepted).mp ?_, rfl, ?_⟩, ?_⟩⟩
    · exact List.mem_append_left _ (List.mem_append_left _ (by simp))
    · exact ⟨chainPlacement 2, List.mem_map_of_mem (List.mem_range.mpr (by decide)), rfl, hlab⟩
    · exact List.mem_cons_self
    · exact ⟨chainAudit,
        List.mem_append_left _ (List.mem_append_left _ (by simp)), rfl, _, List.mem_cons_self, rfl, rfl, rfl⟩
    · intro g hg n hn hsteps
      obtain ⟨-, hfar⟩ := longChain_steps.mp hsteps
      rw [longChain_openGap.mp hg] at hfar
      rw [MAX_CLOSURE_DEPTH] at hn
      omega
  · rintro ⟨i, hi, hnone⟩
    rw [honly i hi.stored hi.success] at hnone
    exact hnone 68 (longChain_openGap.mpr rfl) (exists_steps_iff.mp ⟨65, longChain_steps.mpr ⟨Nat.le_refl _, rfl⟩⟩)

theorem goalPredicate_exact_longChain :
    (∃ verdict, goalPredicate plain longChain "lab".toList = .ok verdict ∧
      (verdict.done = true ↔ Resolved plain longChain "lab".toList)) ↔
        (Overlooked plain longChain "lab".toList → Resolved plain longChain "lab".toList) :=
  goalPredicate_exact longChain_strategy

end Jkb.Nstype.Conjecture
