import Jkb.Fsm
import Jkb.Worklist

/-!
# Jkb.Fsm.Check

What `Machine::check` reports of a table: rows declared twice, reconciliations without a guard, events
no row carries, verbs that cannot be run again, and the two liveness defects, found by walking the
table from the initial state and back from the states at rest.

The walks are over the names of the states, so their verdicts are about the states as far as the names
tell them apart (`mem_check_unreachable`, `mem_check_wedged`).
-/

namespace Jkb.Fsm

open Relation

/-- Something wrong with a machine's table. -/
inductive Defect (S E : Type) where
  | nondeterministic (src : S) (event : E)
  | unreachableState (state : S)
  | wedged (state : S)
  | noSettledState
  | unguardedReconciliation (src : S) (event : E)
  | unusedEvent (event : E)
  | unrepeatable (state : S) (event : E)
deriving Repr, DecidableEq

/-- Which way an adjacency walk follows the table. -/
inductive Direction where
  | forward
  | backward
deriving Repr, DecidableEq

/-- Whether an adjacency walk follows stated rows. -/
inductive Stated where
  | counted
  | excluded
deriving Repr, DecidableEq

/-! ## the adjacency of a table -/

/-- A map from names to lists of names. -/
abbrev Adjacency := List (String × List String)

namespace Adjacency

/-- `map.get(node)`, the empty list where there is none. -/
def get (map : Adjacency) (node : String) : List String := (map.lookup node).getD []

/-- `map.entry(a).or_default().push(b)`. -/
def push : Adjacency → String → String → Adjacency
  | [], a, b => [(a, [b])]
  | (node, tos) :: map, a, b =>
      if a == node then (node, tos ++ [b]) :: map else (node, tos) :: push map a b

theorem mem_get_push {map : Adjacency} {a b node next : String} :
    next ∈ (map.push a b).get node ↔ next ∈ map.get node ∨ (node = a ∧ next = b) := by
  induction map with
  | nil =>
      by_cases h : node = a
      · simp [push, get, h]
      · simp [push, get, List.lookup_cons, h, beq_eq_false_iff_ne.mpr h]
  | cons entry map ih =>
      obtain ⟨key, tos⟩ := entry
      simp only [get] at ih
      by_cases ha : a = key
      · subst ha
        by_cases h : node = a
        · subst h
          simp [push, get]
        · simp [push, get, List.lookup_cons, h, beq_eq_false_iff_ne.mpr h]
      · by_cases h : node = key
        · subst h
          have hne : ¬ node = a := fun heq => ha heq.symm
          simp [push, get, beq_eq_false_iff_ne.mpr ha, hne]
        · simp only [push, get, beq_eq_false_iff_ne.mpr ha, List.lookup_cons, beq_eq_false_iff_ne.mpr h,
            Bool.false_eq_true, if_false, ih]

/-- All the names that some name leads to. -/
def targets (map : Adjacency) : List String := map.flatMap (·.2)

theorem get_subset_targets (map : Adjacency) : ∀ a, ∀ b ∈ map.get a, b ∈ map.targets := by
  intro a b hb
  induction map with
  | nil => simp [get] at hb
  | cons entry map ih =>
      obtain ⟨key, tos⟩ := entry
      rw [targets, List.flatMap_cons, List.mem_append]
      simp only [get, List.lookup_cons] at hb
      split at hb
      · exact Or.inl hb
      · exact Or.inr (ih hb)

end Adjacency

/-- Every node reachable from `seeds` in `graph`, by name. -/
def reach {S : Type} [State S] (graph : Adjacency) (seeds : List S) : List String :=
  Worklist.closure graph.get graph.targets graph.get_subset_targets (seeds.map State.name)

/-- The states that a row leads to, stated ones counted or not. -/
def Dest.targets {S C : Type} (dest : Dest S C) (stated : Stated) : List S :=
  match dest, stated with
  | .to s, _ => [s]
  | .stated _ among, .counted => among
  | .stated _ _, .excluded => []

theorem Dest.mem_targets_counted {S C : Type} {dest : Dest S C} {dst : S} :
    dst ∈ dest.targets .counted ↔
      dest = .to dst ∨ ∃ pick among, dest = .stated pick among ∧ dst ∈ among := by
  match dest with
  | .to s => simp [targets, eq_comm]
  | .stated pick among => simp [targets]

theorem Dest.mem_targets_excluded {S C : Type} {dest : Dest S C} {dst : S} :
    dst ∈ dest.targets .excluded ↔ dest = .to dst := by
  match dest with
  | .to s => simp [targets, eq_comm]
  | .stated pick among => simp [targets]

namespace Machine

variable {S E C X : Type}

/-! ## the edges of a table -/

/-- A row of the table leads from one state to another, by the table's word. -/
def LeadsTo (m : Machine S E C X) (s dst : S) : Prop :=
  ∃ t ∈ m.transitions, t.src = s ∧ t.dest = .to dst

/-- A row of the table leads from one state to another, by the table's word or a caller's. -/
def Leads (m : Machine S E C X) (s dst : S) : Prop :=
  m.LeadsTo s dst ∨
    ∃ t ∈ m.transitions, ∃ pick among, t.src = s ∧ t.dest = .stated pick among ∧ dst ∈ among

/-- The edges of the table, in the order it declares them. -/
def edges (m : Machine S E C X) (direction : Direction) (stated : Stated) : List (S × S) :=
  m.transitions.flatMap fun t =>
    (t.dest.targets stated).map fun dst =>
      match direction with
      | .forward => (t.src, dst)
      | .backward => (dst, t.src)

theorem mem_edges_forward {m : Machine S E C X} {s dst : S} :
    (s, dst) ∈ m.edges .forward .counted ↔ m.Leads s dst := by
  simp only [edges, List.mem_flatMap, List.mem_map, Prod.mk.injEq, Dest.mem_targets_counted, Leads, LeadsTo]
  constructor
  · rintro ⟨t, ht, _, hdest | ⟨pick, among, hdest, hmem⟩, rfl, rfl⟩
    · exact Or.inl ⟨t, ht, rfl, hdest⟩
    · exact Or.inr ⟨t, ht, pick, among, rfl, hdest, hmem⟩
  · rintro (⟨t, ht, rfl, hdest⟩ | ⟨t, ht, pick, among, rfl, hdest, hmem⟩)
    · exact ⟨t, ht, dst, Or.inl hdest, rfl, rfl⟩
    · exact ⟨t, ht, dst, Or.inr ⟨pick, among, hdest, hmem⟩, rfl, rfl⟩

theorem mem_edges_backward {m : Machine S E C X} {s dst : S} :
    (dst, s) ∈ m.edges .backward .excluded ↔ m.LeadsTo s dst := by
  simp only [edges, List.mem_flatMap, List.mem_map, Prod.mk.injEq, Dest.mem_targets_excluded, LeadsTo]
  constructor
  · rintro ⟨t, ht, _, hdest, rfl, rfl⟩
    exact ⟨t, ht, rfl, hdest⟩
  · rintro ⟨t, ht, rfl, hdest⟩
    exact ⟨t, ht, dst, hdest, rfl, rfl⟩

variable [State S]

/-- The table as a name-keyed adjacency map, in whichever direction `direction` picks out. -/
def adjacency (m : Machine S E C X) (direction : Direction) (stated : Stated) : Adjacency :=
  (m.edges direction stated).foldl (fun map e => map.push (State.name e.1) (State.name e.2)) []

theorem mem_get_foldl {edges : List (S × S)} {map : Adjacency} {node next : String} :
    next ∈ (edges.foldl (fun map e => map.push (State.name e.1) (State.name e.2)) map).get node ↔
      next ∈ map.get node ∨ ∃ e ∈ edges, node = State.name e.1 ∧ next = State.name e.2 := by
  induction edges generalizing map with
  | nil => simp
  | cons e edges ih =>
      rw [List.foldl_cons, ih, Adjacency.mem_get_push, List.exists_mem_cons_iff, or_assoc]

/-- The adjacency map has the table's edges, by name. -/
theorem mem_adjacency {m : Machine S E C X} {d : Direction} {stated : Stated} {node next : String} :
    next ∈ (m.adjacency d stated).get node ↔
      ∃ e ∈ m.edges d stated, node = State.name e.1 ∧ next = State.name e.2 := by
  rw [adjacency, mem_get_foldl]
  simp [Adjacency.get, List.lookup_nil]

/-- A walk over names is a walk over states, where the names tell the states apart. -/
theorem reflTransGen_names (hname : Function.Injective (State.name : S → String))
    {m : Machine S E C X} {d : Direction} {stated : Stated} {s : S} {node : String} :
    ReflTransGen (fun x y => y ∈ (m.adjacency d stated).get x) (State.name s) node ↔
      ∃ dst, node = State.name dst ∧ ReflTransGen (fun a b => (a, b) ∈ m.edges d stated) s dst := by
  constructor
  · intro h
    induction h with
    | refl => exact ⟨s, rfl, .refl⟩
    | tail _ hstep ih =>
        obtain ⟨mid, rfl, hpath⟩ := ih
        obtain ⟨⟨a, b⟩, he, ha, rfl⟩ := mem_adjacency.mp hstep
        obtain rfl := hname ha
        exact ⟨b, rfl, hpath.tail he⟩
  · rintro ⟨dst, rfl, hpath⟩
    exact hpath.lift State.name fun a b he => mem_adjacency.mpr ⟨(a, b), he, rfl, rfl⟩

/-- **What a walk finds**, where the names tell the states apart. -/
theorem mem_reach (hname : Function.Injective (State.name : S → String)) {m : Machine S E C X}
    {d : Direction} {stated : Stated} {seeds : List S} {dst : S} :
    State.name dst ∈ reach (m.adjacency d stated) seeds ↔
      ∃ s ∈ seeds, ReflTransGen (fun a b => (a, b) ∈ m.edges d stated) s dst := by
  rw [reach, Worklist.mem_closure]
  constructor
  · rintro ⟨node, hnode, hpath⟩
    obtain ⟨s, hs, rfl⟩ := List.mem_map.mp hnode
    obtain ⟨dst', heq, hpath⟩ := (reflTransGen_names hname).mp hpath
    obtain rfl := hname heq
    exact ⟨s, hs, hpath⟩
  · rintro ⟨s, hs, hpath⟩
    exact ⟨_, List.mem_map_of_mem hs, (reflTransGen_names hname).mpr ⟨dst, rfl, hpath⟩⟩

variable [DecidableEq S] [DecidableEq E] [Event E]

/-! ## the checks -/

/-- The defects of the rows themselves, given the pairs that rows before them declare. -/
def rowDefects : List (S × E) → List (Transition S E C X) → List (Defect S E)
  | _, [] => []
  | seen, t :: rows =>
      (if (t.src, t.event) ∈ seen then [.nondeterministic t.src t.event] else []) ++
        (if Event.kind t.event = .reconciled ∧ t.guard.isNone then
          [.unguardedReconciliation t.src t.event] else []) ++
        rowDefects ((t.src, t.event) :: seen) rows

/-- The verbs that their destination does not accept, each pair asked about once. -/
def unrepeatable (m : Machine S E C X) : List (S × E) → List (Transition S E C X) → List (Defect S E)
  | _, [] => []
  | asked, t :: rows =>
      match t.dest with
      | .stated _ _ => unrepeatable m asked rows
      | .to dst =>
          if Event.kind t.event ≠ .applied ∨ (dst, t.event) ∈ asked then unrepeatable m asked rows
          else
            (if m.accepts dst t.event = .undefined then [.unrepeatable dst t.event] else []) ++
              unrepeatable m ((dst, t.event) :: asked) rows

/-- Walk the table and report every structural defect. -/
def check (m : Machine S E C X) : List (Defect S E) :=
  let reachable := reach (m.adjacency .forward .counted) [m.initial]
  let settled := (State.all : List S).filter State.isSettled
  let canFinish := reach (m.adjacency .backward .excluded) settled
  rowDefects [] m.transitions ++
    ((Event.all : List E).filter fun e => !m.transitions.any fun t => t.event = e).map .unusedEvent ++
    m.unrepeatable [] m.transitions ++
    ((State.all : List S).filter fun s => State.name s ∉ reachable).map .unreachableState ++
    if settled = [] then [.noSettledState]
    else ((State.all : List S).filter fun s => !State.isSettled s && State.name s ∉ canFinish).map .wedged

/-! ## which defects are reported -/

omit [State S] in
theorem mem_rowDefects {seen : List (S × E)} {rows : List (Transition S E C X)} {d : Defect S E}
    (h : d ∈ rowDefects seen rows) :
    (∃ src event, d = .nondeterministic src event) ∨
      ∃ src event, d = .unguardedReconciliation src event := by
  induction rows generalizing seen with
  | nil => cases h
  | cons t rows ih =>
      simp only [rowDefects, List.mem_append] at h
      rcases h with (h | h) | h
      · split at h
        · exact Or.inl ⟨_, _, List.mem_singleton.mp h⟩
        · cases h
      · split at h
        · exact Or.inr ⟨_, _, List.mem_singleton.mp h⟩
        · cases h
      · exact ih h

omit [State S] in
theorem mem_unrepeatable {m : Machine S E C X} {asked : List (S × E)}
    {rows : List (Transition S E C X)} {d : Defect S E} (h : d ∈ m.unrepeatable asked rows) :
    ∃ state event, d = .unrepeatable state event := by
  induction rows generalizing asked with
  | nil => cases h
  | cons t rows ih =>
      unfold unrepeatable at h
      split at h
      · exact ih h
      · split at h
        · exact ih h
        · rcases List.mem_append.mp h with h | h
          · split at h
            · exact ⟨_, _, List.mem_singleton.mp h⟩
            · cases h
          · exact ih h

theorem mem_check_unreachable {m : Machine S E C X} {s : S} :
    .unreachableState s ∈ m.check ↔
      s ∈ State.all ∧ State.name s ∉ reach (m.adjacency .forward .counted) [m.initial] := by
  have hrow : .unreachableState s ∉ rowDefects ([] : List (S × E)) m.transitions := fun h => by
    rcases mem_rowDefects h with ⟨_, _, h⟩ | ⟨_, _, h⟩ <;> cases h
  have hverb : .unreachableState s ∉ m.unrepeatable [] m.transitions := fun h => by
    obtain ⟨_, _, h⟩ := mem_unrepeatable h
    cases h
  have hrest : ∀ (p : Prop) [Decidable p] (q : S → Bool),
      .unreachableState s ∉ (if p then [.noSettledState]
        else ((State.all : List S).filter q).map (Defect.wedged : S → Defect S E)) := by
    intro p _ q
    split <;> simp
  simp only [check, List.mem_append, hrow, hverb, hrest, false_or, or_false]
  simp

theorem mem_check_wedged {m : Machine S E C X} {s : S}
    (hsettled : ∃ t ∈ (State.all : List S), State.isSettled t = true) :
    .wedged s ∈ m.check ↔ s ∈ State.all ∧ State.isSettled s = false ∧
      State.name s ∉ reach (m.adjacency .backward .excluded)
        ((State.all : List S).filter State.isSettled) := by
  have hrow : .wedged s ∉ rowDefects ([] : List (S × E)) m.transitions := fun h => by
    rcases mem_rowDefects h with ⟨_, _, h⟩ | ⟨_, _, h⟩ <;> cases h
  have hverb : .wedged s ∉ m.unrepeatable [] m.transitions := fun h => by
    obtain ⟨_, _, h⟩ := mem_unrepeatable h
    cases h
  have hne : (State.all : List S).filter State.isSettled ≠ [] := by
    obtain ⟨t, ht, hrest⟩ := hsettled
    exact List.ne_nil_of_mem (List.mem_filter.mpr ⟨ht, hrest⟩)
  simp only [check, List.mem_append, hrow, hverb, if_neg hne, false_or, or_false]
  simp

/-- **The liveness verdicts are exact.** A state is reported unreachable exactly if no rows lead to it
from the initial state, and wedged exactly if it is not at rest and no rows lead from it to a state at
rest by the table's own word; and the walk behind them ends, whatever the table. -/
theorem check_exact (hname : Function.Injective (State.name : S → String)) (m : Machine S E C X) :
    (∀ s, .unreachableState s ∈ m.check ↔
      s ∈ State.all ∧ ¬ ReflTransGen m.Leads m.initial s) ∧
    ((∃ t ∈ (State.all : List S), State.isSettled t = true) →
      ∀ s, .wedged s ∈ m.check ↔ s ∈ State.all ∧ State.isSettled s = false ∧
        ¬ ∃ t ∈ (State.all : List S), State.isSettled t = true ∧ ReflTransGen m.LeadsTo s t) ∧
    ∀ graph : Adjacency, WellFounded fun w' w => Worklist.turn graph.get w = some w' := by
  refine ⟨fun s => ?_, fun hsettled s => ?_, fun graph => ?_⟩
  · rw [mem_check_unreachable, mem_reach hname]
    simp only [List.mem_singleton, exists_eq_left, mem_edges_forward]
  · have hflip : ∀ t, ReflTransGen (fun a b => (a, b) ∈ m.edges .backward .excluded) t s ↔
        ReflTransGen m.LeadsTo s t := by
      intro t
      rw [← reflTransGen_swap]
      simp only [mem_edges_backward]
    rw [mem_check_wedged hsettled, mem_reach hname]
    simp only [List.mem_filter, hflip, and_assoc]
  · exact Worklist.wellFounded_turn graph.get_subset_targets

end Machine

end Jkb.Fsm
