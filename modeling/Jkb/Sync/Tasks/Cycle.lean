import Jkb.Graph
import Jkb.Sync.Tasks.Parse

/-!
# Jkb.Sync.Tasks.Cycle

The search for a dependency cycle is exact. What it finds is one: a node of colour 1 leads to the node that is being
explored. And where it finds none there is none: a node of colour 2 leads to no cycle, since each node it leads to had
that colour before it.
-/

namespace Jkb.Sync.Tasks

open Relation

variable {adj : Text → List Text}

/-- An edge of the search. -/
abbrev Leads (adj : Text → List Text) (a b : Text) : Prop := b ∈ adj a

/-- The nodes on the current path lead to one. -/
def OnPathTo (adj : Text → List Text) (colour : Colours) (node : Text) : Prop :=
  ∀ g, colour g = 1 → ReflTransGen (Leads adj) g node

/-- What an exploration answers: a cycle there is, or colours with no more nodes on the path. -/
def SoundFrom (adj : Text → List Text) (colour : Colours) (answer : Bool × Colours) : Prop :=
  (answer.1 = true → ∃ a, TransGen (Leads adj) a a) ∧
    (answer.1 = false → ∀ g, answer.2 g = 1 → colour g = 1)

theorem SoundFrom.trans {colour colour' : Colours} {answer : Bool × Colours}
    (h : SoundFrom adj colour' answer) (hgrey : ∀ g, colour' g = 1 → colour g = 1) :
    SoundFrom adj colour answer :=
  ⟨h.1, fun hno g hg => hgrey g (h.2 hno g hg)⟩

/-- Looking at the nodes one leads to. -/
theorem visitAll_sound {explore : Text → Colours → Bool × Colours} {node : Text}
    (hexplore : ∀ next colour, OnPathTo adj colour next → SoundFrom adj colour (explore next colour))
    {nexts : List Text} (hnexts : ∀ n ∈ nexts, Leads adj node n) {colour : Colours}
    (hpath : OnPathTo adj colour node) : SoundFrom adj colour (visitAll explore nexts colour) := by
  induction nexts generalizing colour with
  | nil => exact ⟨fun h => (by cases h), fun _ g hg => hg⟩
  | cons next rest ih =>
      have hlead : Leads adj node next := hnexts next List.mem_cons_self
      have hrest : ∀ n ∈ rest, Leads adj node n := fun n hn => hnexts n (List.mem_cons_of_mem _ hn)
      rw [visitAll]
      by_cases hone : colour next = 1
      · rw [if_pos hone]
        have hcycle : TransGen (Leads adj) next next := .tail' (hpath next hone) hlead
        exact ⟨fun _ => ⟨next, hcycle⟩, fun h => by cases h⟩
      rw [if_neg hone]
      by_cases hzero : colour next = 0
      · rw [if_pos hzero]
        have hnext := hexplore next colour fun g hg => (hpath g hg).tail hlead
        cases hanswer : explore next colour with
        | mk found colour' =>
            rw [hanswer] at hnext
            cases found with
            | true => exact ⟨hnext.1, fun h => by cases h⟩
            | false =>
                have hgrey := hnext.2 rfl
                exact (ih hrest fun g hg => hpath g (hgrey g hg)).trans hgrey
      · rw [if_neg hzero]
        exact ih hrest hpath

/-- Exploring one node. -/
theorem visit_sound (fuel : Nat) {node : Text} {colour : Colours} (hpath : OnPathTo adj colour node) :
    SoundFrom adj colour (visit adj fuel node colour) := by
  induction fuel generalizing node colour with
  | zero => exact ⟨fun h => (by cases h), fun _ g hg => hg⟩
  | succ fuel ih =>
      have hgrey : OnPathTo adj (Function.update colour node 1) node := by
        intro g hg
        by_cases hnode : g = node
        · rw [hnode]
        · rw [Function.update_of_ne hnode] at hg
          exact hpath g hg
      have hall := visitAll_sound (fun _ _ h => ih h : ∀ next colour, OnPathTo adj colour next →
        SoundFrom adj colour (visit adj fuel next colour))
        (fun n hn => (hn : Leads adj node n)) hgrey
      rw [visit]
      cases hanswer : visitAll (visit adj fuel) (adj node) (Function.update colour node 1) with
      | mk found colour' =>
          rw [hanswer] at hall
          cases found with
          | true => exact ⟨hall.1, fun h => by cases h⟩
          | false =>
              refine ⟨fun h => (by cases h), fun _ g hg => ?_⟩
              simp only at hg
              by_cases hnode : g = node
              · rw [hnode, Function.update_self] at hg
                cases hg
              · rw [Function.update_of_ne hnode] at hg
                have hcolour := hall.2 rfl g hg
                rwa [Function.update_of_ne hnode] at hcolour

/-- Starting where nothing is on a path. -/
theorem anyCycle_sound {fuel : Nat} {starts : List Text} {colour : Colours}
    (hnone : ∀ g, colour g ≠ 1) (h : anyCycle (visit adj fuel) starts colour = true) :
    ∃ a, TransGen (Leads adj) a a := by
  induction starts generalizing colour with
  | nil => cases h
  | cons start rest ih =>
      rw [anyCycle] at h
      by_cases hzero : colour start = 0
      · rw [if_pos hzero] at h
        have hsound := @visit_sound adj fuel start colour fun g hg => absurd hg (hnone g)
        cases hanswer : visit adj fuel start colour with
        | mk found colour' =>
            rw [hanswer] at hsound h
            cases found with
            | true => exact hsound.1 rfl
            | false => exact ih (fun g hg => hnone g (hsound.2 rfl g hg)) h
      · rw [if_neg hzero] at h
        exact ih hnone h

/-! ## where none is found -/

/-- A node that is done with leads to no cycle. -/
def DoneWith (adj : Text → List Text) (colour : Colours) : Prop :=
  ∀ g, colour g ≠ 0 → colour g ≠ 1 → Acc (fun a b => Leads adj b a) g

/-- What an exploration leaves that finds no cycle: colours are given, not taken, and no more nodes are on the
path. -/
structure Explored (adj : Text → List Text) (colour colour' : Colours) : Prop where
  keeps : ∀ g, colour g ≠ 0 → colour' g = colour g
  grey : ∀ g, colour g = 0 → colour' g ≠ 1
  settled : DoneWith adj colour'

theorem Explored.trans {c c' c'' : Colours} (h : Explored adj c c') (h' : Explored adj c' c'') :
    Explored adj c c'' := by
  refine ⟨fun g hg => ?_, fun g hg => ?_, h'.settled⟩
  · rw [h'.keeps g (by rw [h.keeps g hg]; exact hg), h.keeps g hg]
  · by_cases hzero : c' g = 0
    · exact h'.grey g hzero
    · rw [h'.keeps g hzero]
      exact h.grey g hg

/-- The nodes that are not explored yet. -/
def white (nodes : List Text) (colour : Colours) : Nat := nodes.countP fun g => colour g = 0

theorem Explored.white_le {c c' : Colours} (h : Explored adj c c') (nodes : List Text) :
    white nodes c' ≤ white nodes c := by
  refine List.countP_mono_left fun g _ hg => ?_
  rw [decide_eq_true_eq] at hg ⊢
  by_contra hzero
  exact hzero (by rw [← h.keeps g hzero, hg])

theorem white_update_lt {nodes : List Text} {node : Text} (hmem : node ∈ nodes) {colour : Colours}
    (hzero : colour node = 0) : white nodes (Function.update colour node 1) < white nodes colour := by
  induction nodes with
  | nil => cases hmem
  | cons n nodes ih =>
      have hle : white nodes (Function.update colour node 1) ≤ white nodes colour := by
        refine List.countP_mono_left fun g _ hg => ?_
        by_cases hnode : g = node
        · simp [hnode] at hg
        · simpa [Function.update_of_ne hnode] using hg
      by_cases hnode : n = node
      · simp only [white, List.countP_cons, hnode, Function.update_self, hzero] at hle ⊢
        simp only [one_ne_zero, decide_false, Bool.false_eq_true, if_false, decide_true, if_true]
        omega
      · have hlt := ih ((List.mem_cons.mp hmem).resolve_left (Ne.symm hnode))
        simp only [white, List.countP_cons, Function.update_of_ne hnode] at hlt ⊢
        omega

variable {nodes : List Text}

/-- An exploration that finds no cycle is done with its node, as long as there is fuel for the nodes it may come to. -/
def Explores (adj : Text → List Text) (nodes : List Text) (explore : Text → Colours → Bool × Colours) (fuel : Nat) :
    Prop :=
  ∀ next colour colour', next ∈ nodes → colour next = 0 → white nodes colour ≤ fuel → DoneWith adj colour →
    explore next colour = (false, colour') → Explored adj colour colour' ∧ colour' next ≠ 0

/-- Looking at the nodes one leads to: they are done with. -/
theorem visitAll_explored {explore : Text → Colours → Bool × Colours} {fuel : Nat}
    (hexplore : Explores adj nodes explore fuel) {nexts : List Text} (hnexts : ∀ n ∈ nexts, n ∈ nodes)
    {colour colour' : Colours} (hfuel : white nodes colour ≤ fuel) (hset : DoneWith adj colour)
    (h : visitAll explore nexts colour = (false, colour')) :
    Explored adj colour colour' ∧ ∀ n ∈ nexts, colour' n ≠ 0 ∧ colour' n ≠ 1 := by
  induction nexts generalizing colour with
  | nil =>
      obtain rfl := (Prod.mk.inj h).2
      exact ⟨⟨fun _ _ => rfl, fun g hg => by rw [hg]; exact Nat.zero_ne_one, hset⟩, nofun⟩
  | cons next rest ih =>
      obtain ⟨hnext, hrest⟩ := List.forall_mem_cons.mp hnexts
      rw [visitAll] at h
      by_cases hone : colour next = 1
      · rw [if_pos hone] at h
        cases h
      rw [if_neg hone] at h
      by_cases hzero : colour next = 0
      · rw [if_pos hzero] at h
        cases hanswer : explore next colour with
        | mk found colour₁ =>
            rw [hanswer] at h
            cases found with
            | true => cases h
            | false =>
                obtain ⟨hfirst, hdone⟩ := hexplore next colour colour₁ hnext hzero hfuel hset hanswer
                obtain ⟨hothers, hall⟩ := ih hrest ((hfirst.white_le nodes).trans hfuel) hfirst.settled h
                refine ⟨hfirst.trans hothers, List.forall_mem_cons.mpr ⟨?_, hall⟩⟩
                rw [hothers.keeps next hdone]
                exact ⟨hdone, hfirst.grey next hzero⟩
      · rw [if_neg hzero] at h
        obtain ⟨hothers, hall⟩ := ih hrest hfuel hset h
        refine ⟨hothers, List.forall_mem_cons.mpr ⟨?_, hall⟩⟩
        rw [hothers.keeps next hzero]
        exact ⟨hzero, hone⟩

/-- Exploring one node. -/
theorem visit_explored (hadj : ∀ a b, Leads adj a b → b ∈ nodes) (fuel : Nat) :
    Explores adj nodes (visit adj fuel) fuel := by
  induction fuel with
  | zero =>
      intro node colour colour' hmem hzero hfuel _ _
      have hpos : 0 < white nodes colour := List.countP_pos_iff.mpr ⟨node, hmem, by simp [hzero]⟩
      omega
  | succ fuel ih =>
      intro node colour colour' hmem hzero hfuel hset h
      have hlt := white_update_lt hmem hzero
      have hgrey : DoneWith adj (Function.update colour node 1) := by
        intro g hg hg'
        by_cases hnode : g = node
        · exact absurd (by rw [hnode, Function.update_self]) hg'
        · rw [Function.update_of_ne hnode] at hg hg'
          exact hset g hg hg'
      rw [visit] at h
      cases hanswer : visitAll (visit adj fuel) (adj node) (Function.update colour node 1) with
      | mk found colour₁ =>
          rw [hanswer] at h
          cases found with
          | true => cases h
          | false =>
              obtain rfl := (Prod.mk.inj h).2
              obtain ⟨hall, hdone⟩ := visitAll_explored ih (fun n hn => hadj node n hn) (by omega) hgrey hanswer
              have hacc : Acc (fun a b => Leads adj b a) node :=
                .intro node fun n hn => hall.settled n (hdone n hn).1 (hdone n hn).2
              refine ⟨⟨fun g hg => ?_, fun g hg => ?_, fun g hg hg' => ?_⟩, by simp⟩
              · have hnode : g ≠ node := fun heq => hg (heq ▸ hzero)
                have hkeep := hall.keeps g (by rwa [Function.update_of_ne hnode])
                rwa [Function.update_of_ne hnode] at hkeep ⊢
              · by_cases hnode : g = node
                · rw [hnode, Function.update_self]
                  decide
                · rw [Function.update_of_ne hnode]
                  exact hall.grey g (by rwa [Function.update_of_ne hnode])
              · by_cases hnode : g = node
                · rw [hnode]
                  exact hacc
                · rw [Function.update_of_ne hnode] at hg hg'
                  exact hall.settled g hg hg'

/-- Starting where nothing is on a path: no start leads to a cycle. -/
theorem anyCycle_explored (hadj : ∀ a b, Leads adj a b → b ∈ nodes) {fuel : Nat} {starts : List Text}
    (hstarts : ∀ a ∈ starts, a ∈ nodes) {colour : Colours} (hnone : ∀ g, colour g ≠ 1)
    (hfuel : white nodes colour ≤ fuel) (hset : DoneWith adj colour)
    (h : anyCycle (visit adj fuel) starts colour = false) : ∀ a ∈ starts, Acc (fun a b => Leads adj b a) a := by
  induction starts generalizing colour with
  | nil => exact nofun
  | cons start rest ih =>
      obtain ⟨hstart, hrest⟩ := List.forall_mem_cons.mp hstarts
      rw [anyCycle] at h
      by_cases hzero : colour start = 0
      · rw [if_pos hzero] at h
        cases hanswer : visit adj fuel start colour with
        | mk found colour₁ =>
            rw [hanswer] at h
            cases found with
            | true => cases h
            | false =>
                obtain ⟨hfirst, hdone⟩ :=
                  visit_explored hadj fuel start colour colour₁ hstart hzero hfuel hset hanswer
                refine List.forall_mem_cons.mpr ⟨hfirst.settled start hdone (hfirst.grey start hzero), ?_⟩
                refine ih hrest (fun g => ?_) ((hfirst.white_le nodes).trans hfuel) hfirst.settled h
                by_cases hg : colour g = 0
                · exact hfirst.grey g hg
                · rw [hfirst.keeps g hg]
                  exact hnone g
      · rw [if_neg hzero] at h
        exact List.forall_mem_cons.mpr ⟨hset start hzero (hnone start), ih hrest hnone hfuel hset h⟩

/-- What leads to no cycle is on none. -/
theorem not_transGen_of_acc {a : Text} (h : Acc (fun a b => Leads adj b a) a) : ¬ TransGen (Leads adj) a a := by
  induction h with
  | intro a _ ih =>
      intro hcycle
      obtain ⟨b, hab, hba⟩ := TransGen.head'_iff.mp hcycle
      exact ih b hab (.tail' hba hab)

/-- The tasks a `depends_on` edge begins or ends at. -/
def nodesOf (doc : SyncDoc) : List Text :=
  (doc.edges.filter fun e => e.edgeType = .dependsOn).flatMap fun e => [e.src, e.dst]

theorem mem_nodesOf_left {doc : SyncDoc} {a : Text}
    (h : ∃ e ∈ doc.edges, e.edgeType = .dependsOn ∧ e.src = a) : a ∈ nodesOf doc := by
  obtain ⟨e, he, hdep, rfl⟩ := h
  exact List.mem_flatMap.mpr ⟨e, List.mem_filter.mpr ⟨he, decide_eq_true hdep⟩, List.mem_cons_self⟩

theorem mem_nodesOf_right {doc : SyncDoc} {a b : Text} (h : doc.edge .dependsOn a b) : b ∈ nodesOf doc :=
  List.mem_flatMap.mpr ⟨_, List.mem_filter.mpr ⟨h, decide_eq_true rfl⟩,
    List.mem_cons_of_mem _ List.mem_cons_self⟩

theorem white_nodesOf_le (doc : SyncDoc) (colour : Colours) :
    white (nodesOf doc) colour ≤ 2 * (doc.edges.filter fun e => e.edgeType = .dependsOn).length := by
  refine List.countP_le_length.trans ?_
  rw [nodesOf, List.length_flatMap]
  simp [Nat.mul_comm]

/-- The search leads from a task to what it depends on. -/
theorem leads_depsOf {doc : SyncDoc} (a b : Text) : Leads (depsOf doc) a b ↔ doc.edge .dependsOn a b := by
  rw [Leads, depsOf, List.mem_map, SyncDoc.edge]
  constructor
  · rintro ⟨e, he, rfl⟩
    obtain ⟨he, hkind⟩ := List.mem_filter.mp he
    obtain ⟨hdep, hsrc⟩ := of_decide_eq_true hkind
    rwa [← hdep, ← hsrc]
  · intro h
    exact ⟨_, List.mem_filter.mpr ⟨h, by simp⟩, rfl⟩

/-- A search that starts at every task with a dependency, in any order, finds a cycle where there is one. -/
theorem anyCycle_iff {doc : SyncDoc} {starts : List Text} {fuel : Nat}
    (hstarts : ∀ a, a ∈ starts ↔ ∃ e ∈ doc.edges, e.edgeType = .dependsOn ∧ e.src = a)
    (hfuel : 2 * (doc.edges.filter fun e => e.edgeType = .dependsOn).length ≤ fuel) :
    anyCycle (visit (depsOf doc) fuel) starts (fun _ => 0) = true ↔ ∃ a, TransGen (doc.edge .dependsOn) a a := by
  have hleads : ∀ x y, Leads (depsOf doc) x y ↔ doc.edge .dependsOn x y := leads_depsOf
  constructor
  · intro h
    obtain ⟨a, ha⟩ := anyCycle_sound (fun g => by decide) h
    exact ⟨a, TransGen.mono (fun x y hxy => (hleads x y).mp hxy) _ _ ha⟩
  · rintro ⟨a, ha⟩
    by_contra hno
    have hacyclic := @anyCycle_explored (depsOf doc) (nodesOf doc)
      (fun x y hxy => mem_nodesOf_right ((hleads x y).mp hxy)) _ _ (fun x hx => mem_nodesOf_left ((hstarts x).mp hx)) _
      (fun _ => Nat.zero_ne_one) ((white_nodesOf_le doc _).trans hfuel) (fun _ h => absurd rfl h)
      (Bool.eq_false_iff.mpr hno)
    obtain ⟨b, hab, -⟩ := TransGen.head'_iff.mp ha
    refine not_transGen_of_acc (hacyclic a ((hstarts a).mpr ⟨_, hab, rfl, rfl⟩)) ?_
    exact TransGen.mono (fun x y hxy => (hleads x y).mpr hxy) _ _ ha

/-- **The search for a cycle is exact**: where none is reported there is none. -/
theorem hasDependencyCycle_iff {doc : SyncDoc} :
    hasDependencyCycle doc = true ↔ ∃ a, TransGen (doc.edge .dependsOn) a a :=
  anyCycle_iff (by simp [and_assoc]) (Nat.le_succ _)

/-! ## the calls -/

mutual

/-- The calls of `visit` as the code makes them, with no bound on how deep they go: what one answers. -/
inductive Visits (adj : Text → List Text) : Text → Colours → Bool × Colours → Prop where
  | found {node colour colour'} : VisitsAll adj (adj node) (Function.update colour node 1) (true, colour') →
      Visits adj node colour (true, colour')
  | done {node colour colour'} : VisitsAll adj (adj node) (Function.update colour node 1) (false, colour') →
      Visits adj node colour (false, Function.update colour' node 2)

/-- The turns of its loop. -/
inductive VisitsAll (adj : Text → List Text) : List Text → Colours → Bool × Colours → Prop where
  | nil {colour} : VisitsAll adj [] colour (false, colour)
  | back {next rest colour} : colour next = 1 → VisitsAll adj (next :: rest) colour (true, colour)
  | found {next rest colour colour'} : colour next = 0 → Visits adj next colour (true, colour') →
      VisitsAll adj (next :: rest) colour (true, colour')
  | explored {next rest colour colour' answer} : colour next = 0 → Visits adj next colour (false, colour') →
      VisitsAll adj rest colour' answer → VisitsAll adj (next :: rest) colour answer
  | known {next rest colour answer} : colour next ≠ 1 → colour next ≠ 0 → VisitsAll adj rest colour answer →
      VisitsAll adj (next :: rest) colour answer

end

/-- What has a colour keeps one. -/
def Colours.Keep (colour colour' : Colours) : Prop := ∀ g, colour g ≠ 0 → colour' g ≠ 0

theorem Colours.Keep.white_le {colour colour' : Colours} (h : colour.Keep colour') (nodes : List Text) :
    white nodes colour' ≤ white nodes colour := by
  refine List.countP_mono_left fun g _ hg => ?_
  rw [decide_eq_true_eq] at hg ⊢
  by_contra hne
  exact h g hne hg

theorem Colours.Keep.update {colour colour' : Colours} (h : colour.Keep colour') (node : Text) {c : Nat}
    (hc : c ≠ 0) : colour.Keep (Function.update colour' node c) := by
  intro g hg
  by_cases hnode : g = node
  · rwa [hnode, Function.update_self]
  · rw [Function.update_of_ne hnode]
    exact h g hg

theorem visitAll_keep {explore : Text → Colours → Bool × Colours}
    (hexplore : ∀ next (colour : Colours), colour.Keep (explore next colour).2) (nexts : List Text) (colour : Colours) :
    colour.Keep (visitAll explore nexts colour).2 := by
  induction nexts generalizing colour with
  | nil => exact fun g hg => hg
  | cons next rest ih =>
      rw [visitAll]
      split_ifs with hone hzero
      · exact fun g hg => hg
      · have hkeep := hexplore next colour
        cases hanswer : explore next colour with
        | mk found colour' =>
            rw [hanswer] at hkeep
            cases found with
            | true => exact hkeep
            | false => exact fun g hg => ih colour' g (hkeep g hg)
      · exact ih colour

theorem visit_keep (fuel : Nat) (node : Text) (colour : Colours) :
    colour.Keep (visit adj fuel node colour).2 := by
  induction fuel generalizing node colour with
  | zero => exact fun g hg => hg
  | succ fuel ih =>
      have hgrey : colour.Keep (Function.update colour node 1) := .update (fun g hg => hg) node Nat.one_ne_zero
      have hall := visitAll_keep ih (adj node) (Function.update colour node 1)
      rw [visit]
      cases hanswer : visitAll (visit adj fuel) (adj node) (Function.update colour node 1) with
      | mk found colour' =>
          rw [hanswer] at hall
          have hkeep : colour.Keep colour' := fun g hg => hall g (hgrey g hg)
          cases found with
          | true => exact hkeep
          | false => exact hkeep.update node (by decide)

/-- The turns of the loop, where each call it makes comes to an end. -/
theorem visitAll_runs {explore : Text → Colours → Bool × Colours} {fuel : Nat}
    (hkeep : ∀ next (colour : Colours), colour.Keep (explore next colour).2)
    (hexplore : ∀ next colour, next ∈ nodes → colour next = 0 → white nodes colour ≤ fuel →
      Visits adj next colour (explore next colour))
    {nexts : List Text} (hnexts : ∀ n ∈ nexts, n ∈ nodes) {colour : Colours} (hfuel : white nodes colour ≤ fuel) :
    VisitsAll adj nexts colour (visitAll explore nexts colour) := by
  induction nexts generalizing colour with
  | nil => exact .nil
  | cons next rest ih =>
      obtain ⟨hnext, hrest⟩ := List.forall_mem_cons.mp hnexts
      rw [visitAll]
      split_ifs with hone hzero
      · exact .back hone
      · have hrun := hexplore next colour hnext hzero hfuel
        have hle := (hkeep next colour).white_le nodes
        cases hanswer : explore next colour with
        | mk found colour' =>
            rw [hanswer] at hrun hle
            cases found with
            | true => exact .found hzero hrun
            | false => exact .explored hzero hrun (ih hrest (hle.trans hfuel))
      · exact .known hone hzero (ih hrest hfuel)

/-- **The visit ends.** Each call inside it colours a node that had no colour. -/
theorem visit_runs (hadj : ∀ a b, Leads adj a b → b ∈ nodes) (fuel : Nat) {node : Text} {colour : Colours}
    (hfuel : white nodes (Function.update colour node 1) < fuel) :
    Visits adj node colour (visit adj fuel node colour) := by
  induction fuel generalizing node colour with
  | zero => exact absurd hfuel (Nat.not_lt_zero _)
  | succ fuel ih =>
      have hall := @visitAll_runs adj nodes _ _ (visit_keep fuel)
        (fun next colour hnext hzero hle => ih ((white_update_lt hnext hzero).trans_le hle))
        _ (hadj node) _ (Nat.le_of_lt_succ hfuel)
      rw [visit]
      cases hanswer : visitAll (visit adj fuel) (adj node) (Function.update colour node 1) with
      | mk found colour' =>
          rw [hanswer] at hall
          cases found with
          | true => exact .found hall
          | false => exact .done hall

/-- **The search for a cycle is exact, and ends.** It reports a cycle where there is one, a task that needs itself
among them, in whatever order the tasks are started from; and each visit it makes or could make comes to an end. -/
theorem cycleSearch_exact (doc : SyncDoc) :
    (hasDependencyCycle doc = true ↔ ∃ a, TransGen (doc.edge .dependsOn) a a) ∧
      (∀ starts : List Text, (∀ a, a ∈ starts ↔ ∃ e ∈ doc.edges, e.edgeType = .dependsOn ∧ e.src = a) →
        anyCycle (visit (depsOf doc) (2 * (doc.edges.filter fun e => e.edgeType = .dependsOn).length + 1)) starts
          (fun _ => 0) = hasDependencyCycle doc) ∧
      ∀ node colour, Visits (depsOf doc) node colour
        (visit (depsOf doc) (2 * (doc.edges.filter fun e => e.edgeType = .dependsOn).length + 1) node colour) := by
  refine ⟨hasDependencyCycle_iff, fun starts hstarts => ?_, fun node colour => ?_⟩
  · rw [Bool.eq_iff_iff, hasDependencyCycle_iff]
    exact anyCycle_iff hstarts (Nat.le_succ _)
  · exact @visit_runs (depsOf doc) (nodesOf doc)
      (fun x y hxy => mem_nodesOf_right ((leads_depsOf x y).mp hxy)) _ _ _ (Nat.lt_succ_of_le (white_nodesOf_le doc _))

end Jkb.Sync.Tasks
