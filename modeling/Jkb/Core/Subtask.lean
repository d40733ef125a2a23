import Jkb.Core.Containment
import Jkb.Run

/-!
# Jkb.Core.Subtask

What a task is part of. A subtask is recorded twice, as a `parent_of` edge and as a containment row;
`addSubtask` and `moveUnder` write both. Together with the writers of edges and rows that they are made of,
they keep three relations in shape: dependencies and parents without a cycle, and containment a forest.
-/

namespace Jkb.Subtask

open Jkb.Containment Jkb.Edge Jkb.Graph Jkb.Text Relation

/-- A row of `bindings`. -/
structure Binding where
  itemId : Int
  uri : Text
deriving Repr, DecidableEq

/-- The tables that decide what a task is part of. -/
structure Store where
  items : Items
  bindings : Table fun b : Binding => b.itemId
  edges : Edges
  containment : ContainmentTable

/-- The kind of an execution plan. -/
def planKind : Text := "exec_plan".toList

/-- The kind of a design's span. -/
def spanKind : Text := "design_span".toList

/-- The file that a binding's uri names, by its spelling: what follows the last `#` is a fragment where it
can be a local id. -/
def filePath (uri : Text) : Option Text :=
  (stripPrefix "file://".toList uri).map fun rest =>
    match rsplitOnce (· == '#') rest with
    | some (path, fragment) => if fragment ≠ [] ∧ '/' ∉ fragment ∧ '.' ∉ fragment then path else rest
    | none => rest

/-- A text in a message. -/
def shown (t : Text) : Piece := .text (String.ofList t)

/-- The props of an edge that is given none. -/
def noProps : Text := "\x7b\x7d".toList

section Operations

variable (s : Store)

/-- The file that an item is a line of, if it is. -/
def fileOf (id : Int) : Option Text := (s.bindings.find? id).bind fun b => filePath b.uri

/-- Link in the store. -/
def linkIn (src dst : Int) (type : EdgeType) (weight : Option Weight) (props : Text) : Except Fmt Store :=
  (linkWeighted s.items s.edges src dst type weight props).map fun r => { s with edges := r.1 }

/-- Unlink in the store. -/
def unlinkIn (src dst : Int) (type : EdgeType) : Store := { s with edges := unlink s.edges src dst type }

/-- Contain in the store. -/
def containIn (child parent position : Int) : Except Fmt Store :=
  (contain s.items s.containment child parent position).map fun c => { s with containment := c }

/-- Make `parent` the container of `child`, and drop the `parent_of` edge from the container it leaves. -/
def setContainer (child parent position : Int) : Except Fmt Store :=
  match Containment.parent s.containment child with
  | some old =>
      containIn (if old ≠ parent then unlinkIn s old child .parentOf else s) child parent position
  | none => containIn s child parent position

/-- Refuse a parent that holds no tasks, or whose file declares its children. -/
def checkParent (parent child : Int) : Except Fmt Unit :=
  match s.items.find? parent with
  | none => .ok ()
  | some p =>
      if p.kind = planKind ∨ p.kind = spanKind then
        .error ["`", shown p.uid, "` is a ", shown p.kind, ", which holds no tasks: add the task under " ++
          "one of its plan's steps (`jkb design plan show` lists them) or under the design for a one-off"]
      else
        match fileOf s parent with
        | some file =>
            if fileOf s child ≠ some file then
              .error ["`", shown p.uid, "` is a line of ", shown file, ", which declares exactly its " ++
                "children: add the task under it in the file (the file cannot show a child whose line " ++
                "is not in it)"]
            else .ok ()
        | none => .ok ()

/-- Make `child` a subtask of `parent`. -/
def addSubtask (parent child : Int) : Except Fmt Store := do
  checkParent s parent child
  let s ← linkIn s parent child .parentOf none noProps
  setContainer s child parent 0

/-- What a move did. -/
inductive Moved where
  | unchanged
  | moved (src : Option Int)
deriving Repr, DecidableEq

/-- The sources of every `parent_of` edge into `child`, in the order of their ids. -/
def parentEdges (child : Int) : List Int :=
  (s.edges.predecessors .parentOf child).mergeSort fun a b => a ≤ b

/-- Refuse a move of what is not a task, or is a line of a file, or under what is not there. -/
def checkMove (child newParent : Int) : Except Fmt Unit :=
  match s.items.find? child with
  | none => .error ["item ", child]
  | some task =>
      if task.kind ≠ "task".toList then
        .error ["`", shown task.uid, "` is a ", shown task.kind, ", not a task: only a task moves under " ++
          "a new parent"]
      else if (s.items.find? newParent).isNone then .error ["item ", newParent]
      else
        match fileOf s child with
        | some file =>
            .error ["`", shown task.uid, "` is a line of ", shown file, ", whose indentation is its " ++
              "parent: edit the file to move it (a move here would be put back by the next sync)"]
        | none => .ok ()

/-- Move a task under a new parent. -/
def moveUnder (child newParent : Int) : Except Fmt (Store × Moved) := do
  checkMove s child newParent
  let edgeParents := parentEdges s child
  let containedIn := Containment.parent s.containment child
  if containedIn = some newParent ∧ edgeParents = [newParent] then return (s, .unchanged)
  else
    let s := edgeParents.foldl (fun s parent => unlinkIn s parent child .parentOf) s
    let s ← addSubtask s newParent child
    return (s, .moved (containedIn.or edgeParents.head?))

end Operations

/-! ## operations -/

/-- A write to the shape of the graph. -/
inductive Op where
  | link (src dst : Int) (type : EdgeType) (props : Text)
  | linkWeighted (src dst : Int) (type : EdgeType) (weight : Option Weight) (props : Text)
  | unlink (src dst : Int) (type : EdgeType)
  | contain (child parent position : Int)
  | uncontain (child : Int)
  | setContainer (child parent position : Int)
  | addSubtask (parent child : Int)
  | moveUnder (child newParent : Int)

/-- A write, in a transaction of its own. -/
def Op.run (s : Store) : Op → Except Fmt Store
  | .link src dst type props => linkIn s src dst type none props
  | .linkWeighted src dst type weight props => linkIn s src dst type weight props
  | .unlink src dst type => .ok (unlinkIn s src dst type)
  | .contain child parent position => containIn s child parent position
  | .uncontain child => .ok { s with containment := (Containment.uncontain s.containment child).1 }
  | .setContainer child parent position => Subtask.setContainer s child parent position
  | .addSubtask parent child => Subtask.addSubtask s parent child
  | .moveUnder child newParent => (Subtask.moveUnder s child newParent).map (·.1)

/-- The store after a write: as it was, where it is refused. -/
def next (s : Store) (op : Op) : Store := Tx.commit (op.run s) s

/-! ## the shape -/

/-- The three relations are in shape. -/
structure Shaped (s : Store) : Prop where
  edges : s.edges.Shaped
  forest : Forest s.containment

/-- `child` is a subtask of `parent`, by its row and by an edge. -/
structure Under (s : Store) (parent child : Int) : Prop where
  container : Containment.parent s.containment child = some parent
  edge : s.edges.Arc .parentOf parent child

variable {s s' : Store}

theorem Shaped.linkIn {src dst : Int} {type : EdgeType} {weight : Option Weight} {props : Text}
    (hs : Shaped s) (h : linkIn s src dst type weight props = .ok s') : Shaped s' := by
  obtain ⟨⟨t, id⟩, hlink, rfl⟩ := Tx.map_eq_ok.mp h
  exact ⟨hs.edges.linkWeighted hlink, hs.forest⟩

theorem Shaped.unlinkIn (hs : Shaped s) (src dst : Int) (type : EdgeType) :
    Shaped (unlinkIn s src dst type) := ⟨hs.edges.remove src dst type, hs.forest⟩

theorem Shaped.containIn {child parent position : Int} (hs : Shaped s)
    (h : containIn s child parent position = .ok s') : Shaped s' := by
  obtain ⟨c, hcontain, rfl⟩ := Tx.map_eq_ok.mp h
  exact ⟨hs.edges, hs.forest.contain hcontain⟩

/-- What `setContainer` leaves: the item in its container, and the edges but the old container's. -/
theorem setContainer_eq_ok {child parent position : Int}
    (h : setContainer s child parent position = .ok s') :
    (∃ t, (t = s ∨ ∃ old, old ≠ parent ∧ t = unlinkIn s old child .parentOf) ∧
      containIn t child parent position = .ok s') := by
  unfold setContainer at h
  split at h
  · rename_i old _
    by_cases hne : old ≠ parent
    · rw [if_pos hne] at h
      exact ⟨_, Or.inr ⟨old, hne, rfl⟩, h⟩
    · rw [if_neg hne] at h
      exact ⟨s, Or.inl rfl, h⟩
  · exact ⟨s, Or.inl rfl, h⟩

theorem Shaped.setContainer {child parent position : Int} (hs : Shaped s)
    (h : setContainer s child parent position = .ok s') : Shaped s' := by
  obtain ⟨t, rfl | ⟨old, -, rfl⟩, hcontain⟩ := setContainer_eq_ok h
  · exact hs.containIn hcontain
  · exact (hs.unlinkIn old child .parentOf).containIn hcontain

theorem addSubtask_eq_ok {parent child : Int} (h : addSubtask s parent child = .ok s') :
    ∃ t, linkIn s parent child .parentOf none noProps = .ok t ∧ setContainer t child parent 0 = .ok s' := by
  obtain ⟨⟨⟩, -, h⟩ := Tx.bind_eq_ok.mp h
  exact Tx.bind_eq_ok.mp h

theorem Shaped.addSubtask {parent child : Int} (hs : Shaped s)
    (h : addSubtask s parent child = .ok s') : Shaped s' := by
  obtain ⟨t, hlink, hset⟩ := addSubtask_eq_ok h
  exact (hs.linkIn hlink).setContainer hset

/-- Removing the edges from a list of parents keeps the shape, and leaves the rest. -/
theorem unlinkAll {child : Int} {parents : List Int} (hs : Shaped s) :
    Shaped (parents.foldl (fun s parent => unlinkIn s parent child .parentOf) s) ∧
      ∀ a b, (parents.foldl (fun s parent => unlinkIn s parent child .parentOf) s).edges.Arc .parentOf a b →
        s.edges.Arc .parentOf a b ∧ (b = child → a ∉ parents) := by
  induction parents generalizing s with
  | nil => exact ⟨hs, fun a b h => ⟨h, fun _ => List.not_mem_nil⟩⟩
  | cons p parents ih =>
      obtain ⟨hshaped, harcs⟩ := ih (hs.unlinkIn p child .parentOf)
      refine ⟨hshaped, fun a b h => ?_⟩
      obtain ⟨harc, hnot⟩ := harcs a b h
      obtain ⟨harc, hne⟩ := Edges.arc_remove.mp harc
      refine ⟨harc, fun hb ha => ?_⟩
      rcases List.mem_cons.mp ha with rfl | ha
      · exact hne ⟨rfl, hb, rfl⟩
      · exact hnot hb ha

/-- **A subtask that was added** is under its parent, by its row and by an edge. The edges into it are
those there were, and its parent's. -/
theorem under_of_addSubtask {parent child : Int} (h : addSubtask s parent child = .ok s') :
    Under s' parent child ∧
      ∀ a, s'.edges.Arc .parentOf a child → s.edges.Arc .parentOf a child ∨ a = parent := by
  obtain ⟨t, hlink, hset⟩ := addSubtask_eq_ok h
  obtain ⟨⟨e, id⟩, hmade, rfl⟩ := Tx.map_eq_ok.mp hlink
  obtain ⟨-, -, -, harc⟩ := linkWeighted_eq_ok hmade
  obtain ⟨u, hu, hcontain⟩ := setContainer_eq_ok hset
  obtain ⟨c, hrow, rfl⟩ := Tx.map_eq_ok.mp hcontain
  obtain ⟨-, hself, -⟩ := contain_eq_ok hrow
  have hnew : e.Arc .parentOf parent child := (harc _ _ _).mpr (Or.inr ⟨rfl, rfl, rfl⟩)
  have hold : ∀ a, e.Arc .parentOf a child → s.edges.Arc .parentOf a child ∨ a = parent :=
    fun a ha => ((harc _ _ _).mp ha).imp_right fun h => h.1
  rcases hu with rfl | ⟨old, hne, rfl⟩
  · exact ⟨⟨hself, hnew⟩, hold⟩
  · refine ⟨⟨hself, Edges.arc_remove.mpr ⟨hnew, fun h => hne h.1.symm⟩⟩, fun a ha => ?_⟩
    exact hold a (Edges.arc_remove.mp ha).1

/-- **A task that was moved** is under its new parent, and no other edge leads into it. -/
theorem moveUnder_eq_ok {child newParent : Int} {moved : Moved} (hs : Shaped s)
    (h : moveUnder s child newParent = .ok (s', moved)) :
    Shaped s' ∧ Under s' newParent child ∧ ∀ a, s'.edges.Arc .parentOf a child → a = newParent := by
  have hparents : ∀ a, a ∈ parentEdges s child ↔ s.edges.Arc .parentOf a child := fun a => by
    rw [parentEdges, List.mem_mergeSort, Edges.mem_predecessors]
  obtain ⟨⟨⟩, -, h⟩ := Tx.bind_eq_ok.mp h
  dsimp only at h
  split at h
  · rename_i hsame
    obtain ⟨rfl, -⟩ := Prod.mk.inj (Except.ok.inj h)
    rw [hsame.2] at hparents
    refine ⟨hs, ⟨hsame.1, (hparents newParent).mp List.mem_cons_self⟩, fun a ha => ?_⟩
    exact List.mem_singleton.mp ((hparents a).mpr ha)
  · obtain ⟨t, hadd, h⟩ := Tx.bind_eq_ok.mp h
    obtain ⟨rfl, -⟩ := Prod.mk.inj (Except.ok.inj h)
    obtain ⟨hshaped, harcs⟩ := @unlinkAll s child (parentEdges s child) hs
    obtain ⟨hunder, hinto⟩ := under_of_addSubtask hadd
    refine ⟨hshaped.addSubtask hadd, hunder, fun a ha => ?_⟩
    refine (hinto a ha).resolve_left fun hold => ?_
    -- every edge into the task was unlinked first
    obtain ⟨hbefore, hnot⟩ := harcs a child hold
    exact hnot rfl ((hparents a).mpr hbefore)

/-- **Every write keeps the shape.** -/
theorem shaped_next (hs : Shaped s) (op : Op) : Shaped (next s op) := by
  refine @Tx.commit_rel _ _ (fun s s' => Shaped s → Shaped s') _ _ id (fun s' hok hs => ?_) hs
  cases op with
  | link src dst type props => exact hs.linkIn hok
  | linkWeighted src dst type weight props => exact hs.linkIn hok
  | unlink src dst type =>
      obtain rfl := Except.ok.inj hok
      exact hs.unlinkIn src dst type
  | contain child parent position => exact hs.containIn hok
  | uncontain child =>
      obtain rfl := Except.ok.inj hok
      exact ⟨hs.edges, hs.forest.uncontain child⟩
  | setContainer child parent position => exact hs.setContainer hok
  | addSubtask parent child => exact hs.addSubtask hok
  | moveUnder child newParent =>
      obtain ⟨⟨s', moved⟩, hmove, rfl⟩ := Tx.map_eq_ok.mp hok
      exact (moveUnder_eq_ok hs hmove).1

/-- **The graph's shape is kept.** From a store in shape, after any writes, accepted or refused:
dependencies and parents have no cycle, and containment is a forest with one container for each item; a
subtask that is added is then under its parent by its row and by an edge, and after a move by that edge
alone; and a write that is refused leaves the store as it was. -/
theorem shape_run {s : Store} (hs : Shaped s) (ops : List Op) :
    let s' := Run.run next s ops
    Acyclic (s'.edges.Arc .dependsOn) ∧ Acyclic (s'.edges.Arc .parentOf) ∧
      Acyclic (Inside s'.containment) ∧
      (∀ c p q, Inside s'.containment c p → Inside s'.containment c q → p = q) ∧
      (∀ parent child s'', addSubtask s' parent child = .ok s'' → Under s'' parent child) ∧
      (∀ child newParent s'' moved, moveUnder s' child newParent = .ok (s'', moved) →
        Under s'' newParent child ∧ ∀ a, s''.edges.Arc .parentOf a child → a = newParent) ∧
      ∀ op e, op.run s' = .error e → next s' op = s' := by
  intro s'
  have hshaped : Shaped s' := 
    @Run.run_invariant _ _ next Shaped (fun _ op h => shaped_next h op) _ hs ops
  refine ⟨hshaped.edges.dependsOn, hshaped.edges.parentOf, hshaped.forest, fun c p q hp hq => ?_,
    fun parent child s'' h => (under_of_addSubtask h).1,
    fun child newParent s'' moved h => (moveUnder_eq_ok hshaped h).2, fun op e he => ?_⟩
  · exact Option.some.inj (hp.symm.trans hq)
  · rw [next, he]
    rfl

/-- A store of no edges is in shape. -/
theorem shaped_bare (items : Items) (bindings : Table fun b : Binding => b.itemId) :
    Shaped ⟨items, bindings, .empty, .empty⟩ := by
  have hnone : ∀ ty a b, ¬ Edges.Arc .empty ty a b := by
    rintro ty a b ⟨e, he, -⟩
    cases he
  have hempty : ∀ {r : Int → Int → Prop}, (∀ a b, ¬ r a b) → Acyclic r := by
    intro r hr a ha
    obtain ⟨b, hab, -⟩ := TransGen.head'_iff.mp ha
    exact hr a b hab
  exact ⟨⟨hempty (hnone _), hempty (hnone _)⟩, hempty fun a b h => by cases h⟩

/-- Three tasks. -/
def threeTasks : Items where
  rows := [⟨1, "task:a".toList, "task".toList⟩, ⟨2, "task:b".toList, "task".toList⟩,
    ⟨3, "task:c".toList, "task".toList⟩]
  nodup := by decide

/-- A task that is split, and its subtask moved under another. -/
theorem shape_run_three :
    let s' := Run.run next ⟨threeTasks, .empty, .empty, .empty⟩ [.addSubtask 1 2, .moveUnder 2 3]
    Acyclic (s'.edges.Arc .dependsOn) ∧ Acyclic (s'.edges.Arc .parentOf) ∧
      Acyclic (Inside s'.containment) :=
  have h := shape_run (shaped_bare threeTasks .empty) [.addSubtask 1 2, .moveUnder 2 3]
  ⟨h.1, h.2.1, h.2.2.1⟩

end Jkb.Subtask
