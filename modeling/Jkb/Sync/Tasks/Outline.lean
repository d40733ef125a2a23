import Jkb.Sync.Tasks.Gate

/-!
# Jkb.Sync.Tasks.Outline

A whole file put together from tasks whose lines each come back alone. Its layout is an outline: the
sections, and under each a forest of tasks in pre-order. Nothing around a line changes what it is read
as, so the file is read back task by task.
-/

namespace Jkb.Sync.Tasks

open Jkb.Text Jkb.Dsl
open Relation

/-! ## forests -/

/-- Tasks in file order, each with those nested under it. -/
inductive Forest where
  | nil
  | cons (id : Text) (children rest : Forest)
deriving DecidableEq

namespace Forest

/-- The tasks of a forest in pre-order. -/
def ids : Forest → List Text
  | nil => []
  | cons id children rest => id :: (children.ids ++ rest.ids)

/-- The tasks of a forest in pre-order, each with the tasks it is under, innermost first. -/
def walk : List Text → Forest → List (List Text × Text)
  | _, nil => []
  | above, cons id children rest => (above, id) :: (children.walk (id :: above) ++ rest.walk above)

theorem map_snd_walk (above : List Text) (f : Forest) : (f.walk above).map Prod.snd = f.ids := by
  induction f generalizing above with
  | nil => rfl
  | cons id children rest ihc ihr => rw [walk, ids, List.map_cons, List.map_append, ihc, ihr]

end Forest

/-- Ids of which each has the next as its parent, and the last has none. -/
def Chain (parent : Text → Option Text) : List Text → Prop
  | [] => True
  | id :: above => parent id = above.head? ∧ Chain parent above

/-- What is above a task of a forest is the chain of its parents. -/
theorem Forest.chain_of_mem_walk {parent : Text → Option Text} {f : Forest} {above : List Text}
    (hnodup : (f.ids ++ above).Nodup) (habove : Chain parent above)
    (hparents : ∀ w ∈ f.walk above, parent w.2 = w.1.head?) :
    ∀ w ∈ f.walk above, (w.2 :: w.1).Nodup ∧ Chain parent (w.2 :: w.1) := by
  induction f generalizing above with
  | nil => simp [walk]
  | cons id children rest ihc ihr =>
      simp only [ids, walk, List.cons_append, List.append_assoc] at hnodup hparents ⊢
      have hid := hparents _ List.mem_cons_self
      intro w hw
      rcases List.mem_cons.mp hw with rfl | hw
      · exact ⟨by grind, hid, habove⟩
      · rcases List.mem_append.mp hw with hw | hw
        · refine @ihc (id :: above) (by grind) ⟨hid, habove⟩ (fun v hv => hparents v ?_) w hw
          exact List.mem_cons_of_mem _ (List.mem_append_left _ hv)
        · refine ihr (by grind) habove (fun v hv => hparents v ?_) w hw
          exact List.mem_cons_of_mem _ (List.mem_append_right _ hv)

theorem depthFrom_chain {parent : Text → Option Text} {above : List Text} {cur : Text} {fuel : Nat}
    {seen : List Text} (hchain : Chain parent (cur :: above)) (hnodup : (cur :: above).Nodup)
    (hseen : ∀ x ∈ cur :: above, x ∉ seen) (hfuel : above.length < fuel) :
    depthFrom parent fuel seen cur = above.length := by
  induction above generalizing cur fuel seen with
  | nil =>
      obtain ⟨fuel, rfl⟩ := Nat.exists_eq_add_of_lt hfuel
      have hnone : parent cur = none := hchain.1
      simp [depthFrom, hnone]
  | cons p above ih =>
      obtain ⟨fuel, rfl⟩ : ∃ n, fuel = n + 1 := ⟨fuel - 1, by omega⟩
      have hsome : parent cur = some p := hchain.1
      have hrest := @ih p fuel (cur :: seen) hchain.2 hnodup.of_cons (by grind) (by simpa using hfuel)
      rw [depthFrom, hsome]
      simp only
      rw [if_neg (hseen cur List.mem_cons_self), hrest, List.length_cons]

/-- A chain of parents is no longer than the list of edges. -/
theorem length_chain {doc : SyncDoc} {above : List Text} {cur : Text}
    (hchain : Chain (parentOf doc) (cur :: above)) (hnodup : (cur :: above).Nodup) :
    above.length ≤ doc.edges.length := by
  have hdst : ∀ {above : List Text} {cur : Text}, Chain (parentOf doc) (cur :: above) →
      ∀ x ∈ (cur :: above).dropLast, x ∈ doc.edges.map (·.dst) := by
    intro above
    induction above with
    | nil => simp
    | cons p above ih =>
        intro cur hchain x hx
        rw [List.dropLast_cons_of_ne_nil (List.cons_ne_nil _ _)] at hx
        rcases List.mem_cons.mp hx with rfl | hx
        · exact List.mem_map.mpr ⟨_, parentOf_eq_some hchain.1, rfl⟩
        · exact ih hchain.2 x hx
  have hle := (List.subperm_of_subset (hnodup.sublist (List.dropLast_sublist _)) (hdst hchain)).length_le
  simpa using hle

/-- A task is as deep as there are tasks above it. -/
theorem depth_eq_length {doc : SyncDoc} {above : List Text} {cur : Text}
    (hchain : Chain (parentOf doc) (cur :: above)) (hnodup : (cur :: above).Nodup) :
    depth doc cur = above.length :=
  depthFrom_chain hchain hnodup (by simp) (Nat.lt_succ_of_le (length_chain hchain hnodup))

/-! ## the document and what comes back of it -/

/-- The tasks of an outline, each with the tasks it is under: those before the first section, and those
of each section. -/
def outlineWalk (top : Forest) (groups : List (Text × Forest)) : List (List Text × Text) :=
  top.walk [] ++ groups.flatMap fun g => g.2.walk []

/-- A document that lists its sections and their tasks. Section paths are distinct and each listed
once; item ids are distinct; the layout lists each section's tasks in pre-order of a forest that is
`parent_of`; dependencies are between listed tasks and have no cycle; every task has a status, and
passes with its dependencies. -/
structure Outlined (lib : Lib) (doc : SyncDoc) (top : Forest) (groups : List (Text × Forest)) : Prop where
  ids : doc.ids.Nodup
  paths : (doc.sections.map (·.path)).Nodup
  sections : (groups.map Prod.fst).Perm (doc.sections.map (·.path))
  layout : doc.layout =
    top.ids.map .item ++ groups.flatMap fun g => .section g.1 :: g.2.ids.map .item
  listed : ((outlineWalk top groups).map Prod.snd).Perm
    ((doc.items.filter (·.kind = "task")).map (·.localId))
  parents : ∀ w ∈ outlineWalk top groups, parentOf doc w.2 = w.1.head?
  depends : ∀ e ∈ doc.edges, e.edgeType = .dependsOn → e.src ∈ doc.ids ∧ e.dst ∈ doc.ids
  acyclic : Graph.Acyclic (doc.edge .dependsOn)
  status : ∀ i ∈ doc.items, i.kind = "task" → i.status.isSome
  gate : ∀ i ∈ doc.items, i.kind = "task" →
    taskLineProblem lib i (depsOf doc i.localId) = none

/-- A task that was read back as it was: tags, mirrors and dependencies may change their order. -/
structure SameTask (doc back : SyncDoc) (i j : SyncItem) : Prop where
  localId : j.localId = i.localId
  content : j.content = i.content
  status : j.status = i.status
  priority : j.priority = i.priority
  due : j.due = i.due
  tags : j.tags.Perm i.tags
  mirrors : j.mirrors.Perm i.mirrors
  deps : (depsOf back i.localId).Perm (depsOf doc i.localId)
  needs : j.unresolvedNeeds = i.unresolvedNeeds
  parent : j.parent = parentOf doc i.localId
  parentOf : Tasks.parentOf back i.localId = Tasks.parentOf doc i.localId

/-- A document whose file is read back as the same tasks. -/
def ComesBack (lib : Lib) (doc : SyncDoc) : Prop :=
  ∃ back, parse lib (renderDoc doc) = .ok back ∧ back.ids.Perm doc.ids ∧
    ∀ i ∈ doc.items, i.kind = "task" → ∃ j ∈ back.items, SameTask doc back i j

/-! ## reading a task where it stands -/

variable {lib : Lib} {doc : SyncDoc} {st st' : ParseState}

theorem lines_append (st : ParseState) (xs ys : List Text) (n : Nat) :
    st.lines lib n (xs ++ ys) =
      (st.lines lib n xs).bind fun st₁ => st₁.lines lib (n + xs.length) ys := by
  induction xs generalizing st n with
  | nil => rfl
  | cons x xs ih =>
      rw [List.cons_append, ParseState.lines, ParseState.lines]
      cases st.line lib n x with
      | error e => rfl
      | ok st₁ =>
          have hlen : n + (x :: xs).length = n + 1 + xs.length := by
            rw [List.length_cons]
            omega
          rw [hlen]
          exact ih st₁ (n + 1)

/-- Lines that lead from one state to another, whatever their numbers. -/
def RunsTo (lib : Lib) (st : ParseState) (ls : List Text) (st' : ParseState) : Prop :=
  ∀ n, st.lines lib n ls = .ok st'

theorem RunsTo.nil (st : ParseState) : RunsTo lib st [] st := fun _ => rfl

theorem RunsTo.append {st₁ : ParseState} {xs ys : List Text} (hx : RunsTo lib st xs st₁)
    (hy : RunsTo lib st₁ ys st') : RunsTo lib st (xs ++ ys) st' := by
  intro n
  rw [lines_append, hx n]
  exact hy _

theorem RunsTo.single {l : Text} (h : ∀ n, st.line lib n l = .ok st') : RunsTo lib st [l] st' := by
  intro n
  rw [ParseState.lines, h n]
  rfl

/-- The lines of a body go to the task above them. -/
theorem runsTo_body (hst : Canonical st) {items : List SyncItem} {j : SyncItem} {d : Nat}
    (hitems : st.doc.items = items ++ [j]) (hopen : st.openTask = some (items.length, spaces d))
    (hlen : d + 1 = st.taskStack.length) {ls : List Text}
    (hls : ∀ l ∈ ls, taskLine l = none ∧ l ≠ [] ∧ trimStart l = l) :
    RunsTo lib st (ls.map (renderBodyLine d)) { st with
      doc := { st.doc with
        items := items ++ [{ j with content := j.content ++ ls.flatMap ('\n' :: ·) }] } } := by
  induction ls generalizing st j with
  | nil =>
      have hsame : ({ st with
          doc := { st.doc with items := items ++ [{ j with content := j.content ++ [] }] } } :
          ParseState) = st := by
        rw [List.append_nil, ← hitems]
      rw [List.flatMap_nil, hsame]
      exact RunsTo.nil st
  | cons l ls ih =>
      obtain ⟨htask, hne, htrim⟩ := hls l List.mem_cons_self
      have hplaced : (Row.body d l).Placed st := ⟨by rw [hopen]; rfl, hlen, hne, htrim⟩
      have hput : st.put lib (.body d l) = { st with
          doc := { st.doc with items := items ++ [{ j with content := j.content ++ '\n' :: l }] } } := by
        simp only [ParseState.put, hopen, hitems, modify_concat]
      have hcanon := canonical_put lib hst hplaced
      have hrest := @ih (st.put lib (.body d l)) hcanon { j with content := j.content ++ '\n' :: l }
        (by rw [hput]) (by rw [hput]; exact hopen) (by rw [hput]; exact hlen)
        fun m hm => hls m (List.mem_cons_of_mem _ hm)
      have hfirst : RunsTo lib st [renderBodyLine d l] (st.put lib (.body d l)) :=
        RunsTo.single fun n => line_body lib hst hplaced htask n
      have hboth := hfirst.append hrest
      rw [hput] at hboth
      simpa using hboth

/-- A task's line is read as what its text says, where its id is free and the tasks that are open are
no fewer than it is deep. -/
theorem line_taskText (hst : Canonical st) {d : Nat} {status : Option String} {s : String}
    {title anchor id : Text} {words : List Text} (hs : statusOf (checkbox status) = some s)
    (hown : (parseTaskTokens lib (lineText title words anchor)).ownId = some id)
    (hid : id ∉ st.usedIds.names) (hd : d ≤ st.taskStack.length) (n : Nat) :
    st.line lib n (renderTaskLine d status title words anchor) =
      .ok (st.put lib (.task d s (parseTaskTokens lib (lineText title words anchor)) id)) := by
  obtain ⟨hheader, s', hs', htask⟩ := taskLine_renderTaskLine d status title words anchor
  obtain rfl : s = s' := Option.some.inj (hs.symm.trans hs')
  have hpop := @popTasks_restack d (st.taskStack.map (·.2)) (by simpa using hd)
  rw [← hst.stack, ← drop_restack, ← hst.stack, List.length_map] at hpop
  rw [line_of_task hheader htask]
  simp only [ParseState.onTask, ParseState.takeId, hown, flushText_usedIds, flushText_taskStack,
    claim_of_notMem hid, ParseState.enclosing, hpop]
  rfl

/-- **A task is read where it stands**: below the tasks that are open above it, at whatever depth, as
the item its lines were written from. -/
theorem runsTo_renderTask (hst : Canonical st) {i : SyncItem} {deps above : List Text} {s : String}
    (hpass : Passes lib i deps) (hs : i.status = some s) (hid : i.localId ∉ st.usedIds.names)
    (habove : above <:+ st.taskStack.map (·.2)) :
    ∃ st', RunsTo lib st (renderTask i above.length deps) st' ∧ Canonical st' ∧
      st'.taskStack.map (·.2) = i.localId :: above ∧
      st'.usedIds.names = i.localId :: st.usedIds.names ∧
      st'.doc.edges = st.doc.edges ++
        ParseState.newEdges i.localId (parseTaskTokens lib (itemLine i deps)) above.head? ∧
      ∃ j, st'.doc.items = st.doc.items ++ [j] ∧ j.localId = i.localId ∧ j.content = i.content ∧
        j.status = i.status ∧ j.parent = above.head? := by
  have hmark : statusOf (checkbox i.status) = some s := hpass.status.trans hs
  have hlen : above.length ≤ st.taskStack.length := by simpa using habove.length_le
  have hcontent : (parseTaskTokens lib (itemLine i deps)).title ++
      (splitContent i.content).2.flatMap ('\n' :: ·) = i.content := by
    rw [hpass.title, flatMap_splitContent]
  have hline : RunsTo lib st
      [renderTaskLine above.length i.status (splitContent i.content).1 (itemWords i deps) i.localId]
      (st.put lib (.task above.length s (parseTaskTokens lib (itemLine i deps)) i.localId)) :=
    RunsTo.single fun n => line_taskText hst hmark hpass.ownId hid hlen n
  have hcanon : Canonical
      (st.put lib (.task above.length s (parseTaskTokens lib (itemLine i deps)) i.localId)) :=
    canonical_put lib hst ⟨hs ▸ hmark, hid, hlen⟩
  generalize parseTaskTokens lib (itemLine i deps) = parsed at *
  have hstack : (st.taskStack.drop (st.taskStack.length - above.length)).map (·.2) = above := by
    have hdrop := List.suffix_iff_eq_drop.mp habove
    rw [List.length_map] at hdrop
    rw [List.map_drop, ← hdrop]
  have hparent : (st.taskStack.drop (st.taskStack.length - above.length)).head?.map (·.2) =
      above.head? := by
    rw [← List.head?_map, hstack]
  have hdeep := congrArg List.length hstack
  rw [List.length_map] at hdeep
  -- the state below the task's first line, and then below its body
  have hput : st.put lib (.task above.length s parsed i.localId) =
      { st.flushText with
        usedIds := st.usedIds.add i.localId
        taskStack := (spaces above.length, i.localId) ::
          st.taskStack.drop (st.taskStack.length - above.length)
        openTask := some (st.doc.items.length, spaces above.length)
        doc := { st.flushText.doc with
          items := st.doc.items ++ [st.flushText.newItem i.localId s parsed above.head?]
          edges := st.doc.edges ++ ParseState.newEdges i.localId parsed above.head?
          layout := st.flushText.doc.layout ++ [.item i.localId] } } := by
    simp only [ParseState.put, ParseState.addTask, flushText_items, flushText_edges, hparent]
  rw [hput] at hline hcanon
  have hbody := @runsTo_body lib _ hcanon st.doc.items _ above.length rfl rfl
    (by rw [List.length_cons, hdeep]) _ hpass.body
  refine ⟨_, hline.append hbody, ⟨hcanon.stack, hcanon.opened⟩, ?_, rfl, rfl, _, rfl, rfl, hcontent,
    hs.symm, rfl⟩
  rw [List.map_cons, hstack]

/-! ## reading an outline -/

/-- What has been read of a document, after the tasks `done`, each with those it is under: their ids,
texts and statuses are the document's, and their parents are those they are under. -/
structure Laid (doc : SyncDoc) (done : List (List Text × Text)) (st : ParseState) : Prop where
  canonical : Canonical st
  used : ∀ x ∈ st.usedIds.names, x ∈ done.map Prod.snd
  ids : st.doc.ids = done.map Prod.snd
  items : ∀ j ∈ st.doc.items, ∃ w ∈ done, ∃ i ∈ doc.items, w.2 = j.localId ∧ i.localId = j.localId ∧
    j.content = i.content ∧ j.status = i.status ∧ j.parent = w.1.head?
  parents : ∀ p x, ⟨p, x, .parentOf⟩ ∈ st.doc.edges ↔ ∃ above, (above, x) ∈ done ∧ above.head? = some p

theorem laid_init (doc : SyncDoc) : Laid doc [] {} where
  canonical := canonical_init
  used := by simp
  ids := rfl
  items := by simp
  parents := by simp

/-- A task of an outline that can be read where it stands. -/
def Fits (lib : Lib) (doc : SyncDoc) (w : List Text × Text) : Prop :=
  ∃ i ∈ doc.items, i.localId = w.2 ∧ lastItem? doc w.2 = some i ∧ depth doc w.2 = w.1.length ∧
    i.status.isSome ∧ Passes lib i (depsOf doc w.2)

variable {done : List (List Text × Text)}

theorem mem_newEdges_parent {id p x : Text} {parsed : TaskTokens} {parent : Option Text} :
    (⟨p, x, .parentOf⟩ : SyncEdge) ∈ ParseState.newEdges id parsed parent ↔ x = id ∧ parent = some p := by
  simp only [ParseState.newEdges, List.mem_append, Option.mem_toList, Option.map_eq_some_iff, List.mem_map]
  grind

/-- One more task of the outline is read. -/
theorem Laid.task (h : Laid doc done st) {w : List Text × Text} (hw : Fits lib doc w)
    (habove : w.1 <:+ st.taskStack.map (·.2)) (hnew : w.2 ∉ done.map Prod.snd) :
    ∃ st', RunsTo lib st (blockLines doc (.item w.2)) st' ∧ Laid doc (done ++ [w]) st' ∧
      st'.taskStack.map (·.2) = w.2 :: w.1 := by
  obtain ⟨above, id⟩ := w
  obtain ⟨i, hi, hid, hitem, hdepth, hstatus, hpass⟩ := hw
  obtain rfl : i.localId = id := hid
  obtain ⟨s, hs⟩ := Option.isSome_iff_exists.mp hstatus
  obtain ⟨st', hruns, hcanon, hstack, hused, hedges, j, hitems, hjid, hjcontent, hjstatus, hjparent⟩ :=
    runsTo_renderTask h.canonical hpass hs (fun hmem => hnew (h.used _ hmem)) habove
  have hlines : blockLines doc (.item i.localId) = renderTask i above.length (depsOf doc i.localId) := by
    simp only [blockLines, hitem, Option.map_some, Option.getD_some]
    rw [hdepth]
  refine ⟨st', hlines ▸ hruns, ⟨hcanon, ?_, ?_, ?_, ?_⟩, hstack⟩
  · intro x hx
    rw [hused] at hx
    rw [List.map_append, List.mem_append]
    rcases List.mem_cons.mp hx with rfl | hx
    · exact Or.inr (by simp)
    · exact Or.inl (h.used x hx)
  · have hids := h.ids
    simp only [SyncDoc.ids] at hids ⊢
    rw [hitems, List.map_append, List.map_append, hids, List.map_singleton, List.map_singleton, hjid]
  · intro k hk
    rw [hitems] at hk
    rcases List.mem_append.mp hk with hk | hk
    · obtain ⟨w, hw, rest⟩ := h.items k hk
      exact ⟨w, List.mem_append_left _ hw, rest⟩
    · obtain rfl := List.mem_singleton.mp hk
      exact ⟨_, List.mem_append_right _ (List.mem_singleton_self _), i, hi, hjid.symm, hjid.symm,
        hjcontent, hjstatus, hjparent⟩
  · intro p x
    rw [hedges, List.mem_append, h.parents, mem_newEdges_parent]
    constructor
    · rintro (⟨a, ha, hp⟩ | ⟨rfl, hp⟩)
      · exact ⟨a, List.mem_append_left _ ha, hp⟩
      · exact ⟨above, List.mem_append_right _ (List.mem_singleton_self _), hp⟩
    · rintro ⟨a, ha, hp⟩
      rcases List.mem_append.mp ha with ha | ha
      · exact Or.inl ⟨a, ha, hp⟩
      · obtain ⟨rfl, rfl⟩ := Prod.mk.inj (List.mem_singleton.mp ha)
        exact Or.inr ⟨rfl, hp⟩

/-- A header leaves what has been read of the tasks. -/
theorem Laid.header (h : Laid doc done st) (hheaders : ∀ s ∈ doc.sections, (header s.headerLine).isSome)
    (path : Text) :
    ∃ st', RunsTo lib st (blockLines doc (.section path)) st' ∧ Laid doc done st' := by
  cases hsect : section? doc path with
  | none =>
      have hlines : blockLines doc (.section path) = [] := by simp [blockLines, hsect]
      exact ⟨st, hlines ▸ RunsTo.nil st, h⟩
  | some s =>
      have hmem : s ∈ doc.sections := List.mem_reverse.mp (List.mem_of_find?_eq_some hsect)
      obtain ⟨⟨level, text⟩, hheader⟩ := Option.isSome_iff_exists.mp (hheaders s hmem)
      have hlines : blockLines doc (.section path) = [s.headerLine] := by simp [blockLines, hsect]
      obtain ⟨hitems, hedges, hused, -⟩ := @onHeader_spec lib st s.headerLine level text
      refine ⟨st.onHeader lib s.headerLine level text, ?_, ⟨?_, ?_, ?_, ?_, ?_⟩⟩
      · rw [hlines]
        exact RunsTo.single fun n => line_header lib hheader n
      · exact @canonical_put lib st h.canonical (.header s.headerLine level text) hheader
      · rw [hused]
        exact h.used
      · rw [SyncDoc.ids, hitems]
        exact h.ids
      · rw [hitems]
        exact h.items
      · rw [hedges]
        exact h.parents

/-- The tasks of a forest are read, each where it stands. -/
theorem Laid.forest {f : Forest} {above : List Text} (h : Laid doc done st)
    (hfits : ∀ w ∈ f.walk above, Fits lib doc w) (habove : above <:+ st.taskStack.map (·.2))
    (hnodup : ((done ++ f.walk above).map Prod.snd).Nodup) :
    ∃ st', RunsTo lib st (f.ids.flatMap fun id => blockLines doc (.item id)) st' ∧
      Laid doc (done ++ f.walk above) st' ∧ above <:+ st'.taskStack.map (·.2) := by
  induction f generalizing above done st with
  | nil =>
      simp only [Forest.walk, Forest.ids, List.append_nil]
      exact ⟨st, RunsTo.nil st, h, habove⟩
  | cons id children rest ihc ihr =>
      have hsplit : done ++ Forest.walk above (.cons id children rest) =
          (done ++ [(above, id)] ++ children.walk (id :: above)) ++ rest.walk above := by
        simp [Forest.walk]
      rw [hsplit] at hnodup ⊢
      simp only [Forest.walk, List.mem_cons, List.mem_append] at hfits
      have hn₁ := hnodup
      rw [List.map_append] at hn₁
      obtain ⟨hn₂, -, -⟩ := List.nodup_append.mp hn₁
      have hn₃ := hn₂
      rw [List.map_append, List.map_append] at hn₃
      obtain ⟨st₁, hruns₁, h₁, hstack₁⟩ := h.task (hfits _ (Or.inl rfl)) habove (by
        intro hmem
        exact (List.nodup_append.mp (List.nodup_append.mp hn₃).1).2.2 _ hmem id (by simp) rfl)
      obtain ⟨st₂, hruns₂, h₂, hstack₂⟩ := ihc h₁ (fun w hw => hfits w (Or.inr (Or.inl hw)))
        (hstack₁ ▸ List.suffix_refl _) hn₂
      obtain ⟨st₃, hruns₃, h₃, hstack₃⟩ := ihr h₂ (fun w hw => hfits w (Or.inr (Or.inr hw)))
        ((List.suffix_cons _ _).trans hstack₂) hnodup
      refine ⟨st₃, ?_, h₃, hstack₃⟩
      rw [Forest.ids, List.flatMap_cons, List.flatMap_append]
      exact hruns₁.append (hruns₂.append hruns₃)

/-- The sections are read one after another. -/
theorem Laid.groups {groups : List (Text × Forest)} (h : Laid doc done st)
    (hheaders : ∀ s ∈ doc.sections, (Tasks.header s.headerLine).isSome)
    (hfits : ∀ w ∈ groups.flatMap fun g => g.2.walk [], Fits lib doc w)
    (hnodup : ((done ++ groups.flatMap fun g => g.2.walk []).map Prod.snd).Nodup) :
    ∃ st', RunsTo lib st ((groups.flatMap fun g => .section g.1 :: g.2.ids.map .item).flatMap
        (blockLines doc)) st' ∧ Laid doc (done ++ groups.flatMap fun g => g.2.walk []) st' := by
  induction groups generalizing done st with
  | nil =>
      simp only [List.flatMap_nil, List.append_nil]
      exact ⟨st, RunsTo.nil st, h⟩
  | cons g groups ih =>
      have hsplit : done ++ (g :: groups).flatMap (fun g => g.2.walk []) =
          (done ++ g.2.walk []) ++ groups.flatMap fun g => g.2.walk [] := by
        rw [List.flatMap_cons, List.append_assoc]
      rw [hsplit] at hnodup ⊢
      simp only [List.flatMap_cons, List.mem_append] at hfits
      have hn := hnodup
      rw [List.map_append] at hn
      obtain ⟨st₁, hruns₁, h₁⟩ := @Laid.header lib doc st done h hheaders g.1
      obtain ⟨st₂, hruns₂, h₂, -⟩ := @Laid.forest lib doc st₁ done g.2 [] h₁
        (fun w hw => hfits w (Or.inl hw)) List.nil_suffix (List.nodup_append.mp hn).1
      obtain ⟨st₃, hruns₃, h₃⟩ := ih h₂ (fun w hw => hfits w (Or.inr hw)) hnodup
      refine ⟨st₃, ?_, h₃⟩
      rw [List.flatMap_cons, List.flatMap_append, List.flatMap_cons, List.flatMap_map]
      exact (hruns₁.append hruns₂).append hruns₃

/-! ## the whole file -/

/-- The lines of a document's blocks. -/
def docLines (doc : SyncDoc) : List Text := doc.layout.flatMap (blockLines doc)

/-- What the line of a document's task is read as. -/
def readItem (lib : Lib) (doc : SyncDoc) (i : SyncItem) : TaskTokens :=
  parseTaskTokens lib (itemLine i (depsOf doc i.localId))

variable {top : Forest} {groups : List (Text × Forest)}

theorem mem_depsOf {doc : SyncDoc} {a b : Text} : b ∈ depsOf doc a ↔ doc.edge .dependsOn a b := by
  simp only [depsOf, List.mem_map, List.mem_filter, decide_eq_true_eq, SyncDoc.edge]
  constructor
  · rintro ⟨e, ⟨he, hkind, rfl⟩, rfl⟩
    obtain ⟨src, dst, kind⟩ := e
    obtain rfl : kind = .dependsOn := hkind
    exact he
  · intro h
    exact ⟨_, ⟨h, rfl, rfl⟩, rfl⟩

theorem eq_of_localId {doc : SyncDoc} (h : doc.ids.Nodup) {i j : SyncItem} (hi : i ∈ doc.items)
    (hj : j ∈ doc.items) (hid : i.localId = j.localId) : i = j :=
  List.inj_on_of_nodup_map h hi hj hid

/-- The tasks of an outline are the document's, where it has no other items. -/
theorem Outlined.perm_ids (h : Outlined lib doc top groups) (hkind : ∀ i ∈ doc.items, i.kind = "task") :
    ((outlineWalk top groups).map Prod.snd).Perm doc.ids := by
  have hall : doc.items.filter (·.kind = "task") = doc.items :=
    List.filter_eq_self.mpr fun i hi => by simpa using hkind i hi
  have hlisted := h.listed
  rwa [hall] at hlisted

/-- Each task of the outline passes. -/
theorem Outlined.passes (h : Outlined lib doc top groups) (hkind : ∀ i ∈ doc.items, i.kind = "task")
    {i : SyncItem} (hi : i ∈ doc.items) : Passes lib i (depsOf doc i.localId) := by
  refine passes_of_taskLineProblem (hkind i hi) (fun hown => ?_) (fun d hd => ?_)
    (h.gate i hi (hkind i hi))
  · exact h.acyclic i.localId (.single (mem_depsOf.mp hown))
  · obtain ⟨j, hj, rfl⟩ := List.mem_map.mp (h.depends _ (mem_depsOf.mp hd) rfl).2
    exact isUriSafe_of_lineDifference ((taskLineProblem_eq_none lib).mp (h.gate j hj (hkind j hj))).2

/-- Each task of the outline is as deep as it has tasks above it, and can be read there. -/
theorem Outlined.fits (h : Outlined lib doc top groups) (hkind : ∀ i ∈ doc.items, i.kind = "task")
    {w : List Text × Text} (hw : w ∈ outlineWalk top groups) : Fits lib doc w := by
  have hperm := h.perm_ids hkind
  have hnodup := hperm.nodup_iff.mpr h.ids
  obtain ⟨i, hi, hid⟩ := List.mem_map.mp (hperm.subset (List.mem_map_of_mem hw))
  -- the forest that the task is in
  obtain ⟨f, hf, hsub⟩ : ∃ f : Forest, w ∈ f.walk [] ∧ (f.walk []).Sublist (outlineWalk top groups) := by
    rcases List.mem_append.mp hw with hw | hw
    · exact ⟨top, hw, List.sublist_append_left _ _⟩
    · obtain ⟨g, hg, hw⟩ := List.mem_flatMap.mp hw
      have hsub : (g.2.walk []).Sublist (groups.flatMap fun g => g.2.walk []) := by
        rw [List.flatMap_def]
        exact List.sublist_flatten_of_mem (List.mem_map.mpr ⟨g, hg, rfl⟩)
      exact ⟨g.2, hw, hsub.trans (List.sublist_append_right _ _)⟩
  have hids : (f.ids ++ []).Nodup := by
    rw [List.append_nil, ← f.map_snd_walk []]
    exact hnodup.sublist (hsub.map _)
  obtain ⟨hnd, hchain⟩ := Forest.chain_of_mem_walk hids (by trivial)
    (fun v hv => h.parents v (hsub.subset hv)) w hf
  refine ⟨i, hi, hid, ?_, depth_eq_length hchain hnd, h.status i hi (hkind i hi), ?_⟩
  · rw [← hid]
    exact lastItem?_eq h.ids hi
  · rw [← hid]
    exact h.passes hkind hi

/-- A block of the layout is a section or one of the document's tasks. -/
theorem Outlined.block (h : Outlined lib doc top groups) (hkind : ∀ i ∈ doc.items, i.kind = "task")
    {b : SyncBlock} (hb : b ∈ doc.layout) :
    (∃ path, b = .section path) ∨ ∃ i ∈ doc.items, b = .item i.localId ∧
      blockLines doc b = renderTask i (depth doc i.localId) (depsOf doc i.localId) := by
  have hitem : ∀ id ∈ (outlineWalk top groups).map Prod.snd, ∃ i ∈ doc.items,
      SyncBlock.item id = .item i.localId ∧ blockLines doc (.item id) =
        renderTask i (depth doc i.localId) (depsOf doc i.localId) := by
    intro id hid
    obtain ⟨i, hi, rfl⟩ := List.mem_map.mp ((h.perm_ids hkind).subset hid)
    exact ⟨i, hi, rfl, by simp [blockLines, lastItem?_eq h.ids hi]⟩
  have hids : ∀ id, (id ∈ top.ids ∨ ∃ g ∈ groups, id ∈ g.2.ids) →
      id ∈ (outlineWalk top groups).map Prod.snd := by
    rintro id (hid | ⟨g, hg, hid⟩)
    · rw [← top.map_snd_walk []] at hid
      rw [outlineWalk, List.map_append]
      exact List.mem_append_left _ hid
    · rw [← g.2.map_snd_walk []] at hid
      obtain ⟨w, hw, rfl⟩ := List.mem_map.mp hid
      exact List.mem_map_of_mem (List.mem_append_right _ (List.mem_flatMap.mpr ⟨g, hg, hw⟩))
  rw [h.layout] at hb
  rcases List.mem_append.mp hb with hb | hb
  · obtain ⟨id, hid, rfl⟩ := List.mem_map.mp hb
    exact Or.inr (hitem id (hids id (Or.inl hid)))
  · obtain ⟨g, hg, hb⟩ := List.mem_flatMap.mp hb
    rcases List.mem_cons.mp hb with rfl | hb
    · exact Or.inl ⟨_, rfl⟩
    · obtain ⟨id, hid, rfl⟩ := List.mem_map.mp hb
      exact Or.inr (hitem id (hids id (Or.inr ⟨g, hg, hid⟩)))

/-- Each task is in the layout. -/
theorem Outlined.mem_layout (h : Outlined lib doc top groups) (hkind : ∀ i ∈ doc.items, i.kind = "task")
    {i : SyncItem} (hi : i ∈ doc.items) : .item i.localId ∈ doc.layout := by
  obtain ⟨w, hw, hid⟩ := List.mem_map.mp ((h.perm_ids hkind).symm.subset (List.mem_map_of_mem hi))
  have hwalk : ∀ f : Forest, w ∈ f.walk [] → i.localId ∈ f.ids := fun f hf => by
    rw [← hid, ← f.map_snd_walk []]
    exact List.mem_map_of_mem hf
  rw [h.layout]
  rcases List.mem_append.mp hw with hw | hw
  · exact List.mem_append_left _ (List.mem_map_of_mem (hwalk _ hw))
  · obtain ⟨g, hg, hw⟩ := List.mem_flatMap.mp hw
    refine List.mem_append_right _ (List.mem_flatMap.mpr ⟨g, hg, ?_⟩)
    exact List.mem_cons_of_mem _ (List.mem_map_of_mem (hwalk _ hw))

/-- A line of the file is a section's header, or is in the block of a task. -/
theorem Outlined.line (h : Outlined lib doc top groups) (hkind : ∀ i ∈ doc.items, i.kind = "task") {l : Text}
    (hl : l ∈ docLines doc) :
    (∃ s ∈ doc.sections, l = s.headerLine) ∨
      ∃ i ∈ doc.items, l ∈ renderTask i (depth doc i.localId) (depsOf doc i.localId) := by
  obtain ⟨b, hb, hl⟩ := List.mem_flatMap.mp hl
  rcases h.block hkind hb with ⟨path, rfl⟩ | ⟨i, hi, -, hlines⟩
  · cases hsect : section? doc path with
    | none => simp [blockLines, hsect] at hl
    | some s =>
        have hmem : s ∈ doc.sections := List.mem_reverse.mp (List.mem_of_find?_eq_some hsect)
        exact Or.inl ⟨s, hmem, by simpa [blockLines, hsect] using hl⟩
  · exact Or.inr ⟨i, hi, hlines ▸ hl⟩

/-- A task line of the file is one of the document's tasks'. -/
theorem Outlined.declared (h : Outlined lib doc top groups) (hkind : ∀ i ∈ doc.items, i.kind = "task")
    (hheaders : ∀ s ∈ doc.sections, (header s.headerLine).isSome) {p : TaskTokens}
    (hp : p ∈ tasks lib (docLines doc)) : ∃ i ∈ doc.items, p = readItem lib doc i := by
  obtain ⟨t, ht, rfl⟩ := List.mem_map.mp hp
  obtain ⟨l, hl, hdeclared⟩ := List.mem_filterMap.mp ht
  obtain ⟨s, hs, rfl⟩ | ⟨i, hi, hl⟩ := h.line hkind hl
  · obtain ⟨p, hp⟩ := Option.isSome_iff_exists.mp (hheaders s hs)
    rw [declared_header hp] at hdeclared
    cases hdeclared
  · rw [renderTask_eq] at hl
    rcases List.mem_cons.mp hl with rfl | hl
    · rw [declared_renderTaskLine] at hdeclared
      obtain rfl := Option.some.inj hdeclared
      exact ⟨i, hi, rfl⟩
    · obtain ⟨m, hm, rfl⟩ := List.mem_map.mp hl
      rw [declared_renderBodyLine _ ((h.passes hkind hi).body m hm).1] at hdeclared
      cases hdeclared

/-- What is read under an id is what the line of the task with that id says. -/
theorem Outlined.given (h : Outlined lib doc top groups) (hkind : ∀ i ∈ doc.items, i.kind = "task")
    (hheaders : ∀ s ∈ doc.sections, (header s.headerLine).isSome) {id : Text} {p : TaskTokens}
    (hp : (id, p) ∈ Tasks.given lib {} (tasks lib (docLines doc))) :
    ∃ i ∈ doc.items, i.localId = id ∧ p = readItem lib doc i := by
  obtain ⟨i, hi, rfl⟩ := h.declared hkind hheaders (mem_of_given hp)
  exact ⟨i, hi, given_own hp (h.passes hkind hi).ownId, rfl⟩

/-- Of what a task's line needs, the tasks of the file are its dependencies. -/
theorem Outlined.needed_iff (h : Outlined lib doc top groups) (hkind : ∀ i ∈ doc.items, i.kind = "task")
    (hneeds : ∀ i ∈ doc.items, ∀ d ∈ i.unresolvedNeeds, d ∉ doc.ids) {i : SyncItem}
    (hi : i ∈ doc.items) {d : Text} (hd : d ∈ (readItem lib doc i).deps) :
    d ∈ doc.ids ↔ d ∈ i.localId :: depsOf doc i.localId := by
  constructor
  · intro hid
    by_contra hno
    refine hneeds i hi d ?_ hid
    rw [← (h.passes hkind hi).unresolved]
    exact List.mem_filter.mpr ⟨hd, by simpa using hno⟩
  · intro hmem
    rcases List.mem_cons.mp hmem with rfl | hmem
    · exact List.mem_map_of_mem hi
    · exact (h.depends _ (mem_depsOf.mp hmem) rfl).2

theorem Outlined.oneLine (h : Outlined lib doc top groups) (hkind : ∀ i ∈ doc.items, i.kind = "task")
    (hheaders : ∀ s ∈ doc.sections, '\n' ∉ s.headerLine) : ∀ l ∈ docLines doc, '\n' ∉ l := by
  intro l hl
  obtain ⟨s, hs, rfl⟩ | ⟨i, hi, hl⟩ := h.line hkind hl
  · exact hheaders s hs
  · exact oneLine_renderTask (h.passes hkind hi).oneLine l hl

/-- The lines of the file are read, and the dependencies among its tasks have no cycle. -/
theorem Outlined.lines (h : Outlined lib doc top groups) (hkind : ∀ i ∈ doc.items, i.kind = "task")
    (hheaders : ∀ s ∈ doc.sections, (header s.headerLine).isSome)
    (hneeds : ∀ i ∈ doc.items, ∀ d ∈ i.unresolvedNeeds, d ∉ doc.ids) :
    ∃ st, ({} : ParseState).lines lib 1 (docLines doc) = .ok st ∧
      Laid doc (outlineWalk top groups) st ∧ hasDependencyCycle (parked st.flushText.doc) = false := by
  have hnodup := (h.perm_ids hkind).nodup_iff.mpr h.ids
  have hfits := fun w (hw : w ∈ outlineWalk top groups) => h.fits hkind hw
  have hn := hnodup
  rw [outlineWalk, List.map_append] at hn
  obtain ⟨st₁, hruns₁, h₁, -⟩ := @Laid.forest lib doc {} [] top [] (laid_init doc)
    (fun w hw => hfits w (List.mem_append_left _ hw)) List.nil_suffix (List.nodup_append.mp hn).1
  obtain ⟨st, hruns, hlaid⟩ := @Laid.groups lib doc st₁ _ groups h₁ hheaders
    (fun w hw => hfits w (List.mem_append_right _ hw)) hnodup
  have hlaid : Laid doc (outlineWalk top groups) st := hlaid
  have hlines : ({} : ParseState).lines lib 1 (docLines doc) = .ok st := by
    rw [docLines, h.layout, List.flatMap_append, List.flatMap_map]
    exact hruns₁.append hruns 1
  refine ⟨st, hlines, hlaid, hasDependencyCycle_eq_false hlines fun a ha => h.acyclic a ?_⟩
  refine TransGen.mono (fun x y hxy => ?_) _ _ ha
  obtain ⟨⟨p, hp, hy⟩, hid⟩ := hxy
  obtain ⟨i, hi, rfl, rfl⟩ := h.given hkind hheaders hp
  have hids : y ∈ doc.ids := by
    refine (h.perm_ids hkind).subset ?_
    rw [← hlaid.ids, (reads_lines hlines).ids]
    exact List.mem_append_right _ hid
  have hmem : y ∈ ((readItem lib doc i).deps.filter fun d => d ∈ i.localId :: depsOf doc i.localId) :=
    List.mem_filter.mpr ⟨hy, decide_eq_true ((h.needed_iff hkind hneeds hi hy).mp hids)⟩
  exact mem_depsOf.mp ((h.passes hkind hi).needed.subset hmem)

theorem parse_newline : ∃ back, parse lib ['\n'] = .ok back ∧ back.ids = [] :=
  ⟨_, rfl, rfl⟩

/-- **Checking each line alone is enough for the whole file to come back**, where each item is a task,
each header line one header line, and no task keeps a need of a task that the file has. -/
theorem comesBack_of_outlined (lib : Lib) (doc : SyncDoc) (top : Forest) (groups : List (Text × Forest))
    (h : Outlined lib doc top groups) (hkind : ∀ i ∈ doc.items, i.kind = "task")
    (hheaders : ∀ s ∈ doc.sections, '\n' ∉ s.headerLine ∧ (header s.headerLine).isSome)
    (hneeds : ∀ i ∈ doc.items, ∀ d ∈ i.unresolvedNeeds, d ∉ doc.ids) : ComesBack lib doc := by
  have hsome := fun s hs => (hheaders s hs).2
  have hperm := h.perm_ids hkind
  have hnodup := hperm.nodup_iff.mpr h.ids
  obtain ⟨st, hlines, hlaid, hcycle⟩ := h.lines hkind hsome hneeds
  have hrender : renderDoc doc = ['\n'].intercalate (docLines doc) ++ ['\n'] :=
    renderDoc_listed hkind fun i hi => h.mem_layout hkind hi
  by_cases hnil : docLines doc = []
  · have hitems : doc.items = [] := by
      refine List.eq_nil_iff_forall_not_mem.mpr fun i hi => ?_
      have hblock := List.flatMap_eq_nil_iff.mp hnil _ (h.mem_layout hkind hi)
      simp [blockLines, lastItem?_eq h.ids hi, renderTask_ne_nil] at hblock
    obtain ⟨back, hparse, hids⟩ := @parse_newline lib
    refine ⟨back, ?_, ?_, by simp [hitems]⟩
    · rw [hrender, hnil]
      exact hparse
    · rw [hids, SyncDoc.ids, hitems]
      exact List.Perm.refl _
  have hfile : fileLines (renderDoc doc) = docLines doc := by
    rw [hrender]
    exact fileLines_intercalate hnil (h.oneLine hkind fun s hs => (hheaders s hs).1)
  have hparse : parse lib (renderDoc doc) = .ok (parked st.flushText.doc) :=
    (parse_eq_ok (renderDoc_ne_nil doc)).mpr ⟨st, by rw [hfile]; exact hlines, hcycle, rfl⟩
  have hback : (parked st.flushText.doc).ids = (outlineWalk top groups).map Prod.snd := by
    rw [parked_ids, SyncDoc.ids, flushText_items]
    exact hlaid.ids
  refine ⟨_, hparse, hback ▸ hperm, fun i hi _ => ?_⟩
  have hmem : i.localId ∈ (parked st.flushText.doc).ids := by
    rw [hback]
    exact hperm.symm.subset (List.mem_map_of_mem hi)
  obtain ⟨j, hj, hjid⟩ := List.mem_map.mp hmem
  obtain ⟨p, hp, hsaid, -⟩ := exists_line_of_parse (renderDoc_ne_nil doc) hparse hj
  rw [hfile, hjid] at hp
  obtain ⟨i', hi', hid', rfl⟩ := h.given hkind hsome hp
  obtain rfl := eq_of_localId h.ids hi' hi hid'
  -- what its line says, by the ids of the file
  have hhas : ∀ d ∈ (readItem lib doc i').deps, hasId (parked st.flushText.doc) d =
      decide (d ∈ i'.localId :: depsOf doc i'.localId) := by
    intro d hd
    rw [hasId, hback]
    exact decide_eq_decide.mpr (hperm.mem_iff.trans (h.needed_iff hkind hneeds hi hd))
  have hneeded := List.filter_congr hhas
  have hunresolved := List.filter_congr fun d hd => congrArg (!·) (hhas d hd)
  simp only [saidOf, lineRecord, Prod.mk.injEq, hjid, hneeded, hunresolved] at hsaid
  obtain ⟨⟨-, -, hprio, hdue, htags, hmirrors⟩, hread, hparked⟩ := hsaid
  have hpass := h.passes hkind hi
  obtain ⟨k, hk, needs, rfl⟩ := mem_parked_items hj
  rw [flushText_items] at hk
  obtain ⟨w, hw, i, hi'', hwk, hik, hcontent, hstatus, hparent⟩ := hlaid.items k hk
  obtain rfl := eq_of_localId h.ids hi'' hi (hik.trans hjid)
  have hwi : w.2 = i.localId := hwk.trans hik.symm
  have habove : w.1.head? = parentOf doc i.localId := hwi ▸ (h.parents w hw).symm
  refine ⟨_, hj, hjid, hcontent, hstatus, hprio.trans hpass.priority, hdue.trans hpass.due, ?_, ?_, ?_,
    hparked.trans hpass.unresolved, hparent.trans habove, parentOf_eq fun p => ?_⟩
  · rw [htags]
    exact hpass.tags
  · rw [hmirrors]
    exact hpass.mirrors
  · rw [hread]
    exact hpass.needed
  · have hedge : (⟨p, i.localId, .parentOf⟩ : SyncEdge) ∈ (parked st.flushText.doc).edges ↔
        ⟨p, i.localId, .parentOf⟩ ∈ st.doc.edges := by
      simp [parked_edges, resolves, flushText_edges]
    rw [hedge, hlaid.parents, ← habove]
    constructor
    · rintro ⟨above, hmem, hp⟩
      obtain rfl := List.inj_on_of_nodup_map hnodup hmem hw hwi.symm
      exact hp
    · exact fun hp => ⟨w.1, hwi ▸ hw, hp⟩

/-! ## a file of three tasks, and what a file needs besides -/

/-- One task under another, and a third that needs it. -/
def shipping : SyncDoc where
  sections := [{ path := "work".toList, headerLine := "# Work".toList }]
  items :=
    [{ localId := "ship".toList, kind := "task", content := "ship it\nonce it is tested".toList,
       status := some "open", unresolvedNeeds := ["approval".toList] },
      { localId := "test".toList, kind := "task", content := "test it".toList, status := some "done",
        priority := some 1, tags := [("size".toList, "s".toList)] },
      { localId := "tell".toList, kind := "task", content := "tell everyone".toList,
        status := some "open", due := some "2026-07-15".toList }]
  edges := [⟨"ship".toList, "test".toList, .parentOf⟩, ⟨"tell".toList, "ship".toList, .dependsOn⟩]
  layout := [.section "work".toList, .item "ship".toList, .item "test".toList, .item "tell".toList]

/-- Its file comes back. -/
theorem comesBack_of_outlined_shipping : ComesBack asciiLib shipping := by
  refine comesBack_of_outlined asciiLib shipping .nil
    [("work".toList, .cons "ship".toList (.cons "test".toList .nil .nil) (.cons "tell".toList .nil .nil))]
    ?_ (by decide) (by decide) (by decide)
  refine ⟨by decide, by decide, by decide, by decide, by decide, by decide, by decide, ?_, by decide,
    by decide +kernel⟩
  refine Graph.acyclic_of_rank (fun id => if id = "tell".toList then 0 else 1) fun a b hab => ?_
  simp only [SyncDoc.edge, shipping, List.mem_cons, SyncEdge.mk.injEq, reduceCtorEq, and_false,
    List.not_mem_nil, or_false, false_or, and_true] at hab
  obtain ⟨rfl, rfl⟩ := hab
  decide

/-- A task that keeps a need of another task of the file. -/
def keptNeed : SyncDoc where
  items :=
    [{ localId := "x".toList, kind := "task", content := "a".toList, status := some "open",
       unresolvedNeeds := ["y".toList] },
      { localId := "y".toList, kind := "task", content := "b".toList, status := some "open" }]
  layout := [.item "x".toList, .item "y".toList]

/-- A section whose header line is a task line. -/
def strayHeader : SyncDoc where
  sections := [{ path := "s".toList, headerLine := "- [ ] z ^x".toList }]
  items := [{ localId := "x".toList, kind := "task", content := "a".toList, status := some "open" }]
  layout := [.section "s".toList, .item "x".toList]

/-- An item of text that is a task line. -/
def strayText : SyncDoc where
  items :=
    [{ localId := "x".toList, kind := "task", content := "a".toList, status := some "open" },
      { localId := "t".toList, kind := "text", content := "- [ ] z ^x".toList }]
  layout := [.item "x".toList]

/-- Lines that each come back alone are not enough: a need of another task is read as a dependency, and
a header or a text that is a task line as a task. -/
theorem outlined_not_comesBack :
    ((∃ top groups, Outlined asciiLib keptNeed top groups) ∧ ¬ ComesBack asciiLib keptNeed) ∧
    ((∃ top groups, Outlined asciiLib strayHeader top groups) ∧ ¬ ComesBack asciiLib strayHeader) ∧
    ((∃ top groups, Outlined asciiLib strayText top groups) ∧ ¬ ComesBack asciiLib strayText) := by
  have hacyclic : ∀ doc : SyncDoc, doc.edges = [] → Graph.Acyclic (doc.edge .dependsOn) := by
    intro doc hnone
    refine Graph.acyclic_of_rank (fun _ => 0) fun a b hab => ?_
    rw [SyncDoc.edge, hnone] at hab
    cases hab
  have hclash : ∀ {doc : SyncDoc} {e : Fmt}, parse asciiLib (renderDoc doc) = .error e →
      ¬ ComesBack asciiLib doc := by
    rintro doc e herror ⟨back, hback, -⟩
    rw [herror] at hback
    cases hback
  refine ⟨⟨⟨.cons "x".toList .nil (.cons "y".toList .nil .nil), [], ?_⟩, ?_⟩,
    ⟨⟨.nil, [("s".toList, .cons "x".toList .nil .nil)], ?_⟩, ?_⟩,
    ⟨⟨.cons "x".toList .nil .nil, [], ?_⟩, ?_⟩⟩
  · exact ⟨by decide, by decide, by decide, by decide, by decide, by decide, by decide,
      hacyclic _ rfl, by decide, by decide +kernel⟩
  · rintro ⟨back, hback, -, hsame⟩
    have hread : (parse asciiLib (renderDoc keptNeed)).map (fun b => b.items.map (·.unresolvedNeeds)) =
        .ok [[], []] := by decide +kernel
    rw [hback] at hread
    obtain ⟨j, hj, hsame⟩ := hsame _ (List.mem_cons_self) rfl
    have hneeds : j.unresolvedNeeds ∈ back.items.map (·.unresolvedNeeds) := List.mem_map_of_mem hj
    have hnone : back.items.map (·.unresolvedNeeds) = [[], []] := Except.ok.inj hread
    rw [hnone, hsame.needs] at hneeds
    revert hneeds
    decide
  · exact ⟨by decide, by decide, by decide, by decide, by decide, by decide, by decide,
      hacyclic _ rfl, by decide, by decide +kernel⟩
  · exact hclash (e := bad ["duplicate task id `^", "x".toList, "`"]) (by decide +kernel)
  · exact ⟨by decide, by decide, by decide, by decide, by decide, by decide, by decide,
      hacyclic _ rfl, by decide, by decide +kernel⟩
  · exact hclash (e := bad ["duplicate task id `^", "x".toList, "`"]) (by decide +kernel)

end Jkb.Sync.Tasks
