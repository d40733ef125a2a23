import Jkb.Sync.Tasks.Outline

/-!
# Jkb.Sync.Tasks.Needed

When the file of a document is read at all. Where each task passes the check that is asked before it is written, and
nothing else in the document is a task line, the file is refused for one thing only: that what its lines need has a
cycle. A line writes what its task depends on and the needs that are parked on it alike, so it is both that count.
-/

namespace Jkb.Sync

/-- What the line of a task writes as its needs: what it depends on, and the needs that are parked on it. -/
def SyncDoc.needs (doc : SyncDoc) (a b : Text) : Prop :=
  doc.edge .dependsOn a b ∨ ∃ i, doc.item? a = some i ∧ b ∈ i.unresolvedNeeds

/-- Where no need is parked, it is the dependencies alone. -/
theorem SyncDoc.needs_of_unparked {doc : SyncDoc} (h : ∀ i ∈ doc.items, i.unresolvedNeeds = []) {a b : Text} :
    doc.needs a b ↔ doc.edge .dependsOn a b := by
  refine or_iff_left ?_
  rintro ⟨i, hi, hb⟩
  rw [h i (List.mem_of_find?_eq_some hi)] at hb
  exact List.not_mem_nil hb

end Jkb.Sync

namespace Jkb.Sync.Tasks

open Jkb.Text Jkb.Dsl Relation

/-! ## documents -/

/-- The task that a block lists, if it lists one. -/
def listedId : SyncBlock → Option Text
  | .item id => some id
  | _ => none

/-- A document that can be written and read line by line: tasks with distinct ids, each listed once at most and passing
with what it depends on, and no task line but theirs. -/
structure Legible (lib : Lib) (doc : SyncDoc) : Prop where
  ids : doc.ids.Nodup
  kind : ∀ i ∈ doc.items, i.kind = "task"
  once : (doc.layout.filterMap listedId).Nodup
  prose : ∀ t, .prose t ∈ doc.layout → ∀ l ∈ t.splitOn '\n', declared lib l = none
  sections : ∀ s ∈ doc.sections, ∀ l ∈ s.headerLine.splitOn '\n', declared lib l = none
  gate : ∀ i ∈ doc.items, taskLineProblem lib i (depsOf doc i.localId) = none

/-- What the tasks of a document need of each other, as their lines write it. -/
def Written (doc : SyncDoc) (a b : Text) : Prop := a ∈ doc.ids ∧ doc.needs a b ∧ b ∈ doc.ids

/-- A document that lists each of its items: those that its layout does not mention come last. -/
def relisted (doc : SyncDoc) : SyncDoc :=
  { doc with layout := doc.layout ++ (unlisted doc).map fun i => .item i.localId }

variable {lib : Lib} {doc : SyncDoc}

/-! ## lines of several lines -/

/-- The lines of texts that may have several each. -/
def splitLines (ls : List Text) : List Text := ls.flatMap (·.splitOn '\n')

/-- A text of one line is its own line. -/
theorem splitOn_oneLine {l : Text} (h : '\n' ∉ l) : l.splitOn '\n' = [l] := by
  have hone : ∀ x ∈ [l], '\n' ∉ x := by simpa using h
  simpa using List.splitOn_intercalate '\n' hone (List.cons_ne_nil l [])

/-- The lines of a file that is written in lines. -/
theorem fileLines_splitLines {ls : List Text} (hne : ls ≠ []) :
    fileLines (['\n'].intercalate ls ++ ['\n']) = splitLines ls := by
  have hself : (ls.map (·.splitOn '\n')).map (['\n'].intercalate ·) = ls := by
    rw [List.map_map]
    conv_rhs => rw [← List.map_id ls]
    exact List.map_congr_left fun l _ => List.intercalate_splitOn '\n'
  have hjoin := @intercalate_flatten _ ['\n'] (ls.map (·.splitOn '\n')) (by simp [List.splitOn_ne_nil])
  rw [hself] at hjoin
  rw [hjoin, ← List.flatMap_def, ← splitLines]
  refine fileLines_intercalate (fun hnil => ?_) fun l hl => ?_
  · obtain ⟨l, hl⟩ := List.exists_mem_of_ne_nil ls hne
    exact List.splitOn_ne_nil _ _ (List.flatMap_eq_nil_iff.mp hnil l hl)
  · obtain ⟨t, -, hl⟩ := List.mem_flatMap.mp hl
    exact notMem_of_mem_splitOn hl

/-- An empty line declares nothing. -/
theorem declared_nil : declared lib [] = none := rfl

/-- What a file says is what the lines of its texts say. -/
theorem tasks_fileLines (ls : List Text) :
    tasks lib (fileLines (['\n'].intercalate ls ++ ['\n'])) = tasks lib (splitLines ls) := by
  by_cases hne : ls = []
  · subst hne
    rfl
  · rw [fileLines_splitLines hne]

/-- A line that declares a task is not split up. -/
theorem mem_splitLines_of_declared {ls : List Text} {l : Text} {t : Text × TaskTokens}
    (hl : l ∈ fileLines (['\n'].intercalate ls ++ ['\n'])) (ht : declared lib l = some t) : l ∈ splitLines ls := by
  by_cases hne : ls = []
  · subst hne
    obtain rfl : l = [] := by simpa [fileLines, stripSuffix] using hl
    rw [declared_nil] at ht
    cases ht
  · rwa [fileLines_splitLines hne] at hl

/-- The tasks of lines, part by part. -/
theorem tasks_flatMap {α : Type*} (f : α → List Text) (xs : List α) :
    tasks lib (xs.flatMap f) = xs.flatMap fun x => tasks lib (f x) := by
  induction xs with
  | nil => rfl
  | cons x xs ih => rw [List.flatMap_cons, List.flatMap_cons, tasks_append, ih]

/-- Lines that declare nothing add no task. -/
theorem tasks_eq_nil {ls : List Text} (h : ∀ l ∈ ls, declared lib l = none) : tasks lib ls = [] := by
  rw [tasks, List.filterMap_eq_nil_iff.mpr h, List.map_nil]

/-! ## the rendering -/

/-- Every item is listed in the layout once it is written anew. -/
theorem mem_layout_relisted {i : SyncItem} (hi : i ∈ doc.items) : .item i.localId ∈ (relisted doc).layout := by
  by_cases hlisted : SyncBlock.item i.localId ∈ doc.layout
  · exact List.mem_append_left _ hlisted
  · exact List.mem_append_right _ (List.mem_map_of_mem (List.mem_filter.mpr ⟨hi, decide_eq_true hlisted⟩))

/-- A document renders as it does with each of its items listed. -/
theorem renderDoc_relisted (hids : doc.ids.Nodup) : renderDoc doc = renderDoc (relisted doc) := by
  have hnone : unlisted (relisted doc) = [] :=
    List.filter_eq_nil_iff.mpr fun i hi => by simpa using @mem_layout_relisted doc i hi
  have hrest : ((unlisted doc).map fun i => SyncBlock.item i.localId).filterMap (renderBlock doc) =
      (unlisted doc).map (renderItem doc) := by
    rw [List.filterMap_map, ← List.filterMap_eq_map]
    refine List.filterMap_congr fun i hi => ?_
    simp [renderBlock, lastItem?_eq hids (List.mem_filter.mp hi).1]
  rw [renderDoc, renderDoc, hnone, List.map_nil, List.append_nil, ← hrest, ← List.filterMap_append]
  rfl

/-- The lines of a document's blocks, with each of its items listed. -/
def allLines (doc : SyncDoc) : List Text := (relisted doc).layout.flatMap (blockLines doc)

/-- A legible document is rendered line by line. -/
theorem Legible.renderDoc_eq (h : Legible lib doc) :
    renderDoc doc = ['\n'].intercalate (allLines doc) ++ ['\n'] := by
  rw [renderDoc_relisted h.ids, @renderDoc_listed (relisted doc) h.kind fun i hi => @mem_layout_relisted doc i hi]
  rfl

/-- The items of a document in the order in which they are written. -/
def inOrder (doc : SyncDoc) : List SyncItem := ((relisted doc).layout.filterMap listedId).filterMap (lastItem? doc)

/-- The items in the order of the layout are the items. -/
theorem mem_inOrder (hids : doc.ids.Nodup) {i : SyncItem} : i ∈ inOrder doc ↔ i ∈ doc.items := by
  constructor
  · intro hi
    obtain ⟨id, -, hfind⟩ := List.mem_filterMap.mp hi
    exact List.mem_reverse.mp (List.mem_of_find?_eq_some hfind)
  · intro hi
    exact List.mem_filterMap.mpr ⟨i.localId, List.mem_filterMap.mpr ⟨_, mem_layout_relisted hi, rfl⟩,
      lastItem?_eq hids hi⟩

/-- Each item is written once. -/
theorem Legible.nodup_inOrder (h : Legible lib doc) : ((inOrder doc).map (·.localId)).Nodup := by
  rw [inOrder, map_localId_filterMap _ fun id i hi => by simpa using List.find?_some hi]
  refine List.Nodup.filter _ ?_
  have hrest : ((unlisted doc).map fun i => SyncBlock.item i.localId).filterMap listedId =
      (unlisted doc).map (·.localId) := by
    rw [List.filterMap_map, ← List.filterMap_eq_map]
    rfl
  rw [relisted, List.filterMap_append, hrest]
  refine List.nodup_append.mpr ⟨h.once, h.ids.sublist (List.filter_sublist.map _), fun a ha b hb hab => ?_⟩
  obtain ⟨block, hblock, hlisted⟩ := List.mem_filterMap.mp ha
  obtain ⟨i, hi, rfl⟩ := List.mem_map.mp hb
  cases block <;> cases hlisted
  exact of_decide_eq_true (List.mem_filter.mp hi).2 (hab ▸ hblock)

/-! ## what the file says -/

variable (hends : ∀ a b, doc.edge .dependsOn a b → b ∈ doc.ids) (hloop : ∀ a, ¬ doc.edge .dependsOn a a)

section

include hends hloop

/-- Each task passes. -/
theorem Legible.passes (h : Legible lib doc) {i : SyncItem} (hi : i ∈ doc.items) :
    Passes lib i (depsOf doc i.localId) := by
  refine passes_of_taskLineProblem (h.kind i hi) (fun hown => hloop _ (mem_depsOf.mp hown)) (fun d hd => ?_)
    (h.gate i hi)
  obtain ⟨j, hj, rfl⟩ := List.mem_map.mp (hends _ _ (mem_depsOf.mp hd))
  exact isUriSafe_of_lineDifference ((taskLineProblem_eq_none lib).mp (h.gate j hj)).2

/-- What a line of a task is read to need is what its line writes. -/
theorem Legible.mem_deps (h : Legible lib doc) {i : SyncItem} (hi : i ∈ doc.items) {b : Text} :
    b ∈ (readItem lib doc i).deps ↔ doc.needs i.localId b := by
  have hpass := h.passes hends hloop hi
  have hitem : doc.item? i.localId = some i := by
    refine find?_of_unique hi (by simp) fun j hj hid => ?_
    exact eq_of_localId h.ids hj hi (of_decide_eq_true hid)
  have hneeds : doc.needs i.localId b ↔ b ∈ depsOf doc i.localId ∨ b ∈ i.unresolvedNeeds := by
    simp [SyncDoc.needs, mem_depsOf, hitem]
  have hread := hpass.needed.mem_iff (a := b)
  rw [List.mem_filter, decide_eq_true_eq] at hread
  have hparked : b ∈ i.unresolvedNeeds ↔ b ∈ (parseTaskTokens lib (itemLine i (depsOf doc i.localId))).deps ∧
      b ∉ i.localId :: depsOf doc i.localId := by
    conv_lhs => rw [← hpass.unresolved]
    rw [List.mem_filter, Bool.not_eq_true', decide_eq_false_iff_not]
  rw [hneeds, hparked, ← hread, ← and_or_left, readItem]
  exact (and_iff_left (em _)).symm

/-- The lines of a block: a task line at its own depth, or none. -/
theorem Legible.block (h : Legible lib doc) {b : SyncBlock} (hb : b ∈ (relisted doc).layout) :
    (∃ id i, b = .item id ∧ lastItem? doc id = some i ∧ i ∈ doc.items ∧
        splitLines (blockLines doc b) = renderTask i (depth doc i.localId) (depsOf doc i.localId)) ∨
      (listedId b).bind (lastItem? doc) = none ∧ ∀ l ∈ splitLines (blockLines doc b), declared lib l = none := by
  cases b with
  | prose text =>
      refine Or.inr ⟨rfl, fun l hl => ?_⟩
      have hmem : SyncBlock.prose text ∈ doc.layout := by
        rcases List.mem_append.mp hb with hb | hb
        · exact hb
        · obtain ⟨i, -, hi⟩ := List.mem_map.mp hb
          cases hi
      exact h.prose text hmem l (by simpa [splitLines, blockLines] using hl)
  | «section» path =>
      refine Or.inr ⟨rfl, fun l hl => ?_⟩
      cases hsection : section? doc path with
      | none => simp [splitLines, blockLines, hsection] at hl
      | some s =>
          have hs : s ∈ doc.sections := List.mem_reverse.mp (List.mem_of_find?_eq_some hsection)
          exact h.sections s hs l (by simpa [splitLines, blockLines, hsection] using hl)
  | item id =>
      cases hitem : lastItem? doc id with
      | none => exact Or.inr ⟨hitem, by simp [splitLines, blockLines, hitem]⟩
      | some i =>
          have hi : i ∈ doc.items := List.mem_reverse.mp (List.mem_of_find?_eq_some hitem)
          refine Or.inl ⟨id, i, rfl, hitem, hi, ?_⟩
          have hone : ∀ l ∈ renderTask i (depth doc i.localId) (depsOf doc i.localId), l.splitOn '\n' = [l] :=
            fun l hl => splitOn_oneLine (oneLine_renderTask (h.passes hends hloop hi).oneLine l hl)
          simp only [splitLines, blockLines, hitem, Option.map_some, Option.getD_some]
          rw [List.flatMap_congr hone, List.flatMap_singleton']

/-- **What the file says**: each task in turn, as its line is read. -/
theorem Legible.tasks_eq (h : Legible lib doc) :
    tasks lib (fileLines (renderDoc doc)) = (inOrder doc).map (readItem lib doc) := by
  have hblock : ∀ b ∈ (relisted doc).layout, tasks lib (splitLines (blockLines doc b)) =
      ((listedId b).bind (lastItem? doc)).toList.map (readItem lib doc) := by
    intro b hb
    obtain ⟨id, i, rfl, hitem, hi, hlines⟩ | ⟨hnone, hlines⟩ := h.block hends hloop hb
    · rw [hlines, tasks_renderTask fun l hl => ((h.passes hends hloop hi).body l hl).1]
      simp [listedId, hitem, readItem]
    · rw [hnone, tasks_eq_nil hlines]
      rfl
  have hlines : splitLines (allLines doc) = (relisted doc).layout.flatMap fun b => splitLines (blockLines doc b) := by
    rw [allLines, splitLines, List.flatMap_assoc]
    rfl
  rw [h.renderDoc_eq, tasks_fileLines, hlines, tasks_flatMap, List.flatMap_congr hblock, inOrder,
    List.filterMap_filterMap, ← List.map_flatMap]
  congr 1
  rw [List.filterMap_eq_flatMap_toList]

end

include hends hloop

/-- Each task of the file gets the id that its line claims. -/
theorem Legible.given_eq (h : Legible lib doc) :
    given lib {} (tasks lib (fileLines (renderDoc doc))) =
      (inOrder doc).map fun i => (i.localId, readItem lib doc i) := by
  rw [h.tasks_eq hends hloop]
  exact given_map _ _ (fun i hi => (h.passes hends hloop ((mem_inOrder h.ids).mp hi)).ownId) {}

/-- **What the tasks of the file need of each other** is what the document's lines write. -/
theorem Legible.needs_iff (h : Legible lib doc) (a b : Text) :
    Needs (given lib {} (tasks lib (fileLines (renderDoc doc)))) a b ↔ Written doc a b := by
  have hids : ∀ id, id ∈ ((inOrder doc).map fun i => (i.localId, readItem lib doc i)).map Prod.fst ↔
      id ∈ doc.ids := fun id => by
    simp [SyncDoc.ids, mem_inOrder h.ids]
  rw [h.given_eq hends hloop, Needs, hids, Written, ← and_assoc]
  refine and_congr_left fun _ => ?_
  constructor
  · rintro ⟨p, hp, hb⟩
    obtain ⟨i, hi, heq⟩ := List.mem_map.mp hp
    obtain ⟨rfl, rfl⟩ := Prod.mk.inj heq
    have hi := (mem_inOrder h.ids).mp hi
    exact ⟨List.mem_map_of_mem hi, (h.mem_deps hends hloop hi).mp hb⟩
  · rintro ⟨ha, hneeds⟩
    obtain ⟨i, hi, rfl⟩ := List.mem_map.mp ha
    exact ⟨_, List.mem_map_of_mem ((mem_inOrder h.ids).mpr hi), (h.mem_deps hends hloop hi).mpr hneeds⟩

/-- The task lines of the file are indented by spaces. -/
theorem Legible.spaces_of_declared (h : Legible lib doc) {l : Text} (hl : l ∈ fileLines (renderDoc doc))
    {t : Text × TaskTokens} (ht : declared lib l = some t) : ∃ d, t.1 = spaces d := by
  rw [h.renderDoc_eq] at hl
  obtain ⟨line, hline, hl⟩ := List.mem_flatMap.mp (mem_splitLines_of_declared hl ht)
  obtain ⟨b, hb, hline⟩ := List.mem_flatMap.mp hline
  have hl : l ∈ splitLines (blockLines doc b) := List.mem_flatMap.mpr ⟨line, hline, hl⟩
  obtain ⟨id, i, rfl, -, hi, hlines⟩ | ⟨-, hnone⟩ := h.block hends hloop hb
  · rw [hlines, renderTask_eq] at hl
    rcases List.mem_cons.mp hl with rfl | hl
    · rw [declared_renderTaskLine] at ht
      obtain rfl := Option.some.inj ht
      exact ⟨_, rfl⟩
    · obtain ⟨m, hm, rfl⟩ := List.mem_map.mp hl
      rw [declared_renderBodyLine _ ((h.passes hends hloop hi).body m hm).1] at ht
      cases ht
  · rw [hnone l hl] at ht
    cases ht

/-- The tasks of a legible document are rendered at comparable indentations. -/
theorem Legible.aligned (h : Legible lib doc) : Aligned lib (fileLines (renderDoc doc)) := by
  intro before l mid l' after hls t t' ht ht' _
  obtain ⟨d, hd⟩ := h.spaces_of_declared hends hloop (by rw [hls]; simp) ht
  obtain ⟨e, he⟩ := h.spaces_of_declared hends hloop (by rw [hls]; simp) ht'
  rw [hd, he]
  exact (Nat.le_total d e).imp spaces_le spaces_le

/-- No task of the file claims an id that is taken. -/
theorem Legible.not_clash (h : Legible lib doc) : ¬ Clash lib {} (tasks lib (fileLines (renderDoc doc))) := by
  have hown : ∀ i ∈ inOrder doc, (readItem lib doc i).ownId = some i.localId := fun i hi =>
    (h.passes hends hloop ((mem_inOrder h.ids).mp hi)).ownId
  rw [h.tasks_eq hends hloop]
  have hdistinct : (((inOrder doc).map (readItem lib doc)).filterMap (·.ownId)).Nodup := by
    rw [List.filterMap_map, List.filterMap_congr (g := fun i => some i.localId) hown, List.filterMap_eq_map']
    exact h.nodup_inOrder
  rw [clash_iff_claimsMinted hdistinct]
  rintro ⟨before, p, after, id, minted, hall, -, hminted, hnone⟩
  have hmem : minted ∈ (inOrder doc).map (readItem lib doc) := by
    rw [hall]
    exact List.mem_append_left _ (mem_of_given hminted)
  obtain ⟨i, hi, rfl⟩ := List.mem_map.mp hmem
  rw [hown i hi] at hnone
  cases hnone

/-- **When the file of a document is read**: exactly when what its tasks write that they need has no cycle. -/
theorem Legible.parse_renderDoc (h : Legible lib doc) :
    (∃ back, parse lib (renderDoc doc) = .ok back) ↔ Graph.Acyclic (Written doc) := by
  have hneeds : Needs (given lib {} (tasks lib (fileLines (renderDoc doc)))) = Written doc := by
    funext a b
    exact propext (h.needs_iff hends hloop a b)
  constructor
  · rintro ⟨back, hback⟩
    -- what is read of a task's needs are its dependencies in what is read
    have hsaid := saidOf_parse (renderDoc_ne_nil doc) hback
    have hids : back.ids = (given lib {} (tasks lib (fileLines (renderDoc doc)))).map Prod.fst := by
      have hfirst := congrArg (List.map (·.1.1)) hsaid
      simpa [saidOf, lineRecord, SyncDoc.ids, Function.comp_def] using hfirst
    have hedges : ∀ a b, Written doc a b → back.edge .dependsOn a b := by
      intro a b hab
      rw [← hneeds] at hab
      obtain ⟨⟨p, hp, hb⟩, hid⟩ := hab
      have hrecord : lineRecord (hasId back) a p ∈ back.items.map (saidOf back) := by
        rw [hsaid]
        exact List.mem_map.mpr ⟨(a, p), hp, rfl⟩
      obtain ⟨i, -, hi⟩ := List.mem_map.mp hrecord
      have hname : i.localId = a := congrArg (·.1.1) hi
      have hdeps : depsOf back i.localId = p.deps.filter (hasId back) := congrArg (·.2.1) hi
      rw [← mem_depsOf, ← hname, hdeps]
      exact List.mem_filter.mpr ⟨hb, by rw [hasId, hids]; exact decide_eq_true hid⟩
    obtain ⟨st, -, hcycle, rfl⟩ := (parse_eq_ok (renderDoc_ne_nil doc)).mp hback
    intro a ha
    have hfound := hasDependencyCycle_iff.mpr ⟨a, TransGen.mono hedges _ _ ha⟩
    rw [hcycle] at hfound
    cases hfound
  · intro hacyclic
    have hstart : Stacked lib ({} : ParseState).taskStack [] := ⟨List.Pairwise.nil, by simp⟩
    obtain ⟨st, hlines⟩ := @lines_ok lib {} (fileLines (renderDoc doc)) [] 1 hstart (h.aligned hends hloop)
      (h.not_clash hends hloop)
    rw [← hneeds] at hacyclic
    exact ⟨_, (parse_eq_ok (renderDoc_ne_nil doc)).mpr
      ⟨st, hlines, hasDependencyCycle_eq_false hlines hacyclic, rfl⟩⟩

end Jkb.Sync.Tasks
