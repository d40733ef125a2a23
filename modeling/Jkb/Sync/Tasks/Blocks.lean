import Jkb.Sync.Tasks.Rows

/-!
# Jkb.Sync.Tasks.Blocks

A document as the blocks of its file, each with what it says. `renderDoc_docOf` says that rendering
such a document, its dangling dependencies parked, writes the lines of its blocks.
-/

namespace Jkb.Sync.Tasks

open Jkb.Text Jkb.Dsl

/-- One block of a file, and what it says. -/
inductive Entry where
  | prose (run : List Text)
  | header (path line : Text)
  | task (depth : Nat) (item : SyncItem) (deps : List Text)

namespace Entry

/-- The block of a layout that stands for an entry. -/
def block : Entry → SyncBlock
  | .prose run => .prose (['\n'].intercalate run)
  | .header path _ => .section path
  | .task _ item _ => .item item.localId

/-- The lines an entry is rendered as. -/
def lines : Entry → List Text
  | .prose run => run
  | .header _ line => [line]
  | .task depth item deps => renderTask item depth deps

/-- The section of a header. -/
def sect : Entry → Option SyncSection
  | .header path headerLine => some { path, headerLine }
  | _ => none

/-- The item of a task. -/
def item : Entry → Option SyncItem
  | .task _ item _ => some item
  | _ => none

/-- The edges of a task. -/
def edges : Entry → List SyncEdge
  | .task _ item deps =>
      (item.parent.map fun p => ⟨p, item.localId, .parentOf⟩).toList ++
        deps.map fun dep => ⟨item.localId, dep, .dependsOn⟩
  | _ => []

end Entry

/-- The document of a file's blocks. -/
def docOf (es : List Entry) : SyncDoc where
  sections := es.filterMap Entry.sect
  items := es.filterMap Entry.item
  edges := es.flatMap Entry.edges
  layout := es.map Entry.block

/-- The document of entries, one after another. -/
theorem docOf_append (es fs : List Entry) :
    docOf (es ++ fs) =
      { sections := (docOf es).sections ++ (docOf fs).sections
        items := (docOf es).items ++ (docOf fs).items
        edges := (docOf es).edges ++ (docOf fs).edges
        layout := (docOf es).layout ++ (docOf fs).layout } := by
  simp [docOf]

/-- Blocks that fit together: their names are distinct, each task is one level below the task it is
under, and lists the dependencies that are kept before those that are not. -/
structure Coherent (kept : Text → Bool) (es : List Entry) : Prop where
  ids : (docOf es).ids.Nodup
  paths : ((docOf es).sections.map (·.path)).Nodup
  prose : ∀ run, .prose run ∈ es → run ≠ []
  task : ∀ d item deps, .task d item deps ∈ es →
    item.kind = "task" ∧ item.unresolvedNeeds = [] ∧
      deps.filter kept ++ deps.filter (fun d => !kept d) = deps
  top : ∀ d item deps, .task d item deps ∈ es → item.parent = none → d = 0
  nested : ∀ d item deps p, .task d item deps ∈ es → item.parent = some p →
    ∃ d' item' deps', .task d' item' deps' ∈ es ∧ item'.localId = p ∧ d = d' + 1
  shallow : ∀ d item deps, .task d item deps ∈ es →
    d ≤ (docOf es).edges.countP (·.edgeType = .parentOf)

/-! ## lookups -/

/-- The only element that passes a test is the one that is found. -/
theorem find?_of_unique {α : Type*} {p : α → Bool} {xs : List α} {x : α} (hmem : x ∈ xs)
    (hp : p x = true) (hunique : ∀ y ∈ xs, p y = true → y = x) : xs.find? p = some x := by
  cases hfind : xs.find? p with
  | none => exact absurd hp (List.find?_eq_none.mp hfind x hmem)
  | some y =>
      rw [hunique y (List.mem_of_find?_eq_some hfind) (List.find?_some hfind)]

/-- Elements whose names are distinct are one where their names are. -/
theorem eq_of_nodup_filterMap {α β : Type*} {f : α → Option β} {xs : List α} {a b : α} {c : β}
    (h : (xs.filterMap f).Nodup) (ha : a ∈ xs) (hb : b ∈ xs) (hfa : f a = some c)
    (hfb : f b = some c) : a = b := by
  induction xs with
  | nil => cases ha
  | cons x xs ih =>
      have hmem : ∀ y ∈ xs, f y = some c → c ∈ xs.filterMap f := fun y hy hfy =>
        List.mem_filterMap.mpr ⟨y, hy, hfy⟩
      cases hx : f x with
      | none => grind
      | some d =>
          rw [List.filterMap_cons_some hx, List.nodup_cons] at h
          grind

/-- A section is found by its path. -/
theorem section?_eq {doc : SyncDoc} (h : (doc.sections.map (·.path)).Nodup) {s : SyncSection}
    (hs : s ∈ doc.sections) : section? doc s.path = some s := by
  refine find?_of_unique (List.mem_reverse.mpr hs) (by simp) fun t ht htp => ?_
  exact List.inj_on_of_nodup_map h (List.mem_reverse.mp ht) hs (by simpa using htp)

/-- An item is found by its id. -/
theorem lastItem?_eq {doc : SyncDoc} (h : doc.ids.Nodup) {i : SyncItem} (hi : i ∈ doc.items) :
    lastItem? doc i.localId = some i := by
  refine find?_of_unique (List.mem_reverse.mpr hi) (by simp) fun j hj hji => ?_
  exact List.inj_on_of_nodup_map h (List.mem_reverse.mp hj) hi (by simpa using hji)

/-- The items of a document are those of its tasks. -/
theorem mem_items_docOf {es : List Entry} {i : SyncItem} :
    i ∈ (docOf es).items ↔ ∃ d deps, .task d i deps ∈ es := by
  simp only [docOf, List.mem_filterMap]
  constructor
  · rintro ⟨e, he, hi⟩
    cases e with
    | prose run => cases hi
    | header path line => cases hi
    | task d item deps =>
        obtain rfl := Option.some.inj hi
        exact ⟨d, deps, he⟩
  · rintro ⟨d, deps, he⟩
    exact ⟨_, he, rfl⟩

/-- A header of the entries is a section of the document. -/
theorem mem_sections_docOf {es : List Entry} {path line : Text} (h : .header path line ∈ es) :
    ⟨path, line⟩ ∈ (docOf es).sections :=
  List.mem_filterMap.mpr ⟨_, h, rfl⟩

/-- Tasks with one id are one. -/
theorem Coherent.task_inj {kept : Text → Bool} {es : List Entry} (h : Coherent kept es) {d d' : Nat}
    {i i' : SyncItem} {deps deps' : List Text} (he : .task d i deps ∈ es)
    (he' : .task d' i' deps' ∈ es) (hid : i.localId = i'.localId) :
    Entry.task d i deps = .task d' i' deps' := by
  have hnodup : (es.filterMap fun e => e.item.map (·.localId)).Nodup := by
    have hids := h.ids
    rwa [SyncDoc.ids, docOf, List.map_filterMap] at hids
  exact eq_of_nodup_filterMap (c := i.localId) hnodup he he' rfl (congrArg some hid.symm)

/-! ## edges -/

/-- The edges of a document are the parents and the dependencies of its tasks. -/
theorem mem_edges_docOf {es : List Entry} {e : SyncEdge} :
    e ∈ (docOf es).edges ↔ ∃ d i deps, .task d i deps ∈ es ∧
      (i.parent = some e.src ∧ i.localId = e.dst ∧ e.edgeType = .parentOf ∨
        e.dst ∈ deps ∧ i.localId = e.src ∧ e.edgeType = .dependsOn) := by
  simp only [docOf, List.mem_flatMap]
  constructor
  · rintro ⟨entry, hentry, he⟩
    cases entry with
    | prose run => cases he
    | header path line => cases he
    | task d i deps =>
        refine ⟨d, i, deps, hentry, ?_⟩
        simp only [Entry.edges, List.mem_append, Option.mem_toList,
          Option.map_eq_some_iff, List.mem_map] at he
        grind
  · rintro ⟨d, i, deps, hentry, he⟩
    refine ⟨_, hentry, ?_⟩
    simp only [Entry.edges, List.mem_append, Option.mem_toList, Option.map_eq_some_iff,
      List.mem_map]
    cases e
    grind

/-- The id of a task is among those of the document. -/
theorem mem_ids_docOf {es : List Entry} {d : Nat} {i : SyncItem} {deps : List Text}
    (h : .task d i deps ∈ es) : i.localId ∈ (docOf es).ids :=
  List.mem_map_of_mem (mem_items_docOf.mpr ⟨d, deps, h⟩)

/-- What one task depends on, among the ids that pass a test. -/
def depsAmong (edges : List SyncEdge) (id : Text) (p : Text → Bool) : List Text :=
  (edges.filter fun e => e.edgeType = .dependsOn ∧ e.src = id ∧ p e.dst).map (·.dst)

/-- The dependencies of edges, one after another. -/
theorem depsAmong_append (edges edges' : List SyncEdge) (id : Text) (p : Text → Bool) :
    depsAmong (edges ++ edges') id p = depsAmong edges id p ++ depsAmong edges' id p := by
  simp [depsAmong]

/-- What is no task of the document has no dependencies there. -/
theorem depsAmong_of_notMem {es : List Entry} {id : Text} (h : id ∉ (docOf es).ids)
    (p : Text → Bool) : depsAmong (docOf es).edges id p = [] := by
  rw [depsAmong, List.map_eq_nil_iff, List.filter_eq_nil_iff]
  intro e he htest
  obtain ⟨d, i, deps, hmem, hedge⟩ := mem_edges_docOf.mp he
  have hid := mem_ids_docOf hmem
  grind

/-- The dependencies of a task's own edges are those that it names. -/
theorem depsAmong_task (d : Nat) (i : SyncItem) (deps : List Text) (p : Text → Bool) :
    depsAmong (Entry.task d i deps).edges i.localId p = deps.filter p := by
  have hparent : depsAmong (i.parent.map fun q => ⟨q, i.localId, .parentOf⟩).toList i.localId p = [] := by
    cases i.parent <;> simp [depsAmong]
  rw [Entry.edges, depsAmong_append, hparent, List.nil_append, depsAmong, List.filter_map,
    List.map_map]
  simp [Function.comp_def]

/-- **A task depends on what its entry lists.** -/
theorem depsAmong_docOf {kept : Text → Bool} {es : List Entry} (h : Coherent kept es) {d : Nat}
    {i : SyncItem} {deps : List Text} (he : .task d i deps ∈ es) (p : Text → Bool) :
    depsAmong (docOf es).edges i.localId p = deps.filter p := by
  obtain ⟨xs, ys, rfl⟩ := List.append_of_mem he
  have hids := h.ids
  have hsplit : docOf (xs ++ .task d i deps :: ys) = docOf (xs ++ ([.task d i deps] ++ ys)) := rfl
  rw [hsplit, SyncDoc.ids, docOf_append, docOf_append, List.map_append, List.map_append] at hids
  have hone : (docOf [.task d i deps]).items.map (·.localId) = [i.localId] := rfl
  rw [hone] at hids
  have hxs : i.localId ∉ (docOf xs).ids := by
    rw [SyncDoc.ids]
    grind
  have hys : i.localId ∉ (docOf ys).ids := by
    rw [SyncDoc.ids]
    grind
  have hedges : (docOf [.task d i deps]).edges = (Entry.task d i deps).edges := by
    simp [docOf]
  rw [hsplit, docOf_append, docOf_append, depsAmong_append, depsAmong_append,
    depsAmong_of_notMem hxs, depsAmong_of_notMem hys, hedges, depsAmong_task, List.nil_append,
    List.append_nil]

/-! ## depth -/

/-- Where each id is one level below its parent, the parents above it are as many as its level. -/
theorem depthFrom_eq {parent : Text → Option Text} {rank : Text → Nat}
    (htop : ∀ id, parent id = none → rank id = 0)
    (hbelow : ∀ id p, parent id = some p → rank id = rank p + 1) {fuel : Nat} {seen : List Text}
    {cur : Text} (hfuel : rank cur < fuel) (hseen : ∀ s ∈ seen, rank cur < rank s) :
    depthFrom parent fuel seen cur = rank cur := by
  induction fuel generalizing seen cur with
  | zero => omega
  | succ fuel ih =>
      rw [depthFrom]
      cases hp : parent cur with
      | none => exact (htop cur hp).symm
      | some p =>
          have hrank := hbelow cur p hp
          have hnot : cur ∉ seen := fun hmem => Nat.lt_irrefl _ (hseen cur hmem)
          simp only
          rw [if_neg hnot, @ih (cur :: seen) p (by omega) ?_, hrank]
          intro s hs
          rcases List.mem_cons.mp hs with rfl | hs
          · omega
          · exact (by have hlt := hseen s hs; omega)

/-- The level of the task with an id, of a file's blocks. -/
def level (es : List Entry) (id : Text) : Nat :=
  (es.findSome? fun e =>
    match e with
    | .task d i _ => if i.localId = id then some d else none
    | _ => none).getD 0

/-- A task is at the depth it is written at. -/
theorem level_eq {kept : Text → Bool} {es : List Entry} (h : Coherent kept es) {d : Nat}
    {i : SyncItem} {deps : List Text} (he : .task d i deps ∈ es) : level es i.localId = d := by
  unfold level
  cases hfind : es.findSome? (fun e =>
      match e with
      | .task d j _ => if j.localId = i.localId then some d else none
      | _ => none) with
  | none =>
      have hnone := List.findSome?_eq_none_iff.mp hfind _ he
      simp at hnone
  | some d' =>
      obtain ⟨e, hmem, hsome⟩ := List.exists_of_findSome?_eq_some hfind
      split at hsome
      · split at hsome
        · obtain rfl := Option.some.inj hsome
          have hsame := h.task_inj hmem he (by assumption)
          simp_all
        · cases hsome
      · cases hsome

/-- What is no task is at the top. -/
theorem level_of_notMem {es : List Entry} {id : Text} (h : id ∉ (docOf es).ids) :
    level es id = 0 := by
  unfold level
  rw [List.findSome?_eq_none_iff.mpr]
  · rfl
  · intro e he
    split
    · rw [if_neg]
      rintro rfl
      exact h (mem_ids_docOf he)
    · rfl

/-- The parent that a document's edges give an id. -/
theorem parentOf_eq_some {doc : SyncDoc} {id p : Text} (h : parentOf doc id = some p) :
    ⟨p, id, .parentOf⟩ ∈ doc.edges := by
  obtain ⟨e, he, rfl⟩ := Option.map_eq_some_iff.mp h
  have htest := List.find?_some he
  have hmem := List.mem_reverse.mp (List.mem_of_find?_eq_some he)
  cases e
  simp_all

/-- What has no parent is below none. -/
theorem parentOf_eq_none {doc : SyncDoc} {id : Text} (h : parentOf doc id = none) (p : Text) :
    ⟨p, id, .parentOf⟩ ∉ doc.edges := by
  intro hmem
  rw [parentOf, Option.map_eq_none_iff, List.find?_eq_none] at h
  have hno := h _ (List.mem_reverse.mpr hmem)
  simp at hno

/-- The parent that the edges give an id, where they give it one at most. -/
theorem parentOf_eq {doc : SyncDoc} {id : Text} {o : Option Text}
    (h : ∀ p, ⟨p, id, .parentOf⟩ ∈ doc.edges ↔ o = some p) : parentOf doc id = o := by
  cases hp : parentOf doc id with
  | some p => exact ((h p).mp (parentOf_eq_some hp)).symm
  | none =>
      cases o with
      | none => rfl
      | some p => exact absurd ((h p).mpr rfl) (parentOf_eq_none hp p)

/-! ## the parked document -/

/-- The document with its dangling dependencies parked. -/
abbrev parked (doc : SyncDoc) : SyncDoc := (parkDanglingDependencies doc).1

/-- The parking leaves the edges that resolve. -/
theorem parked_edges (doc : SyncDoc) : (parked doc).edges = doc.edges.filter (resolves doc) := rfl

/-- The parking leaves the ids. -/
theorem parked_ids (doc : SyncDoc) : (parked doc).ids = doc.ids := by
  simp only [SyncDoc.ids, parked, parkDanglingDependencies, List.map_map]
  refine List.map_congr_left fun i _ => ?_
  simp only [Function.comp_apply]
  split <;> rfl

/-- Whether a document has a task with an id. -/
def hasId (doc : SyncDoc) (id : Text) : Bool := id ∈ doc.ids

/-- A parked document keeps the dependencies on its own tasks as edges. -/
theorem depsOf_parked_eq (doc : SyncDoc) (id : Text) :
    depsOf (parked doc) id = depsAmong doc.edges id (hasId doc) := by
  simp only [depsOf, depsAmong, parked_edges, List.filter_filter]
  congr 1
  refine List.filter_congr fun e _ => ?_
  simp only [resolves, hasId]
  grind

/-- The other dependencies are parked on the task that has them. -/
theorem dangling_eq (doc : SyncDoc) (id : Text) :
    ((doc.edges.filter fun e => !resolves doc e).filter (·.src = id)).map (·.dst) =
      depsAmong doc.edges id fun d => !hasId doc d := by
  simp only [depsAmong, List.filter_filter]
  congr 1
  refine List.filter_congr fun e _ => ?_
  simp only [resolves, hasId]
  grind

/-- The parking gives every item its own unresolved needs. -/
theorem parked_items (doc : SyncDoc) (h : ∀ i ∈ doc.items, i.unresolvedNeeds = []) :
    (parked doc).items = doc.items.map fun i =>
      { i with unresolvedNeeds := depsAmong doc.edges i.localId fun d => !hasId doc d } := by
  refine List.map_congr_left fun i hi => ?_
  have hunset := h i hi
  simp only [dangling_eq]
  cases hneeds : depsAmong doc.edges i.localId fun d => !hasId doc d with
  | nil =>
      cases i
      simp_all
  | cons x xs => rfl

variable {es : List Entry} (h : Coherent (hasId (docOf es)) es)
include h

/-- The dependencies of a task after the parking are those that the document has. -/
theorem depsOf_parked {d : Nat} {i : SyncItem} {deps : List Text} (he : .task d i deps ∈ es) :
    depsOf (parked (docOf es)) i.localId = deps.filter (hasId (docOf es)) := by
  rw [depsOf_parked_eq, depsAmong_docOf h he]

/-- A task after the parking has the needs that the document does not have. -/
theorem parked_item {d : Nat} {i : SyncItem} {deps : List Text} (he : .task d i deps ∈ es) :
    { i with unresolvedNeeds := deps.filter fun d => !hasId (docOf es) d } ∈
      (parked (docOf es)).items := by
  have hunset : ∀ j ∈ (docOf es).items, j.unresolvedNeeds = [] := by
    intro j hj
    obtain ⟨d', deps', hj⟩ := mem_items_docOf.mp hj
    exact (h.task d' j deps' hj).2.1
  rw [parked_items _ hunset]
  refine List.mem_map.mpr ⟨i, mem_items_docOf.mpr ⟨d, deps, he⟩, ?_⟩
  rw [depsAmong_docOf h he]

/-- The parking leaves the parents. -/
theorem parentOf_parked {d : Nat} {i : SyncItem} {deps : List Text} (he : .task d i deps ∈ es) :
    parentOf (parked (docOf es)) i.localId = i.parent := by
  refine parentOf_eq fun p => ?_
  simp only [parked_edges, List.mem_filter, mem_edges_docOf, resolves]
  constructor
  · rintro ⟨⟨d', i', deps', he', hedge⟩, -⟩
    have hsame := h.task_inj he' he (by grind)
    grind
  · intro hp
    exact ⟨⟨d, i, deps, he, by grind⟩, by simp⟩

/-- The parking leaves the depths. -/
theorem depth_parked {d : Nat} {i : SyncItem} {deps : List Text} (he : .task d i deps ∈ es) :
    depth (parked (docOf es)) i.localId = d := by
  rw [← level_eq h he]
  have hids : (parked (docOf es)).edges.countP (·.edgeType = .parentOf) =
      (docOf es).edges.countP (·.edgeType = .parentOf) := by
    simp only [parked_edges, List.countP_filter]
    refine List.countP_congr fun e _ => ?_
    simp only [resolves]
    grind
  -- an id is a task's, or it has no parent
  have hcases : ∀ id, (∃ d i deps, .task d i deps ∈ es ∧ i.localId = id) ∨
      (level es id = 0 ∧ parentOf (parked (docOf es)) id = none) := by
    intro id
    by_cases hid : id ∈ (docOf es).ids
    · obtain ⟨i, hi, rfl⟩ := List.mem_map.mp hid
      obtain ⟨d, deps, he⟩ := mem_items_docOf.mp hi
      exact Or.inl ⟨d, i, deps, he, rfl⟩
    · refine Or.inr ⟨level_of_notMem hid, ?_⟩
      cases hp : parentOf (parked (docOf es)) id with
      | none => rfl
      | some p =>
          have hmem := List.mem_of_mem_filter (parentOf_eq_some hp)
          obtain ⟨d, i, deps, he, hedge⟩ := mem_edges_docOf.mp hmem
          have hid' := mem_ids_docOf he
          grind
  refine depthFrom_eq ?_ ?_ ?_ (by simp)
  · intro id hp
    rcases hcases id with ⟨d, i, deps, he, rfl⟩ | ⟨hlevel, -⟩
    · rw [parentOf_parked h he] at hp
      rw [level_eq h he, h.top d i deps he hp]
    · exact hlevel
  · intro id p hp
    rcases hcases id with ⟨d, i, deps, he, rfl⟩ | ⟨-, hnone⟩
    · rw [parentOf_parked h he] at hp
      obtain ⟨d', i', deps', he', rfl, hd⟩ := h.nested d i deps p he hp
      rw [level_eq h he, level_eq h he', hd]
    · rw [hnone] at hp
      cases hp
  · have hshallow := h.shallow d i deps he
    have hcount := List.countP_le_length (p := fun e : SyncEdge => e.edgeType = .parentOf)
      (l := (parked (docOf es)).edges)
    rw [level_eq h he]
    omega

/-! ## rendering -/

/-- **A block renders as its lines.** -/
theorem renderBlock_parked {e : Entry} (he : e ∈ es) :
    renderBlock (parked (docOf es)) e.block = some (['\n'].intercalate e.lines) := by
  cases e with
  | prose run => rfl
  | header path line =>
      have hmem := mem_sections_docOf he
      have hsect : section? (parked (docOf es)) path = some ⟨path, line⟩ := section?_eq h.paths hmem
      simp [Entry.block, renderBlock, hsect, Entry.lines]
  | task d i deps =>
      obtain ⟨hkind, hunset, hdeps⟩ := h.task d i deps he
      have hitem := lastItem?_eq (parked_ids (docOf es) ▸ h.ids) (parked_item h he)
      simp only [Entry.block, renderBlock, hitem, Option.map_some, renderItem, hkind, if_true,
        depth_parked h he, depsOf_parked h he, Entry.lines, renderTask, hdeps, hunset,
        List.append_nil]

/-- Every entry is a line at least. -/
theorem lines_ne_nil {e : Entry} (he : e ∈ es) : e.lines ≠ [] := by
  cases e with
  | prose run => exact h.prose run he
  | header path line => exact List.cons_ne_nil _ _
  | task d i deps => exact List.cons_ne_nil _ _

/-- **Rendering the document of a file's blocks writes their lines.** -/
theorem renderDoc_docOf :
    renderDoc (parked (docOf es)) = ['\n'].intercalate (es.flatMap Entry.lines) ++ ['\n'] := by
  have hlayout : (parked (docOf es)).layout.filterMap (renderBlock (parked (docOf es))) =
      es.map fun e => ['\n'].intercalate e.lines := by
    have hmap : (parked (docOf es)).layout = es.map Entry.block := rfl
    rw [hmap, List.filterMap_map]
    have hsome : ∀ e ∈ es, (renderBlock (parked (docOf es)) ∘ Entry.block) e =
        some (['\n'].intercalate e.lines) := fun e he => renderBlock_parked h he
    rw [List.filterMap_congr hsome]
    exact congrFun List.filterMap_eq_map' es
  have hunlisted : unlisted (parked (docOf es)) = [] := by
    refine List.filter_eq_nil_iff.mpr fun i hi => ?_
    have hid : i.localId ∈ (docOf es).ids := parked_ids (docOf es) ▸ List.mem_map_of_mem hi
    obtain ⟨j, hj, hij⟩ := List.mem_map.mp hid
    obtain ⟨d, deps, he⟩ := mem_items_docOf.mp hj
    have hblock : SyncBlock.item i.localId ∈ (parked (docOf es)).layout :=
      List.mem_map.mpr ⟨_, he, by rw [Entry.block, hij]⟩
    simp [hblock]
  have hruns : ∀ run ∈ es.map Entry.lines, run ≠ [] := by
    intro run hrun
    obtain ⟨e, he, rfl⟩ := List.mem_map.mp hrun
    exact lines_ne_nil h he
  have hjoin := @intercalate_flatten _ ['\n'] _ hruns
  rw [List.map_map] at hjoin
  rw [renderDoc, hlayout, hunlisted, List.map_nil, List.append_nil, List.flatMap_def, ← hjoin]
  rfl

end Jkb.Sync.Tasks
