import Jkb.Graph
import Jkb.Sync.Tasks.Layout

/-!
# Jkb.Sync.Tasks.Nesting

Nesting reads as the indentation says. The parser keeps a stack of open tasks, closes those that a line
is not indented under, and clears it at a header; the parent it finds for a task is the latest task
before it, under the same header, that every task line since is indented deeper than.
-/

namespace Jkb.Sync.Tasks

open Jkb.Text Jkb.Dsl Relation

/-! ## what the indentation says -/

/-- The task lines of a file: how many headers stand before each, counted from `r`, and its
indentation. -/
def outline (r : Nat) : List Text → List (Nat × Text)
  | [] => []
  | l :: ls =>
      match header l with
      | some _ => outline (r + 1) ls
      | none =>
          match taskLine l with
          | some (indent, _, _) => (r, indent) :: outline r ls
          | none => outline r ls

/-- One task line stands around another: it is earlier, under the same header, and each task line
after it, to the other and with it, is indented deeper. -/
structure Encloses (ts : List (Nat × Text)) (j k : Nat) : Prop where
  before : j < k
  deeper : ∃ r a b, ts[j]? = some (r, a) ∧ ts[k]? = some (r, b) ∧ strictlyExtends b a = true ∧
    ∀ m t, j < m → m < k → ts[m]? = some t → strictlyExtends t.2 a = true

/-- **The parent of a task line**: the latest that stands around it. -/
def IsParent (ts : List (Nat × Text)) (j k : Nat) : Prop :=
  Encloses ts j k ∧ ∀ j', Encloses ts j' k → j' ≤ j

/-- A task line is open under the `r`-th header: each since is indented deeper. -/
def Open (ts : List (Nat × Text)) (r j : Nat) : Prop :=
  ∃ a, ts[j]? = some (r, a) ∧ ∀ m t, j < m → ts[m]? = some t → strictlyExtends t.2 a = true

/-- The indentation of a task line. -/
def indentAt (ts : List (Nat × Text)) (j : Nat) : Text := ((ts[j]?).map (·.2)).getD []

variable {ts : List (Nat × Text)} {r j k : Nat} {b : Text}

theorem indentAt_eq {t : Nat × Text} (h : ts[j]? = some t) : indentAt ts j = t.2 := by
  rw [indentAt, h]
  rfl

theorem Open.lt (h : Open ts r j) : j < ts.length := by
  obtain ⟨a, ha, -⟩ := h
  exact (List.getElem?_eq_some_iff.mp ha).1

theorem getElem?_concat_of_lt (h : j < ts.length) (t : Nat × Text) : (ts ++ [t])[j]? = ts[j]? :=
  List.getElem?_append_left h

/-- What stands around a task line is settled by the lines up to it. -/
theorem encloses_concat (t : Nat × Text) (hk : k < ts.length) :
    Encloses (ts ++ [t]) j k ↔ Encloses ts j k := by
  constructor
  · rintro ⟨hlt, r, a, b, hj, hk', hdeeper, hall⟩
    rw [getElem?_concat_of_lt (hlt.trans hk)] at hj
    rw [getElem?_concat_of_lt hk] at hk'
    refine ⟨hlt, r, a, b, hj, hk', hdeeper, fun m t' hm hmk ht' => hall m t' hm hmk ?_⟩
    rw [getElem?_concat_of_lt (hmk.trans hk)]
    exact ht'
  · rintro ⟨hlt, r, a, b, hj, hk', hdeeper, hall⟩
    rw [← getElem?_concat_of_lt (hlt.trans hk) t] at hj
    rw [← getElem?_concat_of_lt hk t] at hk'
    refine ⟨hlt, r, a, b, hj, hk', hdeeper, fun m t' hm hmk ht' => hall m t' hm hmk ?_⟩
    rwa [getElem?_concat_of_lt (hmk.trans hk)] at ht'

theorem isParent_concat (t : Nat × Text) (hk : k < ts.length) :
    IsParent (ts ++ [t]) j k ↔ IsParent ts j k := by
  simp only [IsParent, encloses_concat t hk]

/-- **A task line stands under the open ones that it is indented deeper than.** -/
theorem encloses_last : Encloses (ts ++ [(r, b)]) j ts.length ↔
    Open ts r j ∧ strictlyExtends b (indentAt ts j) = true := by
  constructor
  · rintro ⟨hlt, r', a, b', hj, hk, hdeeper, hall⟩
    rw [List.getElem?_concat_length] at hk
    obtain ⟨rfl, rfl⟩ := Prod.mk.inj (Option.some.inj hk)
    rw [getElem?_concat_of_lt hlt] at hj
    refine ⟨⟨a, hj, fun m t hm ht => ?_⟩, by rwa [indentAt_eq hj]⟩
    have hmlt := (List.getElem?_eq_some_iff.mp ht).1
    exact hall m t hm hmlt (by rwa [getElem?_concat_of_lt hmlt])
  · rintro ⟨hopen, hdeeper⟩
    have hlt := hopen.lt
    obtain ⟨a, ha, hall⟩ := hopen
    rw [indentAt_eq ha] at hdeeper
    refine ⟨hlt, r, a, b, ?_, List.getElem?_concat_length, hdeeper, fun m t hm hmk ht => hall m t hm ?_⟩
    · rwa [getElem?_concat_of_lt hlt]
    · rwa [getElem?_concat_of_lt hmk] at ht

/-- **A task line closes** the open ones that it is not indented deeper than, and is open. -/
theorem open_concat : Open (ts ++ [(r, b)]) r j ↔
    j = ts.length ∨ (Open ts r j ∧ strictlyExtends b (indentAt ts j) = true) := by
  rw [← encloses_last (j := j)]
  constructor
  · intro h
    rcases Nat.lt_or_ge j ts.length with hlt | hge
    · obtain ⟨a, ha, hall⟩ := h
      exact Or.inr ⟨hlt, r, a, b, ha, List.getElem?_concat_length,
        hall _ (r, b) hlt List.getElem?_concat_length, fun m t hm _ => hall m t hm⟩
    · have hlt := h.lt
      rw [List.length_append, List.length_singleton] at hlt
      exact Or.inl (by omega)
  · rintro (rfl | ⟨hlt, r', a, b', hj, hk, hdeeper, hall⟩)
    · refine ⟨b, List.getElem?_concat_length, fun m t hm ht => ?_⟩
      have hlt := (List.getElem?_eq_some_iff.mp ht).1
      rw [List.length_append, List.length_singleton] at hlt
      omega
    · rw [List.getElem?_concat_length] at hk
      obtain ⟨rfl, rfl⟩ := Prod.mk.inj (Option.some.inj hk)
      refine ⟨a, hj, fun m t hm ht => ?_⟩
      rcases Nat.lt_or_ge m ts.length with hmk | hmk
      · exact hall m t hm hmk ht
      · have hlast := (List.getElem?_eq_some_iff.mp ht).1
        rw [List.length_append, List.length_singleton] at hlast
        obtain rfl : m = ts.length := by omega
        rw [List.getElem?_concat_length] at ht
        obtain rfl := Option.some.inj ht
        exact hdeeper

/-- Of two open task lines, the later is indented deeper. -/
theorem Open.chain {j' : Nat} (h : Open ts r j) (h' : Open ts r j') (hlt : j < j') :
    strictlyExtends (indentAt ts j') (indentAt ts j) = true := by
  obtain ⟨a, ha, hall⟩ := h
  obtain ⟨a', ha', -⟩ := h'
  rw [indentAt_eq ha, indentAt_eq ha']
  exact hall j' _ hlt ha'

/-! ## the stack -/

/-- **What is left on the stack**: the open tasks that the line is indented under. -/
theorem popTasks_eq_filter {indent : Text} {stack rest : List (Text × Text)}
    (hchain : stack.Pairwise fun x y => strictlyExtends x.1 y.1 = true)
    (h : ParseState.popTasks indent stack = .ok rest) :
    rest = stack.filter fun s => strictlyExtends indent s.1 := by
  induction stack with
  | nil => exact (Except.ok.inj h).symm
  | cons s stack ih =>
      obtain ⟨opened, id⟩ := s
      obtain ⟨hfirst, hchain⟩ := List.pairwise_cons.mp hchain
      rw [ParseState.popTasks] at h
      split at h
      · rename_i hdeeper
        obtain rfl := Except.ok.inj h
        refine (List.filter_eq_self.mpr fun s hs => ?_).symm
        rcases List.mem_cons.mp hs with rfl | hs
        · exact hdeeper
        · exact strictlyExtends_trans hdeeper (hfirst s hs)
      · rename_i hdeeper
        split at h
        · cases h
        · rw [List.filter_cons_of_neg (by simpa using hdeeper)]
          exact ih hchain h

/-- A task as the parser keeps it open: its indentation and its id. -/
def entryOf (ts : List (Nat × Text)) (ids : List Text) (j : Nat) : Text × Text :=
  (indentAt ts j, ids.getD j [])

/-- What an item says of its place: its id and its parent. -/
def heads (doc : SyncDoc) : List (Text × Option Text) := doc.items.map fun i => (i.localId, i.parent)

/-- The edge from an item's parent. -/
def parentEdge (h : Text × Option Text) : Option SyncEdge := h.2.map fun p => ⟨p, h.1, .parentOf⟩

/-- **What holds between any two lines**, after the task lines `ts` and `r` headers: the stack holds the
tasks that are open, innermost first, and each item's parent is its task line's. -/
structure Nested (st : ParseState) (ts : List (Nat × Text)) (r : Nat) : Prop where
  length : st.doc.ids.length = ts.length
  runs : ∀ t ∈ ts, t.1 ≤ r
  stack : ∃ js : List Nat, st.taskStack = js.map (entryOf ts st.doc.ids) ∧ js.Pairwise (· > ·) ∧
    ∀ j, j ∈ js ↔ Open ts r j
  parents : ∀ k h, (heads st.doc)[k]? = some h →
    ∀ u, h.2 = some u ↔ ∃ j, IsParent ts j k ∧ st.doc.ids[j]? = some u
  edges : st.doc.edges.filter (·.edgeType = .parentOf) = (heads st.doc).filterMap parentEdge

theorem nested_init : Nested {} [] 0 where
  length := rfl
  runs := by simp
  stack := ⟨[], rfl, List.Pairwise.nil, by simp [Open]⟩
  parents := by simp [heads]
  edges := rfl

variable {lib : Lib} {st st' : ParseState}

theorem ids_eq_heads (doc : SyncDoc) : doc.ids = (heads doc).map Prod.fst := by
  simp only [SyncDoc.ids, heads, List.map_map]
  rfl

/-- Only the items' places, their edges and the open tasks matter. -/
theorem Nested.congr (h : Nested st ts r) (hstack : st'.taskStack = st.taskStack)
    (hheads : heads st'.doc = heads st.doc) (hedges : st'.doc.edges = st.doc.edges) : Nested st' ts r := by
  have hids : st'.doc.ids = st.doc.ids := by rw [ids_eq_heads, ids_eq_heads, hheads]
  refine ⟨by rw [hids, h.length], h.runs, by rw [hstack, hids]; exact h.stack, ?_, ?_⟩
  · rw [hheads, hids]
    exact h.parents
  · rw [hheads, hedges]
    exact h.edges

/-! ## one line -/

/-- **A header** closes every task. -/
theorem Nested.header (h : Nested st ts r) (line : Text) (level : Nat) (headerText : Text) :
    Nested (st.onHeader lib line level headerText) ts (r + 1) := by
  obtain ⟨hitems, hedges, -, -⟩ := @onHeader_spec lib st line level headerText
  have hheads : heads (st.onHeader lib line level headerText).doc = heads st.doc := by
    rw [heads, heads, hitems]
  have hids : (st.onHeader lib line level headerText).doc.ids = st.doc.ids := by
    rw [ids_eq_heads, ids_eq_heads, hheads]
  refine ⟨by rw [hids, h.length], fun t ht => (h.runs t ht).trans (Nat.le_succ r), ?_, ?_, ?_⟩
  · refine ⟨[], by simp [ParseState.onHeader], List.Pairwise.nil, fun j => ?_⟩
    refine iff_of_false List.not_mem_nil ?_
    rintro ⟨a, ha, -⟩
    exact absurd (h.runs _ (List.mem_of_getElem? ha)) (Nat.not_succ_le_self r)
  · rw [hheads, hids]
    exact h.parents
  · rw [hheads, hedges]
    exact h.edges

/-- A line that is neither a header nor a task line leaves the open tasks as they are. -/
theorem Nested.text (h : Nested st ts r) (line : Text) : Nested (st.onText line) ts r := by
  obtain ⟨-, hstack, -, hedges⟩ := onText_kept st line
  refine h.congr hstack ?_ hedges
  cases hcont : (st.takeContinuation line).1 with
  | false => rw [onText_prose hcont]
  | true =>
      obtain ⟨o, -, -, hput⟩ := onText_body hcont
      rw [hput]
      exact map_modify (by exact fun _ => rfl) _ _

theorem entryOf_concat {ids : List Text} (hj : j < ts.length) (hids : ids.length = ts.length)
    (t : Nat × Text) (id : Text) : entryOf (ts ++ [t]) (ids ++ [id]) j = entryOf ts ids j := by
  rw [entryOf, entryOf, indentAt, indentAt, getElem?_concat_of_lt hj, List.getD_eq_getElem?_getD,
    List.getD_eq_getElem?_getD, List.getElem?_append_left (hids ▸ hj)]

theorem entryOf_last {ids : List Text} (hids : ids.length = ts.length) (t : Nat × Text) (id : Text) :
    entryOf (ts ++ [t]) (ids ++ [id]) ts.length = (t.2, id) := by
  rw [entryOf, indentAt, List.getElem?_concat_length, ← hids, List.getD_eq_getElem?_getD,
    List.getElem?_concat_length]
  rfl

/-- **The innermost of the open tasks that a line is indented under** is its parent. -/
theorem isParent_last {js : List Nat} (hjs : js.Pairwise (· > ·)) (hopen : ∀ j, j ∈ js ↔ Open ts r j) :
    IsParent (ts ++ [(r, b)]) j ts.length ↔
      (js.filter fun j => strictlyExtends b (indentAt ts j)).head? = some j := by
  have hmem : ∀ j', j' ∈ js.filter (fun j => strictlyExtends b (indentAt ts j)) ↔
      Encloses (ts ++ [(r, b)]) j' ts.length := fun j' => by
    rw [List.mem_filter, hopen, encloses_last]
  have hsorted := hjs.filter fun j => strictlyExtends b (indentAt ts j)
  simp only [IsParent, ← hmem]
  cases hfiltered : js.filter (fun j => strictlyExtends b (indentAt ts j)) with
  | nil => simp
  | cons j₀ rest =>
      rw [hfiltered] at hsorted
      have hfirst := (List.pairwise_cons.mp hsorted).1
      rw [List.head?_cons, Option.some.injEq]
      constructor
      · rintro ⟨hj, hlatest⟩
        rcases List.mem_cons.mp hj with rfl | hj
        · rfl
        · exact absurd (hlatest j₀ List.mem_cons_self) (Nat.not_le.mpr (hfirst j hj))
      · rintro rfl
        refine ⟨List.mem_cons_self, fun j' hj' => ?_⟩
        rcases List.mem_cons.mp hj' with rfl | hj'
        · exact le_rfl
        · exact Nat.le_of_lt (hfirst j' hj')

/-- Of the edges that a task line declares, its parent's is the one of its place. -/
theorem parentEdges_newEdges (id : Text) (parsed : TaskTokens) (parent : Option Text) :
    (ParseState.newEdges id parsed parent).filter (·.edgeType = .parentOf) =
      [(id, parent)].filterMap parentEdge := by
  have hdeps : (parsed.deps.map fun dep => (⟨id, dep, .dependsOn⟩ : SyncEdge)).filter
      (·.edgeType = .parentOf) = [] := by
    rw [List.filter_eq_nil_iff]
    intro e he
    obtain ⟨d, -, rfl⟩ := List.mem_map.mp he
    simp
  rw [ParseState.newEdges, List.filter_append, hdeps, List.append_nil]
  cases parent with
  | none => rfl
  | some p => rfl

theorem heads_addTask (indent : Text) (status : String) (parsed : TaskTokens) (id : Text) (used : Taken)
    (stack : List (Text × Text)) :
    heads (st.flushText.addTask indent status parsed id used stack).doc =
      heads st.doc ++ [(id, stack.head?.map (·.2))] := by
  simp only [heads, ParseState.addTask, flushText_items, List.map_append]
  rfl

/-- **A task line** is put under its parent, and is open. -/
theorem Nested.task (h : Nested st ts r) {indent rest : Text} {status : String} {lineNo : Nat}
    (hstep : st.onTask lib lineNo indent status rest = .ok st') :
    Nested st' (ts ++ [(r, indent)]) r := by
  obtain ⟨id, used, stack, -, hpop, rfl⟩ := onTask_eq_ok hstep
  obtain ⟨js, hstack, hsorted, hopen⟩ := h.stack
  have hlt : ∀ j ∈ js, j < ts.length := fun j hj => ((hopen j).mp hj).lt
  have hchain : st.taskStack.Pairwise fun x y => strictlyExtends x.1 y.1 = true := by
    rw [hstack, List.pairwise_map]
    refine hsorted.imp_of_mem fun {i j} hi hj hij => ?_
    exact ((hopen j).mp hj).chain ((hopen i).mp hi) hij
  have hrest := popTasks_eq_filter hchain hpop
  rw [hstack, List.filter_map] at hrest
  set under := js.filter ((fun s => strictlyExtends indent s.1) ∘ entryOf ts st.doc.ids) with hunder
  have hheads := @heads_addTask st indent status (parseTaskTokens lib rest) id used stack
  have hids : (st.flushText.addTask indent status (parseTaskTokens lib rest) id used stack).doc.ids =
      st.doc.ids ++ [id] := by
    rw [ids_eq_heads, ids_eq_heads, hheads, List.map_append]
    rfl
  have hlen : (heads st.doc).length = ts.length := by
    rw [← h.length, ids_eq_heads, List.length_map]
  refine ⟨?_, ?_, ⟨ts.length :: under, ?_, ?_, ?_⟩, ?_, ?_⟩
  · rw [hids, List.length_append, List.length_append, h.length]
    rfl
  · intro t ht
    rcases List.mem_append.mp ht with ht | ht
    · exact h.runs t ht
    · rw [List.mem_singleton.mp ht]
  · rw [hids, List.map_cons, entryOf_last h.length]
    have hsame : under.map (entryOf (ts ++ [(r, indent)]) (st.doc.ids ++ [id])) =
        under.map (entryOf ts st.doc.ids) :=
      List.map_congr_left fun j hj => entryOf_concat (hlt j (List.mem_of_mem_filter hj)) h.length _ _
    rw [hsame, ← hrest]
    rfl
  · exact List.pairwise_cons.mpr ⟨fun j hj => hlt j (List.mem_of_mem_filter hj), hsorted.filter _⟩
  · intro j
    rw [List.mem_cons, open_concat, hunder, List.mem_filter, hopen]
    rfl
  · intro k hd hk u
    rw [hheads] at hk
    rw [hids]
    rcases Nat.lt_or_ge k ts.length with hkt | hkt
    · rw [List.getElem?_append_left (by rwa [hlen])] at hk
      rw [h.parents k hd hk u]
      refine exists_congr fun j => ?_
      rw [isParent_concat _ hkt]
      refine and_congr_right fun hparent => ?_
      rw [List.getElem?_append_left (by rw [h.length]; exact hparent.1.before.trans hkt)]
    · have hlast := (List.getElem?_eq_some_iff.mp hk).1
      rw [List.length_append, List.length_singleton, hlen] at hlast
      obtain rfl : k = ts.length := by omega
      rw [← hlen, List.getElem?_concat_length] at hk
      obtain rfl := Option.some.inj hk
      simp only [isParent_last hsorted hopen, hrest, List.head?_map, Option.map_map]
      have hsame : js.filter (fun j => strictlyExtends indent (indentAt ts j)) = under := rfl
      rw [hsame]
      cases hhead : under.head? with
      | none => simp
      | some j₀ =>
          have hj₀ : j₀ < st.doc.ids.length := by
            rw [h.length]
            exact hlt j₀ (List.mem_of_mem_filter (List.mem_of_head? hhead))
          simp [entryOf, List.getElem?_append_left hj₀, List.getElem?_eq_getElem hj₀]
  · rw [hheads, List.filterMap_append]
    simp only [ParseState.addTask, flushText_edges, List.filter_append, h.edges, parentEdges_newEdges]

/-! ## the whole file -/

/-- **The lines of a file**, read one after the other. -/
theorem Nested.run (h : Nested st ts r) {ls : List Text} {lineNo : Nat}
    (hrun : st.lines lib lineNo ls = .ok st') : ∃ r', Nested st' (ts ++ outline r ls) r' := by
  induction ls generalizing st ts r lineNo with
  | nil =>
      obtain rfl := Except.ok.inj hrun
      exact ⟨r, by rwa [outline, List.append_nil]⟩
  | cons l ls ih =>
      obtain ⟨st₁, hstep, hrest⟩ := lines_cons hrun
      rcases line_cases hstep with ⟨level, headerText, hheader, rfl⟩ |
        ⟨indent, status, rest, hheader, htask, hstep⟩ | ⟨hheader, htask, rfl⟩
      · simp only [outline, hheader]
        exact ih (h.header l level headerText) hrest
      · simp only [outline, hheader, htask]
        rw [List.append_cons]
        exact ih (h.task hstep) hrest
      · simp only [outline, hheader, htask]
        exact ih (h.text l) hrest

theorem heads_parked (doc : SyncDoc) : heads (parked doc) = heads doc := by
  simp only [heads, parked, parkDanglingDependencies, List.map_map]
  refine List.map_congr_left fun i _ => ?_
  simp only [Function.comp_apply]
  split <;> rfl

/-- Only dependencies are parked. -/
theorem parentEdges_parked (doc : SyncDoc) :
    (parked doc).edges.filter (·.edgeType = .parentOf) = doc.edges.filter (·.edgeType = .parentOf) := by
  rw [parked_edges, List.filter_filter]
  refine List.filter_congr fun e _ => ?_
  cases hkind : e.edgeType <;> simp [resolves, hkind]

/-- What a file's reading leaves, parked. -/
theorem Nested.of_parse {text : Text} {doc : SyncDoc} (h : parse lib text = .ok doc) :
    ∃ st r, Nested st (outline 0 (inputLines text)) r ∧ heads doc = heads st.doc ∧
      doc.edges.filter (·.edgeType = .parentOf) = st.doc.edges.filter (·.edgeType = .parentOf) ∧
      doc.ids = (given lib {} (tasks lib (inputLines text))).map Prod.fst := by
  by_cases hempty : text = []
  · subst hempty
    obtain rfl := Except.ok.inj h
    exact ⟨{}, 0, nested_init, rfl, rfl, rfl⟩
  · obtain ⟨st, hlines, -, rfl⟩ := (parse_eq_ok hempty).mp h
    obtain ⟨r, hnested⟩ := nested_init.run hlines
    have hids := (reads_lines hlines).ids
    rw [inputLines, if_neg hempty]
    refine ⟨st, r, hnested, ?_, ?_, ?_⟩
    · rw [heads_parked, heads, flushText_items]
      rfl
    · rw [parentEdges_parked, flushText_edges]
    · rw [parked_ids, SyncDoc.ids, flushText_items]
      exact hids

/-- The children that have a parent are among the tasks, each once. -/
theorem dst_parentEdges (hs : List (Text × Option Text)) :
    ((hs.filterMap parentEdge).map (·.dst)).Sublist (hs.map Prod.fst) := by
  induction hs with
  | nil => exact List.Sublist.slnil
  | cons h hs ih =>
      obtain ⟨id, parent⟩ := h
      cases parent with
      | none => exact ih.cons _
      | some p => exact ih.cons_cons _

theorem idxOf_of_getElem? {xs : List Text} (hxs : xs.Nodup) {x : Text} (h : xs[j]? = some x) :
    xs.idxOf x = j := by
  obtain ⟨hlt, rfl⟩ := List.getElem?_eq_some_iff.mp h
  exact hxs.idxOf_getElem j hlt

/-- An edge from a parent is a task's place. -/
theorem edge_parentOf {doc : SyncDoc} (h : doc.edges.filter (·.edgeType = .parentOf) = (heads doc).filterMap parentEdge)
    {p c : Text} : doc.edge .parentOf p c ↔ (c, some p) ∈ heads doc := by
  have hmem : doc.edge .parentOf p c ↔ (⟨p, c, .parentOf⟩ : SyncEdge) ∈ (heads doc).filterMap parentEdge := by
    rw [← h, List.mem_filter, SyncDoc.edge]
    simp
  rw [hmem, List.mem_filterMap]
  constructor
  · rintro ⟨⟨id, parent⟩, hin, hput⟩
    obtain ⟨p', rfl, heq⟩ := Option.map_eq_some_iff.mp hput
    cases heq
    exact hin
  · exact fun hin => ⟨_, hin, rfl⟩

/-- The edges from parents of a file that is read are its tasks' places, in their order. -/
theorem parentEdges_of_parse {text : Text} {doc : SyncDoc} (h : parse lib text = .ok doc) :
    doc.edges.filter (·.edgeType = .parentOf) = (heads doc).filterMap parentEdge := by
  obtain ⟨st, r, hnested, hheads, hedges, -⟩ := Nested.of_parse h
  rw [hedges, hnested.edges, hheads]

/-- The parent of a task that is read. -/
theorem parent_of_parse {text : Text} {doc : SyncDoc} (h : parse lib text = .ok doc) {k : Nat} {i : SyncItem}
    (hi : doc.items[k]? = some i) (u : Text) :
    i.parent = some u ↔ ∃ j, IsParent (outline 0 (inputLines text)) j k ∧ doc.ids[j]? = some u := by
  obtain ⟨st, r, hnested, hheads, -, -⟩ := Nested.of_parse h
  have hids : doc.ids = st.doc.ids := by rw [ids_eq_heads, ids_eq_heads, hheads]
  rw [hids]
  refine hnested.parents k (i.localId, i.parent) ?_ u
  rw [← hheads, heads, List.getElem?_map, hi]
  rfl

/-- The edges from parents of a file that is read. -/
theorem edge_of_parse {text : Text} {doc : SyncDoc} (h : parse lib text = .ok doc) (p c : Text) :
    doc.edge .parentOf p c ↔
      ∃ j k, IsParent (outline 0 (inputLines text)) j k ∧ doc.ids[j]? = some p ∧ doc.ids[k]? = some c := by
  rw [edge_parentOf (parentEdges_of_parse h)]
  constructor
  · intro hin
    obtain ⟨i, hi, hhead⟩ := List.mem_map.mp hin
    obtain ⟨rfl, hparent⟩ := Prod.mk.inj hhead
    obtain ⟨k, hk⟩ := List.mem_iff_getElem?.mp hi
    obtain ⟨j, hj, hjp⟩ := (parent_of_parse h hk p).mp hparent
    exact ⟨j, k, hj, hjp, by rw [SyncDoc.ids, List.getElem?_map, hk]; rfl⟩
  · rintro ⟨j, k, hj, hjp, hkc⟩
    rw [SyncDoc.ids, List.getElem?_map, Option.map_eq_some_iff] at hkc
    obtain ⟨i, hi, rfl⟩ := hkc
    have hparent := (parent_of_parse h hi p).mpr ⟨j, hj, hjp⟩
    rw [← hparent]
    exact List.mem_map_of_mem (List.mem_of_getElem? hi)

/-- A parent is earlier in the file, so no task is above itself. -/
theorem acyclic_of_parse {text : Text} {doc : SyncDoc} (h : parse lib text = .ok doc) (hids : doc.ids.Nodup) :
    Graph.Acyclic (doc.edge .parentOf) := by
  refine Graph.acyclic_of_rank (fun id => doc.ids.idxOf id) fun p c hpc => ?_
  obtain ⟨j, k, hj, hjp, hkc⟩ := (edge_of_parse h p c).mp hpc
  rw [idxOf_of_getElem? hids hjp, idxOf_of_getElem? hids hkc]
  exact hj.1.before

/-- **Nesting reads as the indentation says.** The tasks are those of the file's task lines, in order;
each one's parent is the latest task line that stands around it, and the edges from parents are these
and no others, so that they make a forest. -/
theorem parseText_nests (lib : Lib) (text : Text) {doc : SyncDoc} {warnings : List Fmt}
    (h : parseText lib text = .ok (doc, warnings)) :
    let ts := outline 0 (inputLines text)
    doc.ids = (given lib {} (tasks lib (inputLines text))).map Prod.fst ∧ doc.ids.Nodup ∧
      (∀ k i, doc.items[k]? = some i → ∀ u, i.parent = some u ↔
        ∃ j, IsParent ts j k ∧ doc.ids[j]? = some u) ∧
      (∀ p c, doc.edge .parentOf p c ↔
        ∃ j k, IsParent ts j k ∧ doc.ids[j]? = some p ∧ doc.ids[k]? = some c) ∧
      ((doc.edges.filter (·.edgeType = .parentOf)).map (·.dst)).Nodup ∧
      Graph.Acyclic (doc.edge .parentOf) := by
  intro ts
  have hparse : parse lib text = .ok doc := by rw [parse, h]; rfl
  obtain ⟨pieces, hsourced, -⟩ := exists_sourced h
  obtain ⟨-, -, -, -, -, hgiven⟩ := Nested.of_parse hparse
  refine ⟨hgiven, hsourced.ids, fun _ _ hi => parent_of_parse hparse hi, edge_of_parse hparse, ?_,
    acyclic_of_parse hparse hsourced.ids⟩
  -- each edge is its child's, and each task has one place
  rw [parentEdges_of_parse hparse]
  refine List.Nodup.sublist ?_ hsourced.ids
  rw [ids_eq_heads]
  exact dst_parentEdges (heads doc)

/-- A file whose tasks nest, return to a shallower line and start again under a header. -/
def nestedFile : Text :=
  "- [ ] a ^a\n  - [ ] b ^b\n    - [ ] c ^c\n  - [ ] d ^d\n## Next\n  - [ ] e ^e\n".toList

theorem parseText_nests_nestedFile : ∃ doc warnings,
    parseText asciiLib nestedFile = .ok (doc, warnings) ∧
      (∀ p c, doc.edge .parentOf p c ↔ ∃ j k, IsParent (outline 0 (inputLines nestedFile)) j k ∧
        doc.ids[j]? = some p ∧ doc.ids[k]? = some c) ∧
      Graph.Acyclic (doc.edge .parentOf) := by
  have hread : (parseText asciiLib nestedFile).toOption.isSome = true := by decide +kernel
  cases h : parseText asciiLib nestedFile with
  | error e =>
      rw [h] at hread
      cases hread
  | ok r =>
      obtain ⟨-, -, -, hedge, -, hacyclic⟩ := parseText_nests asciiLib nestedFile h
      exact ⟨r.1, r.2, rfl, hedge, hacyclic⟩

end Jkb.Sync.Tasks
