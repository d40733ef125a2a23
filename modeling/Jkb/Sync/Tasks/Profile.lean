import Jkb.Sync.Tasks.Sim

/-!
# Jkb.Sync.Tasks.Profile

What a parsed document says of the lines it was read from: how many of them are lines of a body, and
what each task line read as. Reading on only adds to it, so two files that are read as one document
agree on it line by line.
-/

namespace Jkb.Sync.Tasks

open Jkb.Text Jkb.Dsl

variable {lib : Lib} {kept : Text → Bool} {st st' : ParseState}

/-! ## what a line does -/

/-- Whether a line declares a task. -/
def isTaskLine (line : Text) : Bool := header line = none && (taskLine line).isSome

/-! ## what is kept between lines -/

/-- What holds of the state between any two lines of a file: the ids of its tasks are taken, what it
has of dependencies are its tasks' own, no task has parked one yet, and an open body is a task's. -/
structure Proper (st : ParseState) : Prop where
  taken : ∀ id ∈ st.doc.ids, id ∈ st.usedIds.names
  owned : ∀ e ∈ st.doc.edges, e.edgeType = .dependsOn → e.src ∈ st.doc.ids
  unparked : ∀ i ∈ st.doc.items, i.unresolvedNeeds = []
  opened : ∀ o, st.openTask = some o → o.1 < st.doc.items.length

theorem proper_init : Proper {} := by
  constructor <;> simp [SyncDoc.ids]

/-- The lines of the tasks' bodies. -/
def bodyLines (doc : SyncDoc) : Nat := (doc.items.map fun i => i.content.count '\n').sum

/-- What a task line said: its id, its title, its modifiers, and its dependencies, those that are kept
and those that are not. -/
abbrev TaskRecord :=
  (Text × Text × Option Int × Option Text × List (Text × Text) × List Text) × List Text × List Text

/-- What an item's line said, by the document's edges. -/
def record (kept : Text → Bool) (edges : List SyncEdge) (i : SyncItem) : TaskRecord :=
  ((i.localId, (splitContent i.content).1, i.priority, i.due, i.tags, i.mirrors),
    depsAmong edges i.localId kept, depsAmong edges i.localId fun d => !kept d)

/-- What the task lines of a document said, in order. -/
def records (kept : Text → Bool) (doc : SyncDoc) : List TaskRecord :=
  doc.items.map (record kept doc.edges)

/-! ## a header -/

theorem flushText_edges (st : ParseState) : st.flushText.doc.edges = st.doc.edges := by
  unfold ParseState.flushText
  split <;> rfl

theorem onHeader_spec (line : Text) (level : Nat) (headerText : Text) :
    (st.onHeader lib line level headerText).doc.items = st.doc.items ∧
      (st.onHeader lib line level headerText).doc.edges = st.doc.edges ∧
      (st.onHeader lib line level headerText).usedIds = st.usedIds ∧
      (st.onHeader lib line level headerText).openTask = none :=
  ⟨flushText_items st, flushText_edges st, flushText_usedIds st, rfl⟩

/-! ## a task line -/

theorem onTask_spec {lineNo : Nat} {indent rest : Text} {status : String}
    (h : st.onTask lib lineNo indent status rest = .ok st') :
    ∃ id item, id ∉ st.usedIds.names ∧ st'.usedIds.names = id :: st.usedIds.names ∧
      st'.doc.items = st.doc.items ++ [item] ∧
      st'.openTask = some (st.doc.items.length, indent) ∧
      (∃ parent, st'.doc.edges = st.doc.edges ++ ParseState.newEdges id (parseTaskTokens lib rest) parent) ∧
      item.unresolvedNeeds = [] ∧ item.content = (parseTaskTokens lib rest).title ∧
      item.localId = id ∧ item.priority = (parseTaskTokens lib rest).priority ∧
      item.due = (parseTaskTokens lib rest).due ∧ item.tags = (parseTaskTokens lib rest).tags ∧
      item.mirrors = (parseTaskTokens lib rest).mirrors := by
  obtain ⟨id, used, stack, htake, -, rfl⟩ := onTask_eq_ok h
  obtain ⟨hfree, hused, -⟩ := takeId_eq_ok lib htake
  refine ⟨id, st.flushText.newItem id status (parseTaskTokens lib rest) (stack.head?.map (·.2)), hfree, hused,
    ?_, ?_, ⟨stack.head?.map (·.2), ?_⟩, rfl, rfl, rfl, rfl, rfl, rfl, rfl⟩
  · simp only [ParseState.addTask, flushText_items]
  · simp only [ParseState.addTask, flushText_items]
  · simp only [ParseState.addTask, flushText_edges]

/-- What a task line says, under the id it takes. -/
def lineRecord (kept : Text → Bool) (id : Text) (parsed : TaskTokens) : TaskRecord :=
  ((id, parsed.title, parsed.priority, parsed.due, parsed.tags, parsed.mirrors),
    parsed.deps.filter kept, parsed.deps.filter fun d => !kept d)

theorem depsAmong_of_ne {edges : List SyncEdge} {id : Text}
    (h : ∀ e ∈ edges, e.edgeType = .dependsOn → e.src ≠ id) (p : Text → Bool) :
    depsAmong edges id p = [] := by
  rw [depsAmong, List.map_eq_nil_iff, List.filter_eq_nil_iff]
  intro e he htest
  have hne := h e he
  grind

theorem depsAmong_newEdges (id : Text) (parsed : TaskTokens) (parent : Option Text) (p : Text → Bool) :
    depsAmong (ParseState.newEdges id parsed parent) id p = parsed.deps.filter p :=
  depsAmong_task 0 { localId := id, kind := "", content := [], parent } parsed.deps p

theorem src_newEdges {id : Text} {parsed : TaskTokens} {parent : Option Text} {e : SyncEdge}
    (he : e ∈ ParseState.newEdges id parsed parent) (hkind : e.edgeType = .dependsOn) : e.src = id := by
  rcases List.mem_append.mp he with he | he
  · obtain ⟨p, -, rfl⟩ := by simpa using he
    cases hkind
  · obtain ⟨d, -, rfl⟩ := List.mem_map.mp he
    rfl

/-- **A task line** adds one record, of what it says. -/
theorem records_onTask (kept : Text → Bool) (hp : Proper st) {lineNo : Nat} {indent rest : Text} {status : String}
    (hline : '\n' ∉ rest) (h : st.onTask lib lineNo indent status rest = .ok st') :
    Proper st' ∧ bodyLines st'.doc = bodyLines st.doc ∧
      (∃ o, st'.openTask = some o ∧ o.2 = indent) ∧
      ∃ id, records kept st'.doc = records kept st.doc ++ [lineRecord kept id (parseTaskTokens lib rest)] := by
  obtain ⟨id, item, hfree, hnames, hitems, hopen, ⟨parent, hedges⟩, hunparked, hcontent, hid, hprio, hdue,
    htags, hmirrors⟩ := onTask_spec h
  have hids : st'.doc.ids = st.doc.ids ++ [id] := by
    rw [SyncDoc.ids, SyncDoc.ids, hitems, List.map_append, List.map_singleton, hid]
  have htitle := title_oneLine lib hline
  have hnew : ∀ i ∈ st.doc.items, i.localId ≠ id := by
    intro i hi heq
    exact hfree (hp.taken id (heq ▸ List.mem_map_of_mem hi))
  refine ⟨⟨?_, ?_, ?_, ?_⟩, ?_, ⟨_, hopen, rfl⟩, id, ?_⟩
  · intro x hx
    rw [hids, List.mem_append, List.mem_singleton] at hx
    rw [hnames, List.mem_cons]
    exact hx.symm.imp_right (hp.taken x)
  · intro e he hkind
    rw [hedges, List.mem_append] at he
    rw [hids, List.mem_append, List.mem_singleton]
    exact he.imp (fun he => hp.owned e he hkind) fun he => src_newEdges he hkind
  · intro i hi
    rw [hitems, List.mem_append, List.mem_singleton] at hi
    rcases hi with hi | rfl
    · exact hp.unparked i hi
    · exact hunparked
  · intro o ho
    rw [hopen] at ho
    obtain rfl := Option.some.inj ho
    rw [hitems, List.length_append]
    exact Nat.lt_succ_self _
  · rw [bodyLines, bodyLines, hitems, List.map_append, List.sum_append, List.map_singleton,
      List.sum_singleton, hcontent, List.count_eq_zero_of_not_mem htitle, Nat.add_zero]
  · rw [records, hitems, List.map_append, List.map_singleton]
    congr 1
    · refine List.map_congr_left fun i hi => ?_
      have hnone : ∀ p, depsAmong (ParseState.newEdges id (parseTaskTokens lib rest) parent) i.localId p =
          [] := fun p =>
        depsAmong_of_ne (fun e he hkind => (src_newEdges he hkind).trans_ne (hnew i hi).symm) p
      simp only [record, hedges, depsAmong_append, hnone, List.append_nil]
    · have hnone : ∀ p, depsAmong st.doc.edges id p = [] := fun p =>
        @depsAmong_of_ne _ id (fun e he hkind heq =>
          hfree (heq ▸ hp.taken e.src (hp.owned e he hkind))) p
      simp only [record, hedges, depsAmong_append, hid, hnone, depsAmong_newEdges, List.nil_append, hcontent,
        splitContent_title htitle, hprio, hdue, htags, hmirrors, lineRecord]

/-! ## any other line -/

theorem records_onHeader (kept : Text → Bool) (hp : Proper st) (line : Text) (level : Nat) (headerText : Text) :
    Proper (st.onHeader lib line level headerText) ∧
      bodyLines (st.onHeader lib line level headerText).doc = bodyLines st.doc ∧
      records kept (st.onHeader lib line level headerText).doc = records kept st.doc := by
  obtain ⟨hitems, hedges, hused, hopen⟩ := @onHeader_spec lib st line level headerText
  have hids : (st.onHeader lib line level headerText).doc.ids = st.doc.ids := by
    rw [SyncDoc.ids, SyncDoc.ids, hitems]
  refine ⟨⟨?_, ?_, ?_, ?_⟩, ?_, ?_⟩
  · rw [hids, hused]
    exact hp.taken
  · rw [hids, hedges]
    exact hp.owned
  · rw [hitems]
    exact hp.unparked
  · intro o ho
    rw [hopen] at ho
    cases ho
  · rw [bodyLines, bodyLines, hitems]
  · rw [records, records, hitems, hedges]

theorem records_prose (kept : Text → Bool) (hp : Proper st) {line : Text} (h : (st.takeContinuation line).1 = false) :
    Proper (st.onText line) ∧ bodyLines (st.onText line).doc = bodyLines st.doc ∧
      records kept (st.onText line).doc = records kept st.doc := by
  rw [onText_prose h]
  exact ⟨⟨hp.taken, hp.owned, hp.unparked, fun o ho => by cases ho⟩, rfl, rfl⟩

theorem sum_modify {α : Type*} {f : α → α} {g : α → Nat} (h : ∀ a, g (f a) = g a + 1) {xs : List α}
    {i : Nat} (hi : i < xs.length) : ((xs.modify i f).map g).sum = (xs.map g).sum + 1 := by
  induction xs generalizing i with
  | nil => simp at hi
  | cons x xs ih =>
      cases i with
      | zero =>
          simp only [List.modify_zero_cons, List.map_cons, List.sum_cons, h]
          omega
      | succ i =>
          rw [List.modify_succ_cons, List.map_cons, List.sum_cons, List.map_cons, List.sum_cons,
            ih (by simpa using hi)]
          omega

/-- **A line of a body** is counted, and changes no record. -/
theorem records_body (kept : Text → Bool) (hp : Proper st) {line : Text} (hline : '\n' ∉ line)
    (h : (st.takeContinuation line).1 = true) :
    Proper (st.onText line) ∧ bodyLines (st.onText line).doc = bodyLines st.doc + 1 ∧
      records kept (st.onText line).doc = records kept st.doc ∧
      (st.onText line).openTask = st.openTask := by
  obtain ⟨o, ho, -, hput⟩ := onText_body h
  have hbody : '\n' ∉ trimStart line := fun hmem => hline ((List.dropWhile_suffix _).subset hmem)
  have hitem : ∀ i : SyncItem,
      record kept st.doc.edges { i with content := i.content ++ '\n' :: trimStart line } =
        record kept st.doc.edges i := fun i => by
    simp only [record, splitContent_append i.content hbody]
  have hcount : ∀ i : SyncItem, (i.content ++ '\n' :: trimStart line).count '\n' =
      i.content.count '\n' + 1 := fun i => by
    rw [List.count_append, List.count_cons_self, List.count_eq_zero_of_not_mem hbody]
  rw [hput]
  refine ⟨⟨?_, ?_, ?_, ?_⟩, sum_modify hcount (hp.opened o ho), map_modify hitem _ _, rfl⟩
  · intro id hid
    simp only [SyncDoc.ids] at hid
    rw [map_modify (by exact fun _ => rfl)] at hid
    exact hp.taken id hid
  · intro e he hkind
    simp only [SyncDoc.ids]
    rw [map_modify (by exact fun _ => rfl)]
    exact hp.owned e he hkind
  · intro i hi
    have hneeds := List.mem_map_of_mem (f := SyncItem.unresolvedNeeds) hi
    rw [map_modify (by exact fun _ => rfl)] at hneeds
    obtain ⟨j, hj, heq⟩ := List.mem_map.mp hneeds
    rw [← heq]
    exact hp.unparked j hj
  · intro o' ho'
    simp only [List.length_modify]
    exact hp.opened o' ho'

/-- **One line** keeps a state proper, adds a record where it declares a task, and is counted where it
is one of a body's. -/
theorem records_line (kept : Text → Bool) (hp : Proper st) {lineNo : Nat} {line : Text} (hline : '\n' ∉ line)
    (h : st.line lib lineNo line = .ok st') :
    Proper st' ∧ ∃ more, records kept st'.doc = records kept st.doc ++ more ∧
      more.length = if isTaskLine line then 1 else 0 := by
  rcases line_cases h with ⟨level, headerText, hheader, rfl⟩ | ⟨indent, status, rest, hheader, htask, hon⟩ |
    ⟨hheader, htask, rfl⟩
  · obtain ⟨hp', -, hrec⟩ := records_onHeader kept hp line level headerText
    exact ⟨hp', [], by rw [hrec, List.append_nil], by simp [isTaskLine, hheader]⟩
  · have hrest : '\n' ∉ rest := fun hmem => hline ((taskLine_eq_some htask).2 _ hmem)
    obtain ⟨hp', -, -, id, hrec⟩ := records_onTask kept hp hrest hon
    exact ⟨hp', _, hrec, by simp [isTaskLine, hheader, htask]⟩
  · have hkind : isTaskLine line = false := by simp [isTaskLine, hheader, htask]
    rw [hkind]
    cases hcont : (st.takeContinuation line).1 with
    | true =>
        obtain ⟨hp', -, hrec, -⟩ := records_body kept hp hline hcont
        exact ⟨hp', [], by rw [hrec, List.append_nil], rfl⟩
    | false =>
        obtain ⟨hp', -, hrec⟩ := records_prose kept hp hcont
        exact ⟨hp', [], by rw [hrec, List.append_nil], rfl⟩

/-- **A run of lines** adds as many records as it has task lines. -/
theorem records_lines (kept : Text → Bool) {ls : List Text} (hp : Proper st) (hls : ∀ l ∈ ls, '\n' ∉ l) {lineNo : Nat}
    (h : st.lines lib lineNo ls = .ok st') :
    Proper st' ∧ ∃ more, records kept st'.doc = records kept st.doc ++ more ∧
      more.length = ls.countP isTaskLine := by
  induction ls generalizing st lineNo with
  | nil =>
      obtain rfl := Except.ok.inj h
      exact ⟨hp, [], by simp, rfl⟩
  | cons l ls ih =>
      obtain ⟨st₁, hstep, hrest⟩ := lines_cons h
      obtain ⟨hp₁, one, hone, hlen⟩ := records_line kept hp (hls l List.mem_cons_self) hstep
      obtain ⟨hp', more, hmore, hlen'⟩ := ih hp₁ (fun m hm => hls m (List.mem_cons_of_mem _ hm)) hrest
      refine ⟨hp', one ++ more, by rw [hmore, hone, List.append_assoc], ?_⟩
      rw [List.length_append, hlen, hlen', List.countP_cons, Nat.add_comm]

/-! ## what the parked document says -/

/-- **The records are read off the parked document**, whose edges are the dependencies that are kept. -/
theorem records_parked {doc : SyncDoc} (h : ∀ i ∈ doc.items, i.unresolvedNeeds = []) :
    records (hasId doc) doc = (parked doc).items.map fun i =>
      ((i.localId, (splitContent i.content).1, i.priority, i.due, i.tags, i.mirrors),
        depsOf (parked doc) i.localId, i.unresolvedNeeds) := by
  rw [records, parked_items doc h, List.map_map]
  refine List.map_congr_left fun i _ => ?_
  simp only [record, Function.comp_apply, depsOf_parked_eq]

theorem bodyLines_parked {doc : SyncDoc} (h : ∀ i ∈ doc.items, i.unresolvedNeeds = []) :
    bodyLines (parked doc) = bodyLines doc := by
  rw [bodyLines, bodyLines, parked_items doc h, List.map_map]
  rfl

/-- Files that are read as one document have the same records and as many lines of bodies. -/
theorem records_of_parked {s : ParseState} (hp : Proper st) (hp' : Proper s)
    (h : parked s.flushText.doc = parked st.flushText.doc) :
    records (hasId st.flushText.doc) s.doc = records (hasId st.flushText.doc) st.doc ∧
      bodyLines s.doc = bodyLines st.doc := by
  have hrec : ∀ (x : ParseState), records (hasId st.flushText.doc) x.flushText.doc =
      records (hasId st.flushText.doc) x.doc := fun x => by
    rw [records, records, flushText_items, flushText_edges]
  have hbody : ∀ (x : ParseState), bodyLines x.flushText.doc = bodyLines x.doc := fun x => by
    rw [bodyLines, bodyLines, flushText_items]
  have hunset : ∀ i ∈ st.flushText.doc.items, i.unresolvedNeeds = [] := by
    rw [flushText_items]
    exact hp.unparked
  have hunset' : ∀ i ∈ s.flushText.doc.items, i.unresolvedNeeds = [] := by
    rw [flushText_items]
    exact hp'.unparked
  have hids : hasId st.flushText.doc = hasId s.flushText.doc := by
    funext id
    rw [hasId, hasId, ← parked_ids, ← parked_ids s.flushText.doc, h]
  constructor
  · rw [← hrec s, ← hrec st, records_parked hunset, hids, records_parked hunset', h]
  · rw [← hbody s, ← hbody st, ← bodyLines_parked hunset, ← bodyLines_parked hunset', h]

end Jkb.Sync.Tasks
