import Jkb.Sync.Tasks.Blocks

/-!
# Jkb.Sync.Tasks.Written

What rows put in, one after another, is a document of blocks, and it renders as the rows.
-/

namespace Jkb.Sync.Tasks

open Jkb.Text Jkb.Dsl

/-- A row that rendering can write: it is one line, and a task's dependencies that are kept come
before those that are not. -/
structure Row.Writable (kept : Text → Bool) (row : Row) : Prop where
  oneLine : '\n' ∉ row.text
  ordered : ∀ depth status parsed id, row = .task depth status parsed id →
    parsed.deps.filter kept ++ parsed.deps.filter (fun d => !kept d) = parsed.deps

/-! ## a task and its body -/

theorem splitContent_title {title : Text} (h : '\n' ∉ title) : splitContent title = (title, []) := by
  rw [splitContent, splitOnce_eq_none h]

/-- A line put after a task's content is one more line of its body. -/
theorem splitContent_append (content : Text) {line : Text} (h : '\n' ∉ line) :
    splitContent (content ++ '\n' :: line) =
      ((splitContent content).1, (splitContent content).2 ++ [line]) := by
  by_cases hc : '\n' ∈ content
  · obtain ⟨title, body, rfl, htitle⟩ := List.eq_append_cons_of_mem hc
    have hassoc : title ++ '\n' :: body ++ '\n' :: line = title ++ '\n' :: (body ++ '\n' :: line) := by
      simp
    simp only [hassoc, splitContent, splitOnce_append htitle, List.splitOn_append_cons_self,
      List.splitOn_eq_singleton h]
  · rw [splitContent_title hc, splitContent, splitOnce_append hc]
    simp [List.splitOn_eq_singleton h]

/-- A line of its body is one more line of a task. -/
theorem renderTask_append (item : SyncItem) (depth : Nat) (deps : List Text) {line : Text}
    (h : '\n' ∉ line) :
    renderTask { item with content := item.content ++ '\n' :: line } depth deps =
      renderTask item depth deps ++ [renderBodyLine depth line] := by
  simp [renderTask, splitContent_append item.content h]

theorem title_of_oneLine {depth : Nat} {status : String} {parsed : TaskTokens} {id : Text}
    (h : '\n' ∉ (Row.task depth status parsed id).text) : '\n' ∉ parsed.title := by
  intro hmem
  refine h ?_
  simp [Row.text, renderTaskLine, lineText, joinWords, List.intercalate_cons_of_ne_nil, hmem]

/-- The lines of an item as a task line declares it are that line. -/
theorem renderTask_newItem (st : ParseState) {depth : Nat} {status : String} {parsed : TaskTokens}
    {id : Text} (parent : Option Text) (h : '\n' ∉ parsed.title) :
    renderTask (st.newItem id status parsed parent) depth parsed.deps =
      [(Row.task depth status parsed id).text] := by
  simp [renderTask, ParseState.newItem, splitContent_title h, Row.text, TaskTokens.words,
    TaskTokens.modifiers]

/-- A task's content takes no part in how blocks fit together. -/
theorem Coherent.content {kept : Text → Bool} {es : List Entry} {d : Nat} {i : SyncItem}
    {deps : List Text} (h : Coherent kept (es ++ [.task d i deps])) (content : Text) :
    Coherent kept (es ++ [.task d { i with content } deps]) := by
  have hids : (docOf (es ++ [.task d { i with content } deps])).ids =
      (docOf (es ++ [.task d i deps])).ids := by
    simp only [SyncDoc.ids, docOf_append, List.map_append]
    rfl
  have hsections : (docOf (es ++ [.task d { i with content } deps])).sections =
      (docOf (es ++ [.task d i deps])).sections := by
    rw [docOf_append, docOf_append]
    rfl
  have hedges : (docOf (es ++ [.task d { i with content } deps])).edges =
      (docOf (es ++ [.task d i deps])).edges := by
    rw [docOf_append, docOf_append]
    rfl
  -- a task of the one is a task of the other, but for its content
  have hback : ∀ d' i' deps', .task d' i' deps' ∈ es ++ [.task d { i with content } deps] →
      ∃ c, .task d' { i' with content := c } deps' ∈ es ++ [.task d i deps] := by
    intro d' i' deps' hmem
    rcases List.mem_append.mp hmem with hmem | hmem
    · exact ⟨i'.content, List.mem_append_left _ hmem⟩
    · obtain ⟨rfl, rfl, rfl⟩ : d' = d ∧ i' = { i with content } ∧ deps' = deps := by
        simpa using hmem
      exact ⟨i.content, by simp⟩
  have hforth : ∀ d' i' deps', .task d' i' deps' ∈ es ++ [.task d i deps] →
      ∃ c, .task d' { i' with content := c } deps' ∈ es ++ [.task d { i with content } deps] := by
    intro d' i' deps' hmem
    rcases List.mem_append.mp hmem with hmem | hmem
    · exact ⟨i'.content, List.mem_append_left _ hmem⟩
    · obtain ⟨rfl, rfl, rfl⟩ : d' = d ∧ i' = i ∧ deps' = deps := by
        simpa using hmem
      exact ⟨content, by simp⟩
  refine ⟨hids ▸ h.ids, hsections ▸ h.paths, ?_, ?_, ?_, ?_, ?_⟩
  · intro run hrun
    exact h.prose run (by simpa using hrun)
  · intro d' i' deps' hmem
    obtain ⟨c, hc⟩ := hback d' i' deps' hmem
    have htask := h.task _ _ _ hc
    exact htask
  · intro d' i' deps' hmem hp
    obtain ⟨c, hc⟩ := hback d' i' deps' hmem
    exact h.top _ _ _ hc hp
  · intro d' i' deps' p hmem hp
    obtain ⟨c, hc⟩ := hback d' i' deps' hmem
    obtain ⟨d₁, i₁, deps₁, h₁, hid, hd⟩ := h.nested _ _ _ p hc hp
    obtain ⟨c₁, hc₁⟩ := hforth d₁ i₁ deps₁ h₁
    exact ⟨d₁, _, deps₁, hc₁, hid, hd⟩
  · intro d' i' deps' hmem
    obtain ⟨c, hc⟩ := hback d' i' deps' hmem
    rw [hedges]
    exact h.shallow _ _ _ hc

theorem nodup_append_toList {α : Type*} {xs : List α} {x : Option α} (h : xs.Nodup)
    (hx : ∀ a, x = some a → a ∉ xs) : (xs ++ x.toList).Nodup := by
  cases x with
  | none => simpa using h
  | some a =>
      rw [Option.toList_some, List.nodup_append_comm, List.singleton_append, List.nodup_cons]
      exact ⟨hx a rfl, h⟩

/-- One more block fits where its name is free and, for a task, where it is one level below its parent. -/
theorem Coherent.concat {kept : Text → Bool} {es : List Entry} (h : Coherent kept es) {e : Entry}
    (hid : ∀ i, e.item = some i → i.localId ∉ (docOf es).ids)
    (hpath : ∀ s, e.sect = some s → s.path ∉ (docOf es).sections.map (·.path))
    (hprose : ∀ run, e = .prose run → run ≠ [])
    (htask : ∀ d i deps, e = .task d i deps → i.kind = "task" ∧ i.unresolvedNeeds = [] ∧
      deps.filter kept ++ deps.filter (fun d => !kept d) = deps)
    (htop : ∀ d i deps, e = .task d i deps → i.parent = none → d = 0)
    (hnested : ∀ d i deps p, e = .task d i deps → i.parent = some p →
      ∃ d' i' deps', .task d' i' deps' ∈ es ∧ i'.localId = p ∧ d = d' + 1) :
    Coherent kept (es ++ [e]) := by
  have hmem : ∀ e', e' ∈ es ++ [e] ↔ e' ∈ es ∨ e' = e := by simp
  refine ⟨?_, ?_, ?_, ?_, ?_, ?_, ?_⟩
  · have hitems : (docOf (es ++ [e])).ids = (docOf es).ids ++ (e.item.map (·.localId)).toList := by
      cases e <;> simp [SyncDoc.ids, docOf, Entry.item]
    rw [hitems]
    refine nodup_append_toList h.ids fun id hid' => ?_
    obtain ⟨i, hi, rfl⟩ := Option.map_eq_some_iff.mp hid'
    exact hid i hi
  · have hsects : (docOf (es ++ [e])).sections.map (·.path) =
        (docOf es).sections.map (·.path) ++ (e.sect.map (·.path)).toList := by
      cases e <;> simp [docOf, Entry.sect]
    rw [hsects]
    refine nodup_append_toList h.paths fun path hpath' => ?_
    obtain ⟨s, hs, rfl⟩ := Option.map_eq_some_iff.mp hpath'
    exact hpath s hs
  · intro run hrun
    rcases (hmem _).mp hrun with hrun | hrun
    · exact h.prose run hrun
    · exact hprose run hrun.symm
  · intro d i deps ht
    rcases (hmem _).mp ht with ht | ht
    · exact h.task d i deps ht
    · exact htask d i deps ht.symm
  · intro d i deps ht hp
    rcases (hmem _).mp ht with ht | ht
    · exact h.top d i deps ht hp
    · exact htop d i deps ht.symm hp
  · intro d i deps p ht hp
    rcases (hmem _).mp ht with ht | ht
    · obtain ⟨d', i', deps', hmem', hid', hd⟩ := h.nested d i deps p ht hp
      exact ⟨d', i', deps', List.mem_append_left _ hmem', hid', hd⟩
    · obtain ⟨d', i', deps', hmem', hid', hd⟩ := hnested d i deps p ht.symm hp
      exact ⟨d', i', deps', List.mem_append_left _ hmem', hid', hd⟩
  · intro d i deps ht
    have hcount : (docOf (es ++ [e])).edges.countP (·.edgeType = .parentOf) =
        (docOf es).edges.countP (·.edgeType = .parentOf) +
          e.edges.countP (·.edgeType = .parentOf) := by
      rw [docOf_append, List.countP_append]
      simp [docOf]
    rw [hcount]
    rcases (hmem _).mp ht with ht | rfl
    · have hle := h.shallow d i deps ht
      omega
    · cases hp : i.parent with
      | none =>
          have hd := htop d i deps rfl hp
          omega
      | some p =>
          obtain ⟨d', i', deps', hmem', -, hd⟩ := hnested d i deps p rfl hp
          have hle := h.shallow d' i' deps' hmem'
          have hone : 1 ≤ (Entry.task d i deps).edges.countP (·.edgeType = .parentOf) := by
            simp [Entry.edges, hp]
          omega

/-! ## what a state shows -/

/-- A state shows blocks, where rows have been put in: its document is theirs, and with the prose read
so far they are the rows. The tasks that are open are the blocks' own. -/
structure Shows (kept : Text → Bool) (st : ParseState) (rows : List Row) (es : List Entry) : Prop where
  doc : st.doc = docOf es
  text : rows.map Row.text = es.flatMap Entry.lines ++ st.textRun
  coherent : Coherent kept es
  ids : ∀ id ∈ (docOf es).ids, id ∈ st.usedIds.names
  paths : ∀ s ∈ (docOf es).sections, s.path ∈ st.usedSections.names
  stack : ∀ above indent id below, st.taskStack = above ++ (indent, id) :: below →
    ∃ i deps, .task below.length i deps ∈ es ∧ i.localId = id
  opened : ∀ o, st.openTask = some o → st.textRun = [] ∧ ∃ es' d i deps,
    es = es' ++ [.task d i deps] ∧ o.1 = (docOf es').items.length ∧ d + 1 = st.taskStack.length

theorem shows_init (kept : Text → Bool) : Shows kept {} [] [] := by
  refine ⟨rfl, rfl, ?_, ?_, ?_, ?_, ?_⟩
  · constructor <;> simp [docOf, SyncDoc.ids]
  · simp [docOf, SyncDoc.ids]
  · simp [docOf]
  · intro above indent id below h
    simp at h
  · intro o ho
    cases ho

variable {kept : Text → Bool} {st : ParseState} {rows : List Row} {es : List Entry}

/-- Emitting the prose read so far makes it a block. -/
theorem Shows.flush (h : Shows kept st rows es) :
    ∃ es', Shows kept st.flushText rows es' ∧ st.flushText.textRun = [] := by
  by_cases hrun : st.textRun = []
  · have hsame : st.flushText = st := by rw [ParseState.flushText, if_pos hrun]
    exact ⟨es, hsame.symm ▸ h, hsame.symm ▸ hrun⟩
  · have hflush : st.flushText = { st with
        textRun := []
        doc := { st.doc with layout := st.doc.layout ++ [.prose (['\n'].intercalate st.textRun)] } } := by
      rw [ParseState.flushText, if_neg hrun]
    have hdoc : docOf (es ++ [.prose st.textRun]) = { docOf es with
        layout := (docOf es).layout ++ [.prose (['\n'].intercalate st.textRun)] } := by
      simp [docOf, Entry.block, Entry.edges, Entry.item, Entry.sect]
    refine ⟨es ++ [.prose st.textRun], ⟨?_, ?_, ?_, ?_, ?_, ?_, ?_⟩, by rw [hflush]⟩
    · rw [hflush, hdoc, h.doc]
    · rw [hflush, h.text]
      simp [Entry.lines]
    · refine h.coherent.concat ?_ ?_ ?_ ?_ ?_ ?_ <;> simp [Entry.item, Entry.sect, hrun]
    · rw [hflush, hdoc]
      exact h.ids
    · rw [hflush, hdoc]
      exact h.paths
    · intro above indent id below hstack
      rw [hflush] at hstack
      obtain ⟨i, deps, hmem, hid⟩ := h.stack above indent id below hstack
      exact ⟨i, deps, List.mem_append_left _ hmem, hid⟩
    · intro o ho
      rw [hflush] at ho
      exact absurd (h.opened o ho).1 hrun

variable (lib : Lib)

/-- What a header does, once the prose before it is emitted: it opens a section under a free path. -/
theorem onHeader_eq (st : ParseState) (line : Text) (level : Nat) (headerText : Text) :
    ∃ path used secStack, st.onHeader lib line level headerText = { st.flushText with
        openTask := none
        taskStack := []
        usedSections := used
        secStack
        currentSection := some path
        doc := { st.flushText.doc with
          layout := st.flushText.doc.layout ++ [.section path]
          sections := st.flushText.doc.sections ++ [{ path, headerLine := line }] } } ∧
      path ∉ st.flushText.usedSections.names ∧
        used.names = path :: st.flushText.usedSections.names := by
  refine ⟨_, _, _, rfl, ?_, ?_⟩
  · exact (st.flushText.usedSections.unique_spec _).1
  · exact (st.flushText.usedSections.unique_spec _).2

theorem Shows.header (h : Shows kept st rows es) (line : Text) (level : Nat) (headerText : Text) :
    ∃ es', Shows kept (st.put lib (.header line level headerText))
      (rows ++ [.header line level headerText]) es' := by
  obtain ⟨fs, hf, hnil⟩ := h.flush
  obtain ⟨path, used, secStack, hput, hfree, hnames⟩ := onHeader_eq lib st line level headerText
  have hdoc : docOf (fs ++ [.header path line]) = { docOf fs with
      layout := (docOf fs).layout ++ [.section path]
      sections := (docOf fs).sections ++ [{ path, headerLine := line }] } := by
    simp [docOf, Entry.block, Entry.edges, Entry.item, Entry.sect]
  rw [ParseState.put, hput]
  refine ⟨fs ++ [.header path line], ⟨?_, ?_, ?_, ?_, ?_, ?_, ?_⟩⟩
  · rw [hdoc, hf.doc]
  · rw [List.map_append, hf.text, hnil]
    simp [Entry.lines, Row.text]
  · have hpath : path ∉ (docOf fs).sections.map (·.path) := by
      intro hmem
      obtain ⟨s, hs, rfl⟩ := List.mem_map.mp hmem
      exact hfree (hf.paths s hs)
    refine hf.coherent.concat (by simp [Entry.item]) (fun s hs => ?_) (by simp) (by simp) (by simp)
      (by simp)
    obtain rfl := Option.some.inj hs
    exact hpath
  · rw [hdoc]
    exact hf.ids
  · rw [hdoc, hnames]
    intro s hs
    rcases List.mem_append.mp hs with hs | hs
    · exact List.mem_cons_of_mem _ (hf.paths s hs)
    · rw [List.mem_singleton.mp hs]
      exact List.mem_cons_self
  · intro above indent id below hstack
    simp at hstack
  · intro o ho
    cases ho

theorem Shows.task (h : Shows kept st rows es) {depth : Nat} {status : String} {parsed : TaskTokens}
    {id : Text} (hplaced : (Row.task depth status parsed id).Placed st)
    (hwrite : (Row.task depth status parsed id).Writable kept) :
    ∃ es', Shows kept (st.put lib (.task depth status parsed id))
      (rows ++ [.task depth status parsed id]) es' := by
  obtain ⟨fs, hf, hnil⟩ := h.flush
  obtain ⟨-, hid, hdepth⟩ := hplaced
  have htitle := title_of_oneLine hwrite.oneLine
  rw [← flushText_taskStack] at hdepth
  rw [← flushText_usedIds] at hid
  let stack := st.flushText.taskStack.drop (st.flushText.taskStack.length - depth)
  have hlen : stack.length = depth := by
    rw [List.length_drop]
    omega
  have hput : st.put lib (.task depth status parsed id) =
      st.flushText.addTask (spaces depth) status parsed id (st.flushText.usedIds.add id) stack := by
    simp [ParseState.put, stack]
  have hdoc : docOf (fs ++ [.task depth
      (st.flushText.newItem id status parsed (stack.head?.map (·.2))) parsed.deps]) =
      { docOf fs with
        items := (docOf fs).items ++ [st.flushText.newItem id status parsed (stack.head?.map (·.2))]
        edges := (docOf fs).edges ++ ParseState.newEdges id parsed (stack.head?.map (·.2))
        layout := (docOf fs).layout ++ [.item id] } := by
    simp [docOf, Entry.block, Entry.edges, Entry.item, Entry.sect, ParseState.newEdges,
      ParseState.newItem]
  rw [hput, ParseState.addTask]
  refine ⟨_, ⟨by rw [hdoc, hf.doc], ?_, ?_, ?_, ?_, ?_, ?_⟩⟩
  · rw [List.map_append, hf.text, hnil]
    simp [Entry.lines, renderTask_newItem _ _ htitle]
  · refine hf.coherent.concat (fun i hi => ?_) (by simp [Entry.sect]) (by simp) ?_ ?_ ?_
    · obtain rfl := Option.some.inj hi
      exact fun hmem => hid (hf.ids _ hmem)
    · intro d i deps heq
      obtain ⟨rfl, rfl, rfl⟩ := Entry.task.inj heq
      exact ⟨rfl, rfl, hwrite.ordered _ _ _ _ rfl⟩
    · intro d i deps heq hp
      obtain ⟨rfl, rfl, rfl⟩ := Entry.task.inj heq
      have hnone : stack = [] := by simpa [ParseState.newItem] using hp
      rw [← hlen, hnone, List.length_nil]
    · intro d i deps p heq hp
      obtain ⟨rfl, rfl, rfl⟩ := Entry.task.inj heq
      obtain ⟨⟨indent, q⟩, hhead, rfl⟩ := Option.map_eq_some_iff.mp hp
      obtain ⟨below, hbelow⟩ := List.head?_eq_some_iff.mp hhead
      have hsplit : st.flushText.taskStack =
          st.flushText.taskStack.take (st.flushText.taskStack.length - depth) ++
            (indent, q) :: below := by
        rw [← hbelow, List.take_append_drop]
      obtain ⟨i', deps', hmem, hid'⟩ := hf.stack _ _ _ _ hsplit
      exact ⟨_, i', deps', hmem, hid', by rw [← hlen, hbelow, List.length_cons]⟩
  · rw [hdoc]
    intro x hx
    rw [SyncDoc.ids, List.map_append, List.mem_append] at hx
    rcases hx with hx | hx
    · exact List.mem_cons_of_mem _ (hf.ids x hx)
    · rw [List.mem_singleton.mp hx]
      exact List.mem_cons_self
  · rw [hdoc]
    exact hf.paths
  · intro above indent x below hstack
    cases above with
    | nil =>
        obtain ⟨⟨-, rfl⟩, rfl⟩ := by simpa using hstack
        rw [hlen]
        exact ⟨_, parsed.deps, List.mem_append_right _ (List.mem_singleton_self _), rfl⟩
    | cons a above =>
        have hrest : stack = above ++ (indent, x) :: below := (List.cons.inj hstack).2
        have hsplit : st.flushText.taskStack =
            (st.flushText.taskStack.take (st.flushText.taskStack.length - depth) ++ above) ++
              (indent, x) :: below := by
          rw [List.append_assoc, ← hrest, List.take_append_drop]
        obtain ⟨i, deps, hmem, hid'⟩ := hf.stack _ _ _ _ hsplit
        exact ⟨i, deps, List.mem_append_left _ hmem, hid'⟩
  · intro o ho
    obtain rfl := Option.some.inj ho
    exact ⟨hnil, fs, _, _, _, rfl, by rw [hf.doc], by simp [hlen]⟩

theorem modify_concat {α : Type*} (xs : List α) (x : α) (f : α → α) :
    (xs ++ [x]).modify xs.length f = xs ++ [f x] := by
  induction xs with
  | nil => rfl
  | cons y xs ih => rw [List.cons_append, List.length_cons, List.modify_succ_cons, ih, List.cons_append]

theorem Shows.body (h : Shows kept st rows es) {depth : Nat} {line : Text}
    (hplaced : (Row.body depth line).Placed st) (hwrite : (Row.body depth line).Writable kept) :
    ∃ es', Shows kept (st.put lib (.body depth line)) (rows ++ [.body depth line]) es' := by
  obtain ⟨hopen, hdepth, -, -⟩ := hplaced
  obtain ⟨o, ho⟩ := Option.isSome_iff_exists.mp hopen
  obtain ⟨hnil, fs, d, i, deps, rfl, hindex, hd⟩ := h.opened o ho
  obtain rfl : d = depth := by omega
  have hline : '\n' ∉ line := by
    intro hmem
    exact hwrite.oneLine (by simp [Row.text, renderBodyLine, hmem])
  have hdoc : docOf (fs ++ [.task d { i with content := i.content ++ '\n' :: line } deps]) =
      { docOf (fs ++ [.task d i deps]) with
        items := (docOf fs).items ++ [{ i with content := i.content ++ '\n' :: line }] } := by
    rw [docOf_append, docOf_append]
    rfl
  have hitems : (docOf (fs ++ [.task d i deps])).items = (docOf fs).items ++ [i] := by
    simp [docOf, Entry.item]
  have hids : (docOf (fs ++ [.task d { i with content := i.content ++ '\n' :: line } deps])).ids =
      (docOf (fs ++ [.task d i deps])).ids := by
    rw [SyncDoc.ids, SyncDoc.ids, hdoc, hitems]
    simp
  refine ⟨fs ++ [.task d { i with content := i.content ++ '\n' :: line } deps],
    ⟨?_, ?_, h.coherent.content _, ?_, ?_, ?_, ?_⟩⟩
  · rw [hdoc, ParseState.put]
    simp only [ho, h.doc, hitems, hindex, modify_concat]
  · have htext := h.text
    rw [hnil, List.append_nil, List.flatMap_append] at htext
    have hnil' : (st.put lib (.body d line)).textRun = [] := hnil
    rw [List.map_append, htext, hnil', List.flatMap_append]
    simp [Entry.lines, renderTask_append i d deps hline, Row.text]
  · rw [hids]
    exact h.ids
  · rw [hdoc]
    exact h.paths
  · intro above indent id below hstack
    obtain ⟨j, deps', hmem, hid⟩ := h.stack above indent id below hstack
    rcases List.mem_append.mp hmem with hmem | hmem
    · exact ⟨j, deps', List.mem_append_left _ hmem, hid⟩
    · obtain ⟨hd', rfl, rfl⟩ := Entry.task.inj (List.mem_singleton.mp hmem)
      exact ⟨{ j with content := j.content ++ '\n' :: line }, deps',
        List.mem_append_right _ (by rw [hd']; exact List.mem_cons_self), hid⟩
  · intro o' ho'
    obtain rfl : o = o' := Option.some.inj (ho.symm.trans ho')
    exact ⟨hnil, fs, d, _, deps, rfl, hindex, hd⟩

theorem Shows.prose (h : Shows kept st rows es) (line : Text) :
    ∃ es', Shows kept (st.put lib (.prose line)) (rows ++ [.prose line]) es' := by
  refine ⟨es, ⟨h.doc, ?_, h.coherent, h.ids, h.paths, h.stack, fun o ho => by cases ho⟩⟩
  rw [List.map_append, h.text, List.append_assoc]
  rfl

/-- **Each row becomes part of a block, and of the text.** -/
theorem Shows.put (h : Shows kept st rows es) {row : Row} (hplaced : row.Placed st)
    (hwrite : row.Writable kept) : ∃ es', Shows kept (st.put lib row) (rows ++ [row]) es' := by
  cases row with
  | header line level headerText => exact h.header lib line level headerText
  | task depth status parsed id => exact h.task lib hplaced hwrite
  | body depth line => exact h.body lib hplaced hwrite
  | prose line => exact h.prose lib line

end Jkb.Sync.Tasks
