import Jkb.Sync.Tasks.Ids
import Jkb.Sync.Tasks.Settles
import Jkb.Sync.Tasks.Written

/-!
# Jkb.Sync.Tasks.Sim

Each line of a file is written as one row. `Sim.lines` says that the parser reading a file is in step
with the rows put in, up to the indentation of the tasks that are open and the order of a task's
dependencies; so the document of any file renders as the file's rows.
-/

namespace Jkb.Sync.Tasks

open Jkb.Text Jkb.Dsl

variable (lib : Lib)

/-! ## the row of a line -/

/-- What a line is written as, read in a state. -/
def rowOf (kept : Text → Bool) (st : ParseState) (line : Text) : Row :=
  match header line with
  | some (level, headerText) => .header line level headerText
  | none =>
      match taskLine line with
      | some (indent, status, rest) =>
          let depth :=
            match ParseState.popTasks indent st.taskStack with
            | .ok stack => stack.length
            | .error _ => 0
          let id :=
            match ParseState.takeId lib st.usedIds (parseTaskTokens lib rest) with
            | .ok (id, _) => id
            | .error _ => []
          .task depth status ((parseTaskTokens lib rest).keptFirst kept) id
      | none =>
          if (st.takeContinuation line).1 then .body (st.taskStack.length - 1) (trimStart line)
          else .prose line

/-- What the lines of a file are written as. -/
def rowsOf (kept : Text → Bool) : ParseState → Nat → List Text → List Row
  | _, _, [] => []
  | st, lineNo, l :: ls =>
      rowOf lib kept st l ::
        match st.line lib lineNo l with
        | .ok st => rowsOf kept st (lineNo + 1) ls
        | .error _ => []

/-! ## two states in step -/

/-- Whether an edge stays one, by the ids that are kept. -/
def keeps (kept : Text → Bool) (e : SyncEdge) : Bool := e.edgeType ≠ .dependsOn || kept e.dst

/-- Two states in step, one of a file and one of what is written of it: they differ in the tasks'
indentation, which is canonical in the second, and in the order of a task's dependencies. -/
structure Sim (kept : Text → Bool) (st c : ParseState) : Prop where
  sections : c.doc.sections = st.doc.sections
  items : c.doc.items = st.doc.items
  layout : c.doc.layout = st.doc.layout
  keptEdges : c.doc.edges.filter (keeps kept) = st.doc.edges.filter (keeps kept)
  parkedEdges : c.doc.edges.filter (fun e => !keeps kept e) = st.doc.edges.filter fun e => !keeps kept e
  names : c.usedIds.names = st.usedIds.names
  usedSections : c.usedSections = st.usedSections
  secStack : c.secStack = st.secStack
  currentSection : c.currentSection = st.currentSection
  textRun : c.textRun = st.textRun
  stack : c.taskStack = restack (st.taskStack.map (·.2))
  opened : c.openTask = st.openTask.map fun o => (o.1, spaces (st.taskStack.length - 1))
  enclosed : st.openTask.isSome → st.taskStack ≠ []

/-- The two parsers start side by side. -/
theorem sim_init (kept : Text → Bool) : Sim kept {} {} := by
  constructor <;> simp [restack]

variable {lib} {kept : Text → Bool} {st st' c : ParseState}

/-- The two parsers stay side by side when a run of text ends. -/
theorem Sim.flush (h : Sim kept st c) : Sim kept st.flushText c.flushText := by
  by_cases hrun : st.textRun = []
  · have hrun' : c.textRun = [] := h.textRun.trans hrun
    rwa [ParseState.flushText, ParseState.flushText, if_pos hrun, if_pos hrun']
  · have hrun' : c.textRun ≠ [] := h.textRun ▸ hrun
    rw [ParseState.flushText, ParseState.flushText, if_neg hrun, if_neg hrun']
    exact { h with
      layout := by simp only [h.layout, h.textRun]
      textRun := rfl }

/-- So they do at a header. -/
theorem Sim.header (h : Sim kept st c) (line : Text) (level : Nat) (headerText : Text) :
    Sim kept (st.onHeader lib line level headerText) (c.onHeader lib line level headerText) := by
  have hf := h.flush
  simp only [ParseState.onHeader, hf.secStack, hf.usedSections]
  exact { hf with
    sections := by simp only [hf.sections]
    layout := by simp only [hf.layout]
    usedSections := rfl
    secStack := rfl
    currentSection := rfl
    stack := rfl
    opened := rfl
    enclosed := fun ho => by cases ho }

/-! ## a task line -/

/-- A run of text that ends is no item. -/
theorem flushText_items (st : ParseState) : st.flushText.doc.items = st.doc.items := by
  unfold ParseState.flushText
  split <;> rfl

/-- The stack that is left is a part of the stack. -/
theorem popTasks_suffix {indent : Text} {stack rest : List (Text × Text)}
    (h : ParseState.popTasks indent stack = .ok rest) : rest <:+ stack := by
  induction stack with
  | nil =>
      obtain rfl := Except.ok.inj h
      exact List.suffix_refl []
  | cons opened stack ih =>
      obtain ⟨openedIndent, id⟩ := opened
      rw [ParseState.popTasks] at h
      split at h
      · obtain rfl := Except.ok.inj h
        exact List.suffix_refl _
      · split at h
        · cases h
        · exact (ih h).trans (List.suffix_cons _ _)

/-- **What a task line that is accepted does**: it takes a free id and goes under the tasks whose
indentation its own extends. -/
theorem onTask_eq_ok {lineNo : Nat} {indent rest : Text} {status : String}
    (h : st.onTask lib lineNo indent status rest = .ok st') :
    ∃ id used stack, ParseState.takeId lib st.usedIds (parseTaskTokens lib rest) = .ok (id, used) ∧
      ParseState.popTasks indent st.taskStack = .ok stack ∧
      st' = st.flushText.addTask indent status (parseTaskTokens lib rest) id used stack := by
  unfold ParseState.onTask at h
  simp only [flushText_usedIds, flushText_taskStack] at h
  cases htake : ParseState.takeId lib st.usedIds (parseTaskTokens lib rest) with
  | error e =>
      rw [htake] at h
      cases h
  | ok p =>
      cases henc : ParseState.enclosing lineNo indent st.taskStack with
      | error e =>
          simp only [htake, henc] at h
          cases h
      | ok stack =>
          simp only [htake, henc] at h
          refine ⟨p.1, p.2, stack, rfl, ?_, (Except.ok.inj h).symm⟩
          unfold ParseState.enclosing at henc
          cases hpop : ParseState.popTasks indent st.taskStack with
          | error opened =>
              rw [hpop] at henc
              cases henc
          | ok stack' =>
              rw [hpop] at henc
              obtain rfl := Except.ok.inj henc
              rfl

/-- The edges of a task that are kept, read from either side. -/
theorem filter_newEdges (id : Text) (parsed : TaskTokens) (parent : Option Text)
    (p : SyncEdge → Bool) (hp : (parsed.keptFirst kept).deps.filter (fun d => p ⟨id, d, .dependsOn⟩) =
      parsed.deps.filter fun d => p ⟨id, d, .dependsOn⟩) :
    (ParseState.newEdges id (parsed.keptFirst kept) parent).filter p =
      (ParseState.newEdges id parsed parent).filter p := by
  simp only [ParseState.newEdges, List.filter_append, List.filter_map, Function.comp_def, hp]

/-- So they do at a task. -/
theorem Sim.task (h : Sim kept st c) {indent : Text} {status : String} {parsed : TaskTokens}
    {id : Text} {used : Taken} {stack : List (Text × Text)} (hused : used.names = id :: st.usedIds.names)
    (hstack : stack <:+ st.taskStack) :
    Sim kept (st.flushText.addTask indent status parsed id used stack)
      (c.put lib (.task stack.length status (parsed.keptFirst kept) id)) := by
  have hf := h.flush
  have hdrop : c.taskStack.drop (c.taskStack.length - stack.length) = restack (stack.map (·.2)) := by
    have hlen : c.taskStack.length = st.taskStack.length := by
      rw [h.stack, length_restack, List.length_map]
    rw [hlen, h.stack, drop_restack, ← List.map_drop, ← List.suffix_iff_eq_drop.mp hstack]
  have hparent : (restack (stack.map (·.2))).head?.map (·.2) = stack.head?.map (·.2) := by
    rw [head?_restack, List.head?_map]
  have hitem : c.flushText.newItem id status (parsed.keptFirst kept) (stack.head?.map (·.2)) =
      st.flushText.newItem id status parsed (stack.head?.map (·.2)) := by
    simp only [ParseState.newItem, hf.layout, hf.currentSection, TaskTokens.keptFirst]
  have hkept := @filter_newEdges kept id parsed (stack.head?.map (·.2)) (keeps kept) (by
    simp [TaskTokens.keptFirst, keeps, List.filter_filter])
  have hparked := @filter_newEdges kept id parsed (stack.head?.map (·.2)) (fun e => !keeps kept e) (by
    simp [TaskTokens.keptFirst, keeps, List.filter_filter])
  simp only [ParseState.put, ParseState.addTask, hdrop, hparent, hitem]
  exact { hf with
    items := by simp only [hf.items]
    layout := by simp only [hf.layout]
    keptEdges := by simp only [List.filter_append, hf.keptEdges, hkept]
    parkedEdges := by simp only [List.filter_append, hf.parkedEdges, hparked]
    names := by simp only [Taken.add, h.names, hused]
    stack := by simp [restack]
    opened := by simp [hf.items]
    enclosed := fun _ => List.cons_ne_nil _ _ }

/-! ## a line of text -/

/-- A change that a reading does not see changes no reading. -/
theorem map_modify {α β : Type*} {g : α → β} {f : α → α} (h : ∀ a, g (f a) = g a) (xs : List α)
    (i : Nat) : (xs.modify i f).map g = xs.map g := by
  induction xs generalizing i with
  | nil => simp
  | cons x xs ih =>
      cases i with
      | zero => simp [h]
      | succ i => simp [ih]

/-- A line that continues no task ends it. -/
theorem onText_prose {line : Text} (h : (st.takeContinuation line).1 = false) :
    st.onText line = { st with openTask := none, textRun := st.textRun ++ [line] } := by
  unfold ParseState.onText
  unfold ParseState.takeContinuation at h ⊢
  cases hopen : st.openTask with
  | none => simp
  | some o =>
      simp only [hopen] at h
      split at h
      · rename_i hends
        simp only [hends, if_true]
      · cases h

/-- A line that continues a task is added to its content. -/
theorem onText_body {line : Text} (h : (st.takeContinuation line).1 = true) :
    ∃ o, st.openTask = some o ∧ endsTaskBody line = false ∧
      st.onText line = { st with
        doc := { st.doc with
          items := st.doc.items.modify o.1 fun item =>
            { item with content := item.content ++ '\n' :: trimStart line } } } := by
  unfold ParseState.onText
  unfold ParseState.takeContinuation at h ⊢
  cases hopen : st.openTask with
  | none =>
      rw [hopen] at h
      cases h
  | some o =>
      simp only [hopen] at h
      split at h
      · cases h
      · rename_i hends
        refine ⟨o, rfl, ?_, ?_⟩
        · cases hblank : endsTaskBody line with
          | false => rfl
          | true => exact absurd (by simp [hblank]) hends
        · simp only [if_neg hends]

/-- So they do at a line of text. -/
theorem Sim.prose (h : Sim kept st c) (line : Text) :
    Sim kept { st with openTask := none, textRun := st.textRun ++ [line] } (c.put lib (.prose line)) :=
  { h with
    textRun := by simp only [ParseState.put, h.textRun]
    opened := rfl
    enclosed := fun ho => by cases ho }

/-- So they do at a line of a body. -/
theorem Sim.body (h : Sim kept st c) {o : Nat × Text} (ho : st.openTask = some o) (depth : Nat)
    (line : Text) :
    Sim kept { st with
      doc := { st.doc with
        items := st.doc.items.modify o.1 fun item =>
          { item with content := item.content ++ '\n' :: line } } }
      (c.put lib (.body depth line)) := by
  have hopen := h.opened
  rw [ho] at hopen
  exact { h with items := by simp only [ParseState.put, hopen, Option.map_some, h.items] }

/-- **A line that is neither a header nor a task line** is written as prose, or as a line of a body. -/
theorem Sim.text (h : Sim kept st c) {line : Text} (hheader : Tasks.header line = none)
    (htask : taskLine line = none) (hline : '\n' ∉ line) :
    (rowOf lib kept st line).Placed c ∧ (rowOf lib kept st line).Writable kept ∧
      Sim kept (st.onText line) (c.put lib (rowOf lib kept st line)) := by
  simp only [rowOf, hheader, htask]
  cases hcont : (st.takeContinuation line).1 with
  | false =>
      rw [if_neg Bool.false_ne_true, onText_prose hcont]
      exact ⟨⟨hheader, htask⟩, ⟨hline, by simp⟩, h.prose line⟩
  | true =>
      rw [if_pos rfl]
      obtain ⟨o, ho, hblank, hput⟩ := onText_body hcont
      have hne : trimStart line ≠ [] := by
        intro hnil
        rw [endsTaskBody, trim, hnil] at hblank
        cases hblank
      have hlen : c.taskStack.length = st.taskStack.length := by
        rw [h.stack, length_restack, List.length_map]
      have hpos := List.length_pos_iff.mpr (h.enclosed (by rw [ho]; rfl))
      refine ⟨⟨?_, ?_, hne, trimStart_trimStart line⟩, ⟨?_, by simp⟩, ?_⟩
      · rw [h.opened, ho]
        rfl
      · omega
      · intro hmem
        rw [Row.text, renderBodyLine_eq, List.mem_append] at hmem
        rcases hmem with hmem | hmem
        · exact absurd (spaces_indent _ _ hmem) (by decide)
        · exact hline ((List.dropWhile_suffix _).subset hmem)
      · rw [hput]
        exact h.body ho _ _

/-! ## any line -/

/-- A task line has a checkbox that is written as it was read. -/
theorem taskLine_eq_some {line indent rest : Text} {status : String}
    (h : taskLine line = some (indent, status, rest)) :
    statusOf (checkbox (some status)) = some status ∧ ∀ x ∈ rest, x ∈ line := by
  have hmark : ∀ mark s, statusOf mark = some s → statusOf (checkbox (some s)) = some s := by
    intro mark s hs
    unfold statusOf at hs
    split at hs <;> first
      | (obtain rfl := Option.some.inj hs; rfl)
      | cases hs
  unfold taskLine at h
  split at h
  · rename_i mark body hdrop
    have hsub : ∀ x ∈ body, x ∈ line := by
      intro x hx
      refine (List.dropWhile_suffix (p := isIndent)).subset ?_
      rw [hdrop]
      simp [hx]
    split at h
    · rename_i hstatus
      simp only [Option.some.injEq, Prod.mk.injEq] at h
      obtain ⟨-, rfl, rfl⟩ := h
      exact ⟨hmark mark _ hstatus, by simp⟩
    · rename_i d more hstatus
      split at h
      · simp only [Option.some.injEq, Prod.mk.injEq] at h
        obtain ⟨-, rfl, rfl⟩ := h
        exact ⟨hmark mark _ hstatus, fun x hx => hsub x (List.mem_cons_of_mem _ hx)⟩
      · cases h
    · cases h
  · cases h

/-- A checkbox is no line end. -/
theorem checkbox_ne_newline (status : Option String) : checkbox status ≠ '\n' := by
  unfold checkbox
  split <;> decide

/-- A task row is one line. -/
theorem oneLine_task {depth : Nat} {status : String} {parsed : TaskTokens} {id : Text}
    (htitle : '\n' ∉ parsed.title) (hwords : ∀ w ∈ parsed.words, '\n' ∉ w)
    (hid : isUriSafe lib id = true) : '\n' ∉ (Row.task depth status parsed id).text := by
  intro h
  have hanchor : '\n' ∉ '^' :: id := by
    intro hmem
    rcases List.mem_cons.mp hmem with hmem | hmem
    · exact absurd hmem (by decide)
    · exact absurd ((isUriSafe_chars lib hid).2 _ hmem).1 (by decide)
  have hspaces : '\n' ∉ spaces depth := fun hmem => absurd (spaces_indent _ _ hmem) (by decide)
  have hbox := (checkbox_ne_newline (some status)).symm
  have hline : '\n' ∈ lineText parsed.title parsed.words id := by
    simpa [Row.text, renderTaskLine, hspaces, hbox] using h
  rcases mem_joinWords hline with hmem | ⟨w, hw, hmem⟩
  · exact absurd hmem (by decide)
  · simp only [List.cons_append, List.mem_cons, List.mem_append, List.mem_nil_iff, or_false] at hw
    rcases hw with rfl | hw | rfl
    · exact htitle hmem
    · exact hwords w hw hmem
    · exact hanchor hmem

/-- **A task line** is written as a row of what it reads. -/
theorem Sim.taskLine (h : Sim kept st c) {line indent rest : Text} {status : String} {lineNo : Nat}
    (hheader : Tasks.header line = none) (htask : Tasks.taskLine line = some (indent, status, rest))
    (hline : '\n' ∉ line) (hst : st.onTask lib lineNo indent status rest = .ok st') :
    (rowOf lib kept st line).Placed c ∧ (rowOf lib kept st line).Writable kept ∧
      Sim kept st' (c.put lib (rowOf lib kept st line)) := by
  obtain ⟨hstatus, hsub⟩ := taskLine_eq_some htask
  have hrest : '\n' ∉ rest := fun hmem => hline (hsub _ hmem)
  obtain ⟨id, used, stack, htake, hpop, rfl⟩ := onTask_eq_ok hst
  obtain ⟨hfree, hused, hid⟩ := takeId_eq_ok lib htake
  have hstack := popTasks_suffix hpop
  simp only [rowOf, hheader, htask, htake, hpop]
  refine ⟨⟨hstatus, ?_, ?_⟩, ⟨?_, ?_⟩, h.task hused hstack⟩
  · rwa [h.names]
  · rw [h.stack, length_restack, List.length_map]
    exact hstack.length_le
  · refine oneLine_task (title_oneLine lib hrest) (fun w hw => ?_) hid
    exact (isWord_of_mem lib hrest hw).1.oneLine
  · intro depth status' parsed id' heq
    obtain ⟨-, -, rfl, -⟩ := Row.task.inj heq
    simp [TaskTokens.keptFirst, List.filter_filter]

/-- **Each line that is accepted is written as a row**, and the states stay in step. -/
theorem Sim.line (h : Sim kept st c) {line : Text} (hline : '\n' ∉ line) {lineNo : Nat}
    (hst : st.line lib lineNo line = .ok st') :
    (rowOf lib kept st line).Placed c ∧ (rowOf lib kept st line).Writable kept ∧
      Sim kept st' (c.put lib (rowOf lib kept st line)) := by
  rcases line_cases hst with ⟨level, headerText, hheader, rfl⟩ |
    ⟨indent, status, rest, hheader, htask, hon⟩ | ⟨hheader, htask, rfl⟩
  · simp only [rowOf, hheader]
    exact ⟨hheader, ⟨hline, by simp⟩, h.header line level headerText⟩
  · exact h.taskLine hheader htask hline hon
  · exact h.text hheader htask hline

/-- The rows of lines, from the first. -/
theorem rowsOf_cons {lineNo : Nat} {l : Text} (h : st.line lib lineNo l = .ok st') (ls : List Text) :
    rowsOf lib kept st lineNo (l :: ls) = rowOf lib kept st l :: rowsOf lib kept st' (lineNo + 1) ls := by
  rw [rowsOf, h]

/-- **The run is followed, line by line.** -/
theorem Sim.lines (h : Sim kept st c) {rows : List Row} {es : List Entry} (hshows : Shows kept c rows es)
    {ls : List Text} (hls : ∀ l ∈ ls, '\n' ∉ l) {lineNo : Nat}
    (hst : st.lines lib lineNo ls = .ok st') :
    (∀ row ∈ rowsOf lib kept st lineNo ls, '\n' ∉ row.text) ∧
      (rowsOf lib kept st lineNo ls).length = ls.length ∧
      Sim kept st' ((rowsOf lib kept st lineNo ls).foldl (ParseState.put lib) c) ∧
      ∃ es', Shows kept ((rowsOf lib kept st lineNo ls).foldl (ParseState.put lib) c)
        (rows ++ rowsOf lib kept st lineNo ls) es' := by
  induction ls generalizing st c rows es lineNo with
  | nil =>
      obtain rfl := Except.ok.inj hst
      exact ⟨by simp [rowsOf], rfl, h, es, by simpa [rowsOf] using hshows⟩
  | cons l ls ih =>
      obtain ⟨st₁, hstep, hst⟩ := lines_cons hst
      obtain ⟨hplaced, hwrite, hsim⟩ := h.line (hls l List.mem_cons_self) hstep
      obtain ⟨es₁, hshows₁⟩ := hshows.put lib hplaced hwrite
      obtain ⟨hone, hlen, hsim', es', hshows'⟩ := ih hsim hshows₁
        (fun m hm => hls m (List.mem_cons_of_mem _ hm)) hst
      rw [rowsOf_cons hstep]
      refine ⟨?_, ?_, hsim', es', ?_⟩
      · intro r hr
        rcases List.mem_cons.mp hr with rfl | hr
        · exact hwrite.oneLine
        · exact hone r hr
      · rw [List.length_cons, List.length_cons, hlen]
      · rwa [List.append_assoc] at hshows'

end Jkb.Sync.Tasks
