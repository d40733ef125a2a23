import Jkb.Sync.Tasks.Accepts

/-!
# Jkb.Sync.Tasks.Layout

A file's lines and the blocks of the document that is read from it. Every line is a section's header, a
task's own line, a line of a task's body or a line of prose, each block holds a run of lines, and the
runs stand in the layout in the order of the file: none is lost, doubled or moved.
-/

namespace Jkb.Sync.Tasks

open Jkb.Text Jkb.Dsl

/-! ## the lines of a block -/

/-- The lines of a file that one block of the document stands for. -/
inductive Source where
  | header (path line : Text)
  | task (id line : Text) (body : List Text)
  | prose (ls : List Text)

namespace Source

/-- The block that stands for the lines. -/
def block : Source → SyncBlock
  | .header path _ => .section path
  | .task id _ _ => .item id
  | .prose ls => .prose (['\n'].intercalate ls)

/-- The lines, as the file has them. -/
def lines : Source → List Text
  | .header _ line => [line]
  | .task _ line body => line :: body
  | .prose ls => ls

/-- The section that a header line opens. -/
def section? : Source → Option SyncSection
  | .header path line => some { path, headerLine := line }
  | _ => none

/-- The id and the content of the item that a task line and its body make. -/
def item? (lib : Lib) : Source → Option (Text × Text)
  | .task id line body => (declared lib line).map fun t =>
      (id, t.2.title ++ body.flatMap fun l => '\n' :: trimStart l)
  | _ => none

end Source

/-- A line that is neither a header nor a task line. -/
def IsText (line : Text) : Prop := header line = none ∧ taskLine line = none

/-- Each line is of the kind its block is of. -/
def Source.Ok : Source → Prop
  | .header _ line => (Tasks.header line).isSome
  | .task _ line body => isTaskLine line ∧ ∀ l ∈ body, IsText l
  | .prose ls => ls ≠ [] ∧ ∀ l ∈ ls, IsText l

/-- **The runs of lines that a document stands for**: one for each block, in order, with each section
and each task of the document there once. -/
structure Sourced (lib : Lib) (doc : SyncDoc) (pieces : List Source) : Prop where
  layout : doc.layout = pieces.map Source.block
  sections : doc.sections = pieces.filterMap Source.section?
  items : doc.items.map (fun i => (i.localId, i.content)) = pieces.filterMap (Source.item? lib)
  ok : ∀ p ∈ pieces, p.Ok
  paths : (doc.sections.map (·.path)).Nodup
  ids : doc.ids.Nodup

/-- The lines of a file; an empty one has none. -/
def inputLines (text : Text) : List Text := if text = [] then [] else fileLines text

/-! ## walking the layout -/

/-- What a block is emitted as, where `ls` are the lines not yet emitted: a section's stored header
line, a task's line and as many more as its content has line breaks, the lines of a block of prose. -/
def emitBlock (doc : SyncDoc) (ls : List Text) : SyncBlock → List Text
  | .section path => ((doc.sections.find? (·.path = path)).map (·.headerLine)).toList
  | .item id => ls.take (((doc.item? id).map fun i => 1 + i.content.count '\n').getD 0)
  | .prose content => content.splitOn '\n'

/-- What a layout is emitted as. -/
def emit (doc : SyncDoc) : List SyncBlock → List Text → List Text
  | [], _ => []
  | b :: bs, ls => emitBlock doc ls b ++ emit doc bs (ls.drop (emitBlock doc ls b).length)

variable {lib : Lib} {st st' : ParseState} {pieces : List Source} {read : List Text}

theorem exists_declared {line : Text} (h : isTaskLine line = true) : ∃ t, declared lib line = some t := by
  simp only [isTaskLine, Bool.and_eq_true, decide_eq_true_eq, Option.isSome_iff_exists] at h
  obtain ⟨hheader, ⟨indent, status, rest⟩, htask⟩ := h
  exact ⟨_, declared_task hheader htask⟩

/-! ## what is read so far -/

/-- What holds between any two lines: the lines read are those of the blocks, and then the prose that
is no block yet. While a body is open its task is the last block. -/
structure Reading (lib : Lib) (st : ParseState) (pieces : List Source) (read : List Text) : Prop
    extends Sourced lib st.doc pieces where
  lines : read = pieces.flatMap Source.lines ++ st.textRun
  text : ∀ l ∈ st.textRun, IsText l
  opened : ∀ o, st.openTask = some o → st.textRun = [] ∧ o.1 + 1 = st.doc.items.length ∧
    ∃ init id line body, pieces = init ++ [.task id line body]
  pathsTaken : ∀ s ∈ st.doc.sections, s.path ∈ st.usedSections.names
  idsTaken : ∀ id ∈ st.doc.ids, id ∈ st.usedIds.names

theorem reading_init : Reading lib {} [] [] := by
  refine ⟨⟨rfl, rfl, rfl, ?_, List.nodup_nil, List.nodup_nil⟩, rfl, ?_, ?_, ?_, ?_⟩ <;> simp [SyncDoc.ids]

/-- **The prose read so far** becomes a block, and no line is left over. -/
theorem Reading.flush (h : Reading lib st pieces read) :
    ∃ pieces', Reading lib st.flushText pieces' read ∧ st.flushText.textRun = [] := by
  by_cases hrun : st.textRun = []
  · rw [ParseState.flushText, if_pos hrun]
    exact ⟨pieces, h, hrun⟩
  · rw [ParseState.flushText, if_neg hrun]
    have hsections : (pieces ++ [Source.prose st.textRun]).filterMap Source.section? =
        pieces.filterMap Source.section? := by simp [Source.section?]
    have hitems : (pieces ++ [Source.prose st.textRun]).filterMap (Source.item? lib) =
        pieces.filterMap (Source.item? lib) := by simp [Source.item?]
    refine ⟨pieces ++ [.prose st.textRun], ⟨⟨?_, ?_, ?_, ?_, h.paths, h.ids⟩, ?_, ?_, ?_, h.pathsTaken,
      h.idsTaken⟩, rfl⟩
    · simp only [h.layout, List.map_append, List.map_singleton, Source.block]
    · rw [hsections]
      exact h.sections
    · rw [hitems]
      exact h.items
    · intro p hp
      rcases List.mem_append.mp hp with hp | hp
      · exact h.ok p hp
      · rw [List.mem_singleton.mp hp]
        exact ⟨hrun, h.text⟩
    · simp only [h.lines, List.flatMap_append, List.flatMap_singleton, Source.lines, List.append_nil]
    · simp
    · intro o ho
      exact absurd (h.opened o ho).1 hrun

/-! ## one line -/

/-- **A header line** is a block of its own. -/
theorem Reading.header (h : Reading lib st pieces read) {line headerText : Text} {level : Nat}
    (hheader : header line = some (level, headerText)) :
    ∃ pieces', Reading lib (st.onHeader lib line level headerText) pieces' (read ++ [line]) := by
  obtain ⟨pieces₁, h₁, hrun⟩ := h.flush
  obtain ⟨path, used, secStack, heq, hfree, hnames⟩ := onHeader_eq lib st line level headerText
  rw [heq]
  refine ⟨pieces₁ ++ [.header path line],
    ⟨⟨?_, ?_, ?_, ?_, ?_, h₁.ids⟩, ?_, h₁.text, ?_, ?_, h₁.idsTaken⟩⟩
  · simp only [h₁.layout, List.map_append, List.map_singleton, Source.block]
  · simp [h₁.sections, List.filterMap_append, Source.section?]
  · simp [h₁.items, List.filterMap_append, Source.item?]
  · intro p hp
    rcases List.mem_append.mp hp with hp | hp
    · exact h₁.ok p hp
    · rw [List.mem_singleton.mp hp]
      simp [Source.Ok, hheader]
  · simp only [List.map_append, List.map_singleton]
    refine List.nodup_append.mpr ⟨h₁.paths, List.nodup_singleton _, ?_⟩
    rintro a ha b hb rfl
    obtain ⟨s, hs, rfl⟩ := List.mem_map.mp ha
    exact hfree (List.mem_singleton.mp hb ▸ h₁.pathsTaken s hs)
  · simp [h₁.lines, hrun, Source.lines]
  · intro o ho
    cases ho
  · intro s hs
    simp only [List.mem_append, List.mem_singleton] at hs
    rw [hnames, List.mem_cons]
    rcases hs with hs | rfl
    · exact Or.inr (h₁.pathsTaken s hs)
    · exact Or.inl rfl

/-- **A task line** is a block of its own, under an id that no task has. -/
theorem Reading.task (h : Reading lib st pieces read) {line indent rest : Text} {status : String}
    {lineNo : Nat} (hheader : Tasks.header line = none)
    (htask : taskLine line = some (indent, status, rest))
    (hstep : st.onTask lib lineNo indent status rest = .ok st') :
    ∃ pieces', Reading lib st' pieces' (read ++ [line]) := by
  obtain ⟨pieces₁, h₁, hrun⟩ := h.flush
  obtain ⟨id, used, stack, htake, -, rfl⟩ := onTask_eq_ok hstep
  obtain ⟨hfree, hnames, -⟩ := takeId_eq_ok lib htake
  have hdeclared := @declared_task lib line indent rest status hheader htask
  refine ⟨pieces₁ ++ [.task id line []], ⟨⟨?_, ?_, ?_, ?_, h₁.paths, ?_⟩, ?_, ?_, ?_, h₁.pathsTaken, ?_⟩⟩
  · simp only [ParseState.addTask, h₁.layout, List.map_append, List.map_singleton, Source.block]
  · simp [ParseState.addTask, h₁.sections, List.filterMap_append, Source.section?]
  · simp [ParseState.addTask, h₁.items, List.filterMap_append, Source.item?, hdeclared,
      ParseState.newItem]
  · intro p hp
    rcases List.mem_append.mp hp with hp | hp
    · exact h₁.ok p hp
    · rw [List.mem_singleton.mp hp]
      simp [Source.Ok, isTaskLine, hheader, htask]
  · simp only [SyncDoc.ids, ParseState.addTask, List.map_append, List.map_singleton]
    refine List.nodup_append.mpr ⟨h₁.ids, List.nodup_singleton _, ?_⟩
    rintro a ha b hb rfl
    have htaken := h₁.idsTaken a ha
    rw [flushText_usedIds, List.mem_singleton.mp hb] at htaken
    exact hfree htaken
  · simp [ParseState.addTask, h₁.lines, hrun, Source.lines]
  · exact h₁.text
  · intro o ho
    obtain rfl := Option.some.inj ho
    exact ⟨hrun, by simp [ParseState.addTask], pieces₁, id, line, [], rfl⟩
  · intro x hx
    simp only [SyncDoc.ids, ParseState.addTask, List.map_append, List.map_singleton, List.mem_append,
      List.mem_singleton] at hx
    rw [ParseState.addTask, hnames, List.mem_cons]
    rcases hx with hx | rfl
    · refine Or.inr ?_
      have htaken := h₁.idsTaken x hx
      rwa [flushText_usedIds] at htaken
    · exact Or.inl rfl

theorem modify_length_append {α : Type*} (f : α → α) (xs : List α) (x : α) :
    (xs ++ [x]).modify xs.length f = xs ++ [f x] := by
  induction xs with
  | nil => rfl
  | cons y xs ih => rw [List.cons_append, List.length_cons, List.modify_succ_cons, ih, List.cons_append]

theorem map_modify_eq {α β : Type*} {f : α → α} {g : α → β} {k : β → β} (h : ∀ a, g (f a) = k (g a))
    (xs : List α) (i : Nat) : (xs.modify i f).map g = (xs.map g).modify i k := by
  induction xs generalizing i with
  | nil => simp
  | cons x xs ih => cases i <;> simp [h, ih]

/-- **A line of the open body** is one more line of the last block. -/
theorem Reading.body (h : Reading lib st pieces read) {line : Text} (htext : IsText line)
    (hcont : (st.takeContinuation line).1 = true) :
    ∃ pieces', Reading lib (st.onText line) pieces' (read ++ [line]) := by
  obtain ⟨o, ho, -, hput⟩ := onText_body hcont
  obtain ⟨hrun, hlast, init, id, tl, body, rfl⟩ := h.opened o ho
  have hok := h.ok (.task id tl body) (by simp)
  obtain ⟨t, ht⟩ := @exists_declared lib tl hok.1
  have hitems := h.items
  simp only [List.filterMap_append, List.filterMap_cons, List.filterMap_nil, Source.item?, ht,
    Option.map_some] at hitems
  have hindex : o.1 = (init.filterMap (Source.item? lib)).length := by
    have := congrArg List.length hitems
    simp only [List.length_map, List.length_append, List.length_singleton] at this
    omega
  have hids : (st.onText line).doc.ids = st.doc.ids := (onText_kept st line).2.2.1
  rw [hput] at hids ⊢
  refine ⟨init ++ [.task id tl (body ++ [line])], ⟨⟨?_, ?_, ?_, ?_, h.paths, ?_⟩, ?_, ?_, ?_,
    h.pathsTaken, ?_⟩⟩
  · simpa [Source.block] using h.layout
  · rw [h.sections]
    simp [List.filterMap_append, Source.section?, List.filterMap_cons]
  · rw [map_modify_eq (k := fun p => (p.1, p.2 ++ '\n' :: trimStart line)) (fun _ => rfl), hitems, hindex,
      modify_length_append]
    simp [List.filterMap_append, Source.item?, ht]
  · intro p hp
    rcases List.mem_append.mp hp with hp | hp
    · exact h.ok p (List.mem_append_left _ hp)
    · rw [List.mem_singleton.mp hp]
      refine ⟨hok.1, fun l hl => ?_⟩
      rcases List.mem_append.mp hl with hl | hl
      · exact hok.2 l hl
      · rw [List.mem_singleton.mp hl]
        exact htext
  · rw [hids]
    exact h.ids
  · simp [h.lines, hrun, Source.lines]
  · exact h.text
  · intro o' ho'
    exact ⟨hrun, by simpa using (h.opened o' ho').2.1, init, id, tl, body ++ [line], rfl⟩
  · rw [hids]
    exact h.idsTaken

/-- **A line of prose** waits for the next block. -/
theorem Reading.prose (h : Reading lib st pieces read) {line : Text} (htext : IsText line)
    (hcont : (st.takeContinuation line).1 = false) :
    Reading lib (st.onText line) pieces (read ++ [line]) := by
  rw [onText_prose hcont]
  refine ⟨h.toSourced, ?_, ?_, ?_, h.pathsTaken, h.idsTaken⟩
  · simp only [h.lines, List.append_assoc]
  · intro l hl
    rcases List.mem_append.mp hl with hl | hl
    · exact h.text l hl
    · rw [List.mem_singleton.mp hl]
      exact htext
  · intro o ho
    cases ho

/-- **One line** that is read is one more line of the blocks, or of the prose after them. -/
theorem Reading.line (h : Reading lib st pieces read) {line : Text} {lineNo : Nat}
    (hstep : st.line lib lineNo line = .ok st') :
    ∃ pieces', Reading lib st' pieces' (read ++ [line]) := by
  rcases line_cases hstep with ⟨level, headerText, hheader, rfl⟩ |
    ⟨indent, status, rest, hheader, htask, hstep⟩ | ⟨hheader, htask, rfl⟩
  · exact h.header hheader
  · exact h.task hheader htask hstep
  · cases hcont : (st.takeContinuation line).1 with
    | true => exact h.body ⟨hheader, htask⟩ hcont
    | false => exact ⟨pieces, h.prose ⟨hheader, htask⟩ hcont⟩

/-- **The lines of a file**, read one after the other. -/
theorem Reading.run (h : Reading lib st pieces read) {ls : List Text} {lineNo : Nat}
    (hrun : st.lines lib lineNo ls = .ok st') : ∃ pieces', Reading lib st' pieces' (read ++ ls) := by
  induction ls generalizing st pieces read lineNo with
  | nil =>
      obtain rfl := Except.ok.inj hrun
      exact ⟨pieces, by rwa [List.append_nil]⟩
  | cons l ls ih =>
      obtain ⟨st₁, hstep, hrest⟩ := lines_cons hrun
      obtain ⟨pieces₁, h₁⟩ := h.line hstep
      obtain ⟨pieces', h'⟩ := ih h₁ hrest
      exact ⟨pieces', by rwa [List.append_assoc] at h'⟩

/-! ## the whole file -/

/-- The parked document says of its blocks what the document said. -/
theorem Sourced.parked {doc : SyncDoc} (h : Sourced lib doc pieces) :
    Sourced lib (parked doc) pieces where
  layout := h.layout
  sections := h.sections
  items := by
    rw [← h.items]
    simp only [Tasks.parked, parkDanglingDependencies, List.map_map]
    refine List.map_congr_left fun i _ => ?_
    simp only [Function.comp_apply]
    split <;> rfl
  ok := h.ok
  paths := h.paths
  ids := by
    rw [parked_ids]
    exact h.ids

/-- The content that a task line and its body make has a line break for each line of the body. -/
theorem count_content {line : Text} {body : List Text} {t : Text × TaskTokens}
    (hline : '\n' ∉ line) (hbody : ∀ l ∈ body, '\n' ∉ l) (ht : declared lib line = some t) :
    (t.2.title ++ body.flatMap fun l => '\n' :: trimStart l).count '\n' = body.length := by
  have htitle : '\n' ∉ t.2.title := by
    unfold declared at ht
    split at ht
    · obtain ⟨⟨indent, status, rest⟩, htask, rfl⟩ := Option.map_eq_some_iff.mp ht
      exact title_oneLine lib fun hmem => hline ((taskLine_eq_some htask).2 _ hmem)
    · cases ht
  rw [List.count_append, List.count_eq_zero_of_not_mem htitle, Nat.zero_add]
  induction body with
  | nil => rfl
  | cons l body ih =>
      have hl : '\n' ∉ trimStart l := fun hmem =>
        hbody l List.mem_cons_self ((List.dropWhile_suffix _).subset hmem)
      rw [List.flatMap_cons, List.count_append, List.count_cons_self,
        List.count_eq_zero_of_not_mem hl, ih fun m hm => hbody m (List.mem_cons_of_mem _ hm),
        List.length_cons]
      omega

/-- **A block is emitted as the lines it stands for.** -/
theorem Sourced.emitBlock {doc : SyncDoc} (h : Sourced lib doc pieces) {p : Source} (hp : p ∈ pieces)
    (hone : ∀ l ∈ p.lines, '\n' ∉ l) (more : List Text) :
    emitBlock doc (p.lines ++ more) p.block = p.lines := by
  have hok := h.ok p hp
  cases p with
  | header path line =>
      have hmem : ({ path, headerLine := line } : SyncSection) ∈ doc.sections := by
        rw [h.sections]
        exact List.mem_filterMap.mpr ⟨_, hp, rfl⟩
      obtain ⟨s, hs⟩ : ∃ s, doc.sections.find? (·.path = path) = some s := by
        rw [← Option.isSome_iff_exists, List.find?_isSome]
        exact ⟨_, hmem, by simp⟩
      have hpath := by simpa using List.find?_some hs
      obtain rfl := List.inj_on_of_nodup_map h.paths (List.mem_of_find?_eq_some hs) hmem hpath
      simp [Source.block, Source.lines, Tasks.emitBlock, hs]
  | task id line body =>
      obtain ⟨t, ht⟩ := @exists_declared lib line hok.1
      have hmem : (id, t.2.title ++ body.flatMap fun l => '\n' :: trimStart l) ∈
          doc.items.map fun i => (i.localId, i.content) := by
        rw [h.items]
        exact List.mem_filterMap.mpr ⟨_, hp, by simp [Source.item?, ht]⟩
      obtain ⟨i, hi, heq⟩ := List.mem_map.mp hmem
      obtain ⟨hid, hcontent⟩ := Prod.mk.inj heq
      obtain ⟨j, hj⟩ : ∃ j, doc.item? id = some j := by
        rw [SyncDoc.item?, ← Option.isSome_iff_exists, List.find?_isSome]
        exact ⟨i, hi, by simpa using hid⟩
      have hjid : j.localId = id := by simpa using List.find?_some hj
      obtain rfl := List.inj_on_of_nodup_map h.ids (List.mem_of_find?_eq_some hj) hi (hjid.trans hid.symm)
      have hcount := count_content (hone line List.mem_cons_self)
        (fun l hl => hone l (List.mem_cons_of_mem _ hl)) ht
      have hlen : 1 + j.content.count '\n' = (line :: body).length := by
        rw [hcontent, hcount, List.length_cons, Nat.add_comm]
      simp only [Source.block, Source.lines, Tasks.emitBlock, hj, Option.map_some, Option.getD_some, hlen,
        List.take_left]
  | prose ls => exact List.splitOn_intercalate '\n' hone hok.1

/-- **The layout, walked, gives the lines of the file.** -/
theorem Sourced.emit {doc : SyncDoc} (h : Sourced lib doc pieces)
    (hone : ∀ l ∈ pieces.flatMap Source.lines, '\n' ∉ l) {rest : List Source} (hrest : rest ⊆ pieces) :
    emit doc (rest.map Source.block) (rest.flatMap Source.lines) = rest.flatMap Source.lines := by
  induction rest with
  | nil => rfl
  | cons p rest ih =>
      obtain ⟨hp, hrest⟩ := List.cons_subset.mp hrest
      have hblock := h.emitBlock hp (fun l hl => hone l (List.mem_flatMap.mpr ⟨p, hp, hl⟩))
        (rest.flatMap Source.lines)
      rw [List.map_cons, List.flatMap_cons, Tasks.emit, hblock, List.drop_left, ih hrest]

/-- A file that is read is made of pieces, which are its lines. -/
theorem exists_sourced {lib : Lib} {text : Text} {doc : SyncDoc} {warnings : List Fmt}
    (h : parseText lib text = .ok (doc, warnings)) :
    ∃ pieces, Sourced lib doc pieces ∧ pieces.flatMap Source.lines = inputLines text := by
  by_cases hempty : text = []
  · subst hempty
    obtain ⟨rfl, rfl⟩ := Prod.mk.inj (Except.ok.inj h)
    exact ⟨[], reading_init.toSourced, rfl⟩
  · have hparse : parse lib text = .ok doc := by rw [parse, h]; rfl
    obtain ⟨st, hlines, -, rfl⟩ := (parse_eq_ok hempty).mp hparse
    obtain ⟨pieces₀, h₀⟩ := reading_init.run hlines
    obtain ⟨pieces, hread, hrun⟩ := h₀.flush
    refine ⟨pieces, hread.toSourced.parked, ?_⟩
    rw [inputLines, if_neg hempty, ← List.nil_append (fileLines text), hread.lines, hrun, List.append_nil]

theorem oneLine_of_mem_inputLines {text l : Text} (h : l ∈ inputLines text) : '\n' ∉ l := by
  unfold inputLines at h
  split at h
  · cases h
  · exact oneLine_of_mem_fileLines h

/-- **No line is lost.** The layout of a file that is read, walked, gives the file's lines one for one
and in order: each is of exactly one section's header, one task or one block of prose. -/
theorem parseText_keeps_lines (lib : Lib) (text : Text) {doc : SyncDoc} {warnings : List Fmt}
    (h : parseText lib text = .ok (doc, warnings)) :
    emit doc doc.layout (inputLines text) = inputLines text ∧
      ∃ pieces, Sourced lib doc pieces ∧ pieces.flatMap Source.lines = inputLines text := by
  obtain ⟨pieces, hsourced, hall⟩ := exists_sourced h
  refine ⟨?_, pieces, hsourced, hall⟩
  rw [hsourced.layout, ← hall]
  refine hsourced.emit (fun l hl => ?_) (List.Subset.refl _)
  rw [hall] at hl
  exact oneLine_of_mem_inputLines hl

/-- A file with a header, prose, a task with a body, a nested task and a blank line. -/
def mixedFile : Text := "intro\n\n## Backend\n- [ ] one ^a\n    why\n  - [x] two\n\nend\n".toList

theorem parseText_keeps_lines_mixedFile : ∃ doc warnings,
    parseText asciiLib mixedFile = .ok (doc, warnings) ∧
      emit doc doc.layout (inputLines mixedFile) = inputLines mixedFile ∧
      ∃ pieces, Sourced asciiLib doc pieces ∧ pieces.flatMap Source.lines = inputLines mixedFile := by
  have hread : (parseText asciiLib mixedFile).toOption.isSome = true := by decide +kernel
  cases h : parseText asciiLib mixedFile with
  | error e =>
      rw [h] at hread
      cases hread
  | ok r => exact ⟨r.1, r.2, rfl, parseText_keeps_lines asciiLib mixedFile h⟩

end Jkb.Sync.Tasks
