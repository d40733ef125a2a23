import Jkb.Sync.ThreeWay
import Jkb.Sync.Tasks.Accepts

/-!
# Jkb.Sync.Tasks.Gate

The check asked of a task before it is written into a `tasks.md`: its line is rendered alone, its
dependencies as stub tasks, and what is read back is compared with it field by field. `Passes` is what
a line that comes back whole is read as.
-/

namespace Jkb.Sync.Tasks

open Jkb.Text Jkb.Dsl

variable (lib : Lib)

/-! ## messages -/

/-- A value as a message shows it: text, or a value in its debug form, which is left as the value. -/
inductive Shown where
  | text (t : Fmt)
  | priority (p : Option Int)
  | due (d : Option Text)
  | tags (ts : List (Text ×ₗ Text))
  | mirrors (ms : List Text)
  | deps (ds needs : List Text)
  | status (s : Option String)
  | content (t : Text)
deriving DecidableEq

/-- A formatted text in which values are shown. -/
abbrev Message := List (Piece ⊕ Shown)

/-! ## the text alone -/

/-- The id of the task that a text is tried as. -/
def probe : Text := "jkb-content-probe".toList

/-- A file of one open task with a text. -/
def probeDoc (content : Text) : SyncDoc where
  items := [{ localId := probe, kind := "task", content, status := some "open" }]
  layout := [.item probe]

/-- What a task that was written without modifiers was read to have of them. -/
def trailing (task : SyncItem) (edges : List SyncEdge) : List String :=
  (if task.priority.isSome then ["`!p` priority"] else []) ++
    (if task.due.isSome then ["`@due` date"] else []) ++
    (if task.tags ≠ [] then ["`#f=v` tag"] else []) ++
    (if task.mirrors ≠ [] then ["`+ns` placement"] else []) ++
    (if edges ≠ [] ∨ task.unresolvedNeeds ≠ [] then
      ["`needs:^id` dependency (record one with `jkb task depend`)"] else [])

/-- The first 200 characters of a text, and an ellipsis where there are more. -/
def shorten (t : Text) : Text := t.take 200 ++ if 200 < t.length then ['…'] else []

/-- A block that stands for an item. -/
def isItem : SyncBlock → Bool
  | .item _ => true
  | _ => false

/-- Why a task with a text would not come back from its file as that text. -/
def taskContentProblem (content : Text) : Option Fmt :=
  match parse lib (renderDoc (probeDoc content)) with
  | .error _ => some ["the task line it makes does not parse"]
  | .ok back =>
      if 1 < back.items.length then
        some ["a line of it would be read back as a task of its own (a checkbox line)"]
      else
        match back.item? probe with
        | none => some ["a trailing `^id` would be read back as the task's identity"]
        | some task =>
            if !back.layout.all isItem then
              some ["a blank line (or one of only whitespace) would end the task's body, and what ",
                "follows would be read back as section prose"]
            else if trailing task back.edges ≠ [] then
              some ["trailing tokens would be read back as a ",
                ", ".intercalate (trailing task back.edges), " rather than as text"]
            else if task.content ≠ content then
              some ["it would be read back as ", .debug (String.ofList (shorten task.content)),
                " (quotes are dropped, runs of spaces and tabs close up, spaces are taken off the ends ",
                "of the title and the start of every body line, and a trailing `^id` becomes the ",
                "task's identity) — `task edit` with the text as it should read replaces it"]
            else none

/-! ## the whole line -/

/-- A dependency of a task whose line is tried. -/
def stub (dep : Text) : SyncItem where
  localId := dep
  kind := "task"
  content := "dependency".toList
  status := some "open"

/-- A file of one task, with its dependencies as stubs. -/
def lineDoc (item : SyncItem) (deps : List Text) : SyncDoc where
  layout := .item item.localId :: deps.map .item
  items := { item with parent := none, sectionPath := none } :: deps.map stub
  edges := deps.map fun dep => ⟨item.localId, dep, .dependsOn⟩

/-- The first field in which a task differs from what it was read back as. -/
def firstDifference (item : SyncItem) (deps : List Text) (back : SyncDoc) (got : SyncItem) :
    Option (String × Shown × Shown) :=
  let sorted : List Text → List Text := List.insertionSort (· ≤ ·)
  let gotDeps := depsOf back item.localId
  if got.priority ≠ item.priority then
    some ("priority", .priority item.priority, .priority got.priority)
  else if got.due ≠ item.due then
    some ("due date", .due item.due, .due got.due)
  else if sortPairs got.tags ≠ sortPairs item.tags then
    some ("tags", .tags (sortPairs item.tags), .tags (sortPairs got.tags))
  else if sorted got.mirrors ≠ sorted item.mirrors then
    some ("placements", .mirrors (sorted item.mirrors), .mirrors (sorted got.mirrors))
  else if sorted gotDeps ≠ sorted deps ∨ got.unresolvedNeeds ≠ item.unresolvedNeeds then
    some ("dependencies", .deps (sorted deps) item.unresolvedNeeds,
      .deps (sorted gotDeps) got.unresolvedNeeds)
  else if got.status ≠ item.status then
    some ("status", .status item.status, .status got.status)
  else if got.content ≠ item.content then
    some ("text", .content item.content, .content got.content)
  else none

/-- The first field of a task's rendered line that is read back different: its name, what was written
and what was read. -/
def lineDifference (item : SyncItem) (deps : List Text) : Option (String × Shown × Shown) :=
  match parse lib (renderDoc (lineDoc item deps)) with
  | .error e => some ("line", .text [], .text (.text "a parse error: validation: " :: e))
  | .ok back =>
      match back.item? item.localId with
      | none => some ("identity", .text ["`^", item.localId, "`"], .text ["the title's words"])
      | some got => firstDifference item deps back got

/-- A task with a text and a status, and nothing else. -/
def bare (item : SyncItem) : SyncItem where
  localId := item.localId
  kind := "task"
  content := item.content
  status := item.status

/-- A task with one of its fields, each in turn. -/
def alone (item : SyncItem) : List SyncItem :=
  [{ bare item with priority := item.priority }, { bare item with due := item.due },
    { bare item with tags := item.tags }, { bare item with mirrors := item.mirrors }]

/-- Why a task's line in a file would not come back as the task: the text is asked first, and of a line
that comes back different the field that does so on its own is named. -/
def taskLineProblem (item : SyncItem) (deps : List Text) : Option Message :=
  match taskContentProblem lib item.content with
  | some problem => some (problem.map .inl)
  | none =>
      match lineDifference lib item deps with
      | none => none
      | some whole =>
          let (what, want, got) := (((alone item).findSome? fun one => lineDifference lib one []).or
            (lineDifference lib (bare item) deps)).getD whole
          some [.inl "its ", .inl what, .inl " ", .inr want, .inl " would be read back as ", .inr got,
            .inl " (a modifier is one word, with no spaces or quotes, and a local id is lowercase ",
            .inl "letters, digits and dashes)"]

/-- **A task passes** exactly when its text comes back alone, and its whole line does. -/
theorem taskLineProblem_eq_none {item : SyncItem} {deps : List Text} :
    taskLineProblem lib item deps = none ↔
      taskContentProblem lib item.content = none ∧ lineDifference lib item deps = none := by
  unfold taskLineProblem
  cases taskContentProblem lib item.content with
  | some problem => simp
  | none => cases lineDifference lib item deps <;> simp

/-! ## the lines of a document -/

/-- The lines a block is rendered as. -/
def blockLines (doc : SyncDoc) : SyncBlock → List Text
  | .prose text => [text]
  | .section path => ((section? doc path).map (·.headerLine)).toList
  | .item id => ((lastItem? doc id).map fun i =>
      renderTask i (depth doc i.localId) (depsOf doc i.localId)).getD []

/-- A task is rendered as a line at least. -/
theorem renderTask_ne_nil (item : SyncItem) (d : Nat) (deps : List Text) :
    renderTask item d deps ≠ [] :=
  List.cons_ne_nil _ _

/-- A block is its lines, if it has any. -/
theorem renderBlock_eq {doc : SyncDoc} (hkind : ∀ i ∈ doc.items, i.kind = "task") (b : SyncBlock) :
    renderBlock doc b =
      if blockLines doc b = [] then none else some (['\n'].intercalate (blockLines doc b)) := by
  cases b with
  | prose text => simp [renderBlock, blockLines]
  | «section» path => cases hs : section? doc path <;> simp [renderBlock, blockLines, hs]
  | item id =>
      cases hi : lastItem? doc id with
      | none => simp [renderBlock, blockLines, hi]
      | some i =>
          have hmem : i ∈ doc.items := List.mem_reverse.mp (List.mem_of_find?_eq_some hi)
          simp [renderBlock, blockLines, hi, renderItem, hkind i hmem, renderTask_ne_nil]

/-- **A document of tasks that are all listed** renders as the lines of its blocks. -/
theorem renderDoc_listed {doc : SyncDoc} (hkind : ∀ i ∈ doc.items, i.kind = "task")
    (hlisted : ∀ i ∈ doc.items, .item i.localId ∈ doc.layout) :
    renderDoc doc = ['\n'].intercalate (doc.layout.flatMap (blockLines doc)) ++ ['\n'] := by
  have hblocks : ∀ bs : List SyncBlock, bs.filterMap (renderBlock doc) =
      ((bs.map (blockLines doc)).filter (· ≠ [])).map (['\n'].intercalate ·) := by
    intro bs
    induction bs with
    | nil => rfl
    | cons b bs ih =>
        by_cases hb : blockLines doc b = []
        · rw [List.filterMap_cons_none (by rw [renderBlock_eq hkind, if_pos hb]), ih]
          simp [hb]
        · rw [List.filterMap_cons_some (by rw [renderBlock_eq hkind, if_neg hb]), ih]
          simp [hb]
  have hunlisted : unlisted doc = [] := by
    refine List.filter_eq_nil_iff.mpr fun i hi => ?_
    simp [hlisted i hi]
  have hjoin := @intercalate_flatten _ ['\n'] ((doc.layout.map (blockLines doc)).filter (· ≠ []))
    (by simp)
  have hflat : ((doc.layout.map (blockLines doc)).filter (· ≠ [])).flatten =
      doc.layout.flatMap (blockLines doc) := by
    rw [List.flatMap_def]
    exact List.flatten_filter_ne_nil
  rw [renderDoc, hunlisted, List.map_nil, List.append_nil, hblocks, hjoin, hflat]

/-! ## content -/

/-- The lines of a text: its first, and the others each after a newline. -/
theorem splitContent_flatMap {title : Text} {body : List Text} (htitle : '\n' ∉ title)
    (hbody : ∀ l ∈ body, '\n' ∉ l) :
    splitContent (title ++ body.flatMap ('\n' :: ·)) = (title, body) := by
  induction body using List.reverseRecOn with
  | nil => simpa using splitContent_title htitle
  | append_singleton body l ih =>
      have hrest := ih fun m hm => hbody m (List.mem_append_left _ hm)
      have hl := hbody l (List.mem_append_right _ (List.mem_singleton_self l))
      have hassoc : title ++ (body ++ [l]).flatMap ('\n' :: ·) =
          title ++ body.flatMap ('\n' :: ·) ++ '\n' :: l := by
        simp
      rw [hassoc, splitContent_append _ hl, hrest]

/-- A content is split at every line end. -/
theorem oneLine_splitContent (content : Text) :
    '\n' ∉ (splitContent content).1 ∧ ∀ l ∈ (splitContent content).2, '\n' ∉ l := by
  by_cases hc : '\n' ∈ content
  · obtain ⟨title, body, rfl, htitle⟩ := List.eq_append_cons_of_mem hc
    simp only [splitContent, splitOnce_append htitle]
    exact ⟨htitle, fun l hl => notMem_of_mem_splitOn hl⟩
  · rw [splitContent_title hc]
    exact ⟨hc, by simp⟩

/-- A text is its lines. -/
theorem flatMap_splitContent (content : Text) :
    (splitContent content).1 ++ (splitContent content).2.flatMap ('\n' :: ·) = content := by
  have hsplit : ∀ body : Text, (body.splitOn '\n').flatMap ('\n' :: ·) = '\n' :: body := by
    intro body
    have hjoin : ['\n'].intercalate (body.splitOn '\n') = body := List.intercalate_splitOn '\n'
    cases hpieces : body.splitOn '\n' with
    | nil => exact absurd hpieces (List.splitOn_ne_nil _ _)
    | cons p ps =>
        rw [hpieces] at hjoin
        rw [← hjoin]
        clear hjoin hpieces
        induction ps generalizing p with
        | nil => simp
        | cons q ps ih =>
            rw [List.flatMap_cons, ih q, List.intercalate_cons_cons]
            simp
  by_cases hc : '\n' ∈ content
  · obtain ⟨title, body, rfl, htitle⟩ := List.eq_append_cons_of_mem hc
    simp only [splitContent, splitOnce_append htitle, hsplit]
  · rw [splitContent_title hc]
    simp

/-! ## what the lines of a file say -/

variable {lib} {st st' : ParseState}

/-- What a parsed item's line said, by the document it is in. -/
def saidOf (back : SyncDoc) (i : SyncItem) : TaskRecord :=
  ((i.localId, (splitContent i.content).1, i.priority, i.due, i.tags, i.mirrors),
    depsOf back i.localId, i.unresolvedNeeds)

/-- What lines that are parsed add to the records is what they say. -/
theorem records_given (kept : Text → Bool) {ls : List Text} (hp : Proper st)
    (hls : ∀ l ∈ ls, '\n' ∉ l) {lineNo : Nat} (h : st.lines lib lineNo ls = .ok st') :
    Proper st' ∧ records kept st'.doc = records kept st.doc ++
      (given lib st.usedIds (tasks lib ls)).map fun r => lineRecord kept r.1 r.2 := by
  induction ls generalizing st lineNo with
  | nil =>
      obtain rfl := Except.ok.inj h
      exact ⟨hp, by simp [tasks, given]⟩
  | cons l ls ih =>
      obtain ⟨st₁, hstep, hrest⟩ := lines_cons h
      have hone := hls l List.mem_cons_self
      have hls' := fun m hm => hls m (List.mem_cons_of_mem _ hm)
      rcases line_cases hstep with ⟨level, text, hheader, rfl⟩ | ⟨indent, status, rest, hheader, htask, hon⟩ |
        ⟨hheader, htask, rfl⟩
      · obtain ⟨hp₁, -, hrec⟩ := records_onHeader kept hp l level text
        obtain ⟨-, -, hused, -⟩ := @onHeader_spec lib st l level text
        obtain ⟨hp', hmore⟩ := ih hp₁ hls' hrest
        rw [tasks_cons_none ls (declared_header hheader), hmore, hrec, hused]
        exact ⟨hp', rfl⟩
      · have hrest' : '\n' ∉ rest := fun hmem => hone ((taskLine_eq_some htask).2 _ hmem)
        obtain ⟨hp₁, -, -, id, hrec⟩ := records_onTask kept hp hrest' hon
        obtain ⟨hp', hmore⟩ := ih hp₁ hls' hrest
        obtain ⟨id', used, stack, htake, -, rfl⟩ := onTask_eq_ok hon
        obtain ⟨-, hgive⟩ := takeId_iff.mp htake
        -- the id in the record is the one that the line is given
        have hid : id = id' := by
          have hids := congrArg (List.map (·.1.1)) hrec
          simp only [records, record, lineRecord, ParseState.addTask, List.map_append, List.map_map,
            flushText_items, Function.comp_def, List.map_cons, List.map_nil] at hids
          exact (List.cons.inj (List.append_cancel_left hids)).1.symm
        rw [tasks_cons_some ls (declared_task hheader htask), given, hgive, hmore, hrec, hid]
        exact ⟨hp', by simp [ParseState.addTask]⟩
      · have hused := (onText_kept st l).1
        rw [tasks_cons_none ls (declared_text hheader htask), ← hused]
        cases hcont : (st.takeContinuation l).1 with
        | true =>
            obtain ⟨hp₁, -, hrec, -⟩ := records_body kept hp hone hcont
            obtain ⟨hp', hmore⟩ := ih hp₁ hls' hrest
            exact ⟨hp', by rw [hmore, hrec]⟩
        | false =>
            obtain ⟨hp₁, -, hrec⟩ := records_prose kept hp hcont
            obtain ⟨hp', hmore⟩ := ih hp₁ hls' hrest
            exact ⟨hp', by rw [hmore, hrec]⟩

/-- **What a parsed document says of its tasks** is what their lines say, each under the id it is
given. -/
theorem saidOf_parse {text : Text} (hne : text ≠ []) {back : SyncDoc}
    (h : parse lib text = .ok back) : back.items.map (saidOf back) =
      (given lib {} (tasks lib (fileLines text))).map fun r => lineRecord (hasId back) r.1 r.2 := by
  obtain ⟨st, hlines, -, rfl⟩ := (parse_eq_ok hne).mp h
  obtain ⟨hp, hrec⟩ := records_given (hasId (parked st.flushText.doc)) proper_init
    (fun l hl => oneLine_of_mem_fileLines hl) hlines
  have hunset : ∀ i ∈ st.flushText.doc.items, i.unresolvedNeeds = [] := by
    rw [flushText_items]
    exact hp.unparked
  have hhas : hasId (parked st.flushText.doc) = hasId st.flushText.doc := by
    funext id
    rw [hasId, hasId, parked_ids]
  have hsame : records (hasId st.flushText.doc) st.flushText.doc =
      records (hasId st.flushText.doc) st.doc := by
    rw [records, records, flushText_items, flushText_edges]
  rw [hhas] at hrec ⊢
  rw [← hsame, records_parked hunset] at hrec
  exact hrec

/-! ## a task's lines -/

/-- Every checkbox that is written can be read. -/
theorem statusOf_checkbox (status : Option String) : ∃ s, statusOf (checkbox status) = some s := by
  unfold checkbox
  split <;> exact ⟨_, rfl⟩

/-- A task's first line is a task line, whatever it says. -/
theorem taskLine_renderTaskLine (d : Nat) (status : Option String) (title : Text) (words : List Text)
    (id : Text) : header (renderTaskLine d status title words id) = none ∧
      ∃ s, statusOf (checkbox status) = some s ∧
        taskLine (renderTaskLine d status title words id) =
          some (spaces d, s, lineText title words id) := by
  obtain ⟨s, hs⟩ := statusOf_checkbox status
  exact ⟨header_spaces (by simp), s, hs, taskLine_spaces hs d ' ' rfl _⟩

/-- The text of a line has no line end if none of its parts has one. -/
theorem oneLine_lineText {title : Text} {words : List Text} {id : Text} (htitle : '\n' ∉ title)
    (hwords : ∀ w ∈ words, '\n' ∉ w) (hid : '\n' ∉ id) : '\n' ∉ lineText title words id := by
  intro hline
  rcases mem_joinWords hline with hmem | ⟨w, hw, hmem⟩
  · exact absurd hmem (by decide)
  · simp only [List.cons_append, List.mem_cons, List.mem_append, List.mem_nil_iff, or_false] at hw
    rcases hw with rfl | hw | rfl
    · exact htitle hmem
    · exact hwords w hw hmem
    · rcases List.mem_cons.mp hmem with hmem | hmem
      · exact absurd hmem (by decide)
      · exact hid hmem

/-- The words of a task's modifiers. -/
def itemWords (item : SyncItem) (deps : List Text) : List Text :=
  (modifiers item.priority item.due item.tags item.mirrors (deps ++ item.unresolvedNeeds)).map
    Modifier.word

/-- The text after the checkbox of a task's line. -/
def itemLine (item : SyncItem) (deps : List Text) : Text :=
  lineText (splitContent item.content).1 (itemWords item deps) item.localId

/-- A task is rendered as its line and the lines of its body. -/
theorem renderTask_eq (item : SyncItem) (d : Nat) (deps : List Text) :
    renderTask item d deps =
      renderTaskLine d item.status (splitContent item.content).1 (itemWords item deps) item.localId ::
        (splitContent item.content).2.map (renderBodyLine d) :=
  rfl

/-- The lines of a task are one line each, where the text after its checkbox is. -/
theorem oneLine_renderTask {item : SyncItem} {d : Nat} {deps : List Text}
    (h : '\n' ∉ itemLine item deps) : ∀ l ∈ renderTask item d deps, '\n' ∉ l := by
  have hspaces : ∀ e, '\n' ∉ spaces e := fun e hmem => absurd (spaces_indent e _ hmem) (by decide)
  have hbox := (checkbox_ne_newline item.status).symm
  intro l hl
  rw [renderTask_eq] at hl
  rcases List.mem_cons.mp hl with rfl | hl
  · simpa [renderTaskLine, hspaces, hbox, itemLine] using h
  · obtain ⟨line, hline, rfl⟩ := List.mem_map.mp hl
    have hno := (oneLine_splitContent item.content).2 line hline
    rw [renderBodyLine_eq]
    simp [hspaces, hno]

/-! ## the text alone, read back -/

/-- A text that is no problem is read back as itself, from a file of one task. -/
theorem taskContentProblem_eq_none {content : Text} (h : taskContentProblem lib content = none) :
    ∃ back task, parse lib (renderDoc (probeDoc content)) = .ok back ∧ back.items.length ≤ 1 ∧
      back.item? probe = some task ∧ back.layout.all isItem = true ∧ task.content = content := by
  unfold taskContentProblem at h
  cases hparse : parse lib (renderDoc (probeDoc content)) with
  | error e => simp [hparse] at h
  | ok back =>
      simp only [hparse] at h
      split at h
      · cases h
      · rename_i hlen
        cases htask : back.item? probe with
        | none => simp [htask] at h
        | some task =>
            simp only [htask] at h
            split at h
            · cases h
            · rename_i hlayout
              split at h
              · cases h
              · split at h
                · cases h
                · rename_i hcontent
                  exact ⟨back, task, rfl, by omega, htask, by simpa using hlayout,
                    not_not.mp hcontent⟩

/-- A probe is rendered as the one task that it holds. -/
theorem renderDoc_probeDoc (content : Text) : renderDoc (probeDoc content) =
    ['\n'].intercalate
      (renderTask { localId := probe, kind := "task", content, status := some "open" } 0 []) ++ ['\n'] := by
  rw [renderDoc_listed (by simp [probeDoc]) (by simp [probeDoc])]
  simp [probeDoc, blockLines, lastItem?, depth, depthFrom, parentOf, depsOf]

/-- A second task, or prose: what a file of one task whose lines are all its own does not have. -/
def Strayed (st : ParseState) : Prop :=
  1 < st.doc.items.length ∨ st.textRun ≠ [] ∨ ∃ b ∈ st.doc.layout, isItem b = false

/-- What has strayed is seen in the document. -/
theorem Strayed.flush (h : Strayed st) :
    1 < st.flushText.doc.items.length ∨ st.flushText.doc.layout.all isItem = false := by
  rcases h with h | h | ⟨b, hb, hitem⟩
  · exact Or.inl (flushText_items st ▸ h)
  · right
    rw [ParseState.flushText, if_neg h]
    simp [isItem]
  · right
    rw [List.all_eq_false]
    refine ⟨b, ?_, by simp [hitem]⟩
    unfold ParseState.flushText
    split
    · exact hb
    · exact List.mem_append_left _ hb

/-- Once a line has strayed, no line makes up for it. -/
theorem Strayed.line (h : Strayed st) {lineNo : Nat} {line : Text}
    (hstep : st.line lib lineNo line = .ok st') : Strayed st' := by
  rcases line_cases hstep with ⟨level, text, -, rfl⟩ | ⟨indent, status, rest, -, -, hon⟩ | ⟨-, -, rfl⟩
  · exact Or.inr (Or.inr ⟨_, List.mem_append_right _ (List.mem_singleton_self _), rfl⟩)
  · obtain ⟨id, used, stack, -, -, rfl⟩ := onTask_eq_ok hon
    rcases h.flush with hlen | hlayout
    · left
      simp only [ParseState.addTask, List.length_append, List.length_singleton]
      omega
    · obtain ⟨b, hb, hitem⟩ := List.all_eq_false.mp hlayout
      exact Or.inr (Or.inr ⟨b, List.mem_append_left _ hb, by simpa using hitem⟩)
  · cases hcont : (st.takeContinuation line).1 with
    | false =>
        rw [onText_prose hcont]
        exact Or.inr (Or.inl (by simp))
    | true =>
        obtain ⟨o, -, -, hput⟩ := onText_body hcont
        rw [hput]
        exact h.imp (by simpa using ·) id

/-- What has strayed stays so, whatever lines follow. -/
theorem Strayed.lines {ls : List Text} (h : Strayed st) {lineNo : Nat}
    (hrun : st.lines lib lineNo ls = .ok st') : Strayed st' := by
  induction ls generalizing st lineNo with
  | nil =>
      obtain rfl := Except.ok.inj hrun
      exact h
  | cons l ls ih =>
      obtain ⟨st₁, hstep, hrest⟩ := lines_cons hrun
      exact ih (h.line hstep) hrest

/-- A line of a body, without the blanks it is rendered with. -/
theorem trimStart_renderBodyLine (d : Nat) (l : Text) : trimStart (renderBodyLine d l) = trimStart l := by
  rw [renderBodyLine_eq, trimStart_append (spaces_whitespace _)]

/-- **Where nothing strays, every line below a task is its body's.** -/
theorem body_taken {ls : List Text} {j : SyncItem} (hitems : st.doc.items = [j])
    (hopen : st.openTask = some (0, [])) {lineNo : Nat}
    (h : st.lines lib lineNo (ls.map (renderBodyLine 0)) = .ok st') (hstray : ¬ Strayed st') :
    (∀ l ∈ ls, taskLine l = none ∧ trim l ≠ []) ∧
      st'.doc.items =
        [{ j with content := j.content ++ ls.flatMap fun l => '\n' :: trimStart l }] := by
  induction ls generalizing st j lineNo with
  | nil =>
      obtain rfl := Except.ok.inj h
      simp [hitems]
  | cons l ls ih =>
      obtain ⟨st₁, hstep, hrest⟩ := lines_cons h
      have hstray₁ : ¬ Strayed st₁ := fun hs => hstray (hs.lines hrest)
      obtain ⟨hheader, hsome⟩ := text_body 0 l
      simp only [Row.text] at hheader hsome
      rcases line_cases hstep with ⟨level, text, hh, -⟩ | ⟨indent, status, rest, -, -, hon⟩ | ⟨-, htask, rfl⟩
      · rw [hheader] at hh
        cases hh
      · obtain ⟨id, used, stack, -, -, rfl⟩ := onTask_eq_ok hon
        exact absurd (Or.inl (by simp [ParseState.addTask, flushText_items, hitems])) hstray₁
      · cases hcont : (st.takeContinuation (renderBodyLine 0 l)).1 with
        | false =>
            rw [onText_prose hcont] at hstray₁
            exact absurd (Or.inr (Or.inl (by simp))) hstray₁
        | true =>
            obtain ⟨o, ho, hends, hput⟩ := onText_body hcont
            obtain rfl : o = (0, []) := Option.some.inj (ho.symm.trans hopen)
            have hitems₁ : (st.onText (renderBodyLine 0 l)).doc.items =
                [{ j with content := j.content ++ '\n' :: trimStart (renderBodyLine 0 l) }] := by
              rw [hput]
              simp [hitems]
            obtain ⟨hbody, hitems'⟩ := ih hitems₁ (by rw [hput]; exact hopen) hrest
            refine ⟨fun m hm => ?_, ?_⟩
            · rcases List.mem_cons.mp hm with rfl | hm
              · rw [htask] at hsome
                refine ⟨by simpa using hsome.symm, fun hblank => ?_⟩
                rw [endsTaskBody, trim, trimStart_renderBodyLine, ← trim, hblank] at hends
                cases hends
              · exact hbody m hm
            · rw [hitems', trimStart_renderBodyLine]
              simp

/-- The items after the parking are the items before, with other needs. -/
theorem mem_parked_items {doc : SyncDoc} {i : SyncItem} (h : i ∈ (parked doc).items) :
    ∃ j ∈ doc.items, ∃ needs, i = { j with unresolvedNeeds := needs } := by
  obtain ⟨j, hj, rfl⟩ := List.mem_map.mp h
  refine ⟨j, hj, ?_⟩
  split
  · exact ⟨j.unresolvedNeeds, rfl⟩
  · exact ⟨_, rfl⟩

/-- The first line of a file, where it is a task's. -/
theorem lines_renderTask {item : SyncItem} {deps : List Text} {ls : List Text} {lineNo : Nat}
    (h : ({} : ParseState).lines lib lineNo (renderTask item 0 deps ++ ls) = .ok st') :
    ∃ s id used, statusOf (checkbox item.status) = some s ∧
      ParseState.takeId lib {} (parseTaskTokens lib (itemLine item deps)) = .ok (id, used) ∧
      ∃ st₁ : ParseState, st₁.doc.items =
          [({} : ParseState).newItem id s (parseTaskTokens lib (itemLine item deps)) none] ∧
        st₁.openTask = some (0, []) ∧
        st₁.lines lib (lineNo + 1) ((splitContent item.content).2.map (renderBodyLine 0) ++ ls) =
          .ok st' := by
  rw [renderTask_eq, List.cons_append] at h
  obtain ⟨st₁, hstep, hrest⟩ := lines_cons h
  obtain ⟨hheader, s, hs, htask⟩ := taskLine_renderTaskLine 0 item.status (splitContent item.content).1
    (itemWords item deps) item.localId
  rw [line_of_task hheader htask] at hstep
  obtain ⟨id, used, stack, htake, hpop, rfl⟩ := onTask_eq_ok hstep
  obtain rfl : [] = stack := Except.ok.inj hpop
  exact ⟨s, id, used, hs, htake, _, rfl, rfl, hrest⟩

/-- **A text that is no problem** has a body of lines that are no task lines, not blank, and without
indentation. -/
theorem body_of_taskContentProblem {content : Text} (h : taskContentProblem lib content = none) :
    ∀ l ∈ (splitContent content).2, taskLine l = none ∧ l ≠ [] ∧ trimStart l = l := by
  obtain ⟨back, task, hparse, hlen, htask, hlayout, hcontent⟩ := taskContentProblem_eq_none h
  rw [renderDoc_probeDoc] at hparse
  set item : SyncItem := { localId := probe, kind := "task", content, status := some "open" }
  have hone : '\n' ∉ itemLine item [] :=
    oneLine_lineText (oneLine_splitContent content).1 (by simp [itemWords, item, modifiers])
      (by simp only [item]; decide)
  obtain ⟨st, hlines, -, rfl⟩ := (parse_eq_ok (by simp)).mp hparse
  rw [fileLines_intercalate (renderTask_ne_nil _ _ _) (oneLine_renderTask hone)] at hlines
  rw [← List.append_nil (renderTask item 0 [])] at hlines
  obtain ⟨s, id, used, -, -, st₁, hitems, hopen, hbody⟩ := lines_renderTask hlines
  rw [List.append_nil] at hbody
  have hstray : ¬ Strayed st := by
    intro hs
    rcases hs.flush with hmany | hprose
    · rw [← List.length_map SyncItem.localId] at hmany hlen
      have hids : (parked st.flushText.doc).items.map SyncItem.localId =
        st.flushText.doc.items.map SyncItem.localId := parked_ids st.flushText.doc
      rw [hids] at hlen
      omega
    · have hsame : (parked st.flushText.doc).layout = st.flushText.doc.layout := rfl
      rw [hsame, hprose] at hlayout
      cases hlayout
  obtain ⟨htaken, hitems'⟩ := body_taken hitems hopen hbody hstray
  -- the text that is read is that of the lines as the parser takes them
  have hread : content = (parseTaskTokens lib (itemLine item [])).title ++
      ((splitContent content).2.map trimStart).flatMap ('\n' :: ·) := by
    obtain ⟨j, hj, needs, rfl⟩ := mem_parked_items (List.mem_of_find?_eq_some htask)
    rw [flushText_items, hitems', List.mem_singleton] at hj
    have hj' : j.content = (parseTaskTokens lib (itemLine item [])).title ++
        (splitContent content).2.flatMap fun l => '\n' :: trimStart l :=
      congrArg SyncItem.content hj
    rw [List.flatMap_map]
    exact hcontent.symm.trans hj'
  have htrim : ∀ l ∈ (splitContent content).2.map trimStart, '\n' ∉ l := by
    intro l hl hmem
    obtain ⟨m, hm, rfl⟩ := List.mem_map.mp hl
    exact (oneLine_splitContent content).2 m hm ((List.dropWhile_suffix _).subset hmem)
  have hsplit := splitContent_flatMap (title_oneLine lib hone) htrim
  rw [← hread] at hsplit
  have hmap : (splitContent content).2.map trimStart = (splitContent content).2 := by
    conv_rhs => rw [hsplit]
  intro l hl
  obtain ⟨hno, hblank⟩ := htaken l hl
  refine ⟨hno, ?_, List.map_inj_left.mp (hmap.trans (List.map_id _).symm) l hl⟩
  rintro rfl
  exact hblank rfl

/-! ## the whole line, read back -/

/-- What a task and what it is read back as have in common, where no difference is found. -/
structure SameFields (item : SyncItem) (deps : List Text) (back : SyncDoc) (got : SyncItem) : Prop where
  priority : got.priority = item.priority
  due : got.due = item.due
  tags : got.tags.Perm item.tags
  mirrors : got.mirrors.Perm item.mirrors
  deps : (depsOf back item.localId).Perm deps
  needs : got.unresolvedNeeds = item.unresolvedNeeds
  status : got.status = item.status
  content : got.content = item.content

/-- Lists that are equal once sorted have the same elements. -/
theorem perm_of_sorted {xs ys : List Text}
    (h : xs.insertionSort (· ≤ ·) = ys.insertionSort (· ≤ ·)) : xs.Perm ys :=
  (List.perm_insertionSort _ xs).symm.trans (h ▸ List.perm_insertionSort _ ys)

/-- So have lists of pairs. -/
theorem perm_of_sortPairs {xs ys : List (Text × Text)} (h : sortPairs xs = sortPairs ys) :
    xs.Perm ys := by
  rw [sortPairs, sortPairs] at h
  have hperm : (xs.map toLex).Perm (ys.map toLex) :=
    (List.perm_insertionSort _ _).symm.trans (h ▸ List.perm_insertionSort _ (ys.map toLex))
  exact (List.map_perm_map_iff toLex.injective).mp hperm

/-- Where no difference is found, all fields agree. -/
theorem firstDifference_eq_none {item : SyncItem} {deps : List Text} {back : SyncDoc} {got : SyncItem}
    (h : firstDifference item deps back got = none) : SameFields item deps back got := by
  unfold firstDifference at h
  grind [perm_of_sorted, perm_of_sortPairs, SameFields]

/-- A line without a difference is read as a file, of which the task with its id is as it was. -/
theorem lineDifference_eq_none {item : SyncItem} {deps : List Text}
    (h : lineDifference lib item deps = none) :
    ∃ back got, parse lib (renderDoc (lineDoc item deps)) = .ok back ∧
      back.item? item.localId = some got ∧ SameFields item deps back got := by
  unfold lineDifference at h
  cases hparse : parse lib (renderDoc (lineDoc item deps)) with
  | error e => simp [hparse] at h
  | ok back =>
      cases hgot : back.item? item.localId with
      | none => simp [hparse, hgot] at h
      | some got =>
          simp only [hparse, hgot] at h
          exact ⟨back, got, rfl, hgot, firstDifference_eq_none h⟩

/-- A rendering is never empty. -/
theorem renderDoc_ne_nil (doc : SyncDoc) : renderDoc doc ≠ [] := by
  rw [renderDoc]
  simp

/-- The ids of a parsed file can be written as anchors. -/
theorem isUriSafe_of_parse {text : Text} (hne : text ≠ []) {back : SyncDoc}
    (h : parse lib text = .ok back) {id : Text} (hid : id ∈ back.ids) : isUriSafe lib id = true := by
  obtain ⟨st, hlines, -, rfl⟩ := (parse_eq_ok hne).mp h
  refine isUriSafe_of_hasId hlines id ?_
  rw [parked_ids] at hid
  exact decide_eq_true hid

/-- The id of a task that passes can be written as an anchor. -/
theorem isUriSafe_of_lineDifference {item : SyncItem} {deps : List Text}
    (h : lineDifference lib item deps = none) : isUriSafe lib item.localId = true := by
  obtain ⟨back, got, hparse, hgot, -⟩ := lineDifference_eq_none h
  exact isUriSafe_of_parse (renderDoc_ne_nil _) hparse (SyncDoc.item?_isSome.mp (by rw [hgot]; rfl))

/-- What a parsed item's line said, and that it was one line. -/
theorem exists_line_of_parse {text : Text} (hne : text ≠ []) {back : SyncDoc}
    (h : parse lib text = .ok back) {i : SyncItem} (hi : i ∈ back.items) :
    ∃ p, (i.localId, p) ∈ given lib {} (tasks lib (fileLines text)) ∧
      saidOf back i = lineRecord (hasId back) i.localId p ∧ ∀ m ∈ p.modifiers, '\n' ∉ m.word := by
  have hsaid := saidOf_parse hne h
  have hmem : saidOf back i ∈ back.items.map (saidOf back) := List.mem_map_of_mem hi
  rw [hsaid] at hmem
  obtain ⟨⟨id, p⟩, hp, heq⟩ := List.mem_map.mp hmem
  have hid : id = i.localId := congrArg (·.1.1) heq
  subst hid
  refine ⟨p, hp, heq.symm, fun m hm => ?_⟩
  obtain ⟨t, ht, rfl⟩ := List.mem_map.mp (mem_of_given hp)
  obtain ⟨line, hline, hdeclared⟩ := List.mem_filterMap.mp ht
  have hone := oneLine_of_mem_fileLines hline
  unfold declared at hdeclared
  split at hdeclared
  · obtain ⟨⟨indent, status, rest⟩, htask, rfl⟩ := Option.map_eq_some_iff.mp hdeclared
    exact (word_parseTaskTokens lib (fun hmem => hone ((taskLine_eq_some htask).2 _ hmem)) hm).2.1.oneLine
  · cases hdeclared

/-- The modifiers of a line are its priority, its due date, its tags, its mirrors and its dependencies. -/
theorem mem_modifiers {p : Option Int} {d : Option Text} {tags : List (Text × Text)}
    {mirrors deps : List Text} {m : Modifier} :
    m ∈ modifiers p d tags mirrors deps ↔ (∃ n, p = some n ∧ m = .priority n) ∨
      (∃ t, d = some t ∧ m = .due t) ∨ (∃ t ∈ tags, m = .tag t.1 t.2) ∨
      (∃ ns ∈ mirrors, m = .mirror ns) ∨ ∃ dep ∈ deps, m = .dep dep := by
  simp only [modifiers, List.mem_append, Option.mem_toList, Option.map_eq_some_iff, List.mem_map]
  grind

/-- A line without a difference is one line, and so are the ids it needs. -/
theorem oneLine_of_sameFields {item : SyncItem} {deps : List Text} {text : Text} (hne : text ≠ [])
    {back : SyncDoc} (hparse : parse lib text = .ok back) {got : SyncItem}
    (hgot : back.item? item.localId = some got) (h : SameFields item deps back got) :
    '\n' ∉ itemLine item deps ∧ ∀ d ∈ deps, '\n' ∉ d := by
  have hmem : got ∈ back.items := List.mem_of_find?_eq_some hgot
  have hid : got.localId = item.localId := SyncDoc.localId_of_item? hgot
  obtain ⟨p, -, hsaid, hone⟩ := exists_line_of_parse hne hparse hmem
  simp only [saidOf, lineRecord, Prod.mk.injEq, hid] at hsaid
  obtain ⟨⟨-, -, hprio, hdue, htags, hmirrors⟩, hdeps, hneeds⟩ := hsaid
  have hdep : ∀ d, d ∈ deps ∨ d ∈ item.unresolvedNeeds → d ∈ p.deps := by
    rintro d (hd | hd)
    · exact List.mem_of_mem_filter (hdeps ▸ h.deps.mem_iff.mpr hd)
    · exact List.mem_of_mem_filter (hneeds ▸ h.needs ▸ hd)
  have hword : ∀ m ∈ modifiers item.priority item.due item.tags item.mirrors
      (deps ++ item.unresolvedNeeds), '\n' ∉ m.word := by
    intro m hm
    refine hone m ?_
    rw [mem_modifiers] at hm
    rw [TaskTokens.modifiers, mem_modifiers, ← hprio, ← hdue, ← htags, ← hmirrors, h.priority, h.due]
    rcases hm with hm | hm | ⟨t, ht, rfl⟩ | ⟨ns, hns, rfl⟩ | ⟨d, hd, rfl⟩
    · exact Or.inl hm
    · exact Or.inr (Or.inl hm)
    · exact Or.inr (Or.inr (Or.inl ⟨t, h.tags.mem_iff.mpr ht, rfl⟩))
    · exact Or.inr (Or.inr (Or.inr (Or.inl ⟨ns, h.mirrors.mem_iff.mpr hns, rfl⟩)))
    · exact Or.inr (Or.inr (Or.inr (Or.inr ⟨d, hdep d (List.mem_append.mp hd), rfl⟩)))
  have hsafe : '\n' ∉ item.localId := by
    have hback : item.localId ∈ back.ids := hid ▸ List.mem_map_of_mem hmem
    intro hnl
    have hwhite := ((isUriSafe_chars lib (isUriSafe_of_parse hne hparse hback)).2 _ hnl).1
    exact absurd hwhite (by decide)
  refine ⟨oneLine_lineText (oneLine_splitContent _).1 (fun w hw => ?_) hsafe, fun d hd hnl => ?_⟩
  · obtain ⟨m, hm, rfl⟩ := List.mem_map.mp hw
    exact hword m hm
  · refine hword (.dep d) (mem_modifiers.mpr ?_) (List.mem_append_right _ hnl)
    exact Or.inr (Or.inr (Or.inr (Or.inr ⟨d, List.mem_append_left _ hd, rfl⟩)))

/-! ## the file of one line -/

/-- The lines of the stubs. -/
def stubLines (deps : List Text) : List Text := deps.flatMap fun d => renderTask (stub d) 0 []

/-- An item without a parent is at the top. -/
theorem depth_of_no_parent {doc : SyncDoc} {id : Text} (h : parentOf doc id = none) :
    depth doc id = 0 := by
  rw [depth, depthFrom, h]

/-- The document of one line is rendered as its task and the stubs of its dependencies. -/
theorem renderDoc_lineDoc {item : SyncItem} {deps : List Text} (hkind : item.kind = "task")
    (hown : item.localId ∉ deps) : renderDoc (lineDoc item deps) =
      ['\n'].intercalate (renderTask item 0 deps ++ stubLines deps) ++ ['\n'] := by
  have hparent : ∀ id, parentOf (lineDoc item deps) id = none := by
    intro id
    cases hp : parentOf (lineDoc item deps) id with
    | none => rfl
    | some p =>
        obtain ⟨d, -, hd⟩ := List.mem_map.mp (parentOf_eq_some hp)
        cases hd
  have hdepth : ∀ id, depth (lineDoc item deps) id = 0 := fun id => depth_of_no_parent (hparent id)
  have hdeps : ∀ id, depsOf (lineDoc item deps) id = if id = item.localId then deps else [] := by
    intro id
    by_cases hid : id = item.localId
    · simp [depsOf, lineDoc, hid, List.filter_map, Function.comp_def]
    · simp [depsOf, lineDoc, hid, List.filter_map, Function.comp_def, Ne.symm hid]
  have hfirst : lastItem? (lineDoc item deps) item.localId =
      some { item with parent := none, sectionPath := none } := by
    refine find?_of_unique (by simp [lineDoc]) (by simp) fun i hi hid => ?_
    rcases List.mem_cons.mp (List.mem_reverse.mp hi) with rfl | hi
    · rfl
    · obtain ⟨d, hd, rfl⟩ := List.mem_map.mp hi
      have heq : d = item.localId := of_decide_eq_true hid
      exact absurd (heq ▸ hd) hown
  have hstub : ∀ d ∈ deps, lastItem? (lineDoc item deps) d = some (stub d) := by
    intro d hd
    refine find?_of_unique ?_ (by simp [stub]) fun i hi hid => ?_
    · exact List.mem_reverse.mpr (List.mem_cons_of_mem _ (List.mem_map_of_mem hd))
    · rcases List.mem_cons.mp (List.mem_reverse.mp hi) with rfl | hi
      · have heq : item.localId = d := of_decide_eq_true hid
        exact absurd (heq ▸ hd) hown
      · obtain ⟨e, -, rfl⟩ := List.mem_map.mp hi
        have heq : e = d := of_decide_eq_true hid
        rw [heq]
  rw [renderDoc_listed]
  · have hitem : blockLines (lineDoc item deps) (.item item.localId) = renderTask item 0 deps := by
      simp only [blockLines, hfirst, Option.map_some, Option.getD_some, hdepth, hdeps, if_true]
      rfl
    have hstubs : ∀ d ∈ deps, blockLines (lineDoc item deps) (.item d) = renderTask (stub d) 0 [] := by
      intro d hd
      have hne : d ≠ item.localId := fun heq => hown (heq ▸ hd)
      simp [blockLines, hstub d hd, hdepth, hdeps, stub, hne]
    have hlayout : (lineDoc item deps).layout = .item item.localId :: deps.map .item := rfl
    rw [hlayout, List.flatMap_cons, hitem, List.flatMap_map, stubLines]
    congr 3
    exact List.flatMap_congr hstubs
  · simp [lineDoc, stub, hkind]
  · simp [lineDoc, stub]
    exact fun d hd => Or.inr hd

/-- The content of a stub reads as what it is. -/
theorem settled_stub : Settled lib (stub []).content [] where
  trimmed := by decide
  noAnchor := rfl
  plain := by decide
  notModifier t ht := by
    have htokens : tokenize (stub []).content = [(stub []).content] := by decide
    rw [htokens] at ht
    obtain rfl := Option.some.inj ht
    rfl
  titleClosed h := absurd rfl h
  closed := by simp

/-- A stub's line claims the id it stands for, and needs nothing. -/
theorem parseTaskTokens_stub {d : Text} (hd : isUriSafe lib d = true) :
    parseTaskTokens lib (lineText (stub []).content [] d) =
      { title := (stub []).content, ownId := some d } :=
  @parseTaskTokens_lineText lib (stub []).content d none none [] [] [] hd (by simp [modifiers])
    settled_stub

/-- The tasks of lines, one after another. -/
theorem tasks_append (xs ys : List Text) : tasks lib (xs ++ ys) = tasks lib xs ++ tasks lib ys := by
  simp [tasks]

/-- A rendered task is read at the depth that it is rendered at. -/
theorem declared_renderTaskLine (d : Nat) (status : Option String) (title : Text) (words : List Text)
    (id : Text) : declared lib (renderTaskLine d status title words id) =
      some (spaces d, parseTaskTokens lib (lineText title words id)) := by
  obtain ⟨hheader, s, -, htask⟩ := taskLine_renderTaskLine d status title words id
  exact declared_task hheader htask

/-- A rendered line of a body declares no task. -/
theorem declared_renderBodyLine (d : Nat) {l : Text} (h : taskLine l = none) :
    declared lib (renderBodyLine d l) = none := by
  obtain ⟨hheader, hsome⟩ := text_body d l
  simp only [Row.text] at hheader hsome
  refine declared_text hheader ?_
  rw [h] at hsome
  simpa using hsome

/-- The lines of a task declare it, and nothing else. -/
theorem tasks_renderTask {item : SyncItem} (hbody : ∀ l ∈ (splitContent item.content).2, taskLine l = none)
    (d : Nat) (deps : List Text) :
    tasks lib (renderTask item d deps) = [parseTaskTokens lib (itemLine item deps)] := by
  have hnone : ((splitContent item.content).2.map (renderBodyLine d)).filterMap (declared lib) = [] := by
    refine List.filterMap_eq_nil_iff.mpr fun l hl => ?_
    obtain ⟨m, hm, rfl⟩ := List.mem_map.mp hl
    exact declared_renderBodyLine d (hbody m hm)
  rw [renderTask_eq, tasks, List.filterMap_cons_some (declared_renderTaskLine _ _ _ _ _), hnone]
  rfl

/-- The tasks of the stubs are the dependencies. -/
theorem tasks_stubLines {deps : List Text} (hdeps : ∀ d ∈ deps, isUriSafe lib d = true) :
    tasks lib (stubLines deps) = deps.map fun d => { title := (stub []).content, ownId := some d } := by
  induction deps with
  | nil => rfl
  | cons d deps ih =>
      have hrest := ih fun e he => hdeps e (List.mem_cons_of_mem _ he)
      have hone : tasks lib (renderTask (stub d) 0 []) = [{ title := (stub []).content, ownId := some d }] := by
        have hbody : ∀ l ∈ (splitContent (stub d).content).2, taskLine l = none := by
          have hnil : (splitContent (stub []).content).2 = [] := by decide
          change ∀ l ∈ (splitContent (stub []).content).2, taskLine l = none
          simp [hnil]
        rw [tasks_renderTask hbody]
        exact congrArg (fun p => [p]) (parseTaskTokens_stub (hdeps d List.mem_cons_self))
      rw [stubLines, List.flatMap_cons, tasks_append, hone, ← stubLines, hrest]
      rfl

/-- A stub is one line. -/
theorem oneLine_stubLines {deps : List Text} (hdeps : ∀ d ∈ deps, '\n' ∉ d) :
    ∀ l ∈ stubLines deps, '\n' ∉ l := by
  intro l hl
  obtain ⟨d, hd, hl⟩ := List.mem_flatMap.mp hl
  refine oneLine_renderTask (oneLine_lineText ?_ (by simp [itemWords, stub, modifiers]) (hdeps d hd)) l hl
  exact (oneLine_splitContent _).1

/-- A line written with an anchor claims an id. -/
theorem isSome_ownId_lineText (title : Text) (words : List Text) {id : Text}
    (hid : isUriSafe lib id = true) :
    (parseTaskTokens lib (lineText title words id)).ownId.isSome = true := by
  have hanchor : (splitTrailingAnchor lib (lineText title words id)).2.isSome = true := by
    obtain ⟨hlast, htrim⟩ := lastWord_anchored lib (joinWords (title :: words)) hid
    rw [lineText_eq, splitTrailingAnchor, htrim]
    have hlen : (joinWords (title :: words) ++ ' ' :: '^' :: id).length =
        ((joinWords (title :: words)).length + id.length + 1) + 1 := by
      simp only [List.length_append, List.length_cons]
      omega
    rw [hlen, peelAnchors, hlast, (anchorId_eq_some lib).mpr ⟨rfl, hid⟩]
    have hsome := @peelAnchors_isSome lib ((joinWords (title :: words)).length + id.length + 1)
      (trimEnd (joinWords (title :: words))) (some id) rfl
    split
    · rfl
    · rename_i head heq
      have hnone := congrArg Prod.snd heq
      simp only [] at hnone
      rw [hnone] at hsome
      cases hsome
  unfold parseTaskTokens
  simp only [hanchor, if_true]

/-- Reading on leaves the tasks that are there their ids and statuses. -/
theorem statuses_lines {ls : List Text} {lineNo : Nat} (h : st.lines lib lineNo ls = .ok st') :
    (st.doc.items.map fun i => (i.localId, i.status)) <+:
      st'.doc.items.map fun i => (i.localId, i.status) := by
  induction ls generalizing st lineNo with
  | nil =>
      obtain rfl := Except.ok.inj h
      exact List.prefix_refl _
  | cons l ls ih =>
      obtain ⟨st₁, hstep, hrest⟩ := lines_cons h
      refine List.IsPrefix.trans ?_ (ih hrest)
      rcases line_cases hstep with ⟨level, text, -, rfl⟩ | ⟨indent, status, rest, -, -, hon⟩ | ⟨-, -, rfl⟩
      · rw [(onHeader_spec l level text).1]
      · obtain ⟨id, used, stack, -, -, rfl⟩ := onTask_eq_ok hon
        simp only [ParseState.addTask, flushText_items, List.map_append]
        exact List.prefix_append _ _
      · cases hcont : (st.takeContinuation l).1 with
        | false =>
            rw [onText_prose hcont]
        | true =>
            obtain ⟨o, -, -, hput⟩ := onText_body hcont
            rw [hput]
            simp only []
            rw [map_modify (by exact fun _ => rfl)]

/-! ## what passes -/

/-- **What a task that passes is read as**, wherever its line stands: its lines are single lines, those
of its body are not blank, not indented and no task lines, and the text after its checkbox reads as its
own fields. -/
structure Passes (lib : Lib) (item : SyncItem) (deps : List Text) : Prop where
  safe : isUriSafe lib item.localId = true
  oneLine : '\n' ∉ itemLine item deps
  body : ∀ l ∈ (splitContent item.content).2, taskLine l = none ∧ l ≠ [] ∧ trimStart l = l
  status : statusOf (checkbox item.status) = item.status
  title : (parseTaskTokens lib (itemLine item deps)).title = (splitContent item.content).1
  ownId : (parseTaskTokens lib (itemLine item deps)).ownId = some item.localId
  priority : (parseTaskTokens lib (itemLine item deps)).priority = item.priority
  due : (parseTaskTokens lib (itemLine item deps)).due = item.due
  tags : (parseTaskTokens lib (itemLine item deps)).tags.Perm item.tags
  mirrors : (parseTaskTokens lib (itemLine item deps)).mirrors.Perm item.mirrors
  needed : ((parseTaskTokens lib (itemLine item deps)).deps.filter
    fun d => d ∈ item.localId :: deps).Perm deps
  unresolved : ((parseTaskTokens lib (itemLine item deps)).deps.filter
    fun d => !decide (d ∈ item.localId :: deps)) = item.unresolvedNeeds

/-- Where each line claims its id, the lines are given the ids they claim. -/
theorem given_map {α : Type*} (f : α → Text) (g : α → TaskTokens) {xs : List α}
    (h : ∀ x ∈ xs, (g x).ownId = some (f x)) (used : Taken) :
    given lib used (xs.map g) = xs.map fun x => (f x, g x) := by
  induction xs generalizing used with
  | nil => rfl
  | cons x xs ih =>
      have hgive : (give lib used (g x)).1 = f x := by simp [give, h x List.mem_cons_self]
      rw [List.map_cons, given, hgive, ih fun y hy => h y (List.mem_cons_of_mem _ hy), List.map_cons]

/-- The task that a file starts with is read with the status of its first line. -/
theorem status_of_parse {text : Text} (hne : text ≠ []) {back : SyncDoc} (hparse : parse lib text = .ok back)
    {item got : SyncItem} {deps rest : List Text} (hfile : fileLines text = renderTask item 0 deps ++ rest)
    (hgive : (give lib {} (parseTaskTokens lib (itemLine item deps))).1 = item.localId)
    (hgot : back.item? item.localId = some got) : statusOf (checkbox item.status) = got.status := by
  obtain ⟨st, hlines, -, rfl⟩ := (parse_eq_ok hne).mp hparse
  rw [hfile] at hlines
  obtain ⟨s, id, used, hs, htake, st₁, hitems, -, hrest⟩ := lines_renderTask hlines
  obtain ⟨-, hgive'⟩ := takeId_iff.mp htake
  obtain rfl : id = item.localId := (congrArg Prod.fst hgive').symm.trans hgive
  obtain ⟨more, hmore⟩ := statuses_lines hrest
  rw [hitems, ← flushText_items] at hmore
  have hparked : (parked st.flushText.doc).items.map (fun i => (i.localId, i.status)) =
      st.flushText.doc.items.map fun i => (i.localId, i.status) := by
    simp only [parked, parkDanglingDependencies, List.map_map]
    refine List.map_congr_left fun i _ => ?_
    simp only [Function.comp_apply]
    split <;> rfl
  rw [← hparked] at hmore
  obtain ⟨i, is, his, hi, -⟩ := List.map_eq_cons_iff.mp hmore.symm
  obtain ⟨hid, hstatus⟩ := Prod.mk.inj hi
  have hid' : i.localId = item.localId := hid
  have hfirst : i = got := by
    rw [SyncDoc.item?, his, List.find?_cons_of_pos (by simpa using hid')] at hgot
    exact Option.some.inj hgot
  rw [hs, ← hfirst, hstatus]
  rfl

/-- **A task whose line alone comes back passes.** -/
theorem passes_of_taskLineProblem {item : SyncItem} {deps : List Text} (hkind : item.kind = "task")
    (hown : item.localId ∉ deps) (hdeps : ∀ d ∈ deps, isUriSafe lib d = true)
    (h : taskLineProblem lib item deps = none) : Passes lib item deps := by
  obtain ⟨hcontent, hline⟩ := (taskLineProblem_eq_none lib).mp h
  have hbody := body_of_taskContentProblem hcontent
  have hsafe := isUriSafe_of_lineDifference hline
  obtain ⟨back, got, hparse, hgot, hsame⟩ := lineDifference_eq_none hline
  obtain ⟨hone, honeDeps⟩ := oneLine_of_sameFields (renderDoc_ne_nil _) hparse hgot hsame
  have hfile : fileLines (renderDoc (lineDoc item deps)) = renderTask item 0 deps ++ stubLines deps := by
    rw [renderDoc_lineDoc hkind hown]
    refine fileLines_intercalate (List.append_ne_nil_of_left_ne_nil (renderTask_ne_nil _ _ _) _)
      fun l hl => ?_
    rcases List.mem_append.mp hl with hl | hl
    · exact oneLine_renderTask hone l hl
    · exact oneLine_stubLines honeDeps l hl
  -- the lines that declare a task are the item's own and the stubs'
  obtain ⟨p, hp, hsaid, -⟩ := exists_line_of_parse (renderDoc_ne_nil _) hparse
    (List.mem_of_find?_eq_some hgot)
  have hids := congrArg (List.map (·.1.1)) (saidOf_parse (renderDoc_ne_nil _) hparse)
  rw [hfile, tasks_append, tasks_renderTask (fun l hl => (hbody l hl).1), tasks_stubLines hdeps,
    List.singleton_append, given, given_map (fun d => d) _ (fun _ _ => rfl)] at hp hids
  obtain ⟨own, howned⟩ := Option.isSome_iff_exists.mp
    (@isSome_ownId_lineText lib (splitContent item.content).1 (itemWords item deps) item.localId hsafe)
  have hgive : (give lib {} (parseTaskTokens lib (itemLine item deps))).1 = own := by
    rw [give, itemLine, howned]
  rw [hgive] at hp hids
  have hid : got.localId = item.localId := SyncDoc.localId_of_item? hgot
  rw [hid] at hp hsaid
  obtain ⟨rfl, rfl⟩ : item.localId = own ∧ p = parseTaskTokens lib (itemLine item deps) := by
    rcases List.mem_cons.mp hp with hp | hp
    · exact ⟨congrArg Prod.fst hp, congrArg Prod.snd hp⟩
    · obtain ⟨d, hd, heq⟩ := List.mem_map.mp hp
      have hd' : d = item.localId := congrArg Prod.fst heq
      exact absurd (hd' ▸ hd) hown
  have hback : back.ids = item.localId :: deps := by
    simpa [saidOf, lineRecord, SyncDoc.ids, Function.comp_def] using hids
  have hhas : hasId back = fun d => decide (d ∈ item.localId :: deps) := by
    funext d
    rw [hasId, hback]
  simp only [saidOf, lineRecord, Prod.mk.injEq, hid, hhas] at hsaid
  obtain ⟨⟨-, htitle, hprio, hdue, htags, hmirrors⟩, hread, hneeds⟩ := hsaid
  refine ⟨hsafe, hone, hbody, ?_, ?_, howned, ?_, ?_, ?_, ?_, ?_, ?_⟩
  · rw [status_of_parse (renderDoc_ne_nil _) hparse hfile hgive hgot, hsame.status]
  · rw [← htitle, hsame.content]
  · rw [← hprio, hsame.priority]
  · rw [← hdue, hsame.due]
  · rw [← htags]
    exact hsame.tags
  · rw [← hmirrors]
    exact hsame.mirrors
  · rw [← hread]
    exact hsame.deps
  · rw [← hneeds, hsame.needs]

end Jkb.Sync.Tasks
