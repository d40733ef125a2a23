import Jkb.Sync.Tasks.Render
import Jkb.Sync.Tasks.Reread

/-!
# Jkb.Sync.Tasks.Rows

The lines of a rendered file as rows, each with what it says, and the parser's effect on each kind.
`lines_rows` says that reading rows one after another puts in what they say, as long as each row fits
where it stands.
-/

namespace Jkb.Sync.Tasks

open Jkb.Text Jkb.Dsl

/-- A task's modifiers, in the order a line writes them. -/
def TaskTokens.modifiers (parsed : TaskTokens) : List Modifier :=
  Tasks.modifiers parsed.priority parsed.due parsed.tags parsed.mirrors parsed.deps

/-- A task's modifiers as the words a line writes. -/
def TaskTokens.words (parsed : TaskTokens) : List Text := parsed.modifiers.map Modifier.word

/-- One line of a rendered file, and what it says. -/
inductive Row where
  | header (line : Text) (level : Nat) (headerText : Text)
  | task (depth : Nat) (status : String) (parsed : TaskTokens) (id : Text)
  | body (depth : Nat) (line : Text)
  | prose (line : Text)

/-- The text of a row. -/
def Row.text : Row → Text
  | .header line _ _ => line
  | .task depth status parsed id => renderTaskLine depth (some status) parsed.title parsed.words id
  | .body depth line => renderBodyLine depth line
  | .prose line => line

/-! ## the shape of the lines written -/

/-- The blanks of an indentation are such. -/
theorem spaces_indent (d : Nat) : ∀ c ∈ spaces d, isIndent c = true := by
  intro c hc
  rw [List.eq_of_mem_replicate hc]
  rfl

/-- An indentation is blank. -/
theorem spaces_whitespace (d : Nat) : ∀ c ∈ spaces d, isWhitespace c = true := by
  intro c hc
  rw [List.eq_of_mem_replicate hc]
  rfl

@[simp] theorem length_spaces (d : Nat) : (spaces d).length = 2 * d := List.length_replicate

/-- One level deeper is two blanks more. -/
theorem spaces_succ (d : Nat) (t : Text) : spaces d ++ ' ' :: ' ' :: t = spaces (d + 1) ++ t := by
  have h : spaces (d + 1) = spaces d ++ [' ', ' '] := by
    rw [spaces, spaces, Nat.mul_add, List.replicate_add]
    rfl
  rw [h, List.append_assoc]
  rfl

/-- A canonical indentation extends another exactly if it is deeper. -/
theorem strictlyExtends_spaces {d e : Nat} :
    strictlyExtends (spaces d) (spaces e) = true ↔ e < d := by
  rw [strictlyExtends, Bool.and_eq_true, decide_eq_true_eq, decide_eq_true_eq, length_spaces,
    length_spaces]
  constructor
  · intro h
    omega
  · intro h
    exact ⟨by omega, by rw [spaces, spaces, List.prefix_replicate_iff]; simp; omega⟩

/-- A deeper indentation begins with the other. -/
theorem spaces_le {d e : Nat} (h : d ≤ e) : spaces d <+: spaces e := by
  rw [spaces, spaces, List.prefix_replicate_iff]
  simp
  omega

/-- A line that does not begin with a `#` is no header. -/
theorem header_eq_none {line : Text} (h : line.head? ≠ some '#') : header line = none := by
  have hlevel : (line.takeWhile (· == '#')).length = 0 := by
    cases line with
    | nil => rfl
    | cons c line =>
        have hc : c ≠ '#' := by simpa using h
        simp [hc]
  simp [header, hlevel]

/-- What is indented and does not begin with the sign is no header. -/
theorem header_spaces {d : Nat} {t : Text} (h : t.head? ≠ some '#') :
    header (spaces d ++ t) = none := by
  refine header_eq_none ?_
  cases d with
  | zero => exact h
  | succ d => simp [spaces, Nat.mul_succ, List.replicate_succ]

/-- Indentation in front of a line changes nothing about its being a task line. -/
theorem taskLine_indent {s t : Text} (h : ∀ c ∈ s, isIndent c = true) :
    (taskLine (s ++ t)).isSome = (taskLine t).isSome := by
  have hdrop : (s ++ t).dropWhile isIndent = t.dropWhile isIndent := by
    induction s with
    | nil => rfl
    | cons c s ih =>
        rw [List.cons_append, List.dropWhile_cons_of_pos (h c List.mem_cons_self)]
        exact ih fun d hd => h d (List.mem_cons_of_mem _ hd)
  unfold taskLine
  rw [hdrop]
  split
  · split <;> simp_all
    split <;> rfl
  · rfl

/-- A task line is read at its indentation. -/
theorem taskLine_spaces {status : String} {mark : Char} (h : statusOf mark = some status)
    (d : Nat) (c : Char) (hc : isIndent c = true) (rest : Text) :
    taskLine (spaces d ++ '-' :: ' ' :: '[' :: mark :: ']' :: c :: rest) =
      some (spaces d, status, rest) := by
  have hdash : isIndent '-' = false := by decide
  have htake : (spaces d ++ '-' :: ' ' :: '[' :: mark :: ']' :: c :: rest).takeWhile isIndent =
      spaces d := by
    rw [List.takeWhile_append_of_pos (spaces_indent d), List.takeWhile_cons_of_neg (by simp [hdash]),
      List.append_nil]
  have hdrop : (spaces d ++ '-' :: ' ' :: '[' :: mark :: ']' :: c :: rest).dropWhile isIndent =
      '-' :: ' ' :: '[' :: mark :: ']' :: c :: rest := by
    rw [List.dropWhile_append_of_pos (spaces_indent d), List.dropWhile_cons_of_neg (by simp [hdash])]
  simp only [taskLine, hdrop, h, hc, htake, if_true]

/-! ## canonical states -/

/-- Open tasks at canonical indentations: each is as deep as there are tasks around it. -/
def restack : List Text → List (Text × Text)
  | [] => []
  | id :: rest => (spaces rest.length, id) :: restack rest

@[simp] theorem length_restack (ids : List Text) : (restack ids).length = ids.length := by
  induction ids with
  | nil => rfl
  | cons id ids ih => rw [restack, List.length_cons, ih, List.length_cons]

/-- Levels that are left leave the rest of the stack. -/
theorem drop_restack (ids : List Text) (n : Nat) : (restack ids).drop n = restack (ids.drop n) := by
  induction ids generalizing n with
  | nil => cases n <;> rfl
  | cons id ids ih =>
      cases n with
      | zero => rfl
      | succ n => exact ih n

/-- The top of the stack is the last id. -/
theorem head?_restack (ids : List Text) : (restack ids).head?.map (·.2) = ids.head? := by
  cases ids <;> rfl

/-- A canonical indentation leaves open as many tasks as it is deep. -/
theorem popTasks_restack {d : Nat} {ids : List Text} (h : d ≤ ids.length) :
    ParseState.popTasks (spaces d) (restack ids) = .ok (restack (ids.drop (ids.length - d))) := by
  induction ids with
  | nil => simp [restack, ParseState.popTasks]
  | cons id ids ih =>
      rw [restack, ParseState.popTasks]
      by_cases hd : d ≤ ids.length
      · have hpop : ¬ strictlyExtends (spaces d) (spaces ids.length) = true := by
          rw [strictlyExtends_spaces]
          omega
        have hdrop : (id :: ids).length - d = (ids.length - d) + 1 := by
          rw [List.length_cons]
          omega
        rw [if_neg hpop, if_neg (not_not.mpr (spaces_le hd)), ih hd, hdrop, List.drop_succ_cons]
      · have hkeep : strictlyExtends (spaces d) (spaces ids.length) = true := by
          rw [strictlyExtends_spaces]
          omega
        have hdrop : (id :: ids).length - d = 0 := by
          rw [List.length_cons] at h ⊢
          omega
        rw [if_pos hkeep, hdrop, List.drop_zero, restack]

/-- A state as reading a rendered file makes it: every task is indented canonically, and where a body
is open it is the innermost task's. -/
structure Canonical (st : ParseState) : Prop where
  stack : st.taskStack = restack (st.taskStack.map (·.2))
  opened : ∀ o, st.openTask = some o → o.2 = spaces (st.taskStack.length - 1) ∧ st.taskStack ≠ []

/-- The parser starts with a canonical state. -/
theorem canonical_init : Canonical {} where
  stack := rfl
  opened := fun o h => by cases h

/-- One more name is taken. -/
def Taken.add (used : Taken) (name : Text) : Taken := { used with names := name :: used.names }

variable (lib : Lib)

/-- The state after a row, given what the row says. -/
def ParseState.put (st : ParseState) : Row → ParseState
  | .header line level headerText => st.onHeader lib line level headerText
  | .task depth status parsed id =>
      st.flushText.addTask (spaces depth) status parsed id (st.usedIds.add id)
        (st.taskStack.drop (st.taskStack.length - depth))
  | .body _ line => { st with
      doc := { st.doc with
        items := match st.openTask with
          | some (index, _) => st.doc.items.modify index fun item =>
              { item with content := item.content ++ '\n' :: line }
          | none => st.doc.items } }
  | .prose line => { st with openTask := none, textRun := st.textRun ++ [line] }

/-- What a row is where it stands, in a state: a header; a task line with a status of its own and a
free id, no deeper than the open tasks allow; a line of the open task's body, not blank and without its
indentation; or any other line. -/
def Row.Placed (st : ParseState) : Row → Prop
  | .header line level headerText => Tasks.header line = some (level, headerText)
  | .task depth status _ id =>
      statusOf (checkbox (some status)) = some status ∧ id ∉ st.usedIds.names ∧
        depth ≤ st.taskStack.length
  | .body depth line =>
      st.openTask.isSome ∧ depth + 1 = st.taskStack.length ∧ line ≠ [] ∧ trimStart line = line
  | .prose line => Tasks.header line = none ∧ taskLine line = none

/-- What a row must be besides for the parser to read what it says. -/
def Row.Reads (st : ParseState) : Row → Prop
  | .header _ _ _ => True
  | .task _ _ parsed id =>
      parseTaskTokens lib (lineText parsed.title parsed.words id) = { parsed with ownId := some id }
  | .body _ line => taskLine line = none
  | .prose line => ∀ o, st.openTask = some o → endsTaskBody line = true ∨
      strictlyExtends (line.takeWhile isWhitespace) o.2 = false

/-! ## reading a row -/

@[simp] theorem flushText_usedIds (st : ParseState) : st.flushText.usedIds = st.usedIds := by
  unfold ParseState.flushText
  split <;> rfl

@[simp] theorem flushText_taskStack (st : ParseState) : st.flushText.taskStack = st.taskStack := by
  unfold ParseState.flushText
  split <;> rfl

/-- An id that is free can be claimed. -/
theorem claim_of_notMem {used : Taken} {id : Text} (h : id ∉ used.names) :
    used.claim id = (true, used.add id) := by
  rw [Taken.claim, if_neg h, Taken.add]

/-- How a header is parsed. -/
theorem line_header {st : ParseState} {line headerText : Text} {level : Nat}
    (h : header line = some (level, headerText)) (n : Nat) :
    st.line lib n line = .ok (st.onHeader lib line level headerText) := by
  rw [ParseState.line, h]

/-- A task's row is a task line. -/
theorem text_task {depth : Nat} {status : String} (h : statusOf (checkbox (some status)) = some status)
    (parsed : TaskTokens) (id : Text) :
    header (Row.task depth status parsed id).text = none ∧
      taskLine (Row.task depth status parsed id).text =
        some (spaces depth, status, lineText parsed.title parsed.words id) :=
  ⟨header_spaces (by simp), taskLine_spaces h depth ' ' rfl _⟩

/-- How a task line that was rendered is parsed. -/
theorem line_task {st : ParseState} (hst : Canonical st) {depth : Nat} {status : String}
    {parsed : TaskTokens} {id : Text} (h : (Row.task depth status parsed id).Placed st)
    (hreads : (Row.task depth status parsed id).Reads lib st) (n : Nat) :
    st.line lib n (Row.task depth status parsed id).text =
      .ok (st.put lib (.task depth status parsed id)) := by
  obtain ⟨hstatus, hid, hdepth⟩ := h
  have hparse : parseTaskTokens lib (lineText parsed.title parsed.words id) =
    { parsed with ownId := some id } := hreads
  obtain ⟨hheader, htask⟩ := @text_task depth status hstatus parsed id
  have hpop := @popTasks_restack depth (st.taskStack.map (·.2)) (by simpa using hdepth)
  rw [← hst.stack, ← drop_restack, ← hst.stack, List.length_map] at hpop
  simp only [ParseState.line, hheader, htask, ParseState.onTask, hparse, ParseState.takeId,
    flushText_usedIds, flushText_taskStack, claim_of_notMem hid, ParseState.enclosing, hpop]
  rfl

/-- A line of a body is indented one level below its task. -/
theorem renderBodyLine_eq (depth : Nat) (line : Text) :
    renderBodyLine depth line = spaces (depth + 1) ++ line := spaces_succ depth line

/-- The blanks before a trimmed line are its indentation. -/
theorem takeWhile_whitespace_spaces {d : Nat} {line : Text} (h : trimStart line = line) :
    (spaces d ++ line).takeWhile isWhitespace = spaces d := by
  have hline : line.takeWhile isWhitespace = [] := by
    have hsplit := takeWhile_append_trimStart line
    rw [h] at hsplit
    simpa using hsplit
  rw [List.takeWhile_append_of_pos (spaces_whitespace d), hline, List.append_nil]

/-- A body's row is no header, and a task line exactly if its line is one. -/
theorem text_body (depth : Nat) (line : Text) :
    header (Row.body depth line).text = none ∧
      (taskLine (Row.body depth line).text).isSome = (taskLine line).isSome := by
  rw [Row.text, renderBodyLine_eq]
  refine ⟨header_eq_none ?_, taskLine_indent (spaces_indent (depth + 1))⟩
  rw [spaces, Nat.mul_succ, Nat.add_comm, List.replicate_add]
  simp [List.replicate_succ]

/-- A body's row continues the body of a task at its depth. -/
theorem takeContinuation_body {st : ParseState} {depth index : Nat} {line : Text} (hne : line ≠ [])
    (htrim : trimStart line = line) (hopen : st.openTask = some (index, spaces depth)) :
    st.takeContinuation (Row.body depth line).text = (true, { st with
      doc := { st.doc with
        items := st.doc.items.modify index fun item =>
          { item with content := item.content ++ '\n' :: line } } }) := by
  have htake : (Row.body depth line).text.takeWhile isWhitespace = spaces (depth + 1) := by
    rw [Row.text, renderBodyLine_eq, takeWhile_whitespace_spaces htrim]
  have hstart : trimStart (Row.body depth line).text = line := by
    rw [Row.text, renderBodyLine_eq, trimStart_append (spaces_whitespace _), htrim]
  have hblank : endsTaskBody (Row.body depth line).text = false := by
    rw [endsTaskBody, trim, hstart, decide_eq_false_iff_not]
    exact trimEnd_ne_nil htrim hne
  have hext : strictlyExtends (spaces (depth + 1)) (spaces depth) = true :=
    strictlyExtends_spaces.mpr (Nat.lt_succ_self depth)
  simp only [ParseState.takeContinuation, hopen, htake, hblank, hext, hstart]
  rfl

/-- How a rendered line of a body is parsed. -/
theorem line_body {st : ParseState} (hst : Canonical st) {depth : Nat} {line : Text}
    (h : (Row.body depth line).Placed st) (hreads : (Row.body depth line).Reads lib st) (n : Nat) :
    st.line lib n (Row.body depth line).text = .ok (st.put lib (.body depth line)) := by
  obtain ⟨hopen, hdepth, hne, htrim⟩ := h
  have htask : taskLine line = none := hreads
  obtain ⟨⟨index, indent⟩, hopen⟩ := Option.isSome_iff_exists.mp hopen
  have hindent : indent = spaces depth := by
    have hopened := (hst.opened _ hopen).1
    rwa [← hdepth, Nat.add_sub_cancel] at hopened
  subst hindent
  obtain ⟨hheader, hsome⟩ := text_body depth line
  have hno : taskLine (Row.body depth line).text = none := by
    rw [htask] at hsome
    simpa using hsome
  simp only [ParseState.line, hheader, hno, ParseState.onText, takeContinuation_body hne htrim hopen,
    ParseState.put, hopen]

/-- How a line outside of the tasks is parsed. -/
theorem line_prose {st : ParseState} {line : Text} (h : (Row.prose line).Placed st)
    (hopen : (Row.prose line).Reads lib st) (n : Nat) :
    st.line lib n line = .ok (st.put lib (.prose line)) := by
  obtain ⟨hheader, htask⟩ := h
  have htaken : st.takeContinuation line = (false, { st with openTask := none }) := by
    unfold ParseState.takeContinuation
    cases ho : st.openTask with
    | none => simp [← ho]
    | some o =>
        have hno := hopen o ho
        simp only
        rw [if_pos (by simpa using hno)]
  simp only [ParseState.line, hheader, htask, ParseState.onText, htaken, ParseState.put]

/-- **A row reads as what it says.** -/
theorem line_row {st : ParseState} (hst : Canonical st) {row : Row} (h : row.Placed st)
    (hreads : row.Reads lib st) (n : Nat) : st.line lib n row.text = .ok (st.put lib row) := by
  cases row with
  | header line level headerText => exact line_header lib h n
  | task depth status parsed id => exact line_task lib hst h hreads n
  | body depth line => exact line_body lib hst h hreads n
  | prose line => exact line_prose lib h hreads n

/-- Reading rows keeps a state canonical. -/
theorem canonical_put {st : ParseState} (hst : Canonical st) {row : Row} (h : row.Placed st) :
    Canonical (st.put lib row) := by
  cases row with
  | header line level headerText =>
      exact ⟨rfl, fun o ho => by cases ho⟩
  | task depth status parsed id =>
      have hdepth : depth ≤ st.taskStack.length := h.2.2
      have hlen : (st.taskStack.drop (st.taskStack.length - depth)).length = depth := by
        rw [List.length_drop]
        omega
      refine ⟨?_, ?_⟩
      · have hrest : st.taskStack.drop (st.taskStack.length - depth) =
            restack ((st.taskStack.drop (st.taskStack.length - depth)).map (·.2)) := by
          rw [List.map_drop, ← drop_restack, ← hst.stack]
        simp only [ParseState.put, ParseState.addTask, List.map_cons, restack, List.length_map, hlen,
          ← hrest]
      · intro o ho
        obtain rfl := Option.some.inj ho
        simp [ParseState.put, ParseState.addTask, hlen]
  | body depth line => exact ⟨hst.stack, hst.opened⟩
  | prose line => exact ⟨hst.stack, fun o ho => by cases ho⟩

/-- Rows that are each placed, and each read, where they stand. -/
def RowsRead : ParseState → List Row → Prop
  | _, [] => True
  | st, row :: rows => row.Placed st ∧ row.Reads lib st ∧ RowsRead (st.put lib row) rows

/-- **Rows read as what they say**, one after another. -/
theorem lines_rows {rows : List Row} {st : ParseState} (hst : Canonical st)
    (h : RowsRead lib st rows) (n : Nat) :
    st.lines lib n (rows.map Row.text) = .ok (rows.foldl (ParseState.put lib) st) := by
  induction rows generalizing st n with
  | nil => rfl
  | cons row rows ih =>
      obtain ⟨hplaced, hreads, hrest⟩ := h
      rw [List.map_cons, ParseState.lines, line_row lib hst hplaced hreads n]
      exact ih (canonical_put lib hst hplaced) hrest (n + 1)

end Jkb.Sync.Tasks
