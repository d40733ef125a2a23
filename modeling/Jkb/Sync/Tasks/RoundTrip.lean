import Jkb.Sync.Tasks.Sim

/-!
# Jkb.Sync.Tasks.RoundTrip

When a file reads back from what is written of it. `Settles` walks the lines of a file, with the state
each is read in, and asks of each that it is written as it is read.
-/

namespace Jkb.Sync.Tasks

open Jkb.Text Jkb.Dsl

variable (lib : Lib)

/-! ## the condition -/

/-- A line that is written as it is read, in the state it is read in: a task line settles; a line of a
task's body is no task line without its indentation; and a line of prose below a task that is still
open would not be taken for its body at the task's canonical indentation either. -/
def ParseState.Settles (st : ParseState) (line : Text) : Prop :=
  header line = none →
    match taskLine line with
    | some (_, _, rest) => LineSettles lib (parseTaskTokens lib rest)
    | none =>
        if (st.takeContinuation line).1 then taskLine (trimStart line) = none
        else st.openTask.isSome → endsTaskBody line = true ∨
          strictlyExtends (line.takeWhile isWhitespace) (spaces (st.taskStack.length - 1)) = false

/-- Lines that are each written as they are read. -/
def ParseState.SettlesFrom : ParseState → Nat → List Text → Prop
  | _, _, [] => True
  | st, lineNo, l :: ls => st.Settles lib l ∧
      match st.line lib lineNo l with
      | .ok st => st.SettlesFrom (lineNo + 1) ls
      | .error _ => True

/-- A file that has lines, each written as it is read. -/
def Settles (text : Text) : Prop :=
  text ≠ [] ∧ ({} : ParseState).SettlesFrom lib 1 (fileLines text)

variable {lib} {kept : Text → Bool} {st st' c : ParseState}

/-! ## the ids of a file -/

/-- A line adds no id but one that can be written as an anchor. -/
theorem ids_line {lineNo : Nat} {line : Text} (h : st.line lib lineNo line = .ok st') :
    ∀ id ∈ st'.doc.ids, id ∈ st.doc.ids ∨ isUriSafe lib id = true := by
  rcases line_cases h with ⟨level, headerText, -, rfl⟩ | ⟨indent, status, rest, -, -, hon⟩ | ⟨-, -, rfl⟩
  · intro id hid
    refine Or.inl ?_
    rwa [SyncDoc.ids, ← flushText_items st]
  · obtain ⟨id, used, stack, htake, -, rfl⟩ := onTask_eq_ok hon
    intro x hx
    simp only [SyncDoc.ids, ParseState.addTask, List.map_append, List.mem_append,
      flushText_items] at hx
    rcases hx with hx | hx
    · exact Or.inl hx
    · rw [List.mem_singleton.mp hx]
      exact Or.inr (takeId_eq_ok lib htake).2.2
  · intro id hid
    refine Or.inl ?_
    cases hcont : (st.takeContinuation line).1 with
    | false => rwa [onText_prose hcont] at hid
    | true =>
        obtain ⟨o, -, -, hput⟩ := onText_body hcont
        rw [hput] at hid
        simp only [SyncDoc.ids] at hid ⊢
        rwa [map_modify (by exact fun _ => rfl)] at hid

theorem ids_lines {ls : List Text} {lineNo : Nat} (h : st.lines lib lineNo ls = .ok st') :
    ∀ id ∈ st'.doc.ids, id ∈ st.doc.ids ∨ isUriSafe lib id = true := by
  induction ls generalizing st lineNo with
  | nil =>
      obtain rfl := Except.ok.inj h
      exact fun id hid => Or.inl hid
  | cons l ls ih =>
      obtain ⟨st₁, hstep, hrest⟩ := lines_cons h
      intro id hid
      rcases ih hrest id hid with hid | hid
      · exact ids_line hstep id hid
      · exact Or.inr hid

/-- The ids that a file's tasks have can be written as anchors. -/
theorem isUriSafe_of_hasId {ls : List Text} {lineNo : Nat}
    (h : ({} : ParseState).lines lib lineNo ls = .ok st) :
    ∀ d, hasId st.flushText.doc d = true → isUriSafe lib d = true := by
  intro d hd
  have hmem : d ∈ st.doc.ids := by
    rw [SyncDoc.ids, ← flushText_items]
    exact of_decide_eq_true hd
  rcases ids_lines h d hmem with hmem | hsafe
  · cases hmem
  · exact hsafe

/-! ## the whole file -/

/-- What a parse that is accepted is: the document that its lines leave, parked, without a cycle. -/
theorem parse_eq_ok {text : Text} (hne : text ≠ []) {doc : SyncDoc} :
    parse lib text = .ok doc ↔ ∃ st, ({} : ParseState).lines lib 1 (fileLines text) = .ok st ∧
      hasDependencyCycle (parked st.flushText.doc) = false ∧ parked st.flushText.doc = doc := by
  unfold parse parseText
  cases hlines : ({} : ParseState).lines lib 1 (fileLines text) with
  | error e => simp [hne, bind, Except.bind, Except.map]
  | ok st =>
      cases hcycle : hasDependencyCycle (parked st.flushText.doc) with
      | true => simp [hne, bind, Except.bind, Except.map, hcycle]
      | false => simp [hne, bind, Except.bind, Except.map, pure, Except.pure, hcycle]

theorem resolves_eq_keeps (doc : SyncDoc) : resolves doc = keeps (hasId doc) := rfl

/-- Documents in step are parked as one. -/
theorem Sim.parked (h : Sim (hasId st.doc) st c) : parked c.doc = parked st.doc := by
  have hids : c.doc.ids = st.doc.ids := by rw [SyncDoc.ids, SyncDoc.ids, h.items]
  have hhas : hasId c.doc = hasId st.doc := by
    funext id
    rw [hasId, hasId, hids]
  simp only [Tasks.parked, parkDanglingDependencies, resolves_eq_keeps, hhas, h.keptEdges,
    h.parkedEdges, h.items, h.sections, h.layout]

theorem fileLines_ne_nil (text : Text) : fileLines text ≠ [] := List.splitOn_ne_nil _ _

theorem oneLine_of_mem_fileLines {text line : Text} (h : line ∈ fileLines text) : '\n' ∉ line :=
  notMem_of_mem_splitOn h

/-- The lines of a file are those it is written as. -/
theorem fileLines_intercalate {ls : List Text} (hne : ls ≠ []) (hls : ∀ l ∈ ls, '\n' ∉ l) :
    fileLines (['\n'].intercalate ls ++ ['\n']) = ls := by
  have hstrip : stripSuffix ['\n'] (['\n'].intercalate ls ++ ['\n']) = some (['\n'].intercalate ls) := by
    simp [stripSuffix]
  rw [fileLines, hstrip, Option.getD_some, List.splitOn_intercalate '\n' hls hne]

/-- **The document of any file renders as the file's rows.** -/
theorem renderDoc_parse {text : Text} {n : Nat} (hst : ({} : ParseState).lines lib n (fileLines text) = .ok st) :
    renderDoc (parked st.flushText.doc) = ['\n'].intercalate
        ((rowsOf lib (hasId st.flushText.doc) {} n (fileLines text)).map Row.text) ++ ['\n'] ∧
      fileLines (renderDoc (parked st.flushText.doc)) =
        (rowsOf lib (hasId st.flushText.doc) {} n (fileLines text)).map Row.text := by
  obtain ⟨hone, hlen, hsim, es, hshows⟩ := (sim_init (hasId st.flushText.doc)).lines (shows_init _)
    (fun l hl => oneLine_of_mem_fileLines hl) hst
  obtain ⟨es', hshows', hrun⟩ := hshows.flush
  generalize hrows : rowsOf lib (hasId st.flushText.doc) {} n (fileLines text) = rows at *
  have hids : hasId (docOf es') = hasId st.flushText.doc := by
    funext id
    rw [hasId, hasId, SyncDoc.ids, SyncDoc.ids, ← hshows'.doc, hsim.flush.items]
  have hrender : renderDoc (parked st.flushText.doc) =
      ['\n'].intercalate (rows.map Row.text) ++ ['\n'] := by
    have htext := hshows'.text
    rw [hrun, List.append_nil, List.nil_append] at htext
    rw [← hsim.flush.parked, hshows'.doc, renderDoc_docOf (hids ▸ hshows'.coherent), htext]
  refine ⟨hrender, ?_⟩
  rw [hrender]
  refine fileLines_intercalate ?_ fun l hl => ?_
  · have hpos := List.length_pos_iff.mpr (fileLines_ne_nil text)
    exact List.ne_nil_of_length_pos (by rw [List.length_map]; omega)
  · obtain ⟨row, hrow, rfl⟩ := List.mem_map.mp hl
    exact hone row hrow

/-! ## lines that settle -/

/-- A line that settles reads back from its row. -/
theorem reads_of_settles (h : Sim kept st c) (hkept : ∀ d, kept d = true → isUriSafe lib d = true)
    {line : Text} (hline : '\n' ∉ line) (hsettles : st.Settles lib line) {lineNo : Nat}
    (hst : st.line lib lineNo line = .ok st') : (rowOf lib kept st line).Reads lib c := by
  rcases line_cases hst with ⟨level, headerText, hheader, -⟩ |
    ⟨indent, status, rest, hheader, htask, hon⟩ | ⟨hheader, htask, -⟩
  · simp only [rowOf, hheader]
    trivial
  · have hcase := hsettles hheader
    simp only [htask] at hcase
    obtain ⟨-, hsub⟩ := taskLine_eq_some htask
    obtain ⟨id, used, stack, htake, hpop, -⟩ := onTask_eq_ok hon
    simp only [rowOf, hheader, htask, htake, hpop]
    exact parseTaskTokens_keptFirst lib (fun hmem => hline (hsub _ hmem)) hkept
      (takeId_eq_ok lib htake).2.2 hcase
  · have hcase := hsettles hheader
    simp only [rowOf, hheader, htask] at hcase ⊢
    cases hcont : (st.takeContinuation line).1 with
    | true =>
        rw [hcont, if_pos rfl] at hcase
        rw [if_pos rfl]
        exact hcase
    | false =>
        rw [hcont, if_neg Bool.false_ne_true] at hcase
        rw [if_neg Bool.false_ne_true]
        intro o ho
        rw [h.opened, Option.map_eq_some_iff] at ho
        obtain ⟨p, hp, rfl⟩ := ho
        exact hcase (by rw [hp]; rfl)

theorem rowsRead_of_settles (h : Sim kept st c) (hkept : ∀ d, kept d = true → isUriSafe lib d = true)
    {ls : List Text} (hls : ∀ l ∈ ls, '\n' ∉ l) {lineNo : Nat}
    (hsettles : st.SettlesFrom lib lineNo ls) (hst : st.lines lib lineNo ls = .ok st') :
    RowsRead lib c (rowsOf lib kept st lineNo ls) := by
  induction ls generalizing st c lineNo with
  | nil => trivial
  | cons l ls ih =>
      obtain ⟨hl, hrest⟩ := hsettles
      obtain ⟨st₁, hstep, hst⟩ := lines_cons hst
      rw [hstep] at hrest
      have hone := hls l List.mem_cons_self
      obtain ⟨hplaced, -, hsim⟩ := h.line hone hstep
      rw [rowsOf_cons hstep]
      exact ⟨hplaced, reads_of_settles h hkept hone hl hstep,
        ih hsim (fun m hm => hls m (List.mem_cons_of_mem _ hm)) hrest hst⟩

/-- **A file whose lines each settle is read back from what is written of it.** -/
theorem parse_renderDoc {text : Text} {doc : SyncDoc} (h : parse lib text = .ok doc)
    (hsettles : Settles lib text) : parse lib (renderDoc doc) = .ok doc := by
  obtain ⟨hne, hsettles⟩ := hsettles
  obtain ⟨st, hlines, hcycle, rfl⟩ := (parse_eq_ok hne).mp h
  obtain ⟨hrender, hfile⟩ := renderDoc_parse hlines
  have hls : ∀ l ∈ fileLines text, '\n' ∉ l := fun l hl => oneLine_of_mem_fileLines hl
  obtain ⟨-, -, hsim, -⟩ := (sim_init (hasId st.flushText.doc)).lines (shows_init _) hls hlines
  have hread := lines_rows lib canonical_init
    (rowsRead_of_settles (sim_init _) (isUriSafe_of_hasId hlines) hls hsettles hlines) 1
  have hparked := hsim.flush.parked
  refine (parse_eq_ok (by rw [hrender]; simp)).mpr ⟨_, by rw [hfile, hread], ?_, hparked⟩
  rw [hparked]
  exact hcycle

end Jkb.Sync.Tasks
