import Jkb.Sync.Tasks.Line

/-!
# Jkb.Sync.Tasks.Parse

Parsing a `tasks.md`: a fold over its lines, with the open sections, the open tasks, the prose read so
far and the task whose body is open as its state.
-/

namespace Jkb.Sync.Tasks

open Jkb.Text Jkb.Dsl

/-- A refusal of the format. -/
def bad (msg : Fmt) : Fmt := (Piece.text "tasks file: ") :: msg

instance : Coe Text Piece := ⟨fun t => .text (String.ofList t)⟩

/-! ## names -/

/-- The names taken within one file, and the next suffix to try for a name that clashed. -/
structure Taken where
  names : List Text := []
  next : List (Text × Nat) := []
deriving Repr, DecidableEq

namespace Taken

/-- A name with its suffix. -/
def suffixed (base : Text) (n : Nat) : Text := base ++ '-' :: showNat n

/-- Take a name as it is, unless it was already taken. -/
def claim (taken : Taken) (name : Text) : Bool × Taken :=
  if name ∈ taken.names then (false, taken) else (true, { taken with names := name :: taken.names })

/-- The first suffix from `n` on that is free. Names are finite, so as many tries as there are names
find one. -/
def firstFree (names : List Text) (base : Text) : Nat → Nat → Nat
  | 0, n => n
  | fuel + 1, n => if suffixed base n ∈ names then firstFree names base fuel (n + 1) else n

/-- The suffix kept for a base. -/
def nextOf (taken : Taken) (base : Text) : Nat :=
  ((taken.next.find? (·.1 = base)).map (·.2)).getD 2

/-- Take a base, or its first free suffixed form. -/
def unique (taken : Taken) (base : Text) : Text × Taken :=
  if base ∉ taken.names then (base, { taken with names := base :: taken.names })
  else
    let n := firstFree taken.names base taken.names.length (taken.nextOf base)
    (suffixed base n,
      { names := suffixed base n :: taken.names
        next := (base, n + 1) :: taken.next.filter (·.1 ≠ base) })

theorem suffixed_injective (base : Text) : Function.Injective (suffixed base) := by
  intro m n h
  have hshow : showNat m = showNat n := by simpa [suffixed] using h
  have hparse := parseDigits_showNat m
  rw [hshow, parseDigits_showNat] at hparse
  exact (Option.some.inj hparse).symm

/-- If every suffix that was tried is taken, so many names are taken. -/
theorem suffixed_firstFree_mem {names : List Text} {base : Text} {fuel n : Nat}
    (h : suffixed base (firstFree names base fuel n) ∈ names) :
    ∀ i ≤ fuel, suffixed base (n + i) ∈ names := by
  induction fuel generalizing n with
  | zero =>
      intro i hi
      obtain rfl : i = 0 := Nat.le_zero.mp hi
      exact h
  | succ fuel ih =>
      rw [firstFree] at h
      by_cases hn : suffixed base n ∈ names
      · rw [if_pos hn] at h
        intro i hi
        cases i with
        | zero => exact hn
        | succ i =>
            have hmem := ih h i (by omega)
            rwa [Nat.add_right_comm] at hmem
      · rw [if_neg hn] at h
        exact absurd h hn

/-- **The suffix found is free.** -/
theorem suffixed_firstFree_notMem (names : List Text) (base : Text) (n : Nat) :
    suffixed base (firstFree names base names.length n) ∉ names := by
  intro h
  have hall := suffixed_firstFree_mem h
  have hsub : ((List.range (names.length + 1)).map fun i => suffixed base (n + i)) ⊆ names := by
    intro x hx
    obtain ⟨i, hi, rfl⟩ := List.mem_map.mp hx
    exact hall i (Nat.le_of_lt_succ (List.mem_range.mp hi))
  have hnodup : ((List.range (names.length + 1)).map fun i => suffixed base (n + i)).Nodup := by
    refine List.nodup_range.map_on fun i _ j _ hij => ?_
    exact Nat.add_left_cancel (suffixed_injective base hij)
  have hle := (List.subperm_of_subset hnodup hsub).length_le
  simp at hle

theorem unique_spec (taken : Taken) (base : Text) :
    (taken.unique base).1 ∉ taken.names ∧
      (taken.unique base).2.names = (taken.unique base).1 :: taken.names := by
  unfold unique
  split
  · exact ⟨‹_›, rfl⟩
  · exact ⟨suffixed_firstFree_notMem _ _ _, rfl⟩

theorem claim_spec {taken taken' : Taken} {name : Text} (h : taken.claim name = (true, taken')) :
    name ∉ taken.names ∧ taken'.names = name :: taken.names := by
  unfold claim at h
  split at h
  · cases h
  · cases h
    exact ⟨‹_›, rfl⟩

end Taken

variable (lib : Lib)

/-- A namespace segment from a header's text. -/
def sectionSlug (text : Text) : Text :=
  let s := lib.slug text
  if s = [] then ['s', 'e', 'c', 't', 'i', 'o', 'n'] else s

/-- The base of a minted id: what a title's slug gives, and six digits of its digest. -/
def mintBase (title : Text) : Text :=
  let trimmed := Tables.trimDashes ((lib.slug title).take 24)
  let base := if trimmed = [] then ['t', 'a', 's', 'k'] else trimmed
  base ++ '-' :: (lib.hashHex title).take 6

/-- Mint an id for a task without one. -/
def mintId (title : Text) (used : Taken) : Text × Taken := used.unique (mintBase lib title)

/-! ## the state -/

/-- What is kept between lines. The open ancestries have their innermost member first. -/
structure ParseState where
  doc : SyncDoc := {}
  usedIds : Taken := {}
  usedSections : Taken := {}
  secStack : List (Nat × Text) := []
  currentSection : Option Text := none
  taskStack : List (Text × Text) := []
  textRun : List Text := []
  openTask : Option (Nat × Text) := none
deriving Repr, DecidableEq

namespace ParseState

/-- Emit the prose read so far as one block. -/
def flushText (st : ParseState) : ParseState :=
  if st.textRun = [] then st
  else
    { st with
      textRun := []
      doc := { st.doc with layout := st.doc.layout ++ [.prose (['\n'].intercalate st.textRun)] } }

/-- A line that continues the open task's body is appended to that task. -/
def takeContinuation (st : ParseState) (line : Text) : Bool × ParseState :=
  match st.openTask with
  | none => (false, st)
  | some (index, taskIndent) =>
      let indent := line.takeWhile isWhitespace
      if endsTaskBody line || !strictlyExtends indent taskIndent then
        (false, { st with openTask := none })
      else
        (true, { st with
          doc := { st.doc with
            items := st.doc.items.modify index fun item =>
              { item with content := item.content ++ '\n' :: trimStart line } } })

/-- A header opens a section. -/
def onHeader (st : ParseState) (line : Text) (level : Nat) (headerText : Text) : ParseState :=
  let st := st.flushText
  let secStack := st.secStack.dropWhile fun s => s.1 ≥ level
  let base :=
    match secStack.head? with
    | some (_, parent) => parent ++ '/' :: sectionSlug lib headerText
    | none => sectionSlug lib headerText
  let (path, usedSections) := st.usedSections.unique base
  { st with
    openTask := none
    taskStack := []
    usedSections
    secStack := (level, path) :: secStack
    currentSection := some path
    doc := { st.doc with
      layout := st.doc.layout ++ [.section path]
      sections := st.doc.sections ++ [{ path, headerLine := line }] } }

/-- Close the open tasks whose indentation a line's does not strictly extend. Two indentations of
which neither extends the other are an error. -/
def popTasks (indent : Text) : List (Text × Text) → Except Text (List (Text × Text))
  | [] => .ok []
  | (opened, id) :: rest =>
      if strictlyExtends indent opened then .ok ((opened, id) :: rest)
      else if ¬ indent <+: opened then .error opened
      else popTasks indent rest

/-- The id a task line claims, or one minted for it. -/
def takeId (used : Taken) (parsed : TaskTokens) : Except Fmt (Text × Taken) :=
  match parsed.ownId with
  | some id =>
      match used.claim id with
      | (true, used) => .ok (id, used)
      | (false, _) => .error (bad ["duplicate task id `^", id, "`"])
  | none => .ok (mintId lib parsed.title used)

/-- The tasks a line leaves open around it. -/
def enclosing (lineNo : Nat) (indent : Text) (stack : List (Text × Text)) :
    Except Fmt (List (Text × Text)) :=
  match popTasks indent stack with
  | .ok stack => .ok stack
  | .error opened => .error (bad ["line ", lineNo, ": its indentation ", .debug (String.ofList indent),
      " and the indentation ", .debug (String.ofList opened),
      " of the task above it mix tabs and spaces so that neither extends the other, and how ",
      "deep it sits depends on the tab width; indent a nested task by extending its ",
      "parent's indentation with the same characters"])

/-- The item a task line declares. -/
def newItem (st : ParseState) (localId : Text) (status : String) (parsed : TaskTokens)
    (parent : Option Text) : SyncItem where
  localId := localId
  kind := "task"
  content := parsed.title
  sectionPath := st.currentSection
  position := min (st.doc.layout.length : Int) i64Max
  status := some status
  priority := parsed.priority
  due := parsed.due
  tags := parsed.tags
  mirrors := parsed.mirrors
  parent := parent

/-- The edges a task line declares: from its parent, and to what it needs. -/
def newEdges (localId : Text) (parsed : TaskTokens) (parent : Option Text) : List SyncEdge :=
  (parent.map fun p => ⟨p, localId, .parentOf⟩).toList ++
    parsed.deps.map fun dep => ⟨localId, dep, .dependsOn⟩

/-- Put a task in, under the tasks open around it. -/
def addTask (st : ParseState) (indent : Text) (status : String) (parsed : TaskTokens) (localId : Text)
    (usedIds : Taken) (stack : List (Text × Text)) : ParseState :=
  let parent := stack.head?.map (·.2)
  { st with
    usedIds
    taskStack := (indent, localId) :: stack
    openTask := some (st.doc.items.length, indent)
    doc := { st.doc with
      items := st.doc.items ++ [st.newItem localId status parsed parent]
      edges := st.doc.edges ++ newEdges localId parsed parent
      layout := st.doc.layout ++ [.item localId] } }

/-- A task line creates an item, its hierarchy and its edges. -/
def onTask (st : ParseState) (lineNo : Nat) (indent : Text) (status : String) (rest : Text) :
    Except Fmt ParseState := do
  let st := st.flushText
  let parsed := parseTaskTokens lib rest
  let (localId, usedIds) ← takeId lib st.usedIds parsed
  let stack ← enclosing lineNo indent st.taskStack
  return st.addTask indent status parsed localId usedIds stack

/-- A line that is neither a header nor a task line. -/
def onText (st : ParseState) (line : Text) : ParseState :=
  match st.takeContinuation line with
  | (true, st) => st
  | (false, st) => { st with openTask := none, textRun := st.textRun ++ [line] }

/-- One line, the `lineNo`-th. -/
def line (st : ParseState) (lineNo : Nat) (line : Text) : Except Fmt ParseState :=
  match header line with
  | some (level, headerText) => .ok (st.onHeader lib line level headerText)
  | none =>
      match taskLine line with
      | some (indent, status, rest) => st.onTask lib lineNo indent status rest
      | none => .ok (st.onText line)

/-- The lines from the `lineNo`-th on. -/
def lines (st : ParseState) (lineNo : Nat) : List Text → Except Fmt ParseState
  | [] => .ok st
  | l :: ls => do
      let st ← st.line lib lineNo l
      st.lines (lineNo + 1) ls

end ParseState

/-! ## after the last line -/

/-- Whether an edge stays one: any but a dependency on an id that no task of the file has. -/
def resolves (doc : SyncDoc) (e : SyncEdge) : Bool := e.edgeType ≠ .dependsOn || e.dst ∈ doc.ids

/-- Park each dependency on an id that no task of the file has on its task, with a warning. -/
def parkDanglingDependencies (doc : SyncDoc) : SyncDoc × List Fmt :=
  let dangling := doc.edges.filter fun e => !resolves doc e
  ({ doc with
      edges := doc.edges.filter (resolves doc)
      items := doc.items.map fun item =>
        match (dangling.filter (·.src = item.localId)).map (·.dst) with
        | [] => item
        | needs => { item with unresolvedNeeds := needs } },
    dangling.map fun e => ["task `^", e.src, "`: `needs:^", e.dst,
      "` names no task in this file, so no dependency was recorded; ",
      "the line keeps it until a task with that id exists"])

/-- Node colours of a depth-first search: 0 unvisited, 1 on the current path, 2 fully explored. -/
abbrev Colours := Text → Nat

/-- Look at the nodes an explored one leads to, in order, until a cycle is found. -/
def visitAll (visit : Text → Colours → Bool × Colours) : List Text → Colours → Bool × Colours
  | [], colour => (false, colour)
  | next :: rest, colour =>
      if colour next = 1 then (true, colour)
      else if colour next = 0 then
        match visit next colour with
        | (true, colour) => (true, colour)
        | (false, colour) => visitAll visit rest colour
      else visitAll visit rest colour

/-- Explore a node. Each step down colours a node that was not, so as many steps as there are nodes
are enough. -/
def visit (adj : Text → List Text) : Nat → Text → Colours → Bool × Colours
  | 0, _, colour => (false, colour)
  | fuel + 1, node, colour =>
      match visitAll (visit adj fuel) (adj node) (Function.update colour node 1) with
      | (true, colour) => (true, colour)
      | (false, colour) => (false, Function.update colour node 2)

/-- Start a search at every node that is not explored yet. -/
def anyCycle (visit : Text → Colours → Bool × Colours) : List Text → Colours → Bool
  | [], _ => false
  | start :: rest, colour =>
      if colour start = 0 then
        match visit start colour with
        | (true, _) => true
        | (false, colour) => anyCycle visit rest colour
      else anyCycle visit rest colour

/-- What a task of the document depends on, in order. -/
def depsOf (doc : SyncDoc) (id : Text) : List Text :=
  (doc.edges.filter fun e => e.edgeType = .dependsOn ∧ e.src = id).map (·.dst)

/-- The `depends_on` edges among the file's tasks contain a cycle. -/
def hasDependencyCycle (doc : SyncDoc) : Bool :=
  let deps := doc.edges.filter fun e => e.edgeType = .dependsOn
  anyCycle (visit (depsOf doc) (2 * deps.length + 1)) (deps.map (·.src)) fun _ => 0

/-! ## a file -/

/-- The lines of a file: a single trailing newline ends the last one. -/
def fileLines (text : Text) : List Text := ((stripSuffix ['\n'] text).getD text).splitOn '\n'

/-- Parse a whole file, with a warning for each thing it does not take at face value. -/
def parseText (text : Text) : Except Fmt (SyncDoc × List Fmt) := do
  if text = [] then return ({}, [])
  let st ← ({} : ParseState).lines lib 1 (fileLines text)
  let (doc, warnings) := parkDanglingDependencies st.flushText.doc
  if hasDependencyCycle doc then
    .error (bad ["task dependencies (`needs:^…`) form a cycle"])
  else
    return (doc, warnings)

/-- `TasksSerializer::parse`, on text. -/
def parse (text : Text) : Except Fmt SyncDoc := (parseText lib text).map (·.1)

/-! ## what is accepted -/

variable {lib} {st st' : ParseState}

theorem line_of_task {lineNo : Nat} {line indent rest : Text} {status : String}
    (hheader : header line = none) (htask : taskLine line = some (indent, status, rest)) :
    st.line lib lineNo line = st.onTask lib lineNo indent status rest := by
  simp only [ParseState.line, hheader, htask]

theorem line_of_text {lineNo : Nat} {line : Text} (hheader : header line = none)
    (htask : taskLine line = none) : st.line lib lineNo line = .ok (st.onText line) := by
  simp only [ParseState.line, hheader, htask]

/-- **A line that is accepted** is a header, a task line or neither. -/
theorem line_cases {lineNo : Nat} {line : Text} (h : st.line lib lineNo line = .ok st') :
    (∃ level headerText, header line = some (level, headerText) ∧
        st' = st.onHeader lib line level headerText) ∨
      (∃ indent status rest, header line = none ∧ taskLine line = some (indent, status, rest) ∧
        st.onTask lib lineNo indent status rest = .ok st') ∨
      (header line = none ∧ taskLine line = none ∧ st' = st.onText line) := by
  unfold ParseState.line at h
  cases hheader : header line with
  | some p =>
      simp only [hheader, Except.ok.injEq] at h
      exact Or.inl ⟨p.1, p.2, rfl, h.symm⟩
  | none =>
      simp only [hheader] at h
      cases htask : taskLine line with
      | some p =>
          simp only [htask] at h
          exact Or.inr (Or.inl ⟨p.1, p.2.1, p.2.2, rfl, rfl, h⟩)
      | none =>
          simp only [htask, Except.ok.injEq] at h
          exact Or.inr (Or.inr ⟨rfl, rfl, h.symm⟩)

theorem lines_cons {l : Text} {ls : List Text} {lineNo : Nat}
    (h : st.lines lib lineNo (l :: ls) = .ok st') :
    ∃ st₁, st.line lib lineNo l = .ok st₁ ∧ st₁.lines lib (lineNo + 1) ls = .ok st' := by
  rw [ParseState.lines] at h
  cases hstep : st.line lib lineNo l with
  | error e =>
      rw [hstep] at h
      cases h
  | ok st₁ =>
      rw [hstep] at h
      exact ⟨st₁, rfl, h⟩

end Jkb.Sync.Tasks
