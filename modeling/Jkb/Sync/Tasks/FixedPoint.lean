import Jkb.Sync.Tasks.Profile
import Jkb.Sync.Tasks.RoundTrip
import Jkb.Sync.Tasks.Tight

/-!
# Jkb.Sync.Tasks.FixedPoint

A file is read back from what is written of it exactly if its lines settle. `RoundTrip` has the one
direction; here a reading of the written lines is compared with the reading of the file, line by line:
it has as many task lines, each of which says as much, and as many lines of a body.
-/

namespace Jkb.Sync.Tasks

open Jkb.Text Jkb.Dsl

variable {lib : Lib} {kept : Text → Bool} {st st' c s s' : ParseState}

/-! ## one line, read twice -/

/-- A state in which a body is open wherever it is in another, at the same indentation. -/
def Follows (c s : ParseState) : Prop :=
  ∀ o, c.openTask = some o → ∃ o', s.openTask = some o' ∧ o'.2 = o.2

/-- What comparing the readings of a line and of its row gives: a body is open where it was; the row is
counted where the line is; and a line that declares no task settles, if its row is not counted without
it. -/
structure Followed (lib : Lib) (st st' c s s' : ParseState) (line : Text) : Prop where
  follows : Follows c s'
  counted : bodyLines st'.doc + bodyLines s.doc ≤ bodyLines s'.doc + bodyLines st.doc
  settles : isTaskLine line = false →
    bodyLines s'.doc + bodyLines st.doc ≤ bodyLines st'.doc + bodyLines s.doc → st.Settles lib line

/-- A task line's row is read as a task line. -/
theorem isTaskLine_rowOf {lineNo : Nat} {line : Text} (h : st.line lib lineNo line = .ok st')
    (htask : isTaskLine line = true) : isTaskLine (rowOf lib kept st line).text = true := by
  rcases line_cases h with ⟨level, headerText, hheader, rfl⟩ | ⟨indent, status, rest, hheader, hline, hon⟩ |
    ⟨hheader, hline, rfl⟩
  · simp [isTaskLine, hheader] at htask
  · have htext := fun parsed id depth => @text_task depth status (taskLine_eq_some hline).1 parsed id
    simp [isTaskLine, rowOf, hheader, hline, htext]
  · simp [isTaskLine, hline] at htask

theorem countP_rowsOf {ls : List Text} {lineNo : Nat} (h : st.lines lib lineNo ls = .ok st') :
    ls.countP isTaskLine ≤ ((rowsOf lib kept st lineNo ls).map Row.text).countP isTaskLine := by
  induction ls generalizing st lineNo with
  | nil => exact Nat.le_refl _
  | cons l ls ih =>
      obtain ⟨st₁, hstep, hst⟩ := lines_cons h
      have hrest := ih hst
      rw [rowsOf_cons hstep, List.map_cons, List.countP_cons, List.countP_cons]
      cases hl : isTaskLine l with
      | false =>
          simp only [Bool.false_eq_true, if_false]
          omega
      | true =>
          simp only [@isTaskLine_rowOf lib kept st st₁ lineNo l hstep hl, if_true]
          omega

theorem followed_header (hp : Proper st) (hp' : Proper s) {line headerText : Text} {level m : Nat}
    (hheader : header line = some (level, headerText)) (hs : s.line lib m line = .ok s') :
    Followed lib st (st.onHeader lib line level headerText) (c.put lib (.header line level headerText)) s
      s' line := by
  rw [line_header lib hheader m] at hs
  obtain rfl := Except.ok.inj hs
  obtain ⟨-, hbody, -⟩ := @records_onHeader lib st (fun _ => true) hp line level headerText
  obtain ⟨-, hbody', -⟩ := @records_onHeader lib s (fun _ => true) hp' line level headerText
  refine ⟨fun o ho => (by cases ho), by rw [hbody, hbody', Nat.add_comm], fun _ _ hnone => ?_⟩
  rw [hheader] at hnone
  cases hnone

theorem followed_task (hp : Proper st) (hp' : Proper s) {line indent rest id : Text} {status : String}
    {parsed : TaskTokens} {depth m n : Nat} (hline : '\n' ∉ line)
    (hone : '\n' ∉ (Row.task depth status parsed id).text) (hheader : header line = none)
    (htask : taskLine line = some (indent, status, rest))
    (hst : st.onTask lib n indent status rest = .ok st')
    (hs : s.line lib m (Row.task depth status parsed id).text = .ok s') :
    Followed lib st st' (c.put lib (.task depth status parsed id)) s s' line := by
  obtain ⟨hstatus, hsub⟩ := taskLine_eq_some htask
  obtain ⟨hheader', htask'⟩ := @text_task depth status hstatus parsed id
  rw [line_of_task hheader' htask'] at hs
  have hone' := fun hmem => hone ((taskLine_eq_some htask').2 _ hmem)
  obtain ⟨-, hbody, -, -⟩ := records_onTask (fun _ => true) hp (fun hmem => hline (hsub _ hmem)) hst
  obtain ⟨-, hbody', ⟨o, ho, hindent⟩, -⟩ := records_onTask (fun _ => true) hp' hone' hs
  refine ⟨fun o' ho' => ?_, by rw [hbody, hbody', Nat.add_comm], fun hno => ?_⟩
  · obtain rfl := Option.some.inj ho'
    exact ⟨o, ho, hindent⟩
  · simp [isTaskLine, hheader, htask] at hno

theorem takeContinuation_eq_false {o : Nat × Text} {line : Text} (ho : s.openTask = some o)
    (h : (s.takeContinuation line).1 = false) : endsTaskBody line = true ∨
      strictlyExtends (line.takeWhile isWhitespace) o.2 = false := by
  unfold ParseState.takeContinuation at h
  simp only [ho] at h
  split at h
  · rename_i hends
    simpa using hends
  · cases h

theorem followed_prose (h : Sim kept st c) (hf : Follows c s) (hp : Proper st) (hp' : Proper s)
    {line : Text} {m : Nat} (hline : '\n' ∉ line) (hheader : header line = none)
    (htask : taskLine line = none) (hcont : (st.takeContinuation line).1 = false)
    (hs : s.line lib m line = .ok s') :
    Followed lib st (st.onText line) (c.put lib (.prose line)) s s' line := by
  rw [line_of_text hheader htask] at hs
  obtain rfl := Except.ok.inj hs
  obtain ⟨-, hbody, -⟩ := records_prose (fun _ => true) hp hcont
  have hbody' : bodyLines (s.onText line).doc =
      bodyLines s.doc + if (s.takeContinuation line).1 = true then 1 else 0 := by
    cases hcont' : (s.takeContinuation line).1 with
    | true => exact (records_body (fun _ => true) hp' hline hcont').2.1
    | false => exact (records_prose (fun _ => true) hp' hcont').2.1
  refine ⟨fun o ho => (by cases ho), by omega, fun _ hcount _ => ?_⟩
  rw [htask]
  simp only [hcont, Bool.false_eq_true, if_false]
  intro hopen
  obtain ⟨o, ho⟩ := Option.isSome_iff_exists.mp hopen
  obtain ⟨o', ho', hindent⟩ := hf _ (by rw [h.opened, ho]; rfl)
  have hshut : (s.takeContinuation line).1 = false := by
    cases hcont' : (s.takeContinuation line).1 with
    | false => rfl
    | true =>
        rw [hcont', if_pos rfl] at hbody'
        omega
  have hends := takeContinuation_eq_false ho' hshut
  rwa [hindent] at hends

theorem followed_body (h : Sim kept st c) (hf : Follows c s) (hp : Proper st) (hp' : Proper s)
    {line : Text} {m : Nat} (hline : '\n' ∉ line) (htask : taskLine line = none)
    (hcont : (st.takeContinuation line).1 = true)
    (hs : s.line lib m (Row.body (st.taskStack.length - 1) (trimStart line)).text = .ok s')
    (hone : '\n' ∉ (Row.body (st.taskStack.length - 1) (trimStart line)).text)
    (hkind : taskLine (trimStart line) = none) :
    Followed lib st (st.onText line) (c.put lib (.body (st.taskStack.length - 1) (trimStart line))) s s'
      line := by
  obtain ⟨o, ho, hblank, -⟩ := onText_body hcont
  have hne : trimStart line ≠ [] := by
    intro hnil
    rw [endsTaskBody, trim, hnil] at hblank
    cases hblank
  have hopen : c.openTask = some (o.1, spaces (st.taskStack.length - 1)) := by
    rw [h.opened, ho]
    rfl
  obtain ⟨o', ho', hindent⟩ := hf _ hopen
  have hcont' : (s.takeContinuation (Row.body (st.taskStack.length - 1) (trimStart line)).text).1 = true := by
    have hopen' : s.openTask = some (o'.1, spaces (st.taskStack.length - 1)) := by
      rw [ho']
      exact congrArg some (Prod.ext rfl hindent)
    rw [takeContinuation_body hne (trimStart_trimStart line) hopen']
  obtain ⟨hheader', hsome⟩ := text_body (st.taskStack.length - 1) (trimStart line)
  have htask' : taskLine (Row.body (st.taskStack.length - 1) (trimStart line)).text = none := by
    rw [hkind] at hsome
    simpa using hsome
  rw [line_of_text hheader' htask'] at hs
  obtain rfl := Except.ok.inj hs
  obtain ⟨-, hbody, -, -⟩ := records_body (fun _ => true) hp hline hcont
  obtain ⟨-, hbody', -, hopen'⟩ := records_body (fun _ => true) hp' hone hcont'
  refine ⟨fun x hx => ?_, by omega, fun _ _ _ => ?_⟩
  · rw [hopen']
    exact hf x hx
  · rw [htask]
    simp only [hcont, if_true]
    exact hkind

/-- **A row is followed**, where it is a task line only if its line is. -/
theorem followed (h : Sim kept st c) (hf : Follows c s) (hp : Proper st) (hp' : Proper s) {line : Text}
    (hline : '\n' ∉ line) {m n : Nat} (hst : st.line lib n line = .ok st')
    (hs : s.line lib m (rowOf lib kept st line).text = .ok s')
    (hkind : isTaskLine (rowOf lib kept st line).text = true → isTaskLine line = true) :
    Followed lib st st' (c.put lib (rowOf lib kept st line)) s s' line := by
  obtain ⟨hplaced, hwrite, -⟩ := h.line hline hst
  have hone := hwrite.oneLine
  rcases line_cases hst with ⟨level, headerText, hheader, rfl⟩ |
    ⟨indent, status, rest, hheader, htask, hon⟩ | ⟨hheader, htask, rfl⟩
  · simp only [rowOf, hheader] at hs ⊢
    exact followed_header hp hp' hheader hs
  · simp only [rowOf, hheader, htask] at hs hone ⊢
    exact followed_task hp hp' hline hone hheader htask hon hs
  · cases hcont : (st.takeContinuation line).1 with
    | false =>
        simp only [rowOf, hheader, htask, hcont, Bool.false_eq_true, if_false] at hs ⊢
        exact followed_prose h hf hp hp' hline hheader htask hcont hs
    | true =>
        simp only [rowOf, hheader, htask, hcont, if_true] at hs hone hkind ⊢
        refine followed_body h hf hp hp' hline htask hcont hs hone ?_
        obtain ⟨hheader', hsome⟩ := text_body (st.taskStack.length - 1) (trimStart line)
        by_contra hne
        have hno := hkind (by
          rw [isTaskLine, hheader', hsome, Option.isSome_iff_ne_none.mpr hne]
          rfl)
        simp [isTaskLine, htask] at hno

/-! ## a run, read twice -/

/-- The reading of a file and of its rows, up to a line: the rows' parser has read what it should. -/
structure Together (lib : Lib) (kept : Text → Bool) (st c s : ParseState) : Prop where
  sim : Sim kept st c
  follows : Follows c s
  proper : Proper st
  proper' : Proper s

/-- Two runs that read as many task lines read the first line as the same kind. -/
theorem kind_of_countP {l : Text} {ls : List Text} {lineNo : Nat} {st₁ : ParseState}
    (hstep : st.line lib lineNo l = .ok st₁) (hrest : st₁.lines lib (lineNo + 1) ls = .ok st')
    (hcount : ((rowsOf lib kept st lineNo (l :: ls)).map Row.text).countP isTaskLine =
      (l :: ls).countP isTaskLine) :
    isTaskLine (rowOf lib kept st l).text = isTaskLine l ∧
      ((rowsOf lib kept st₁ (lineNo + 1) ls).map Row.text).countP isTaskLine =
        ls.countP isTaskLine := by
  have hle := @countP_rowsOf lib kept st₁ st' ls _ hrest
  rw [rowsOf_cons hstep, List.map_cons, List.countP_cons, List.countP_cons] at hcount
  cases hl : isTaskLine l with
  | true =>
      have hrow := @isTaskLine_rowOf lib kept st st₁ lineNo l hstep hl
      rw [hl, hrow, if_pos rfl] at hcount
      exact ⟨hrow, by omega⟩
  | false =>
      rw [hl, if_neg Bool.false_ne_true] at hcount
      cases hrow : isTaskLine (rowOf lib kept st l).text with
      | true =>
          rw [hrow, if_pos rfl] at hcount
          omega
      | false => exact ⟨rfl, by simpa [hrow] using hcount⟩

/-- **One line keeps the readings together.** -/
theorem Together.line (h : Together lib kept st c s) {line : Text} (hline : '\n' ∉ line) {m n : Nat}
    (hst : st.line lib n line = .ok st') (hs : s.line lib m (rowOf lib kept st line).text = .ok s')
    (hkind : isTaskLine (rowOf lib kept st line).text = isTaskLine line) :
    Together lib kept st' (c.put lib (rowOf lib kept st line)) s' ∧
      Followed lib st st' (c.put lib (rowOf lib kept st line)) s s' line := by
  obtain ⟨-, hwrite, hsim⟩ := h.sim.line hline hst
  have hfollowed := followed h.sim h.follows h.proper h.proper' hline hst hs (fun hk => hkind ▸ hk)
  exact ⟨⟨hsim, hfollowed.follows, (records_line kept h.proper hline hst).1,
    (records_line kept h.proper' hwrite.oneLine hs).1⟩, hfollowed⟩

/-- **The rows read as at least as many lines of bodies**, where they read as as many task lines. -/
theorem Together.counted (h : Together lib kept st c s) {ls : List Text} (hls : ∀ l ∈ ls, '\n' ∉ l)
    {m n : Nat} (hst : st.lines lib n ls = .ok st')
    (hs : s.lines lib m ((rowsOf lib kept st n ls).map Row.text) = .ok s')
    (hcount : ((rowsOf lib kept st n ls).map Row.text).countP isTaskLine = ls.countP isTaskLine) :
    bodyLines st'.doc + bodyLines s.doc ≤ bodyLines s'.doc + bodyLines st.doc := by
  induction ls generalizing st c s m n with
  | nil =>
      obtain rfl := Except.ok.inj hst
      obtain rfl := Except.ok.inj hs
      omega
  | cons l ls ih =>
      obtain ⟨st₁, hstep, hrest⟩ := lines_cons hst
      obtain ⟨hkind, hcount'⟩ := kind_of_countP hstep hrest hcount
      rw [rowsOf_cons hstep, List.map_cons] at hs
      obtain ⟨s₁, hstep', hrest'⟩ := lines_cons hs
      obtain ⟨htogether, hfollowed⟩ := h.line (hls l List.mem_cons_self) hstep hstep' hkind
      have hle := ih htogether (fun m hm => hls m (List.mem_cons_of_mem _ hm)) hrest hrest' hcount'
      have hone := hfollowed.counted
      omega

/-- A task line whose row left the record that the line left settles. -/
theorem settles_of_record (h : Together lib kept st c s)
    (hkept : ∀ d, kept d = true → isUriSafe lib d = true) {line : Text} (hline : '\n' ∉ line)
    (htask : isTaskLine line = true) {m n : Nat} (hst : st.line lib n line = .ok st')
    (hs : s.line lib m (rowOf lib kept st line).text = .ok s')
    (hbefore : records kept s.doc = records kept st.doc)
    (hafter : records kept s'.doc = records kept st'.doc) : st.Settles lib line := by
  obtain ⟨-, hwrite, -⟩ := h.sim.line hline hst
  have hone := hwrite.oneLine
  rcases line_cases hst with ⟨level, headerText, hheader, -⟩ | ⟨indent, status, rest, hheader, hline', hon⟩ |
    ⟨hheader, hline', -⟩
  · simp [isTaskLine, hheader] at htask
  · obtain ⟨hstatus, hsub⟩ := taskLine_eq_some hline'
    have hrest : '\n' ∉ rest := fun hmem => hline (hsub _ hmem)
    obtain ⟨id, used, stack, htake, hpop, -⟩ := onTask_eq_ok hon
    simp only [rowOf, hheader, hline', htake, hpop] at hs hone
    obtain ⟨hheader', htask'⟩ :=
      @text_task stack.length status hstatus ((parseTaskTokens lib rest).keptFirst kept) id
    rw [line_of_task hheader' htask'] at hs
    obtain ⟨-, -, -, own, hrecord⟩ := records_onTask kept h.proper hrest hon
    obtain ⟨-, -, -, own', hrecord'⟩ := records_onTask kept h.proper'
      (fun hmem => hone ((taskLine_eq_some htask').2 _ hmem)) hs
    rw [hrecord, hrecord', hbefore, List.append_cancel_left_eq, List.singleton_inj] at hafter
    simp only [lineRecord, Prod.mk.injEq] at hafter
    obtain ⟨⟨-, htitle, hprio, hdue, htags, hmirrors⟩, hdeps, hdeps'⟩ := hafter
    intro _
    rw [hline']
    refine lineSettles_of_reread hrest (takeId_eq_ok lib htake).2.2 hkept htitle ?_
    simp only [TaskTokens.modifiers, TaskTokens.keptFirst] at hprio hdue htags hmirrors hdeps hdeps' ⊢
    rw [hprio, hdue, htags, hmirrors, hdeps, hdeps']
  · simp [isTaskLine, hline'] at htask

/-- **Readings that end with the same task lines and as many lines of bodies** are of lines that
settle. -/
theorem Together.settlesFrom (h : Together lib kept st c s)
    (hkept : ∀ d, kept d = true → isUriSafe lib d = true) {ls : List Text} (hls : ∀ l ∈ ls, '\n' ∉ l)
    {m n : Nat} (hrows : ∀ r ∈ (rowsOf lib kept st n ls).map Row.text, '\n' ∉ r)
    (hst : st.lines lib n ls = .ok st')
    (hs : s.lines lib m ((rowsOf lib kept st n ls).map Row.text) = .ok s')
    (hcount : ((rowsOf lib kept st n ls).map Row.text).countP isTaskLine = ls.countP isTaskLine)
    (hbody : bodyLines s'.doc + bodyLines st.doc ≤ bodyLines st'.doc + bodyLines s.doc)
    (hbefore : records kept s.doc = records kept st.doc)
    (hafter : records kept s'.doc = records kept st'.doc) : st.SettlesFrom lib n ls := by
  induction ls generalizing st c s m n with
  | nil => trivial
  | cons l ls ih =>
      obtain ⟨st₁, hstep, hrest⟩ := lines_cons hst
      obtain ⟨hkind, hcount'⟩ := kind_of_countP hstep hrest hcount
      rw [rowsOf_cons hstep, List.map_cons] at hs hrows
      obtain ⟨hone, hrows⟩ := List.forall_mem_cons.mp hrows
      obtain ⟨s₁, hstep', hrest'⟩ := lines_cons hs
      obtain ⟨htogether, hfollowed⟩ := h.line (hls l List.mem_cons_self) hstep hstep' hkind
      have hls' : ∀ l ∈ ls, '\n' ∉ l := fun m hm => hls m (List.mem_cons_of_mem _ hm)
      have hcounted := htogether.counted hls' hrest hrest' hcount'
      have hcounted' := hfollowed.counted
      -- the records of the two runs are split at the line: as many before it, then its own
      have hsame : records kept s₁.doc = records kept st₁.doc := by
        obtain ⟨-, one, hrec, hlen⟩ := records_line kept h.proper (hls l List.mem_cons_self) hstep
        obtain ⟨-, one', hrec', hlen'⟩ := records_line kept h.proper' hone hstep'
        obtain ⟨-, more, hmore, -⟩ := records_lines kept htogether.proper hls' hrest
        obtain ⟨-, more', hmore', -⟩ := records_lines kept htogether.proper'
          hrows hrest'
        rw [hmore, hmore'] at hafter
        refine (List.append_inj hafter ?_).1
        rw [hrec, hrec', List.length_append, List.length_append, hlen, hlen', hkind, hbefore]
      rw [ParseState.SettlesFrom, hstep]
      refine ⟨?_, ih htogether hls' hrows hrest hrest' hcount' (by omega) hsame⟩
      cases htask : isTaskLine l with
      | true => exact settles_of_record h hkept (hls l List.mem_cons_self) htask hstep hstep' hbefore hsame
      | false => exact hfollowed.settles htask (by omega)

/-! ## the whole file -/

/-- **A file that reads back from what is written of it settles.** -/
theorem settles_of_parse_renderDoc {text : Text} (hne : text ≠ []) {doc : SyncDoc}
    (h : parse lib text = .ok doc) (hagain : parse lib (renderDoc doc) = .ok doc) : Settles lib text := by
  obtain ⟨st, hlines, -, rfl⟩ := (parse_eq_ok hne).mp h
  obtain ⟨hrender, hfile⟩ := renderDoc_parse hlines
  obtain ⟨s, hlines', -, hsame⟩ := (parse_eq_ok (by rw [hrender]; simp)).mp hagain
  have hls : ∀ l ∈ fileLines text, '\n' ∉ l := fun l hl => oneLine_of_mem_fileLines hl
  have hls' : ∀ l ∈ fileLines (renderDoc (parked st.flushText.doc)), '\n' ∉ l :=
    fun l hl => oneLine_of_mem_fileLines hl
  rw [hfile] at hlines' hls'
  obtain ⟨hp, more, hmore, hlen⟩ :=
    records_lines (hasId st.flushText.doc) proper_init hls hlines
  obtain ⟨hp', more', hmore', hlen'⟩ :=
    records_lines (hasId st.flushText.doc) proper_init hls' hlines'
  obtain ⟨hrec, hbody⟩ := records_of_parked hp hp' hsame
  refine ⟨hne, Together.settlesFrom ⟨sim_init _, fun o ho => (by cases ho), proper_init, proper_init⟩
    (isUriSafe_of_hasId hlines) hls hls' hlines hlines' ?_ (by rw [hbody]) rfl hrec⟩
  rw [hmore, hmore', List.append_cancel_left_eq] at hrec
  rw [← hlen, ← hlen', hrec]

/-- An empty file does not read back: it is written as an empty line, which is prose. -/
theorem parse_renderDoc_nil {doc : SyncDoc} (h : parse lib [] = .ok doc) :
    parse lib (renderDoc doc) ≠ .ok doc := by
  obtain rfl := Except.ok.inj h
  intro hagain
  have hlayout := congrArg SyncDoc.layout (Except.ok.inj hagain)
  cases hlayout

/-- **A file is read back from what is written of it, which is then written as it was, exactly if its
lines settle.** -/
theorem parse_renderDoc_iff {text : Text} {doc : SyncDoc} (h : parse lib text = .ok doc) :
    (parse lib (renderDoc doc) = .ok doc ∧
      (parse lib (renderDoc doc)).map renderDoc = .ok (renderDoc doc)) ↔ Settles lib text := by
  constructor
  · intro ⟨hagain, _⟩
    by_cases hne : text = []
    · subst hne
      exact absurd hagain (parse_renderDoc_nil h)
    · exact settles_of_parse_renderDoc hne h hagain
  · intro hsettles
    have hagain := parse_renderDoc h hsettles
    exact ⟨hagain, by rw [hagain]; rfl⟩

/-- A task with an anchor of its own settles. -/
theorem parse_renderDoc_iff_anchored :
    ∃ doc, parse asciiLib "- [ ] a ^x".toList = .ok doc ∧ Settles asciiLib "- [ ] a ^x".toList :=
  ⟨_, rfl, (parse_renderDoc_iff rfl).mp (by decide +kernel)⟩

/-- A quoted title that reads as a modifier is written without its quotes, and read back as one. -/
theorem parse_renderDoc_quoted :
    ∃ doc, parse asciiLib "- [ ] \"!p1\" ^a".toList = .ok doc ∧
      parse asciiLib (renderDoc doc) ≠ .ok doc :=
  ⟨_, rfl, by decide +kernel⟩

end Jkb.Sync.Tasks
