import Jkb.Sync.Tasks.Cycle
import Jkb.Sync.Tasks.Profile
import Jkb.Sync.Tasks.RoundTrip
import Jkb.Tx

/-!
# Jkb.Sync.Tasks.Accepts

Which files are read. A file is corrupt when two lines claim one id, when tabs and spaces are mixed so
that a line's depth is anybody's guess, or when dependencies form a cycle. Every other file is read,
but for one kind: a line may claim the very id that was minted for a line above it.
-/

namespace Jkb.Sync.Tasks

open Jkb.Text Jkb.Dsl Relation

variable (lib : Lib)

/-! ## what a file says -/

/-- What a line declares, if it is a task line: its indentation, and what its text reads as. -/
def declared (line : Text) : Option (Text × TaskTokens) :=
  if header line = none then (taskLine line).map fun t => (t.1, parseTaskTokens lib t.2.2) else none

/-- What the task lines among some lines read as, in order. -/
def tasks (ls : List Text) : List TaskTokens := (ls.filterMap (declared lib)).map (·.2)

/-- The id a task line gets: the one it claims, or one minted for it. -/
def give (used : Taken) (parsed : TaskTokens) : Text × Taken :=
  match parsed.ownId with
  | some id => (id, (used.claim id).2)
  | none => mintId lib parsed.title used

/-- The task lines, each with the id it gets. -/
def given : Taken → List TaskTokens → List (Text × TaskTokens)
  | _, [] => []
  | used, p :: ps => ((give lib used p).1, p) :: given (give lib used p).2 ps

/-- One task of the file needs another, or itself. -/
def Needs (rows : List (Text × TaskTokens)) (a b : Text) : Prop :=
  (∃ p, (a, p) ∈ rows ∧ b ∈ p.deps) ∧ b ∈ rows.map Prod.fst

/-- Of two indentations, one extends the other. -/
def Comparable (a b : Text) : Prop := a <+: b ∨ b <+: a

/-- A line that keeps a task indented by `a` open: not a header, and, if it is a task line, indented
deeper. -/
def KeepsOpen (a line : Text) : Prop :=
  header line = none ∧ ∀ t, declared lib line = some t → strictlyExtends t.1 a = true

/-- No task line's indentation is incomparable with that of a task above it that is still open. -/
def Aligned (ls : List Text) : Prop :=
  ∀ before l mid l' after, ls = before ++ l :: mid ++ l' :: after →
    ∀ t t', declared lib l = some t → declared lib l' = some t' → (∀ m ∈ mid, KeepsOpen lib t.1 m) →
      Comparable t.1 t'.1

/-- **What a file that is not corrupt keeps to**: no id is claimed twice, no task line's indentation is
incomparable with that of a task that is still open, and the dependencies among the file's tasks have
no cycle. -/
structure Uncorrupted (text : Text) : Prop where
  distinct : ((tasks lib (fileLines text)).filterMap (·.ownId)).Nodup
  aligned : Aligned lib (fileLines text)
  acyclic : Graph.Acyclic (Needs (given lib {} (tasks lib (fileLines text))))

/-- Some line claims the id that was minted for a line above it. -/
def ClaimsMinted (ps : List TaskTokens) : Prop :=
  ∃ before p after id minted, ps = before ++ p :: after ∧ p.ownId = some id ∧
    (id, minted) ∈ given lib {} before ∧ minted.ownId = none

/-! ## ids -/

variable {lib}

/-- Some claimed id is taken by the time it is claimed. -/
def Clash (lib : Lib) : Taken → List TaskTokens → Prop
  | _, [] => False
  | used, p :: ps => (∃ id ∈ p.ownId, id ∈ used.names) ∨ Clash lib (give lib used p).2 ps

instance decidableClash : ∀ used ps, Decidable (Clash lib used ps)
  | _, [] => isFalse id
  | used, p :: ps =>
      have := decidableClash (give lib used p).2 ps
      inferInstanceAs (Decidable ((∃ id ∈ p.ownId, id ∈ used.names) ∨ Clash lib (give lib used p).2 ps))

theorem takeId_iff {used used' : Taken} {parsed : TaskTokens} {id : Text} :
    ParseState.takeId lib used parsed = .ok (id, used') ↔
      (∀ own, parsed.ownId = some own → own ∉ used.names) ∧ give lib used parsed = (id, used') := by
  unfold ParseState.takeId give
  cases hown : parsed.ownId with
  | none => simp
  | some own =>
      by_cases hfree : own ∈ used.names
      · simp [Taken.claim, hfree]
      · simp [Taken.claim, hfree]

theorem names_give {used : Taken} {parsed : TaskTokens} (x : Text) :
    x ∈ (give lib used parsed).2.names ↔ x = (give lib used parsed).1 ∨ x ∈ used.names := by
  unfold give
  cases hown : parsed.ownId with
  | none =>
      simp only [mintId]
      rw [(used.unique_spec (mintBase lib parsed.title)).2, List.mem_cons]
  | some own =>
      by_cases hfree : own ∈ used.names
      · simp only [Taken.claim, if_pos hfree]
        constructor
        · exact Or.inr
        · rintro (rfl | h)
          · exact hfree
          · exact h
      · simp only [Taken.claim, if_neg hfree, List.mem_cons]

/-- A clash is with an id given to a line above, or taken before. -/
theorem clash_iff {used : Taken} {ps : List TaskTokens} :
    Clash lib used ps ↔ ∃ before p after id, ps = before ++ p :: after ∧ p.ownId = some id ∧
      (id ∈ used.names ∨ id ∈ (given lib used before).map Prod.fst) := by
  induction ps generalizing used with
  | nil =>
      constructor
      · exact False.elim
      · rintro ⟨before, p, after, id, h, -⟩
        simp at h
  | cons q ps ih =>
      rw [Clash, ih]
      constructor
      · rintro (⟨id, hown, hused⟩ | ⟨before, p, after, id, rfl, hown, hid⟩)
        · exact ⟨[], q, ps, id, rfl, hown, Or.inl hused⟩
        · refine ⟨q :: before, p, after, id, rfl, hown, ?_⟩
          simp only [given, List.map_cons, List.mem_cons]
          rw [names_give] at hid
          tauto
      · rintro ⟨before, p, after, id, h, hown, hid⟩
        cases before with
        | nil =>
            obtain ⟨rfl, rfl⟩ := List.cons.inj h
            refine Or.inl ⟨id, hown, ?_⟩
            simpa [given] using hid
        | cons b before =>
            obtain ⟨rfl, rfl⟩ := List.cons.inj h
            refine Or.inr ⟨before, p, after, id, rfl, hown, ?_⟩
            simp only [given, List.map_cons, List.mem_cons] at hid
            rw [names_give]
            tauto

theorem map_snd_given (used : Taken) (ps : List TaskTokens) :
    (given lib used ps).map Prod.snd = ps := by
  induction ps generalizing used with
  | nil => rfl
  | cons p ps ih => rw [given, List.map_cons, ih]

/-- Every line that is given an id is there. -/
theorem mem_of_given {used : Taken} {ps : List TaskTokens} {id : Text} {p : TaskTokens}
    (h : (id, p) ∈ given lib used ps) : p ∈ ps := by
  rw [← @map_snd_given lib used ps]
  exact List.mem_map_of_mem h

/-- A line that claims an id gets it. -/
theorem given_own {used : Taken} {ps : List TaskTokens} {id own : Text} {p : TaskTokens}
    (h : (id, p) ∈ given lib used ps) (hown : p.ownId = some own) : own = id := by
  induction ps generalizing used with
  | nil => simp [given] at h
  | cons q ps ih =>
      rw [given] at h
      rcases List.mem_cons.mp h with h | h
      · obtain ⟨rfl, rfl⟩ := Prod.mk.inj h
        simp [give, hown]
      · exact ih h

/-- **Where claimed ids are distinct, a clash is with a minted id.** -/
theorem clash_iff_claimsMinted {ps : List TaskTokens} (h : (ps.filterMap (·.ownId)).Nodup) :
    Clash lib {} ps ↔ ClaimsMinted lib ps := by
  rw [clash_iff]
  constructor
  · rintro ⟨before, p, after, id, rfl, hown, hid | hid⟩
    · cases hid
    · obtain ⟨⟨id, q⟩, hq, rfl⟩ := List.mem_map.mp hid
      cases hq' : q.ownId with
      | none => exact ⟨before, p, after, id, q, rfl, hown, hq, hq'⟩
      | some own =>
          -- two lines would claim the one id
          exfalso
          obtain rfl := given_own hq hq'
          have hmem := mem_of_given hq
          rw [List.filterMap_append, List.filterMap_cons_some hown] at h
          have hbefore : own ∈ before.filterMap (·.ownId) := List.mem_filterMap.mpr ⟨q, hmem, hq'⟩
          exact (List.nodup_append.mp h).2.2 own hbefore own List.mem_cons_self rfl
  · rintro ⟨before, p, after, id, minted, rfl, hown, hid, -⟩
    exact ⟨before, p, after, id, rfl, hown, Or.inr (List.mem_map.mpr ⟨_, hid, rfl⟩)⟩

/-! ## lines -/

variable {st st' : ParseState}

/-- What a line that is no task line leaves as it was. -/
theorem onText_kept (st : ParseState) (line : Text) :
    (st.onText line).usedIds = st.usedIds ∧ (st.onText line).taskStack = st.taskStack ∧
      (st.onText line).doc.ids = st.doc.ids ∧ (st.onText line).doc.edges = st.doc.edges := by
  cases hcont : (st.takeContinuation line).1 with
  | false =>
      rw [onText_prose hcont]
      exact ⟨rfl, rfl, rfl, rfl⟩
  | true =>
      obtain ⟨o, -, -, hput⟩ := onText_body hcont
      rw [hput]
      refine ⟨rfl, rfl, ?_, rfl⟩
      simp only [SyncDoc.ids]
      rw [map_modify (by exact fun _ => rfl)]

theorem declared_header {line : Text} {h : Nat × Text} (hheader : header line = some h) :
    declared lib line = none := by
  simp [declared, hheader]

theorem declared_text {line : Text} (hheader : header line = none) (htask : taskLine line = none) :
    declared lib line = none := by
  simp [declared, hheader, htask]

theorem declared_task {line indent rest : Text} {status : String} (hheader : header line = none)
    (htask : taskLine line = some (indent, status, rest)) :
    declared lib line = some (indent, parseTaskTokens lib rest) := by
  simp [declared, hheader, htask]

theorem tasks_cons_none {l : Text} (ls : List Text) (h : declared lib l = none) :
    tasks lib (l :: ls) = tasks lib ls := by
  simp [tasks, h]

theorem tasks_cons_some {l : Text} (ls : List Text) {t : Text × TaskTokens}
    (h : declared lib l = some t) : tasks lib (l :: ls) = t.2 :: tasks lib ls := by
  simp [tasks, h]

/-- What reading on adds to a document: the ids that are given, and the dependencies declared. -/
structure Reads (lib : Lib) (st st' : ParseState) (ps : List TaskTokens) : Prop where
  free : ¬ Clash lib st.usedIds ps
  ids : st'.doc.ids = st.doc.ids ++ (given lib st.usedIds ps).map Prod.fst
  edges : ∀ a b, st'.doc.edge .dependsOn a b →
    st.doc.edge .dependsOn a b ∨ ∃ p, (a, p) ∈ given lib st.usedIds ps ∧ b ∈ p.deps

theorem Reads.of_kept {st₁ : ParseState} {ps : List TaskTokens} (h : Reads lib st₁ st' ps)
    (hused : st₁.usedIds = st.usedIds) (hids : st₁.doc.ids = st.doc.ids)
    (hedges : st₁.doc.edges = st.doc.edges) : Reads lib st st' ps where
  free := hused ▸ h.free
  ids := by rw [h.ids, hused, hids]
  edges a b hab := by
    have := h.edges a b hab
    rwa [SyncDoc.edge, hedges, hused] at this

/-- A task line that is read, and then the rest. -/
theorem Reads.task {st₁ : ParseState} {lineNo : Nat} {indent rest : Text} {status : String}
    {ps : List TaskTokens} (hstep : st.onTask lib lineNo indent status rest = .ok st₁)
    (h : Reads lib st₁ st' ps) : Reads lib st st' (parseTaskTokens lib rest :: ps) := by
  obtain ⟨id, used, stack, htake, -, rfl⟩ := onTask_eq_ok hstep
  obtain ⟨hfree, hgive⟩ := takeId_iff.mp htake
  have hfirst : (give lib st.usedIds (parseTaskTokens lib rest)).1 = id := by rw [hgive]
  have hsecond : (give lib st.usedIds (parseTaskTokens lib rest)).2 = used := by rw [hgive]
  refine ⟨?_, ?_, ?_⟩
  · rintro (⟨own, hown, hmem⟩ | hclash)
    · exact hfree own hown hmem
    · rw [hsecond] at hclash
      exact h.free hclash
  · rw [h.ids]
    simp only [given, hfirst, hsecond, List.map_cons, SyncDoc.ids, ParseState.addTask, List.map_append,
      flushText_items, List.map_nil, List.append_assoc]
    rfl
  · intro a b hab
    rw [given, hfirst, hsecond]
    rcases h.edges a b hab with hab | ⟨p, hp, hb⟩
    · simp only [SyncDoc.edge, ParseState.addTask, List.mem_append, flushText_edges] at hab
      rcases hab with hab | hab
      · exact Or.inl hab
      · right
        have hsrc : a = id := src_newEdges hab rfl
        refine ⟨parseTaskTokens lib rest, by rw [hsrc]; exact List.mem_cons_self, ?_⟩
        rcases List.mem_append.mp hab with hab | hab
        · simp at hab
        · obtain ⟨d, hd, hq⟩ := List.mem_map.mp hab
          cases hq
          exact hd
    · exact Or.inr ⟨p, List.mem_cons_of_mem _ hp, hb⟩

/-- **What lines that are read add.** -/
theorem reads_lines {ls : List Text} {lineNo : Nat} (h : st.lines lib lineNo ls = .ok st') :
    Reads lib st st' (tasks lib ls) := by
  induction ls generalizing st lineNo with
  | nil =>
      obtain rfl := Except.ok.inj h
      refine ⟨fun h => h, ?_, fun a b hab => Or.inl hab⟩
      simp [tasks, given]
  | cons l ls ih =>
      obtain ⟨st₁, hstep, hrest⟩ := lines_cons h
      have hreads := ih hrest
      rcases line_cases hstep with ⟨level, text, hheader, rfl⟩ | ⟨indent, status, rest, hheader, htask, hstep⟩ |
        ⟨hheader, htask, rfl⟩
      · obtain ⟨hitems, hedges, hused, -⟩ := @onHeader_spec lib st l level text
        rw [tasks_cons_none ls (declared_header hheader)]
        exact hreads.of_kept hused (by rw [SyncDoc.ids, SyncDoc.ids, hitems]) hedges
      · rw [tasks_cons_some ls (declared_task hheader htask)]
        exact Reads.task hstep hreads
      · obtain ⟨hused, -, hids, hedges⟩ := onText_kept st l
        rw [tasks_cons_none ls (declared_text hheader htask)]
        exact hreads.of_kept hused hids hedges

/-! ## indentation -/

theorem strictlyExtends_iff {a b : Text} : strictlyExtends a b = true ↔ b.length < a.length ∧ b <+: a := by
  simp [strictlyExtends]

theorem strictlyExtends_trans {a b c : Text} (hab : strictlyExtends a b = true)
    (hbc : strictlyExtends b c = true) : strictlyExtends a c = true := by
  rw [strictlyExtends_iff] at *
  exact ⟨hbc.1.trans hab.1, hbc.2.trans hab.2⟩

/-- The open tasks a line is compared with: each extends the ones around it, and each is still open
after the lines before. -/
structure Stacked (lib : Lib) (stack : List (Text × Text)) (before : List Text) : Prop where
  chain : stack.Pairwise fun x y => strictlyExtends x.1 y.1 = true
  opened : ∀ s ∈ stack, ∃ pre l mid t, before = pre ++ l :: mid ∧ declared lib l = some t ∧ t.1 = s.1 ∧
    ∀ m ∈ mid, KeepsOpen lib s.1 m

/-- **A comparable indentation finds its place** among the open tasks. -/
theorem popTasks_of_comparable {indent : Text} {stack : List (Text × Text)}
    (hchain : stack.Pairwise fun x y => strictlyExtends x.1 y.1 = true)
    (hcomp : ∀ s ∈ stack, Comparable s.1 indent) :
    ∃ rest, ParseState.popTasks indent stack = .ok rest ∧ rest <:+ stack ∧
      ∀ s ∈ rest, strictlyExtends indent s.1 = true := by
  induction stack with
  | nil => exact ⟨[], rfl, List.suffix_rfl, by simp⟩
  | cons s stack ih =>
      obtain ⟨opened, id⟩ := s
      obtain ⟨hfirst, hrest⟩ := List.pairwise_cons.mp hchain
      rw [ParseState.popTasks]
      by_cases hdeeper : strictlyExtends indent opened = true
      · rw [if_pos hdeeper]
        refine ⟨_, rfl, List.suffix_rfl, fun s hs => ?_⟩
        rcases List.mem_cons.mp hs with rfl | hs
        · exact hdeeper
        · exact strictlyExtends_trans hdeeper (hfirst s hs)
      · rw [if_neg hdeeper]
        have hshallow : indent <+: opened := by
          rcases hcomp _ List.mem_cons_self with h | h
          · -- equal, since it is no deeper
            have hlen : indent.length ≤ opened.length := by
              by_contra hlt
              exact hdeeper (strictlyExtends_iff.mpr ⟨not_le.mp hlt, h⟩)
            exact (h.eq_of_length_le hlen) ▸ List.prefix_rfl
          · exact h
        rw [if_neg (not_not.mpr hshallow)]
        obtain ⟨rest, hpop, hsuffix, hall⟩ := ih hrest fun s hs => hcomp s (List.mem_cons_of_mem _ hs)
        exact ⟨rest, hpop, hsuffix.trans (List.suffix_cons _ _), hall⟩

theorem keepsOpen_text {a line : Text} (hheader : header line = none) (hno : declared lib line = none) :
    KeepsOpen lib a line :=
  ⟨hheader, fun t ht => by rw [hno] at ht; cases ht⟩

/-- A line that keeps a task open is one more line under it. -/
theorem Stacked.concat {stack : List (Text × Text)} {before : List Text} (h : Stacked lib stack before)
    {l : Text} (hkeeps : ∀ s ∈ stack, KeepsOpen lib s.1 l) : Stacked lib stack (before ++ [l]) where
  chain := h.chain
  opened s hs := by
    obtain ⟨pre, l₀, mid, t, rfl, ht, hts, hmid⟩ := h.opened s hs
    refine ⟨pre, l₀, mid ++ [l], t, by simp, ht, hts, fun m hm => ?_⟩
    rcases List.mem_append.mp hm with hm | hm
    · exact hmid m hm
    · rw [List.mem_singleton.mp hm]
      exact hkeeps s hs

/-- A task line is opened over the tasks it is indented under. -/
theorem Stacked.task {stack rest : List (Text × Text)} {before : List Text}
    (h : Stacked lib stack before) (hsuffix : rest <:+ stack) {l id : Text} {t : Text × TaskTokens}
    (hheader : header l = none) (ht : declared lib l = some t)
    (hall : ∀ s ∈ rest, strictlyExtends t.1 s.1 = true) :
    Stacked lib ((t.1, id) :: rest) (before ++ [l]) := by
  have hrest : Stacked lib rest (before ++ [l]) := by
    have hkept : Stacked lib rest before :=
      ⟨h.chain.sublist hsuffix.sublist, fun s hs => h.opened s (hsuffix.subset hs)⟩
    refine hkept.concat fun s hs => ⟨hheader, fun t' ht' => ?_⟩
    rw [ht] at ht'
    cases ht'
    exact hall s hs
  refine ⟨List.pairwise_cons.mpr ⟨hall, hrest.chain⟩, fun s hs => ?_⟩
  rcases List.mem_cons.mp hs with rfl | hs
  · exact ⟨before, l, [], t, rfl, ht, rfl, by simp⟩
  · exact hrest.opened s hs

/-- A task line with a free id and a comparable indentation is read. -/
theorem onTask_ok {lineNo : Nat} {indent rest : Text} {status : String} {stack : List (Text × Text)}
    (hfree : ∀ own, (parseTaskTokens lib rest).ownId = some own → own ∉ st.usedIds.names)
    (hpop : ParseState.popTasks indent st.taskStack = .ok stack) :
    ∃ id, st.onTask lib lineNo indent status rest = .ok (st.flushText.addTask indent status
      (parseTaskTokens lib rest) id (give lib st.usedIds (parseTaskTokens lib rest)).2 stack) := by
  have htake := (@takeId_iff lib st.usedIds (give lib st.usedIds (parseTaskTokens lib rest)).2 _
    (give lib st.usedIds (parseTaskTokens lib rest)).1).mpr ⟨hfree, rfl⟩
  refine ⟨(give lib st.usedIds (parseTaskTokens lib rest)).1, ?_⟩
  simp only [ParseState.onTask, flushText_usedIds, flushText_taskStack, htake, ParseState.enclosing, hpop]
  rfl

/-- **Lines that are aligned are read**, where no claimed id is taken. -/
theorem lines_ok {ls before : List Text} {lineNo : Nat} (hstack : Stacked lib st.taskStack before)
    (haligned : Aligned lib (before ++ ls)) (hfree : ¬ Clash lib st.usedIds (tasks lib ls)) :
    ∃ st', st.lines lib lineNo ls = .ok st' := by
  induction ls generalizing st before lineNo with
  | nil => exact ⟨st, rfl⟩
  | cons l ls ih =>
      have hnext : before ++ l :: ls = before ++ [l] ++ ls := by simp
      rw [ParseState.lines, ParseState.line]
      cases hheader : header l with
      | some h =>
          obtain ⟨-, -, hused, -⟩ := @onHeader_spec lib st l h.1 h.2
          rw [tasks_cons_none ls (declared_header hheader)] at hfree
          exact ih ⟨List.Pairwise.nil, by simp [ParseState.onHeader]⟩ (hnext ▸ haligned) (hused ▸ hfree)
      | none =>
          cases htask : taskLine l with
          | none =>
              obtain ⟨hused, hsame, -, -⟩ := onText_kept st l
              have hno := @declared_text lib l hheader htask
              rw [tasks_cons_none ls hno] at hfree
              have hstacked : Stacked lib (st.onText l).taskStack (before ++ [l]) := by
                rw [hsame]
                exact hstack.concat fun s _ => keepsOpen_text hheader hno
              exact ih hstacked (hnext ▸ haligned) (hused ▸ hfree)
          | some t =>
              obtain ⟨indent, status, rest⟩ := t
              have ht := @declared_task lib l indent rest status hheader htask
              rw [tasks_cons_some ls ht, Clash, not_or] at hfree
              have hcomp : ∀ s ∈ st.taskStack, Comparable s.1 indent := by
                intro s hs
                obtain ⟨pre, l₀, mid, t₀, rfl, ht₀, hts, hmid⟩ := hstack.opened s hs
                rw [← hts] at hmid ⊢
                exact haligned pre l₀ mid l ls rfl t₀ _ ht₀ ht hmid
              obtain ⟨stack, hpop, hsuffix, hall⟩ := popTasks_of_comparable hstack.chain hcomp
              obtain ⟨id, hstep⟩ := @onTask_ok lib st lineNo indent rest status stack
                (fun own hown hmem => hfree.1 ⟨own, hown, hmem⟩) hpop
              simp only [hstep]
              exact ih (hstack.task hsuffix hheader ht hall) (hnext ▸ haligned) hfree.2

/-! ## files -/

/-- Dependencies without a cycle are read as such. -/
theorem hasDependencyCycle_eq_false {ls : List Text} {lineNo : Nat}
    (h : ({} : ParseState).lines lib lineNo ls = .ok st)
    (hacyclic : Graph.Acyclic (Needs (given lib {} (tasks lib ls)))) :
    hasDependencyCycle (parked st.flushText.doc) = false := by
  have hreads := reads_lines h
  cases hcycle : hasDependencyCycle (parked st.flushText.doc) with
  | false => rfl
  | true =>
      obtain ⟨a, ha⟩ := hasDependencyCycle_iff.mp hcycle
      refine absurd (TransGen.mono (fun x y hxy => ?_) _ _ ha) (hacyclic a)
      obtain ⟨hedge, hresolves⟩ := List.mem_filter.mp hxy
      rw [flushText_edges] at hedge
      have hids : st.flushText.doc.ids = (given lib {} (tasks lib ls)).map Prod.fst := by
        rw [SyncDoc.ids, flushText_items]
        exact hreads.ids
      refine ⟨?_, ?_⟩
      · rcases hreads.edges x y hedge with hnone | hdep
        · cases hnone
        · exact hdep
      · rw [← hids]
        simpa [resolves] using hresolves

/-- **Which files are read.** A file that is not corrupt is read exactly when no line of it claims the
id that was minted for a line above. -/
theorem parseText_ok_iff (lib : Lib) (text : Text) (h : Uncorrupted lib text) :
    (∃ r, parseText lib text = .ok r) ↔ ¬ ClaimsMinted lib (tasks lib (fileLines text)) := by
  rw [← clash_iff_claimsMinted h.distinct]
  by_cases hempty : text = []
  · subst hempty
    exact iff_of_true ⟨_, rfl⟩ id
  constructor
  · rintro ⟨r, hr⟩
    have hparse : parse lib text = .ok r.1 := by rw [parse, hr]; rfl
    obtain ⟨st, hlines, -⟩ := (parse_eq_ok hempty).mp hparse
    exact (reads_lines hlines).free
  · intro hfree
    have hstart : Stacked lib ({} : ParseState).taskStack [] := ⟨List.Pairwise.nil, by simp⟩
    obtain ⟨st, hlines⟩ := @lines_ok lib {} (fileLines text) [] 1 hstart h.aligned hfree
    have hparse : parse lib text = .ok (parked st.flushText.doc) :=
      (parse_eq_ok hempty).mpr ⟨st, hlines, hasDependencyCycle_eq_false hlines h.acyclic, rfl⟩
    obtain ⟨r, hr, -⟩ := Tx.map_eq_ok.mp hparse
    exact ⟨r, hr⟩

/-- ASCII's tables, and the digest of `foo`. -/
def fooLib : Lib :=
  let digest := "04e0bb39f30b1a3feb89f536c93be15055482df748674b00d26e5a75777702e9".toList
  { asciiTables with
    hashHex := fun t => if t = "foo".toList then digest else List.replicate 64 '0'
    hash_length := fun t => by split <;> rfl
    hash_digits := fun t c hc => by
      have hdigest : ∀ c ∈ digest, (c.isLower || c.isDigit) = true :=
        List.forall_iff_forall_mem.mp (by decide)
      split at hc
      · exact hdigest c hc
      · rw [List.eq_of_mem_replicate hc]
        rfl
    hash_ascii := fun t c hc => by
      have hdigest : ∀ c ∈ digest, c.toNat < 128 := List.forall_iff_forall_mem.mp (by decide)
      split at hc
      · exact hdigest c hc
      · rw [List.eq_of_mem_replicate hc]
        decide }

/-- Two tasks of one title, the first of which has no id yet. -/
def twoFoos : Text := "- [ ] foo\n- [ ] foo ^foo-04e0bb\n".toList

/-- A file whose task lines are not indented and need nothing is not corrupt, where no id is claimed
twice. -/
theorem uncorrupted_flat {text : Text}
    (hdistinct : ((tasks lib (fileLines text)).filterMap (·.ownId)).Nodup)
    (hflat : ∀ l ∈ fileLines text, ∀ t ∈ declared lib l, t.1 = [] ∧ t.2.deps = []) :
    Uncorrupted lib text where
  distinct := hdistinct
  aligned before l mid l' after hls t t' ht _ _ := by
    have hl : l ∈ fileLines text := by rw [hls]; simp
    rw [(hflat l hl t ht).1]
    exact Or.inl List.nil_prefix
  acyclic := by
    have hnone : ∀ a b, ¬ Needs (given lib {} (tasks lib (fileLines text))) a b := by
      rintro a b ⟨⟨p, hp, hb⟩, -⟩
      obtain ⟨t, ht, rfl⟩ := List.mem_map.mp (mem_of_given hp)
      obtain ⟨l, hl, ht⟩ := List.mem_filterMap.mp ht
      rw [(hflat l hl t ht).2] at hb
      cases hb
    intro a ha
    obtain ⟨b, hb, -⟩ := TransGen.head'_iff.mp ha
    exact hnone a b hb

/-- The line with an id first: both are read. -/
theorem parseText_ok_iff_anchored :
    ∃ r, parseText fooLib "- [ ] foo ^foo-04e0bb\n- [ ] foo\n".toList = .ok r :=
  (parseText_ok_iff fooLib _ (uncorrupted_flat (by decide +kernel) (by decide +kernel))).mpr
    ((not_congr (clash_iff_claimsMinted (by decide +kernel))).mp (by decide +kernel))

/-- The line without an id first: nothing is corrupt, and the file is not read. -/
theorem twoFoos_not_read : Uncorrupted fooLib twoFoos ∧
    parseText fooLib twoFoos = .error (bad ["duplicate task id `^", "foo-04e0bb".toList, "`"]) :=
  ⟨uncorrupted_flat (by decide +kernel) (by decide +kernel), by decide +kernel⟩

end Jkb.Sync.Tasks
