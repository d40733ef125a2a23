import Jkb.Core.Subtask
import Jkb.Sync.Tasks.Nesting
import Mathlib.Data.List.Dedup

/-!
# Jkb.Sync.Reconcile

What an import does to the edges and the containment of a file's tasks. `reconcileEdges` makes the `parent_of` and
`depends_on` edges that the file owns those that its document declares, and then the containers. Of each type every
removal comes before any addition, so that a parent and its child may be swapped; a need that would close a cycle
with an edge that the file does not own is parked.
-/

namespace Jkb.Sync.Reconcile

open Jkb.Containment Jkb.Edge Jkb.Graph Jkb.Subtask Jkb.Text Jkb.Tx Relation

/-- The items that local ids stand for. -/
abbrev Resolved := Table fun r : Text × Int => r.1

/-- The item that a local id stands for. -/
def Resolved.get (m : Resolved) (localId : Text) : Option Int := (m.find? localId).map (·.2)

/-- The local id that stands for an item. -/
def Resolved.localId (m : Resolved) (id : Int) : Text := ((m.rows.find? (·.2 = id)).map (·.1)).getD []

/-- The tasks of a file: those that its document holds, and those whose lines were just removed. -/
structure FileEdges where
  inDoc : List Int
  removed : List Int
deriving Repr, DecidableEq

namespace FileEdges

/-- A task of the file. -/
def Mine (f : FileEdges) (id : Int) : Prop := id ∈ f.inDoc ∨ id ∈ f.removed

instance (f : FileEdges) (id : Int) : Decidable (f.Mine id) := by
  unfold Mine
  infer_instance

/-- Whether an edge of a type is the file's. -/
def owns (f : FileEdges) (kind : EdgeType) (src dst : Int) : Bool :=
  if ¬ (f.Mine src ∧ f.Mine dst) then false
  else
    match kind with
    | .dependsOn => src ∈ f.inDoc
    | .parentOf => src ∈ f.inDoc ∨ dst ∈ f.inDoc
    | _ => false

end FileEdges

section Model

variable (doc : SyncDoc) (resolved : Resolved)

/-- The items that an edge of the document joins, if it joins two. -/
def ends (e : SyncEdge) : Option (Int × Int) :=
  match resolved.get e.src, resolved.get e.dst with
  | some s, some d => if s ≠ d then some (s, d) else none
  | _, _ => none

/-- The document's edges of a type. -/
def ofKind (kind : EdgeType) : List SyncEdge := doc.edges.filter (·.edgeType = kind)

/-- Keep a wanted edge, once. -/
def keepWanted (acc : List (Int × Int)) (e : SyncEdge) : List (Int × Int) :=
  match ends resolved e with
  | some p => if p ∈ acc then acc else acc ++ [p]
  | none => acc

/-- The edges of a type that are wanted, each once. -/
def wanted (kind : EdgeType) : List (Int × Int) := (ofKind doc kind).foldl (keepWanted resolved) []

/-- The edges of a type, out of some items, that the file owns. -/
def owned (f : FileEdges) (t : Edges) (kind : EdgeType) : List (Int × Int) :=
  ((t.rows.filter fun e => e.type = kind ∧ e.src ∈ f.inDoc ++ f.removed).map fun e => (e.src, e.dst)).filter
    fun p => f.owns kind p.1 p.2

/-- The order of pairs of ids. -/
def pairLe (p q : Int × Int) : Bool := p.1 < q.1 ∨ (p.1 = q.1 ∧ p.2 ≤ q.2)

/-- Remove edges of a type. -/
def dropEdges (kind : EdgeType) (s : Store) (ps : List (Int × Int)) : Store :=
  ps.foldl (fun s p => unlinkIn s p.1 p.2 kind) s

/-- Add an edge that is wanted and was not there, or park it where it closes a cycle. -/
def addEdge (kind : EdgeType) (have_ : List (Int × Int)) (r : Store × List (Text × Text)) (p : Int × Int) :
    Except Fmt (Store × List (Text × Text)) :=
  if p ∈ have_ then .ok r
  else if kind = .dependsOn ∧ r.1.edges.closesCycle p.1 p.2 kind then
    .ok (r.1, r.2 ++ [(resolved.localId p.1, resolved.localId p.2)])
  else (linkIn r.1 p.1 p.2 kind none noProps).map fun s => (s, r.2)

/-- The edges of a type that the file owns and that are not wanted. -/
def gone (f : FileEdges) (t : Edges) (kind : EdgeType) : List (Int × Int) :=
  ((owned f t kind).filter (· ∉ wanted doc resolved kind)).mergeSort pairLe

/-- Every removal, and some of the additions. -/
def addEdges (f : FileEdges) (r : Store × List (Text × Text)) (kind : EdgeType) (ps : List (Int × Int)) :
    Except Fmt (Store × List (Text × Text)) :=
  ps.foldlM (addEdge resolved kind (owned f r.1.edges kind))
    (dropEdges kind r.1 (gone doc resolved f r.1.edges kind), r.2)

/-- Make the file's edges of a type those that are wanted. -/
def reconcileKind (f : FileEdges) (r : Store × List (Text × Text)) (kind : EdgeType) :
    Except Fmt (Store × List (Text × Text)) := addEdges doc resolved f r kind (wanted doc resolved kind)

/-- Keep the first parent that is declared of a child. -/
def keepDeclared (acc : List (Int × Int)) (e : SyncEdge) : List (Int × Int) :=
  match ends resolved e with
  | some (p, c) => if c ∈ acc.map (·.1) then acc else acc ++ [(c, p)]
  | none => acc

/-- Each child and its declared parent. -/
def declared : List (Int × Int) := (ofKind doc .parentOf).foldl (keepDeclared resolved) []

/-- The declared parent of a task. -/
def declaredParent (ds : List (Int × Int)) (child : Int) : Option Int := (ds.find? (·.1 = child)).map (·.2)

/-- Take a task out of a container that the file owns and does not declare. -/
def dropContainer (f : FileEdges) (ds : List (Int × Int)) (s : Store) (child : Int) : Store :=
  match Containment.parent s.containment child with
  | some cur =>
      if f.owns .parentOf cur child ∧ declaredParent ds child ≠ some cur then
        { s with containment := (uncontain s.containment child).1 }
      else s
  | none => s

/-- The order of places in a file; what has no place is first. -/
def placeLe : Option Nat → Option Nat → Bool
  | none, _ => true
  | some _, none => false
  | some i, some j => i ≤ j

/-- Put a child in its parent, after those that were put there before it. -/
def placeChild (r : Store × (Int → Int)) (d : Int × Int) : Except Fmt (Store × (Int → Int)) :=
  (setContainer r.1 d.1 d.2 (r.2 d.2)).map fun s => (s, Function.update r.2 d.2 (r.2 d.2 + 1))

/-- Make the containers of the file's tasks those that are declared. -/
def reconcileContainment (ids : List Int) (f : FileEdges) (s : Store) : Except Fmt Store :=
  let ds := declared doc resolved
  let mine := (f.inDoc ++ f.removed).dedup.mergeSort (· ≤ ·)
  let s := mine.foldl (dropContainer f ds) s
  let children := ds.mergeSort fun a b => placeLe (ids.idxOf? a.1) (ids.idxOf? b.1)
  (children.foldlM placeChild (s, fun _ => 0)).map (·.1)

/-- The items of the document, in the order of the file. -/
def docItems : List Int := doc.items.filterMap fun i => resolved.get i.localId

/-- The tasks of the file, where `existing` were bound to it before. -/
def fileEdges (existing : Resolved) : FileEdges where
  inDoc := docItems doc resolved
  removed := (existing.rows.map (·.2)).filter (· ∉ docItems doc resolved)

/-- Make the edges and the containers of a file's tasks those that its document declares, and answer with the needs
that are parked. -/
def reconcileEdges (s : Store) (existing : Resolved) : Except Fmt (Store × List (Text × Text)) := do
  let f := fileEdges doc resolved existing
  let r ← [EdgeType.parentOf, EdgeType.dependsOn].foldlM (reconcileKind doc resolved f) (s, [])
  let s ← reconcileContainment doc resolved (docItems doc resolved) f r.1
  return (s, r.2)

end Model

/-! ## what a document declares -/

/-- What a document of the `tasks` format declares: edges between its items, without a cycle, and the parents in the
order of the file. -/
structure Declares (doc : SyncDoc) : Prop where
  ids : doc.ids.Nodup
  parents : ofKind doc .parentOf = (Tasks.heads doc).filterMap Tasks.parentEdge
  between : ∀ kind, kind = .parentOf ∨ kind = .dependsOn → ∀ x y, doc.edge kind x y → x ∈ doc.ids ∧ y ∈ doc.ids
  acyclic : ∀ kind, kind = .parentOf ∨ kind = .dependsOn → Acyclic (doc.edge kind)

/-- The needs of a file that is read are among its tasks, and make no cycle. -/
theorem needs_of_parse {lib : Tasks.Lib} {text : Text} {doc : SyncDoc} (h : Tasks.parse lib text = .ok doc) :
    (∀ x y, doc.edge .dependsOn x y → x ∈ doc.ids ∧ y ∈ doc.ids) ∧ Acyclic (doc.edge .dependsOn) := by
  by_cases hempty : text = []
  · subst hempty
    obtain rfl := Except.ok.inj h
    have hnone : ∀ x y, ¬ ({} : SyncDoc).edge .dependsOn x y := fun _ _ => List.not_mem_nil
    exact ⟨fun x y hxy => absurd hxy (hnone x y), acyclic_of_rank (fun _ => 0) fun x y hxy => absurd hxy (hnone x y)⟩
  · obtain ⟨st, hlines, hcycle, rfl⟩ := (Tasks.parse_eq_ok hempty).mp h
    have hreads := Tasks.reads_lines hlines
    refine ⟨fun x y hxy => ?_, fun x hx => ?_⟩
    · obtain ⟨hedge, hresolves⟩ := List.mem_filter.mp hxy
      rw [Tasks.flushText_edges] at hedge
      rw [Tasks.parked_ids]
      refine ⟨?_, by simpa [Tasks.resolves] using hresolves⟩
      rcases hreads.edges x y hedge with hnone | ⟨p, hp, -⟩
      · cases hnone
      · have hx : x ∈ st.doc.ids := by
          rw [hreads.ids]
          exact List.mem_map_of_mem (f := Prod.fst) hp
        rw [SyncDoc.ids, Tasks.flushText_items]
        exact hx
    · exact Bool.eq_false_iff.mp hcycle (Tasks.hasDependencyCycle_iff.mpr ⟨x, hx⟩)

/-- **A document that the parser accepts** declares edges so. -/
theorem declares_of_parse {lib : Tasks.Lib} {text : Text} {doc : SyncDoc} (h : Tasks.parse lib text = .ok doc) :
    Declares doc := by
  obtain ⟨⟨_, warnings⟩, hr, rfl⟩ := map_eq_ok.mp h
  obtain ⟨pieces, hsourced, -⟩ := Tasks.exists_sourced hr
  obtain ⟨hneeds, hacyclic⟩ := needs_of_parse h
  refine ⟨hsourced.ids, Tasks.parentEdges_of_parse h, ?_, ?_⟩
  · rintro kind (rfl | rfl) x y hxy
    · obtain ⟨j, k, -, hj, hk⟩ := (Tasks.edge_of_parse h x y).mp hxy
      exact ⟨List.mem_of_getElem? hj, List.mem_of_getElem? hk⟩
    · exact hneeds x y hxy
  · rintro kind (rfl | rfl)
    · exact Tasks.acyclic_of_parse h hsourced.ids
    · exact hacyclic

/-- What an import has of a document: its items stand for items of the store, each for its own. -/
structure Resolves (resolved : Resolved) (doc : SyncDoc) (items : Items) : Prop where
  mem : ∀ l, (resolved.get l).isSome = true ↔ l ∈ doc.ids
  inj : ∀ l l' id, resolved.get l = some id → resolved.get l' = some id → l = l'
  row : ∀ l id, resolved.get l = some id → (items.find? id).isSome = true

/-- An edge of a type between two items is declared. -/
def Declared (doc : SyncDoc) (resolved : Resolved) (kind : EdgeType) (a b : Int) : Prop :=
  ∃ x y, doc.edge kind x y ∧ resolved.get x = some a ∧ resolved.get y = some b

/-! ## the edges that are wanted -/

section Wanted

variable {doc : SyncDoc} {resolved : Resolved} {items : Items}

/-- What is wanted is what was, and the ends of every edge that resolve. -/
theorem mem_foldl_keepWanted {es : List SyncEdge} {acc : List (Int × Int)} {p : Int × Int} :
    p ∈ es.foldl (keepWanted resolved) acc ↔ p ∈ acc ∨ ∃ e ∈ es, ends resolved e = some p := by
  induction es generalizing acc with
  | nil => simp
  | cons e es ih =>
      rw [List.foldl_cons, ih, List.exists_mem_cons_iff, ← or_assoc]
      refine or_congr_left ?_
      unfold keepWanted
      cases hends : ends resolved e with
      | none => simp
      | some q =>
          rw [Option.some.injEq]
          by_cases hq : q ∈ acc
          · simp only [if_pos hq]
            exact ⟨Or.inl, fun h => h.elim id fun heq => heq ▸ hq⟩
          · simp [if_neg hq, eq_comm]

/-- Nothing is wanted twice. -/
theorem nodup_foldl_keepWanted {es : List SyncEdge} {acc : List (Int × Int)} (h : acc.Nodup) :
    (es.foldl (keepWanted resolved) acc).Nodup := by
  induction es generalizing acc with
  | nil => exact h
  | cons e es ih =>
      refine ih ?_
      unfold keepWanted
      split
      · split
        · exact h
        · rename_i hnew
          exact List.nodup_append.mpr ⟨h, List.nodup_singleton _, fun a ha b hb hab =>
            hnew (List.mem_singleton.mp hb ▸ hab ▸ ha)⟩
      · exact h

/-- An edge resolves if both of its ends do, to different items. -/
theorem ends_eq_some {e : SyncEdge} {a b : Int} :
    ends resolved e = some (a, b) ↔ resolved.get e.src = some a ∧ resolved.get e.dst = some b ∧ a ≠ b := by
  unfold ends
  cases hs : resolved.get e.src with
  | none => simp
  | some s =>
      cases hd : resolved.get e.dst with
      | none => simp
      | some d =>
          by_cases hne : s = d
          · simp [hne]
            grind
          · simp [hne]
            grind

/-- No task is declared its own parent or its own need. -/
theorem Resolves.ne_of_edge (hr : Resolves resolved doc items) (hd : Declares doc) {kind : EdgeType}
    (hkind : kind = .parentOf ∨ kind = .dependsOn) {x y : Text} {a b : Int} (h : doc.edge kind x y)
    (hx : resolved.get x = some a) (hy : resolved.get y = some b) : a ≠ b := by
  rintro rfl
  obtain rfl := hr.inj x y a hx hy
  exact hd.acyclic kind hkind x (.single h)

/-- **The edges that are wanted** are those that are declared. -/
theorem mem_wanted (hr : Resolves resolved doc items) (hd : Declares doc) {kind : EdgeType}
    (hkind : kind = .parentOf ∨ kind = .dependsOn) {a b : Int} :
    (a, b) ∈ wanted doc resolved kind ↔ Declared doc resolved kind a b := by
  rw [wanted, mem_foldl_keepWanted]
  simp only [List.not_mem_nil, false_or, ends_eq_some]
  constructor
  · rintro ⟨⟨x, y, k⟩, he, hx, hy, -⟩
    obtain ⟨hin, hk⟩ := List.mem_filter.mp he
    obtain rfl := of_decide_eq_true hk
    exact ⟨x, y, hin, hx, hy⟩
  · rintro ⟨x, y, hxy, hx, hy⟩
    exact ⟨⟨x, y, kind⟩, List.mem_filter.mpr ⟨hxy, by simp⟩, hx, hy, hr.ne_of_edge hd hkind hxy hx hy⟩

/-- Nothing is wanted twice of a document. -/
theorem nodup_wanted (kind : EdgeType) : (wanted doc resolved kind).Nodup :=
  nodup_foldl_keepWanted List.nodup_nil

/-- Edges that are declared make no cycle. -/
theorem Resolves.acyclic (hr : Resolves resolved doc items) (hd : Declares doc) {kind : EdgeType}
    (hkind : kind = .parentOf ∨ kind = .dependsOn) : Acyclic (Declared doc resolved kind) := by
  have hwalk : ∀ {a b}, TransGen (Declared doc resolved kind) a b →
      ∃ x y, TransGen (doc.edge kind) x y ∧ resolved.get x = some a ∧ resolved.get y = some b := by
    intro a b hab
    induction hab with
    | single h =>
        obtain ⟨x, y, hxy, hx, hy⟩ := h
        exact ⟨x, y, .single hxy, hx, hy⟩
    | tail _ h ih =>
        obtain ⟨x, y, hxy, hx, hy⟩ := ih
        obtain ⟨y', z, hyz, hy', hz⟩ := h
        obtain rfl := hr.inj y y' _ hy hy'
        exact ⟨x, z, hxy.tail hyz, hx, hz⟩
  intro a ha
  obtain ⟨x, y, hxy, hx, hy⟩ := hwalk ha
  obtain rfl := hr.inj x y a hx hy
  exact hd.acyclic kind hkind x hxy

/-- The items of a document are what its ids resolve to. -/
theorem mem_docItems {a : Int} : a ∈ docItems doc resolved ↔ ∃ x ∈ doc.ids, resolved.get x = some a := by
  simp [docItems, SyncDoc.ids]

end Wanted

/-! ## one type of edges -/

section Kind

variable {resolved : Resolved} {kind : EdgeType}

/-- What a file owns of a store are its own edges there. -/
theorem mem_owned {f : FileEdges} {t : Edges} {p : Int × Int} :
    p ∈ owned f t kind ↔ t.Arc kind p.1 p.2 ∧ f.owns kind p.1 p.2 = true := by
  simp only [owned, List.mem_filter, List.mem_map, decide_eq_true_eq, Edges.Arc]
  constructor
  · rintro ⟨⟨e, ⟨he, hkind, -⟩, rfl⟩, howns⟩
    exact ⟨⟨e, he, rfl, rfl, hkind⟩, howns⟩
  · rintro ⟨⟨e, he, hsrc, hdst, hkind⟩, howns⟩
    refine ⟨⟨e, ⟨he, hkind, ?_⟩, by rw [hsrc, hdst]⟩, howns⟩
    rw [hsrc, List.mem_append]
    unfold FileEdges.owns at howns
    split at howns
    · cases howns
    · rename_i hmine
      exact (not_not.mp hmine).1

/-- What removals leave. -/
theorem dropEdges_eq (s : Store) (ps : List (Int × Int)) :
    ∃ t : Edges, dropEdges kind s ps = { s with edges := t } ∧
      ∀ e : EdgeRow, e ∈ t.rows ↔ e ∈ s.edges.rows ∧ ¬ (e.type = kind ∧ (e.src, e.dst) ∈ ps) := by
  induction ps generalizing s with
  | nil => exact ⟨s.edges, rfl, by simp⟩
  | cons p ps ih =>
      obtain ⟨t, ht, hrows⟩ := ih (unlinkIn s p.1 p.2 kind)
      refine ⟨t, ht, fun e => ?_⟩
      rw [hrows, unlinkIn, unlink, Edges.mem_rows_remove, List.mem_cons]
      simp only [EdgeRow.triple, ne_eq, Prod.ext_iff]
      tauto

/-- What adding edges has done: those that were not parked are there, and each that was parked had a way back. -/
structure Added (resolved : Resolved) (kind : EdgeType) (have_ : List (Int × Int)) (start : Store × List (Text × Text))
    (done parked : List (Int × Int)) (s : Store) : Prop where
  rest : ∃ t, s = { start.1 with edges := t }
  rows : ∀ e : EdgeRow, ¬ (e.type = kind ∧ (e.src, e.dst) ∈ done) → (e ∈ s.edges.rows ↔ e ∈ start.1.edges.rows)
  arcs : ∀ a b, s.edges.Arc kind a b ↔ start.1.edges.Arc kind a b ∨ ((a, b) ∈ done ∧ (a, b) ∉ parked)
  parked : ∀ p ∈ parked, p ∉ have_ ∧ kind = .dependsOn ∧ ∃ before after r, done = before ++ p :: after ∧
    before.foldlM (addEdge resolved kind have_) start = .ok r ∧ TransGen (r.1.edges.Arc kind) p.2 p.1

variable {have_ : List (Int × Int)} {start : Store × List (Text × Text)} {done parked : List (Int × Int)} {s : Store}

/-- Before the first edge nothing has been added. -/
theorem Added.nil : Added resolved kind have_ start [] [] start.1 :=
  ⟨⟨_, rfl⟩, fun _ _ => Iff.rfl, by simp, nofun⟩

/-- Only what has been tried is parked. -/
theorem Added.parked_subset (h : Added resolved kind have_ start done parked s) : ∀ p ∈ parked, p ∈ done := by
  intro p hp
  obtain ⟨-, -, before, after, r, rfl, -⟩ := h.parked p hp
  simp

/-- What is parked stays so when there is more to do. -/
theorem Added.parked_concat (h : Added resolved kind have_ start done parked s) (q : Int × Int) :
    ∀ p ∈ parked, p ∉ have_ ∧ kind = .dependsOn ∧ ∃ before after r, done ++ [q] = before ++ p :: after ∧
      before.foldlM (addEdge resolved kind have_) start = .ok r ∧ TransGen (r.1.edges.Arc kind) p.2 p.1 := by
  intro p hp
  obtain ⟨hhave, hkind, before, after, r, rfl, hr⟩ := h.parked p hp
  exact ⟨hhave, hkind, before, after ++ [q], r, by simp, hr⟩

/-- The parked pairs, by local ids. -/
def shownPairs (resolved : Resolved) (ps : List (Int × Int)) : List (Text × Text) :=
  ps.map fun p => (resolved.localId p.1, resolved.localId p.2)

/-- **One addition**: the edge was there, is parked or is added. -/
theorem Added.step (h : Added resolved kind have_ start done parked s) {p : Int × Int}
    (hrun : done.foldlM (addEdge resolved kind have_) start = .ok (s, start.2 ++ shownPairs resolved parked))
    (hnew : p ∉ done) (hhave : p ∈ have_ → start.1.edges.Arc kind p.1 p.2) (hne : p.1 ≠ p.2)
    (hsrc : (start.1.items.find? p.1).isSome = true) (hdst : (start.1.items.find? p.2).isSome = true)
    (hfree : kind ≠ .dependsOn → s.edges.closesCycle p.1 p.2 kind = false) :
    ∃ s' parked', addEdge resolved kind have_ (s, start.2 ++ shownPairs resolved parked) p =
      .ok (s', start.2 ++ shownPairs resolved parked') ∧
        Added resolved kind have_ start (done ++ [p]) parked' s' := by
  have hrows : ∀ e : EdgeRow, ¬ (e.type = kind ∧ (e.src, e.dst) ∈ done ++ [p]) →
      (e ∈ s.edges.rows ↔ e ∈ start.1.edges.rows) := fun e he =>
    h.rows e fun hin => he ⟨hin.1, List.mem_append_left _ hin.2⟩
  have hnot : p ∉ parked := fun hp => hnew (h.parked_subset p hp)
  unfold addEdge
  by_cases hin : p ∈ have_
  · rw [if_pos hin]
    refine ⟨s, parked, rfl, h.rest, hrows, fun a b => ?_, h.parked_concat p⟩
    rw [h.arcs, List.mem_append, List.mem_singleton]
    refine ⟨Or.imp_right fun hd => ⟨Or.inl hd.1, hd.2⟩, ?_⟩
    rintro (harc | ⟨hd | rfl, hpark⟩)
    · exact Or.inl harc
    · exact Or.inr ⟨hd, hpark⟩
    · exact Or.inl (hhave hin)
  rw [if_neg hin]
  by_cases hcycle : s.edges.closesCycle p.1 p.2 kind = true
  · have hkind : kind = .dependsOn := by
      by_contra hkind
      exact Bool.eq_false_iff.mp (hfree hkind) hcycle
    rw [if_pos ⟨hkind, hcycle⟩]
    refine ⟨s, parked ++ [p], by simp [shownPairs], h.rest, hrows, fun a b => ?_, fun q hq => ?_⟩
    · rw [h.arcs]
      simp only [List.mem_append, List.mem_singleton, not_or]
      constructor
      · rintro (harc | ⟨hd, hpark⟩)
        · exact Or.inl harc
        · exact Or.inr ⟨Or.inl hd, hpark, fun heq => hnew (heq ▸ hd)⟩
      · rintro (harc | ⟨hd | heq, hpark, hdiff⟩)
        · exact Or.inl harc
        · exact Or.inr ⟨hd, hpark⟩
        · exact absurd heq hdiff
    · rcases List.mem_append.mp hq with hq | hq
      · exact h.parked_concat p q hq
      · rw [List.mem_singleton.mp hq]
        refine ⟨hin, hkind, done, [], _, rfl, hrun, ?_⟩
        subst hkind
        exact (Edges.createsCycle_eq_true.mp hcycle).resolve_left hne
  · obtain ⟨t, rfl⟩ := h.rest
    rw [if_neg fun hand => hcycle hand.2, linkIn]
    have hlink := link_of_closesCycle noProps (Bool.eq_false_iff.mpr hcycle) hsrc hdst
    rw [link] at hlink
    rw [hlink]
    refine ⟨_, parked, rfl, ⟨_, rfl⟩, fun e he => ?_, fun a b => ?_, h.parked_concat p⟩
    · refine (Edges.mem_rows_put fun htriple => he ?_).trans (hrows e he)
      obtain ⟨hs, hrest⟩ := Prod.mk.inj htriple
      obtain ⟨hd, hkind⟩ := Prod.mk.inj hrest
      exact ⟨hkind, by simp [hs, hd]⟩
    · refine Edges.arc_put.trans ?_
      rw [h.arcs]
      simp only [List.mem_append, List.mem_singleton, and_true]
      constructor
      · rintro ((harc | ⟨hd, hpark⟩) | ⟨rfl, rfl⟩)
        · exact Or.inl harc
        · exact Or.inr ⟨Or.inl hd, hpark⟩
        · exact Or.inr ⟨Or.inr rfl, hnot⟩
      · rintro (harc | ⟨hd | heq, hpark⟩)
        · exact Or.inl (Or.inl harc)
        · exact Or.inl (Or.inr ⟨hd, hpark⟩)
        · exact Or.inr ⟨congrArg Prod.fst heq, congrArg Prod.snd heq⟩

/-- **All additions**, one after the other. -/
theorem added_run (hnodup : done.Nodup) (hhave : ∀ p ∈ done, p ∈ have_ → start.1.edges.Arc kind p.1 p.2)
    (hne : ∀ p ∈ done, p.1 ≠ p.2)
    (hrow : ∀ p ∈ done, (start.1.items.find? p.1).isSome = true ∧ (start.1.items.find? p.2).isSome = true)
    (hfree : kind ≠ .dependsOn → ∀ s before parked, before ⊆ done →
      Added resolved kind have_ start before parked s → ∀ p ∈ done, s.edges.closesCycle p.1 p.2 kind = false) :
    ∃ s parked, done.foldlM (addEdge resolved kind have_) start = .ok (s, start.2 ++ shownPairs resolved parked) ∧
      Added resolved kind have_ start done parked s := by
  induction done using List.reverseRecOn with
  | nil => exact ⟨start.1, [], by simp [shownPairs]; rfl, .nil⟩
  | append_singleton done p ih =>
      have hsub : ∀ q ∈ done, q ∈ done ++ [p] := fun q hq => List.mem_append_left _ hq
      have hmem : p ∈ done ++ [p] := List.mem_append_right _ List.mem_cons_self
      rw [List.nodup_append] at hnodup
      obtain ⟨s, parked, hrun, hadded⟩ := ih hnodup.1 (fun q hq => hhave q (hsub q hq)) (fun q hq => hne q (hsub q hq))
        (fun q hq => hrow q (hsub q hq)) fun hkind s before parked hbefore hadded q hq =>
          hfree hkind s before parked (fun x hx => hsub x (hbefore hx)) hadded q (hsub q hq)
      have hnew : p ∉ done := fun hp => hnodup.2.2 p hp p List.mem_cons_self rfl
      obtain ⟨s', parked', hstep, hadded'⟩ := hadded.step hrun hnew (hhave p hmem) (hne p hmem) (hrow p hmem).1
        (hrow p hmem).2 fun hkind => hfree hkind s done parked hsub hadded p hmem
      refine ⟨s', parked', ?_, hadded'⟩
      rw [List.foldlM_append, hrun]
      refine bind_eq_ok.mpr ⟨_, rfl, ?_⟩
      rw [List.foldlM_cons, hstep]
      rfl

end Kind

/-- What reconciling one type of edges comes to: those that the file owns are the declared ones, but for those that
are parked, each of which closed a cycle at its turn. -/
structure Reconciled (doc : SyncDoc) (resolved : Resolved) (f : FileEdges) (kind : EdgeType)
    (r r' : Store × List (Text × Text)) (parked : List (Int × Int)) : Prop where
  rest : ∃ t, r'.1 = { r.1 with edges := t }
  shown : r'.2 = r.2 ++ shownPairs resolved parked
  rows : ∀ e : EdgeRow, ¬ (e.type = kind ∧ f.owns kind e.src e.dst = true) →
    (e ∈ r'.1.edges.rows ↔ e ∈ r.1.edges.rows)
  arcs : ∀ a b, r'.1.edges.Arc kind a b ∧ f.owns kind a b = true ↔ Declared doc resolved kind a b ∧ (a, b) ∉ parked
  parked : ∀ p ∈ parked, kind = .dependsOn ∧ Declared doc resolved kind p.1 p.2 ∧ ∃ before after turn,
    wanted doc resolved kind = before ++ p :: after ∧ addEdges doc resolved f r kind before = .ok turn ∧
      TransGen (turn.1.edges.Arc kind) p.2 p.1

section File

variable {doc : SyncDoc} {resolved : Resolved} {kind : EdgeType} {f : FileEdges} {r : Store × List (Text × Text)}

/-- The file owns what it declares. -/
theorem owns_of_declared (hd : Declares doc) (hdoc : f.inDoc = docItems doc resolved)
    (hkind : kind = .parentOf ∨ kind = .dependsOn) {a b : Int} (h : Declared doc resolved kind a b) :
    f.owns kind a b = true := by
  obtain ⟨x, y, hxy, hx, hy⟩ := h
  obtain ⟨hxmem, hymem⟩ := hd.between kind hkind x y hxy
  have ha : a ∈ f.inDoc := hdoc ▸ mem_docItems.mpr ⟨x, hxmem, hx⟩
  have hb : b ∈ f.inDoc := hdoc ▸ mem_docItems.mpr ⟨y, hymem, hy⟩
  rcases hkind with rfl | rfl <;> simp [FileEdges.owns, FileEdges.Mine, ha, hb]

/-- Where no parent is outside the file, a parent that is declared is above nothing that it is declared under: the
parents of the document's tasks are declared ones. -/
theorem closesCycle_eq_false {items : Items} (hr : Resolves resolved doc items) (hd : Declares doc)
    (hdoc : f.inDoc = docItems doc resolved) {t : Edges}
    (hup : ∀ a b, t.Arc .parentOf a b → b ∈ f.inDoc → Declared doc resolved .parentOf a b) {a b : Int}
    (h : Declared doc resolved .parentOf a b) : t.closesCycle a b .parentOf = false := by
  have hmem : ∀ c d, Declared doc resolved .parentOf c d → c ∈ f.inDoc := by
    rintro c d ⟨x, y, hxy, hx, -⟩
    exact hdoc ▸ mem_docItems.mpr ⟨x, (hd.between _ (Or.inl rfl) x y hxy).1, hx⟩
  have hwalk : ∀ c, ReflTransGen (t.Arc .parentOf) b c → c ∈ f.inDoc →
      ReflTransGen (Declared doc resolved .parentOf) b c := by
    intro c hc
    induction hc with
    | refl => exact fun _ => .refl
    | tail _ harc ih => exact fun hin => (ih (hmem _ _ (hup _ _ harc hin))).tail (hup _ _ harc hin)
  refine Bool.eq_false_iff.mpr fun hcycle => ?_
  have hback := hwalk a (Edges.isParentOrAbove_eq_true.mp hcycle) (hmem a b h)
  exact hr.acyclic hd (Or.inl rfl) a (.head' h hback)

/-- **One type of edges is reconciled.** -/
theorem reconcileKind_spec (hr : Resolves resolved doc r.1.items) (hd : Declares doc)
    (hdoc : f.inDoc = docItems doc resolved) (hkind : kind = .parentOf ∨ kind = .dependsOn)
    (hclosed : ∀ a b, r.1.edges.Arc .parentOf a b → b ∈ f.inDoc → f.Mine a) :
    ∃ r' parked, reconcileKind doc resolved f r kind = .ok r' ∧ Reconciled doc resolved f kind r r' parked := by
  have howns : ∀ {a b}, Declared doc resolved kind a b → f.owns kind a b = true :=
    owns_of_declared hd hdoc hkind
  have hwant : ∀ {a b}, (a, b) ∈ wanted doc resolved kind ↔ Declared doc resolved kind a b := mem_wanted hr hd hkind
  have hmem : ∀ p, p ∈ gone doc resolved f r.1.edges kind ↔
      p ∈ owned f r.1.edges kind ∧ p ∉ wanted doc resolved kind := by
    intro p
    rw [gone, List.mem_mergeSort, List.mem_filter, decide_eq_true_eq]
  obtain ⟨t, ht, hrows⟩ := @dropEdges_eq kind r.1 (gone doc resolved f r.1.edges kind)
  have harc : ∀ k a b, t.Arc k a b ↔ r.1.edges.Arc k a b ∧
      ¬ (k = kind ∧ (a, b) ∈ gone doc resolved f r.1.edges kind) := by
    intro k a b
    constructor
    · rintro ⟨e, he, rfl, rfl, rfl⟩
      obtain ⟨he, hnot⟩ := (hrows e).mp he
      exact ⟨⟨e, he, rfl, rfl, rfl⟩, hnot⟩
    · rintro ⟨⟨e, he, rfl, rfl, rfl⟩, hnot⟩
      exact ⟨e, (hrows e).mpr ⟨he, hnot⟩, rfl, rfl, rfl⟩
  -- of what the file owns, only what is wanted is left
  have hleft : ∀ a b, t.Arc kind a b → f.owns kind a b = true →
      (a, b) ∈ owned f r.1.edges kind ∧ (a, b) ∈ wanted doc resolved kind := by
    intro a b hab hown
    obtain ⟨hold, hnot⟩ := (harc kind a b).mp hab
    have hin : (a, b) ∈ owned f r.1.edges kind := mem_owned.mpr ⟨hold, hown⟩
    refine ⟨hin, ?_⟩
    by_contra hwanted
    exact hnot ⟨rfl, (hmem _).mpr ⟨hin, hwanted⟩⟩
  have hkeep : ∀ p ∈ wanted doc resolved kind, p ∈ owned f r.1.edges kind → t.Arc kind p.1 p.2 := by
    intro p hp hin
    exact (harc _ _ _).mpr ⟨(mem_owned.mp hin).1, fun h => ((hmem p).mp h.2).2 hp⟩
  have hends : ∀ p ∈ wanted doc resolved kind, (r.1.items.find? p.1).isSome = true ∧
      (r.1.items.find? p.2).isSome = true := by
    intro p hp
    obtain ⟨x, y, -, hx, hy⟩ := hwant.mp hp
    exact ⟨hr.row x _ hx, hr.row y _ hy⟩
  have hne : ∀ p ∈ wanted doc resolved kind, p.1 ≠ p.2 := by
    intro p hp
    obtain ⟨x, y, hxy, hx, hy⟩ := hwant.mp hp
    exact hr.ne_of_edge hd hkind hxy hx hy
  obtain ⟨s, parked, hrun, hadded⟩ := @added_run resolved kind (owned f r.1.edges kind)
    (dropEdges kind r.1 (gone doc resolved f r.1.edges kind), r.2) (wanted doc resolved kind) (nodup_wanted kind)
    (by rw [ht]; exact hkeep) hne (by rw [ht]; exact hends) fun hdepends s before parked hbefore hadded p hp => by
      obtain rfl := hkind.resolve_right hdepends
      refine closesCycle_eq_false hr hd hdoc (fun a b hab hb => ?_) (hwant.mp hp)
      rcases (hadded.arcs a b).mp hab with hab | ⟨hab, -⟩
      · rw [ht] at hab
        have hb' : f.Mine b := Or.inl hb
        have hown : f.owns .parentOf a b = true := by
          simp [FileEdges.owns, hclosed a b ((harc _ a b).mp hab).1 hb, hb', hb]
        exact hwant.mp (hleft a b hab hown).2
      · exact hwant.mp (hbefore hab)
  refine ⟨(s, r.2 ++ shownPairs resolved parked), parked, hrun, ?_, rfl, fun e he => ?_, fun a b => ?_, fun p hp => ?_⟩
  · obtain ⟨u, rfl⟩ := hadded.rest
    exact ⟨u, by rw [ht]⟩
  · rw [hadded.rows e fun h => he ⟨h.1, howns (hwant.mp h.2)⟩, ht, hrows]
    refine and_iff_left fun h => he ⟨h.1, ?_⟩
    exact (mem_owned.mp ((hmem _).mp h.2).1).2
  · rw [hadded.arcs, ht, ← hwant]
    constructor
    · rintro ⟨hab | hab, hown⟩
      · obtain ⟨hin, hwanted⟩ := hleft a b hab hown
        exact ⟨hwanted, fun hpark => (hadded.parked _ hpark).1 hin⟩
      · exact hab
    · rintro ⟨hwanted, hpark⟩
      exact ⟨Or.inr ⟨hwanted, hpark⟩, howns (hwant.mp hwanted)⟩
  · obtain ⟨-, hdepends, before, after, turn, hsplit, hturn, hback⟩ := hadded.parked p hp
    refine ⟨hdepends, hwant.mp (hsplit ▸ ?_), before, after, turn, hsplit, hturn, hback⟩
    simp

end File

end Jkb.Sync.Reconcile
