import Jkb.Sync.Reconcile

/-!
# Jkb.Sync.Reconcile.Containers

The containers of a file's tasks. The rows that the file no longer declares go first, and then each child is put in
its parent, after those that stand before it in the file. `reconcileEdges_spec` says what the edges and the containers
are after an import.
-/

namespace Jkb.Sync.Reconcile

open Jkb.Containment Jkb.Edge Jkb.Graph Jkb.Subtask Jkb.Text Jkb.Tx Relation

/-! ## the rows that go -/

/-- A row that goes: the file owns it, and declares another container or none. -/
def Drops (f : FileEdges) (ds : List (Int × Int)) (t : ContainmentTable) (c : Int) : Prop :=
  ∃ cur, Containment.parent t c = some cur ∧ f.owns .parentOf cur c = true ∧ declaredParent ds c ≠ some cur

/-- What taking a task out of its container leaves. -/
theorem dropContainer_eq (f : FileEdges) (ds : List (Int × Int)) (s : Store) (child : Int) :
    ∃ t, dropContainer f ds s child = { s with containment := t } ∧
      (Drops f ds s.containment child → t.find? child = none) ∧
      ∀ c, ¬ (c = child ∧ Drops f ds s.containment c) → t.find? c = s.containment.find? c := by
  unfold dropContainer
  split
  · rename_i cur hcur
    split_ifs with hdrop
    · refine ⟨_, rfl, fun _ => by rw [find?_uncontain, if_pos rfl], fun c hc => ?_⟩
      rw [find?_uncontain, if_neg]
      rintro rfl
      exact hc ⟨rfl, cur, hcur, hdrop⟩
    · refine ⟨_, rfl, fun h => ?_, fun _ _ => rfl⟩
      obtain ⟨cur', hcur', h⟩ := h
      obtain rfl := Option.some.inj (hcur.symm.trans hcur')
      exact absurd h hdrop
  · rename_i hnone
    refine ⟨_, rfl, fun h => ?_, fun _ _ => rfl⟩
    obtain ⟨cur, hcur, -⟩ := h
    rw [hnone] at hcur
    cases hcur

/-- **The rows that go** are gone, and the others stay. -/
theorem foldl_dropContainer (f : FileEdges) (ds : List (Int × Int)) (cs : List Int) (s : Store) :
    ∃ t, cs.foldl (dropContainer f ds) s = { s with containment := t } ∧
      (∀ c ∈ cs, Drops f ds s.containment c → t.find? c = none) ∧
      ∀ c, ¬ (c ∈ cs ∧ Drops f ds s.containment c) → t.find? c = s.containment.find? c := by
  induction cs generalizing s with
  | nil => exact ⟨s.containment, rfl, nofun, fun _ _ => rfl⟩
  | cons x cs ih =>
      obtain ⟨t₁, ht₁, hgone₁, hkeep₁⟩ := dropContainer_eq f ds s x
      obtain ⟨t₂, ht₂, hgone₂, hkeep₂⟩ := ih { s with containment := t₁ }
      have hdrops : ∀ c, t₁.find? c = s.containment.find? c → (Drops f ds t₁ c ↔ Drops f ds s.containment c) :=
        fun c hc => by simp only [Drops, Containment.parent, hc]
      have hnone : ∀ c, t₁.find? c = none → t₂.find? c = none := by
        intro c hc
        refine (hkeep₂ c fun h => ?_).trans hc
        obtain ⟨-, cur, hcur, -⟩ := h
        simp [Containment.parent, hc] at hcur
      refine ⟨t₂, by rw [List.foldl_cons, ht₁, ht₂], fun c hc hdrop => ?_, fun c hc => ?_⟩
      · by_cases hx : c = x
        · exact hnone c (hx ▸ hgone₁ (hx ▸ hdrop))
        · have hsame := hkeep₁ c fun h => hx h.1
          exact hgone₂ c ((List.mem_cons.mp hc).resolve_left hx) ((hdrops c hsame).mpr hdrop)
      · have hsame := hkeep₁ c fun h => hc ⟨by rw [h.1]; exact List.mem_cons_self, h.2⟩
        rw [← hsame]
        exact hkeep₂ c fun h => hc ⟨List.mem_cons_of_mem _ h.1, (hdrops c hsame).mp h.2⟩

/-! ## the children that are put in place -/

/-- What putting children in their parents has done. -/
structure Placed (start : Store) (done : List (Int × Int)) (r : Store × (Int → Int)) : Prop where
  rest : ∃ t, r.1 = { start with containment := t }
  next : ∀ p, r.2 p = (done.countP (·.2 = p) : Nat)
  rows : ∀ before c p after, done = before ++ (c, p) :: after →
    r.1.containment.find? c = some ⟨c, p, (before.countP (·.2 = p) : Nat)⟩
  others : ∀ c, c ∉ done.map (·.1) → r.1.containment.find? c = start.containment.find? c

/-- Before the first row nothing has been placed. -/
theorem Placed.nil (start : Store) : Placed start [] (start, fun _ => 0) :=
  ⟨⟨_, rfl⟩, fun _ => rfl, fun before c p after h => by simp at h, fun _ _ => rfl⟩

/-- **A child is put in its parent**, after those that were put there before it. -/
theorem Placed.step {start : Store} {done : List (Int × Int)} {r : Store × (Int → Int)} (h : Placed start done r)
    {c p : Int} (hnew : c ∉ done.map (·.1))
    (hat : ∀ q, Containment.parent start.containment c = some q → q = p)
    (hback : ¬ ReflTransGen (Inside r.1.containment) p c) (hc : (start.items.find? c).isSome = true)
    (hp : (start.items.find? p).isSome = true) :
    ∃ r', placeChild r (c, p) = .ok r' ∧ Placed start (done ++ [(c, p)]) r' := by
  obtain ⟨s, pos⟩ := r
  obtain ⟨t, rfl⟩ := h.rest
  have hold := h.others c hnew
  have hnext : ∀ q, pos q = (done.countP (·.2 = q) : Nat) := h.next
  obtain ⟨t', ht', hself, hothers⟩ := exists_contain (pos p) hback hc hp
  have hset : setContainer { start with containment := t } c p (pos p) = .ok { start with containment := t' } := by
    unfold setContainer
    cases hparent : Containment.parent t c with
    | none => simp [containIn, ht', Except.map]
    | some q =>
        have hq : q = p := hat q (by rw [← hparent, Containment.parent, Containment.parent, ← hold])
        simp [hq, containIn, ht', Except.map]
  refine ⟨_, by rw [placeChild, hset]; rfl, ⟨_, rfl⟩, fun q => ?_, fun before c' p' after hsplit => ?_,
    fun c' hc' => ?_⟩
  · simp only [List.countP_append, List.countP_singleton, decide_eq_true_eq]
    by_cases hq : q = p
    · rw [hq, Function.update_self, hnext]
      simp
    · rw [Function.update_of_ne hq, hnext, if_neg (Ne.symm hq)]
      rfl
  · rcases List.eq_nil_or_concat after with rfl | ⟨after, last, rfl⟩
    · obtain ⟨rfl, hlast⟩ := List.append_inj' hsplit rfl
      obtain ⟨rfl, rfl⟩ := Prod.mk.inj (List.cons.inj hlast).1
      rw [hself, hnext]
    · have hdone : done = before ++ (c', p') :: after := by
        rw [List.concat_eq_append, ← List.cons_append, ← List.append_assoc] at hsplit
        exact (List.append_inj' hsplit rfl).1
      have hne : c' ≠ c := by
        rintro rfl
        exact hnew (by simp [hdone])
      rw [hothers c' hne]
      exact h.rows before c' p' after hdone
  · rw [List.map_append, List.mem_append, not_or] at hc'
    have hne : c' ≠ c := fun heq => hc'.2 (by simp [heq])
    rw [hothers c' hne]
    exact h.others c' hc'.1

/-! ## the children that are declared -/

section Children

variable {doc : SyncDoc} {resolved : Resolved} {items : Items}

/-- A child and its parent, of a task's place. -/
def childOf (resolved : Resolved) (h : Text × Option Text) : Option (Int × Int) :=
  match resolved.get h.1, h.2.bind resolved.get with
  | some c, some p => some (c, p)
  | _, _ => none

/-- A row declares a child where it and its container resolve. -/
theorem childOf_eq_some {h : Text × Option Text} {c p : Int} :
    childOf resolved h = some (c, p) ↔ resolved.get h.1 = some c ∧ ∃ x, h.2 = some x ∧ resolved.get x = some p := by
  rw [← Option.bind_eq_some_iff, childOf]
  cases resolved.get h.1 with
  | none => simp
  | some c' => cases h.2.bind resolved.get <;> simp

/-- Keeping the first parent of each child keeps every parent, where each child has one place. -/
theorem foldl_keepDeclared (hinj : ∀ l l' id, resolved.get l = some id → resolved.get l' = some id → l = l')
    {hs : List (Text × Option Text)} {acc : List (Int × Int)} (hnodup : (hs.map Prod.fst).Nodup)
    (hres : ∀ h ∈ hs, ∀ x, h.2 = some x → ∃ c p, resolved.get h.1 = some c ∧ resolved.get x = some p ∧ p ≠ c)
    (hnew : ∀ h ∈ hs, ∀ c, resolved.get h.1 = some c → c ∉ acc.map (·.1)) :
    (hs.filterMap Tasks.parentEdge).foldl (keepDeclared resolved) acc = acc ++ hs.filterMap (childOf resolved) := by
  induction hs generalizing acc with
  | nil => simp
  | cons h hs ih =>
      obtain ⟨y, parent⟩ := h
      rw [List.map_cons, List.nodup_cons] at hnodup
      obtain ⟨hfirst, hrest⟩ := List.forall_mem_cons.mp hres
      obtain ⟨hnewfirst, hnewrest⟩ := List.forall_mem_cons.mp hnew
      cases parent with
      | none =>
          rw [List.filterMap_cons_none (show Tasks.parentEdge (y, none) = none from rfl),
            List.filterMap_cons_none (by simp [childOf])]
          exact ih hnodup.2 hrest hnewrest
      | some x =>
          obtain ⟨c, p, hc, hp, hne⟩ := hfirst x rfl
          have hends : ends resolved ⟨x, y, .parentOf⟩ = some (p, c) := ends_eq_some.mpr ⟨hp, hc, hne⟩
          rw [List.filterMap_cons_some (show Tasks.parentEdge (y, some x) = some ⟨x, y, .parentOf⟩ from rfl),
            List.filterMap_cons_some (childOf_eq_some.mpr ⟨hc, x, rfl, hp⟩), List.foldl_cons, keepDeclared, hends]
          simp only [if_neg (hnewfirst c hc)]
          rw [ih hnodup.2 hrest fun h hh c' hc' => ?_, List.append_assoc, List.singleton_append]
          rw [List.map_append, List.mem_append, not_or]
          refine ⟨hnewrest h hh c' hc', fun hin => hnodup.1 ?_⟩
          obtain rfl : c' = c := by simpa using hin
          have hy : y = h.1 := hinj y h.1 c' hc hc'
          exact List.mem_map.mpr ⟨h, hh, hy.symm⟩

/-- The document's edges from parents are its tasks' places. -/
theorem Declares.edge_iff (hd : Declares doc) {x y : Text} : doc.edge .parentOf x y ↔ (y, some x) ∈ Tasks.heads doc :=
  Tasks.edge_parentOf hd.parents

/-- **The children that are declared** are those of the tasks' places, in the order of the file. -/
theorem declared_eq (hr : Resolves resolved doc items) (hd : Declares doc) :
    declared doc resolved = (Tasks.heads doc).filterMap (childOf resolved) := by
  rw [declared, hd.parents, foldl_keepDeclared hr.inj (by rw [← Tasks.ids_eq_heads]; exact hd.ids), List.nil_append]
  · rintro ⟨y, parent⟩ hh x rfl
    have hedge := hd.edge_iff.mpr hh
    obtain ⟨hx, hy⟩ := hd.between _ (Or.inl rfl) x y hedge
    obtain ⟨p, hp⟩ := Option.isSome_iff_exists.mp ((hr.mem x).mpr hx)
    obtain ⟨c, hc⟩ := Option.isSome_iff_exists.mp ((hr.mem y).mpr hy)
    exact ⟨c, p, hc, hp, hr.ne_of_edge hd (Or.inl rfl) hedge hp hc⟩
  · exact fun _ _ _ _ => List.not_mem_nil

/-- The containments of a document are those that its edges declare. -/
theorem mem_declared (hr : Resolves resolved doc items) (hd : Declares doc) {c p : Int} :
    (c, p) ∈ declared doc resolved ↔ Declared doc resolved .parentOf p c := by
  rw [declared_eq hr hd, List.mem_filterMap]
  constructor
  · rintro ⟨⟨y, parent⟩, hh, hchild⟩
    obtain ⟨hc, x, rfl, hp⟩ := childOf_eq_some.mp hchild
    exact ⟨x, y, hd.edge_iff.mpr hh, hp, hc⟩
  · rintro ⟨x, y, hxy, hp, hc⟩
    exact ⟨(y, some x), hd.edge_iff.mp hxy, childOf_eq_some.mpr ⟨hc, x, rfl, hp⟩⟩

/-- A task has one place, so one parent is declared of it. -/
theorem parent_unique (hr : Resolves resolved doc items) (hd : Declares doc) {p q c : Int}
    (h : Declared doc resolved .parentOf p c) (h' : Declared doc resolved .parentOf q c) : p = q := by
  obtain ⟨x, y, hxy, hx, hy⟩ := h
  obtain ⟨x', y', hxy', hx', hy'⟩ := h'
  obtain rfl := hr.inj y y' c hy hy'
  have hnodup : ((Tasks.heads doc).map Prod.fst).Nodup := by rw [← Tasks.ids_eq_heads]; exact hd.ids
  have hsame := List.inj_on_of_nodup_map hnodup (hd.edge_iff.mp hxy) (hd.edge_iff.mp hxy') rfl
  obtain rfl := Option.some.inj (congrArg Prod.snd hsame)
  exact Option.some.inj (hx.symm.trans hx')

/-- The items of a document, in the order of its rows. -/
theorem docItems_eq : docItems doc resolved = (Tasks.heads doc).filterMap fun h => resolved.get h.1 := by
  simp only [docItems, Tasks.heads, List.filterMap_map]
  rfl

/-- The children are among the items. -/
theorem keys_sublist (hs : List (Text × Option Text)) :
    ((hs.filterMap (childOf resolved)).map (·.1)).Sublist (hs.filterMap fun h => resolved.get h.1) := by
  induction hs with
  | nil => exact .slnil
  | cons h hs ih =>
      cases hc : resolved.get h.1 with
      | none =>
          rw [List.filterMap_cons_none (by simp [childOf, hc]),
            List.filterMap_cons_none (f := fun h : Text × Option Text => resolved.get h.1) hc]
          exact ih
      | some c =>
          rw [List.filterMap_cons_some (f := fun h : Text × Option Text => resolved.get h.1) hc]
          cases hchild : childOf resolved h with
          | none =>
              rw [List.filterMap_cons_none hchild]
              exact ih.cons _
          | some d =>
              rw [List.filterMap_cons_some hchild, List.map_cons]
              obtain rfl : d.1 = c := Option.some.inj ((childOf_eq_some.mp hchild).1.symm.trans hc)
              exact ih.cons_cons _

/-- No item of a document is named twice. -/
theorem nodup_docItems (hr : Resolves resolved doc items) (hd : Declares doc) : (docItems doc resolved).Nodup := by
  have hids : docItems doc resolved = doc.ids.filterMap resolved.get := by
    simp only [docItems, SyncDoc.ids, List.filterMap_map]
    rfl
  rw [hids]
  exact hd.ids.filterMap fun l l' id hl hl' => hr.inj l l' id hl hl'

/-- What stands in an order without repetition is in order by its places. -/
theorem pairwise_placeLe {ids : List Int} (h : ids.Nodup) :
    ids.Pairwise fun a b => placeLe (ids.idxOf? a) (ids.idxOf? b) = true := by
  have hat : ∀ i (hi : i < ids.length), ids.idxOf? ids[i] = some i := by
    intro i hi
    rw [List.idxOf?_eq_some_iff]
    refine ⟨hi, by simp, fun j hj heq => ?_⟩
    exact absurd ((h.getElem_inj_iff).mp (by simpa using heq)) (Nat.ne_of_lt hj)
  rw [List.pairwise_iff_getElem]
  intro i j hi hj hij
  rw [hat i hi, hat j hj]
  simpa [placeLe] using Nat.le_of_lt hij

/-- **The children are placed in the order of the file.** -/
theorem mergeSort_declared (hr : Resolves resolved doc items) (hd : Declares doc) :
    ((declared doc resolved).mergeSort fun a b =>
      placeLe ((docItems doc resolved).idxOf? a.1) ((docItems doc resolved).idxOf? b.1)) = declared doc resolved := by
  refine List.mergeSort_of_pairwise ?_
  have hsub : ((declared doc resolved).map (·.1)).Sublist (docItems doc resolved) := by
    rw [declared_eq hr hd, docItems_eq]
    exact keys_sublist _
  exact List.pairwise_map.mp ((pairwise_placeLe (nodup_docItems hr hd)).sublist hsub)

/-- Where the containers of the document's tasks are declared ones, a parent that is declared is not inside its
child. -/
theorem not_inside (hr : Resolves resolved doc items) (hd : Declares doc) {t : ContainmentTable}
    (hup : ∀ a b, a ∈ docItems doc resolved → Inside t a b → Declared doc resolved .parentOf b a) {c p : Int}
    (h : Declared doc resolved .parentOf p c) : ¬ ReflTransGen (Inside t) p c := by
  have hmem : ∀ a b, Declared doc resolved .parentOf a b → a ∈ docItems doc resolved := by
    rintro a b ⟨x, y, hxy, hx, -⟩
    exact mem_docItems.mpr ⟨x, (hd.between _ (Or.inl rfl) x y hxy).1, hx⟩
  have hwalk : ∀ a, ReflTransGen (Inside t) a c → a ∈ docItems doc resolved →
      ReflTransGen (Declared doc resolved .parentOf) c a := by
    intro a ha
    induction ha using ReflTransGen.head_induction_on with
    | refl => exact fun _ => .refl
    | head hstep _ ih =>
        intro hin
        have hdecl := hup _ _ hin hstep
        exact (ih (hmem _ _ hdecl)).tail hdecl
  exact fun hback => hr.acyclic hd (Or.inl rfl) p (.head' h (hwalk p hback (hmem p c h)))

/-- **All children are put in their parents**, one after the other. -/
theorem placed_run (start : Store) (hr : Resolves resolved doc start.items) (hd : Declares doc)
    (hup : ∀ a b, a ∈ docItems doc resolved → Inside start.containment a b → Declared doc resolved .parentOf b a)
    {done : List (Int × Int)} (hdone : ∀ c p, (c, p) ∈ done → Declared doc resolved .parentOf p c)
    (hnodup : (done.map (·.1)).Nodup) :
    ∃ r, done.foldlM placeChild (start, fun _ => 0) = .ok r ∧ Placed start done r := by
  induction done using List.reverseRecOn with
  | nil => exact ⟨_, rfl, .nil start⟩
  | append_singleton done d ih =>
      obtain ⟨c, p⟩ := d
      rw [List.map_append, List.nodup_append] at hnodup
      obtain ⟨r, hrun, hplaced⟩ := ih (fun c p h => hdone c p (List.mem_append_left _ h)) hnodup.1
      have hnew : c ∉ done.map (·.1) := fun hc => hnodup.2.2 c hc c List.mem_cons_self rfl
      have hdecl : Declared doc resolved .parentOf p c := hdone c p (by simp)
      have hin : c ∈ docItems doc resolved := by
        obtain ⟨x, y, hxy, -, hy⟩ := hdecl
        exact mem_docItems.mpr ⟨y, (hd.between _ (Or.inl rfl) x y hxy).2, hy⟩
      have hback : ¬ ReflTransGen (Inside r.1.containment) p c := by
        refine not_inside hr hd (fun a b ha hab => ?_) hdecl
        by_cases hmem : a ∈ done.map (·.1)
        · obtain ⟨⟨a', q⟩, hq, rfl⟩ := List.mem_map.mp hmem
          obtain ⟨before, after, hsplit⟩ := List.append_of_mem hq
          have hrow := hplaced.rows before a' q after hsplit
          have hsame : q = b := by simpa [Inside, Containment.parent, hrow] using hab
          exact hsame ▸ hdone a' q (List.mem_append_left _ hq)
        · refine hup a b ha ?_
          rwa [Inside, Containment.parent, hplaced.others a hmem] at hab
      obtain ⟨x, y, -, hx, hy⟩ := hdecl
      obtain ⟨r', hstep, hplaced'⟩ := hplaced.step hnew
        (fun q hq => parent_unique hr hd (hup c q hin hq) (hdone c p (by simp))) hback (hr.row y c hy) (hr.row x p hx)
      refine ⟨r', ?_, hplaced'⟩
      rw [List.foldlM_append, hrun]
      refine bind_eq_ok.mpr ⟨_, rfl, ?_⟩
      rw [List.foldlM_cons, hstep]
      rfl

/-- The rank of a task among its parent's children, in the order of the file. -/
def rank (doc : SyncDoc) (x y : Text) : Nat :=
  (doc.ids.takeWhile (· ≠ y)).countP fun z => ⟨x, z, .parentOf⟩ ∈ doc.edges

/-- How many of a parent's children are placed before a child is the child's rank. -/
theorem exists_split (hr : Resolves resolved doc items) (hd : Declares doc) {x y : Text} {p c : Int}
    (hxy : doc.edge .parentOf x y) (hx : resolved.get x = some p) (hy : resolved.get y = some c) :
    ∃ before after, declared doc resolved = before ++ (c, p) :: after ∧
      before.countP (·.2 = p) = rank doc x y := by
  obtain ⟨hs, hs', hsplit⟩ := List.append_of_mem (hd.edge_iff.mp hxy)
  have hids : doc.ids = hs.map Prod.fst ++ y :: hs'.map Prod.fst := by rw [Tasks.ids_eq_heads, hsplit]; simp
  refine ⟨hs.filterMap (childOf resolved), hs'.filterMap (childOf resolved), ?_, ?_⟩
  · rw [declared_eq hr hd, hsplit, List.filterMap_append, List.filterMap_cons_some
      (childOf_eq_some.mpr ⟨hy, x, rfl, hx⟩)]
  · have hnodup := hd.ids
    rw [hids, List.nodup_append] at hnodup
    have hbefore : doc.ids.takeWhile (· ≠ y) = hs.map Prod.fst := by
      rw [hids, List.takeWhile_append_of_pos, List.takeWhile_cons_of_neg (by simp), List.append_nil]
      intro z hz
      simpa using hnodup.2.2 z hz y List.mem_cons_self
    have hfirst : ((Tasks.heads doc).map Prod.fst).Nodup := by rw [← Tasks.ids_eq_heads]; exact hd.ids
    rw [rank, hbefore, List.countP_map, List.countP_filterMap]
    refine List.countP_congr fun ⟨z, parent⟩ hh => ?_
    have hmem : (z, parent) ∈ Tasks.heads doc := by
      rw [hsplit]
      exact List.mem_append_left _ hh
    rw [Function.comp_apply, decide_eq_true_eq, ← SyncDoc.edge, hd.edge_iff]
    constructor
    · intro hchild
      cases hc' : childOf resolved (z, parent) with
      | none => simp [hc'] at hchild
      | some d =>
          obtain ⟨-, x', hx', hp'⟩ := childOf_eq_some.mp hc'
          have hd2 : d.2 = p := by simpa [hc'] using hchild
          obtain rfl := hr.inj x' x p (hd2 ▸ hp') hx
          obtain rfl : parent = some x' := hx'
          exact hmem
    · intro hplace
      obtain rfl : parent = some x := congrArg Prod.snd (List.inj_on_of_nodup_map hfirst hmem hplace rfl)
      obtain ⟨c', hc'⟩ := Option.isSome_iff_exists.mp ((hr.mem z).mpr
        (hd.between _ (Or.inl rfl) x z (hd.edge_iff.mpr hplace)).2)
      have hchild : childOf resolved (z, some x) = some (c', p) := childOf_eq_some.mpr ⟨hc', x, rfl, hx⟩
      simp [hchild]

/-- What reconciling containers comes to: each of the document's tasks is in its declared parent, or in none. -/
theorem reconcileContainment_spec {f : FileEdges} {s : Store} (hr : Resolves resolved doc s.items) (hd : Declares doc)
    (hdoc : f.inDoc = docItems doc resolved)
    (hclosed : ∀ c p, Inside s.containment c p → c ∈ f.inDoc → f.Mine p) :
    ∃ t, reconcileContainment doc resolved (docItems doc resolved) f s = .ok { s with containment := t } ∧
      (∀ x y p c, doc.edge .parentOf x y → resolved.get x = some p → resolved.get y = some c →
        t.find? c = some ⟨c, p, rank doc x y⟩) ∧
      ∀ y c, resolved.get y = some c → (∀ x, ¬ doc.edge .parentOf x y) → t.find? c = none := by
  obtain ⟨t, ht, hgone, hkeep⟩ := foldl_dropContainer f (declared doc resolved)
    ((f.inDoc ++ f.removed).dedup.mergeSort (· ≤ ·)) s
  have hmine : ∀ c ∈ f.inDoc, c ∈ (f.inDoc ++ f.removed).dedup.mergeSort (· ≤ ·) := fun c hc =>
    List.mem_mergeSort.mpr (List.mem_dedup.mpr (List.mem_append_left _ hc))
  -- a task that is still somewhere is where it is declared
  have hup : ∀ a b, a ∈ docItems doc resolved → Inside t a b → Declared doc resolved .parentOf b a := by
    intro a b ha hab
    have hin : a ∈ f.inDoc := hdoc ▸ ha
    have hstay : ¬ Drops f (declared doc resolved) s.containment a := by
      intro hdrop
      rw [Inside, Containment.parent, hgone a (hmine a hin) hdrop] at hab
      cases hab
    rw [Inside, Containment.parent, hkeep a fun h => hstay h.2] at hab
    have hown : f.owns .parentOf b a = true := by
      simp [FileEdges.owns, FileEdges.Mine, hin, show b ∈ f.inDoc ∨ b ∈ f.removed from hclosed a b hab hin]
    have hparent : declaredParent (declared doc resolved) a = some b := by
      by_contra hne
      exact hstay ⟨b, hab, hown, hne⟩
    obtain ⟨⟨a', b'⟩, hfind, rfl⟩ := Option.map_eq_some_iff.mp hparent
    obtain rfl : a' = a := by simpa using List.find?_some hfind
    exact (mem_declared hr hd).mp (List.mem_of_find?_eq_some hfind)
  have hkeys : ((declared doc resolved).map (·.1)).Nodup := by
    refine (nodup_docItems hr hd).sublist ?_
    rw [declared_eq hr hd, docItems_eq]
    exact keys_sublist _
  obtain ⟨r, hrun, hplaced⟩ := placed_run { s with containment := t } hr hd hup
    (fun c p => (mem_declared hr hd).mp) hkeys
  obtain ⟨u, hu⟩ := hplaced.rest
  refine ⟨u, ?_, fun x y p c hxy hx hy => ?_, fun y c hy hnone => ?_⟩
  · rw [reconcileContainment, ht, mergeSort_declared hr hd, hrun, Except.map, hu]
  · obtain ⟨before, after, hsplit, hrank⟩ := exists_split hr hd hxy hx hy
    have hrow := hplaced.rows before c p after hsplit
    rw [hu, hrank] at hrow
    exact hrow
  · have hnot : c ∉ (declared doc resolved).map (·.1) := by
      intro hc
      obtain ⟨⟨c', p⟩, hmem, rfl⟩ := List.mem_map.mp hc
      obtain ⟨x, y', hxy, -, hy'⟩ := (mem_declared hr hd).mp hmem
      exact hnone x (hr.inj y y' c' hy hy' ▸ hxy)
    have hother := hplaced.others c hnot
    rw [hu] at hother
    refine hother.trans ?_
    cases hrow : t.find? c with
    | none => rfl
    | some row =>
        have hin : c ∈ docItems doc resolved := mem_docItems.mpr ⟨y, (hr.mem y).mp (by rw [hy]; rfl), hy⟩
        have hdecl := hup c row.parent hin (by rw [Inside, Containment.parent, hrow]; rfl)
        exact absurd (List.mem_map_of_mem ((mem_declared hr hd).mpr hdecl)) hnot

end Children

/-! ## an import -/

/-- What an import leaves, where `f` are the file's tasks. -/
structure Imported (doc : SyncDoc) (resolved : Resolved) (f : FileEdges) (s s' : Store) (parked : List (Text × Text)) :
    Prop where
  /-- Only edges and containers are written. -/
  rest : ∃ t u, s' = { s with edges := t, containment := u }
  /-- Of the edges from parents, the file's are those that are declared. -/
  parents : ∀ a b, s'.edges.Arc .parentOf a b ∧ f.owns .parentOf a b = true ↔ Declared doc resolved .parentOf a b
  /-- Of the dependencies, the file's are those that are declared and not parked. -/
  needs : ∀ a b, s'.edges.Arc .dependsOn a b ∧ f.owns .dependsOn a b = true ↔
    ∃ x y, doc.edge .dependsOn x y ∧ (x, y) ∉ parked ∧ resolved.get x = some a ∧ resolved.get y = some b
  /-- A need that is parked closed a cycle with the edges that were there at its turn. -/
  parked : ∀ x y, (x, y) ∈ parked → doc.edge .dependsOn x y ∧ ∃ a b before after r turn,
    resolved.get x = some a ∧ resolved.get y = some b ∧ wanted doc resolved .dependsOn = before ++ (a, b) :: after ∧
      reconcileKind doc resolved f (s, []) .parentOf = .ok r ∧ addEdges doc resolved f r .dependsOn before = .ok turn ∧
        TransGen (turn.1.edges.Arc .dependsOn) b a
  /-- What the file does not own is as it was. -/
  others : ∀ e : EdgeRow, f.owns e.type e.src e.dst = false → (e ∈ s'.edges.rows ↔ e ∈ s.edges.rows)
  /-- A task is in its declared parent, at its rank. -/
  inside : ∀ x y p c, doc.edge .parentOf x y → resolved.get x = some p → resolved.get y = some c →
    s'.containment.find? c = some ⟨c, p, rank doc x y⟩
  /-- A task of which no parent is declared is in none. -/
  top : ∀ y c, resolved.get y = some c → (∀ x, ¬ doc.edge .parentOf x y) → s'.containment.find? c = none

section Import

variable {doc : SyncDoc} {resolved : Resolved} {items : Items}

/-- An item's id in the document is the one that resolves to it. -/
theorem localId_eq (hr : Resolves resolved doc items) {x : Text} {a : Int} (h : resolved.get x = some a) :
    resolved.localId a = x := by
  obtain ⟨⟨x', a'⟩, hrow, rfl⟩ := Option.map_eq_some_iff.mp h
  obtain ⟨hmem, hkey⟩ := Table.find?_eq_some.mp hrow
  obtain rfl : x' = x := hkey
  unfold Resolved.localId
  cases hfind : resolved.rows.find? (fun r => decide (r.2 = a')) with
  | none => exact absurd (decide_eq_true rfl) (List.find?_eq_none.mp hfind _ hmem)
  | some r =>
      have hr2 : r.2 = a' := by simpa using List.find?_some hfind
      refine hr.inj r.1 x' a' ?_ h
      rw [Resolved.get, Table.find?_of_mem (List.mem_of_find?_eq_some hfind), Option.map_some, hr2]

/-- A parked pair, by local ids. -/
theorem mem_shownPairs (hr : Resolves resolved doc items) {kind : EdgeType} {ps : List (Int × Int)}
    (hps : ∀ p ∈ ps, Declared doc resolved kind p.1 p.2) {x y : Text} :
    (x, y) ∈ shownPairs resolved ps ↔ ∃ a b, resolved.get x = some a ∧ resolved.get y = some b ∧ (a, b) ∈ ps := by
  simp only [shownPairs, List.mem_map, Prod.mk.injEq]
  constructor
  · rintro ⟨⟨a, b⟩, hp, rfl, rfl⟩
    obtain ⟨x, y, -, hx, hy⟩ := hps _ hp
    exact ⟨a, b, by rw [localId_eq hr hx, hx], by rw [localId_eq hr hy, hy], hp⟩
  · rintro ⟨a, b, hx, hy, hp⟩
    exact ⟨(a, b), hp, localId_eq hr hx, localId_eq hr hy⟩

/-- **An import reconciles a file's edges exactly.** -/
theorem reconcileEdges_spec {lib : Tasks.Lib} {text : Text} (h : Tasks.parse lib text = .ok doc) {s : Store}
    (existing : Resolved) (hr : Resolves resolved doc s.items)
    (hparent : ∀ a b, s.edges.Arc .parentOf a b → b ∈ docItems doc resolved →
      (fileEdges doc resolved existing).Mine a)
    (hinside : ∀ c p, Inside s.containment c p → c ∈ docItems doc resolved →
      (fileEdges doc resolved existing).Mine p) :
    ∃ s' parked, reconcileEdges doc resolved s existing = .ok (s', parked) ∧
      Imported doc resolved (fileEdges doc resolved existing) s s' parked := by
  have hd := declares_of_parse h
  set f := fileEdges doc resolved existing with hf
  have hdoc : f.inDoc = docItems doc resolved := rfl
  obtain ⟨r₁, parked₁, hrun₁, h₁⟩ := reconcileKind_spec (r := (s, [])) hr hd hdoc (Or.inl rfl) hparent
  obtain ⟨t₁, ht₁⟩ := h₁.rest
  have hr₁ : Resolves resolved doc r₁.1.items := by rw [ht₁]; exact hr
  have hnil : parked₁ = [] := by
    rw [List.eq_nil_iff_forall_not_mem]
    exact fun p hp => by cases (h₁.parked p hp).1
  have hparent₁ : ∀ a b, r₁.1.edges.Arc .parentOf a b → b ∈ f.inDoc → f.Mine a := by
    rintro a b ⟨e, he, rfl, rfl, htype⟩ hb
    by_cases hown : f.owns .parentOf e.src e.dst = true
    · unfold FileEdges.owns at hown
      split at hown
      · cases hown
      · rename_i hmine
        exact (not_not.mp hmine).1
    · exact hparent _ _ ⟨e, (h₁.rows e fun hand => hown hand.2).mp he, rfl, rfl, htype⟩ hb
  obtain ⟨r₂, parked₂, hrun₂, h₂⟩ := reconcileKind_spec hr₁ hd hdoc (Or.inr rfl) hparent₁
  obtain ⟨t₂, ht₂⟩ := h₂.rest
  rw [ht₁] at ht₂
  obtain ⟨u, hrun₃, hin, htop⟩ := reconcileContainment_spec (s := r₂.1) (by rw [ht₂]; exact hr) hd hdoc
    (by rw [ht₂]; exact hinside)
  have hshown : r₂.2 = shownPairs resolved parked₂ := by rw [h₂.shown, h₁.shown, hnil]; rfl
  have hdecl : ∀ p ∈ parked₂, Declared doc resolved .dependsOn p.1 p.2 := fun p hp => (h₂.parked p hp).2.1
  refine ⟨{ r₂.1 with containment := u }, r₂.2, ?_, ⟨t₂, u, by rw [ht₂]⟩, fun a b => ?_, fun a b => ?_,
    fun x y hxy => ?_, fun e he => ?_, hin, htop⟩
  · rw [reconcileEdges]
    refine bind_eq_ok.mpr ⟨r₂, ?_, bind_eq_ok.mpr ⟨_, hrun₃, rfl⟩⟩
    rw [List.foldlM_cons]
    refine bind_eq_ok.mpr ⟨r₁, hrun₁, ?_⟩
    rw [List.foldlM_cons]
    exact bind_eq_ok.mpr ⟨r₂, hrun₂, rfl⟩
  · have harc : r₂.1.edges.Arc .parentOf a b ↔ r₁.1.edges.Arc .parentOf a b := by
      constructor
      · rintro ⟨e, he, rfl, rfl, htype⟩
        exact ⟨e, (h₂.rows e fun hand => by rw [htype] at hand; cases hand.1).mp he, rfl, rfl, htype⟩
      · rintro ⟨e, he, rfl, rfl, htype⟩
        exact ⟨e, (h₂.rows e fun hand => by rw [htype] at hand; cases hand.1).mpr he, rfl, rfl, htype⟩
    rw [harc, h₁.arcs, hnil]
    simp
  · rw [h₂.arcs]
    constructor
    · rintro ⟨⟨x, y, hxy, hx, hy⟩, hpark⟩
      refine ⟨x, y, hxy, fun hin => hpark ?_, hx, hy⟩
      rw [hshown] at hin
      obtain ⟨a', b', hx', hy', hin⟩ := (mem_shownPairs hr hdecl).mp hin
      rwa [Option.some.inj (hx.symm.trans hx'), Option.some.inj (hy.symm.trans hy')]
    · rintro ⟨x, y, hxy, hpark, hx, hy⟩
      refine ⟨⟨x, y, hxy, hx, hy⟩, fun hin => hpark ?_⟩
      rw [hshown]
      exact (mem_shownPairs hr hdecl).mpr ⟨a, b, hx, hy, hin⟩
  · rw [hshown] at hxy
    obtain ⟨a, b, hx, hy, hin⟩ := (mem_shownPairs hr hdecl).mp hxy
    obtain ⟨-, ⟨x', y', hedge, hx', hy'⟩, before, after, turn, hsplit, hturn, hback⟩ := h₂.parked _ hin
    obtain rfl := hr.inj x x' a hx hx'
    obtain rfl := hr.inj y y' b hy hy'
    exact ⟨hedge, a, b, before, after, r₁, turn, hx, hy, hsplit, hrun₁, hturn, hback⟩
  · have hnot : ∀ kind, ¬ (e.type = kind ∧ f.owns kind e.src e.dst = true) := by
      rintro kind ⟨rfl, hown⟩
      rw [he] at hown
      cases hown
    exact (h₂.rows e (hnot _)).trans (h₁.rows e (hnot _))

/-- A file whose second task is under the first, and needs it. -/
def nestedNeed : Text := "- [ ] a ^a\n  - [ ] b needs:^a ^b\n".toList

/-- The items of its tasks. -/
def nestedIds : Resolved := ⟨[("a".toList, 1), ("b".toList, 2)], by decide⟩

/-- A store in which the first is under the second. -/
def otherWayUp : Store where
  items := ⟨[⟨1, "a".toList, "task".toList⟩, ⟨2, "b".toList, "task".toList⟩],
    show ([1, 2] : List Int).Nodup by decide⟩
  bindings := .empty
  edges := (Edges.empty.put 2 1 .parentOf noProps none).1
  containment := ⟨[⟨1, 2, 0⟩], by decide⟩

/-- A document that turns a containment over is imported. -/
theorem reconcileEdges_spec_otherWayUp : ∃ doc s' parked, Tasks.parse Tasks.asciiLib nestedNeed = .ok doc ∧
    reconcileEdges doc nestedIds otherWayUp .empty = .ok (s', parked) ∧
      Imported doc nestedIds (fileEdges doc nestedIds .empty) otherWayUp s' parked := by
  have hread : (Tasks.parse Tasks.asciiLib nestedNeed).toOption.map SyncDoc.ids = some ["a".toList, "b".toList] := by
    decide +kernel
  cases h : Tasks.parse Tasks.asciiLib nestedNeed with
  | error e =>
      rw [h] at hread
      cases hread
  | ok doc =>
      rw [h] at hread
      have hids : doc.ids = ["a".toList, "b".toList] := Option.some.inj hread
      have hitems : docItems doc nestedIds = [1, 2] := by
        have hmap : docItems doc nestedIds = doc.ids.filterMap nestedIds.get := by
          simp only [docItems, SyncDoc.ids, List.filterMap_map]
          rfl
        rw [hmap, hids]
        decide
      have hget : ∀ l id, nestedIds.get l = some id → (l = "a".toList ∧ id = 1) ∨ (l = "b".toList ∧ id = 2) := by
        intro l id hl
        obtain ⟨⟨l', id'⟩, hrow, rfl⟩ := Option.map_eq_some_iff.mp hl
        obtain ⟨hmem, rfl⟩ := Table.find?_eq_some.mp hrow
        simpa [nestedIds] using hmem
      have hresolves : Resolves nestedIds doc otherWayUp.items := by
        refine ⟨fun l => ?_, fun l l' id hl hl' => ?_, fun l id hl => ?_⟩
        · rw [hids]
          constructor
          · intro hl
            obtain ⟨id, hid⟩ := Option.isSome_iff_exists.mp hl
            rcases hget l id hid with ⟨rfl, -⟩ | ⟨rfl, -⟩ <;> simp
          · intro hl
            simp only [List.mem_cons, List.not_mem_nil, or_false] at hl
            rcases hl with rfl | rfl <;> decide
        · rcases hget l id hl with ⟨rfl, rfl⟩ | ⟨rfl, rfl⟩ <;> rcases hget l' _ hl' with ⟨rfl, h⟩ | ⟨rfl, h⟩ <;>
            first | rfl | cases h
        · rcases hget l id hl with ⟨-, rfl⟩ | ⟨-, rfl⟩ <;> decide
      have hmine : ∀ a, a = 1 ∨ a = 2 → (fileEdges doc nestedIds .empty).Mine a := by
        intro a ha
        refine Or.inl ?_
        show a ∈ docItems doc nestedIds
        rw [hitems]
        simpa using ha
      obtain ⟨s', parked, hrun, himported⟩ := reconcileEdges_spec h .empty hresolves
        (fun a b hab _ => by
          rcases Edges.arc_put.mp hab with ⟨e, he, -⟩ | ⟨rfl, -, -⟩
          · exact absurd he List.not_mem_nil
          · exact hmine 2 (Or.inr rfl))
        (fun c p hcp _ => by
          obtain ⟨row, hrow, rfl⟩ := Option.map_eq_some_iff.mp hcp
          have hmem := Table.mem_of_find? hrow
          rw [List.mem_singleton.mp hmem]
          exact hmine 2 (Or.inr rfl))
      exact ⟨doc, s', parked, rfl, hrun, himported⟩

end Import

end Jkb.Sync.Reconcile
