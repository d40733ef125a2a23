import Jkb.Prim
import Jkb.Sync.Doc
import Mathlib.Data.List.Sort
import Mathlib.Data.Prod.Lex
import Mathlib.Data.String.Basic

/-!
# Jkb.Sync.ThreeWay

The three-way merge of `engine.rs`: per-item signatures, the side each item is taken from, and the
merged document. Items are merged by local id, edges by the item that owns them, and the layout
wholesale from one side; an edge whose other end did not survive is dropped.

The hash maps and sets of the code are lists here, of which only membership and the last entry of a
key are read.
-/

namespace Jkb.Sync

/-! ## one value, three ways -/

/-- Both sides changed the value, and not alike. -/
def Clash {α : Type*} (base ours theirs : α) : Prop := ours ≠ base ∧ theirs ≠ base ∧ ours ≠ theirs

/-! ## signatures -/

/-- A semantic signature of an item. Pairs are sorted as tuples are, by their first part first. -/
structure Sig where
  content : Text
  status : Option String
  priority : Option Int
  due : Option Text
  sectionPath : Option Text
  tags : List (Text ×ₗ Text)
  mirrors : List Text
  edges : List (String ×ₗ Text)
  unresolvedNeeds : List Text
deriving DecidableEq

/-- The item that owns an edge, and the edge's other end: a child declares its parent, and every
other type is a statement of its source. -/
def edgeOwner (e : SyncEdge) : Text × Text :=
  match e.edgeType with
  | .parentOf => (e.dst, e.src)
  | _ => (e.src, e.dst)

/-- The edges an item owns, each as its type and its other end. -/
def ownedEdges (doc : SyncDoc) (id : Text) : List (String × Text) :=
  (doc.edges.filter fun e => (edgeOwner e).1 = id).map fun e => (e.edgeType.asStr, (edgeOwner e).2)

/-- `sort` on pairs. -/
def sortPairs {α : Type} [LinearOrder α] (xs : List (α × Text)) : List (α ×ₗ Text) :=
  (xs.map toLex).insertionSort (· ≤ ·)

/-- The signature of an item that owns `edges`. -/
def sigOf (i : SyncItem) (edges : List (String × Text)) : Sig where
  content := i.content
  status := i.status
  priority := i.priority
  due := i.due
  sectionPath := i.sectionPath
  tags := sortPairs i.tags
  mirrors := i.mirrors.insertionSort (· ≤ ·)
  edges := sortPairs edges
  unresolvedNeeds := i.unresolvedNeeds

/-- Signatures by local id, with the ids whose edges are already taken. -/
def sigsFrom (doc : SyncDoc) : List Text → List SyncItem → List (Text × Sig)
  | _, [] => []
  | taken, i :: is =>
      (i.localId, sigOf i (if i.localId ∈ taken then [] else ownedEdges doc i.localId)) ::
        sigsFrom doc (i.localId :: taken) is

/-- Signatures of every item in a document. -/
def sigs (doc : SyncDoc) : List (Text × Sig) := sigsFrom doc [] doc.items

/-- `HashMap::get` on collected entries: the last one of a key stands. -/
def Sig.get : List (Text × Sig) → Text → Option Sig
  | [], _ => none
  | (k, s) :: entries, id => (Sig.get entries id).or (if k = id then some s else none)

/-- The signature a document gives a local id, if it has one. -/
def sig (doc : SyncDoc) (id : Text) : Option Sig := Sig.get (sigs doc) id

/-! ## the merge -/

/-- The outcome of a per-item three-way comparison. -/
inductive ThreeWay where
  | merged (doc : SyncDoc)
  | conflict
deriving DecidableEq

/-- The local ids whose signatures differ. -/
def changed (a b : SyncDoc) : List Text :=
  ((sigs a).map (·.1) ++ (sigs b).map (·.1)).filter fun id => sig a id ≠ sig b id

/-- Every local id of the three documents, in order, once. -/
def allIds (base disk kb : SyncDoc) : List Text :=
  dedup (((sigs base).map (·.1) ++ (sigs disk).map (·.1) ++ (sigs kb).map (·.1)).insertionSort
    (· ≤ ·))

/-- The side an item is taken from: the one that changed it, else the base. -/
def chosenSide (base disk kb : SyncDoc) (id : Text) : SyncDoc :=
  if id ∈ changed base disk then disk
  else if id ∈ changed base kb then kb
  else base

/-- The ids whose chosen side has the item. -/
def presentIds (base disk kb : SyncDoc) : List Text :=
  (allIds base disk kb).filter fun id => ((chosenSide base disk kb id).item? id).isSome

/-- Some id changed on both sides, and not alike. -/
def clashes (base disk kb : SyncDoc) : Bool :=
  (changed base disk).any fun id => id ∈ changed base kb && sig disk id ≠ sig kb id

/-- The merged document: items and edges per id, sections of both sides, the layout of one. -/
def mergedDoc (base disk kb : SyncDoc) : SyncDoc :=
  let ids := allIds base disk kb
  let present := presentIds base disk kb
  { sections := firstOfKey (·.path) [] (disk.sections ++ kb.sections)
    items := ids.filterMap fun id => (chosenSide base disk kb id).item? id
    edges :=
      (ids.flatMap fun id =>
          (chosenSide base disk kb id).edges.filter fun e => (edgeOwner e).1 = id).filter
        fun e => e.src ∈ present ∧ e.dst ∈ present
    layout := (if disk.layout = [] then kb else disk).layout.filter fun b =>
      match b with
      | .item id => decide (id ∈ present)
      | _ => true }

/-- Merge disjoint disk and knowledge-base edits against a common base. -/
def threeWay (base disk kb : SyncDoc) : ThreeWay :=
  if clashes base disk kb then .conflict else .merged (mergedDoc base disk kb)

/-! ## reading a signature -/

/-- The signature of an id is that of its item. -/
theorem sig_get_sigsFrom {doc : SyncDoc} {taken : List Text} {items : List SyncItem}
    (hnodup : (items.map (·.localId)).Nodup) (htaken : ∀ i ∈ items, i.localId ∉ taken)
    (id : Text) :
    Sig.get (sigsFrom doc taken items) id =
      (items.find? (·.localId = id)).map fun i => sigOf i (ownedEdges doc id) := by
  induction items generalizing taken with
  | nil => rfl
  | cons i is ih =>
      rw [List.map_cons, List.nodup_cons] at hnodup
      have hrest : ∀ j ∈ is, j.localId ∉ i.localId :: taken := by
        intro j hj hmem
        rcases List.mem_cons.mp hmem with h | h
        · exact hnodup.1 (h ▸ List.mem_map_of_mem hj)
        · exact htaken j (List.mem_cons_of_mem _ hj) h
      rw [sigsFrom, Sig.get, ih hnodup.2 hrest]
      by_cases h : i.localId = id
      · subst h
        have hnone : is.find? (·.localId = i.localId) = none := by
          rw [List.find?_eq_none]
          intro j hj hid
          exact hnodup.1 (of_decide_eq_true hid ▸ List.mem_map_of_mem hj)
        have hfree : i.localId ∉ taken := htaken i List.mem_cons_self
        rw [hnone, List.find?_cons_of_pos (by simp)]
        simp [hfree]
      · rw [List.find?_cons_of_neg (by simpa using h)]
        simp [h]

/-- **A signature is that of the item and of the edges it owns**, where no two items share an id. -/
theorem sig_eq {doc : SyncDoc} (h : doc.ids.Nodup) (id : Text) :
    sig doc id = (doc.item? id).map fun i => sigOf i (ownedEdges doc id) :=
  sig_get_sigsFrom h (by simp) id

/-- The signatures are of the items, in their order. -/
theorem keys_sigsFrom (doc : SyncDoc) (taken : List Text) (items : List SyncItem) :
    (sigsFrom doc taken items).map (·.1) = items.map (·.localId) := by
  induction items generalizing taken with
  | nil => rfl
  | cons i is ih => simp [sigsFrom, ih]

/-- A document has a signature for each of its ids. -/
theorem keys_sigs (doc : SyncDoc) : (sigs doc).map (·.1) = doc.ids := keys_sigsFrom doc [] _

/-- An id has a signature if it is there. -/
theorem sig_isSome {doc : SyncDoc} (h : doc.ids.Nodup) (id : Text) :
    (sig doc id).isSome ↔ id ∈ doc.ids := by
  rw [sig_eq h, Option.isSome_map, SyncDoc.item?_isSome]

/-- What has changed has another signature. -/
theorem mem_changed {a b : SyncDoc} (ha : a.ids.Nodup) (hb : b.ids.Nodup) {id : Text} :
    id ∈ changed a b ↔ sig a id ≠ sig b id := by
  rw [changed, keys_sigs, keys_sigs, List.mem_filter]
  simp only [List.mem_append, decide_eq_true_eq, and_iff_right_iff_imp]
  intro hne
  by_contra hnot
  rw [not_or] at hnot
  have hna : sig a id = none := by
    simpa using (sig_isSome ha id).not.mpr hnot.1
  have hnb : sig b id = none := by
    simpa using (sig_isSome hb id).not.mpr hnot.2
  exact hne (hna.trans hnb.symm)

/-- The ids of three documents. -/
theorem mem_allIds {base disk kb : SyncDoc} {id : Text} :
    id ∈ allIds base disk kb ↔ id ∈ base.ids ∨ id ∈ disk.ids ∨ id ∈ kb.ids := by
  rw [allIds, mem_dedup, List.mem_insertionSort]
  simp [keys_sigs]

/-- None is named twice. -/
theorem nodup_allIds (base disk kb : SyncDoc) : (allIds base disk kb).Nodup :=
  nodup_dedup (List.pairwise_insertionSort _ _)

/-! ## the merged document -/

/-- What survives of a signature in a document with the given ids: the edges whose other end is one
of them. -/
def Sig.within (s : Sig) (ids : List Text) : Sig :=
  { s with edges := s.edges.filter fun e => (ofLex e).2 ∈ ids }

/-- Each side has an id once, so the chosen one does. -/
theorem chosenSide_nodup {base disk kb : SyncDoc} (hb : base.ids.Nodup) (hd : disk.ids.Nodup)
    (hk : kb.ids.Nodup) (id : Text) : (chosenSide base disk kb id).ids.Nodup := by
  unfold chosenSide
  split
  · exact hd
  · split
    · exact hk
    · exact hb

/-- An id of no document is taken from the base, which does not have it. -/
theorem item?_chosenSide_of_notMem {base disk kb : SyncDoc} {id : Text}
    (h : id ∉ allIds base disk kb) : (chosenSide base disk kb id).item? id = none := by
  rw [mem_allIds, not_or, not_or] at h
  rw [← Option.not_isSome_iff_eq_none, SyncDoc.item?_isSome]
  unfold chosenSide
  split
  · exact h.2.1
  · split
    · exact h.2.2
    · exact h.1

/-- An id is present if it is there on its side. -/
theorem mem_presentIds {base disk kb : SyncDoc} {id : Text} :
    id ∈ presentIds base disk kb ↔ id ∈ (chosenSide base disk kb id).ids := by
  rw [presentIds, List.mem_filter, SyncDoc.item?_isSome, and_iff_right_iff_imp]
  intro hid
  by_contra hnot
  rw [← SyncDoc.item?_isSome, item?_chosenSide_of_notMem hnot] at hid
  simp at hid

/-- The items found for a list of ids have just the ids that are found. -/
theorem map_localId_filterMap {f : Text → Option SyncItem} (ids : List Text)
    (hf : ∀ id i, f id = some i → i.localId = id) :
    (ids.filterMap f).map (·.localId) = ids.filter fun id => (f id).isSome := by
  induction ids with
  | nil => rfl
  | cons id ids ih =>
      cases h : f id with
      | none => simp [h, ih]
      | some i => simp [h, ih, hf id i h]

/-- The merged document has one item for each id present in its chosen side. -/
theorem ids_mergedDoc (base disk kb : SyncDoc) :
    (mergedDoc base disk kb).ids = presentIds base disk kb :=
  map_localId_filterMap _ fun _ _ => SyncDoc.localId_of_item?

/-- No id of a merge is named twice. -/
theorem nodup_mergedDoc (base disk kb : SyncDoc) : (mergedDoc base disk kb).ids.Nodup := by
  rw [ids_mergedDoc]
  exact (nodup_allIds base disk kb).filter _

/-- Among the items found for distinct ids, the one with an id is the one found for it. -/
theorem find?_filterMap {f : Text → Option SyncItem} {ids : List Text}
    (hf : ∀ id i, f id = some i → i.localId = id) {id : Text} (hid : id ∈ ids) :
    (ids.filterMap f).find? (·.localId = id) = f id := by
  induction ids with
  | nil => cases hid
  | cons a ids ih =>
      by_cases ha : a = id
      · subst ha
        cases h : f a with
        | some i => simp [h, hf a i h]
        | none =>
            rw [List.filterMap_cons_none h, List.find?_eq_none]
            intro j hj hja
            obtain ⟨b, -, hb⟩ := List.mem_filterMap.mp hj
            have hba : b = a := (hf b j hb).symm.trans (of_decide_eq_true hja)
            rw [hba, h] at hb
            cases hb
      · have hrest := ih ((List.mem_cons.mp hid).resolve_left (Ne.symm ha))
        cases h : f a with
        | none => rw [List.filterMap_cons_none h, hrest]
        | some i =>
            rw [List.filterMap_cons_some h, List.find?_cons_of_neg, hrest]
            simpa [hf a i h] using ha

/-- An item of a merge is that of its side. -/
theorem item?_mergedDoc (base disk kb : SyncDoc) (id : Text) :
    (mergedDoc base disk kb).item? id = (chosenSide base disk kb id).item? id := by
  by_cases hid : id ∈ allIds base disk kb
  · exact find?_filterMap (fun _ _ => SyncDoc.localId_of_item?) hid
  · rw [item?_chosenSide_of_notMem hid, ← Option.not_isSome_iff_eq_none, SyncDoc.item?_isSome,
      ids_mergedDoc, mem_presentIds, ← SyncDoc.item?_isSome, item?_chosenSide_of_notMem hid]
    simp

/-! ## edges -/

/-- An edge of a merge is one of its owner's side, between items of the merge. -/
theorem mem_mergedEdges {base disk kb : SyncDoc} {e : SyncEdge} :
    e ∈ (mergedDoc base disk kb).edges ↔
      e ∈ (chosenSide base disk kb (edgeOwner e).1).edges ∧
        e.src ∈ presentIds base disk kb ∧ e.dst ∈ presentIds base disk kb := by
  have howner : e.src ∈ presentIds base disk kb → e.dst ∈ presentIds base disk kb →
      (edgeOwner e).1 ∈ allIds base disk kb := by
    intro hs hd
    unfold edgeOwner
    split
    · exact (List.mem_filter.mp hd).1
    · exact (List.mem_filter.mp hs).1
  simp only [mergedDoc, List.mem_filter, List.mem_flatMap, decide_eq_true_eq]
  constructor
  · rintro ⟨⟨id, -, he, rfl⟩, hpresent⟩
    exact ⟨he, hpresent⟩
  · rintro ⟨he, hs, hd⟩
    exact ⟨⟨_, howner hs hd, he, rfl⟩, hs, hd⟩

/-- Of the pieces of a list taken per id, the ones an id owns are those of its own piece. -/
theorem filter_flatMap_owner {ids : List Text} (hnodup : ids.Nodup) {id : Text} (hid : id ∈ ids)
    (f : Text → List SyncEdge) :
    ((ids.flatMap fun a => (f a).filter fun e => (edgeOwner e).1 = a).filter
        fun e => (edgeOwner e).1 = id) =
      (f id).filter fun e => (edgeOwner e).1 = id := by
  induction ids with
  | nil => cases hid
  | cons a ids ih =>
      rw [List.nodup_cons] at hnodup
      rw [List.flatMap_cons, List.filter_append]
      by_cases ha : a = id
      · subst ha
        have hrest : ((ids.flatMap fun b => (f b).filter fun e => (edgeOwner e).1 = b).filter
            fun e => (edgeOwner e).1 = a) = [] := by
          rw [List.filter_eq_nil_iff]
          intro e he hea
          obtain ⟨b, hb, heb⟩ := List.mem_flatMap.mp he
          have hba : (edgeOwner e).1 = b := of_decide_eq_true (List.mem_filter.mp heb).2
          exact hnodup.1 ((of_decide_eq_true hea).symm.trans hba ▸ hb)
        rw [hrest, List.append_nil, List.filter_filter]
        simp
      · have hfirst : (((f a).filter fun e => (edgeOwner e).1 = a).filter
            fun e => (edgeOwner e).1 = id) = [] := by
          rw [List.filter_eq_nil_iff]
          intro e he hea
          have hae : (edgeOwner e).1 = a := of_decide_eq_true (List.mem_filter.mp he).2
          exact ha (hae.symm.trans (of_decide_eq_true hea))
        rw [hfirst, List.nil_append, ih hnodup.2 ((List.mem_cons.mp hid).resolve_left (Ne.symm ha))]

/-- Both ends of an edge are in a list exactly when its owner and its other end are. -/
theorem ends_mem_iff {e : SyncEdge} {ids : List Text} :
    e.src ∈ ids ∧ e.dst ∈ ids ↔ (edgeOwner e).1 ∈ ids ∧ (edgeOwner e).2 ∈ ids := by
  unfold edgeOwner
  split
  · exact and_comm
  · rfl

/-- **What an item owns in the merged document**: the edges it owns on its chosen side, those whose
other end is not in the merge apart. -/
theorem ownedEdges_mergedDoc {base disk kb : SyncDoc} {id : Text}
    (hid : id ∈ presentIds base disk kb) :
    ownedEdges (mergedDoc base disk kb) id =
      (ownedEdges (chosenSide base disk kb id) id).filter
        fun e => e.2 ∈ presentIds base disk kb := by
  have hall : id ∈ allIds base disk kb := (List.mem_filter.mp hid).1
  rw [ownedEdges, ownedEdges, List.filter_map, ← filter_flatMap_owner (nodup_allIds base disk kb)
    hall (fun a => (chosenSide base disk kb a).edges)]
  simp only [mergedDoc, List.filter_filter]
  congr 1
  refine List.filter_congr fun e _ => ?_
  by_cases h : (edgeOwner e).1 = id
  · have hends := @ends_mem_iff e (presentIds base disk kb)
    rw [h] at hends
    simp [h, hends, hid]
  · simp [h]

/-- Dropping pairs and sorting them can be done in either order. -/
theorem sortPairs_filter {α : Type} [LinearOrder α] (xs : List (α × Text)) (p : α × Text → Bool) :
    sortPairs (xs.filter p) = (sortPairs xs).filter fun x => p (ofLex x) := by
  have hleft := List.pairwise_insertionSort (· ≤ ·) ((xs.filter p).map toLex)
  have hright := (List.pairwise_insertionSort (· ≤ ·) (xs.map toLex)).filter fun x => p (ofLex x)
  refine List.Perm.eq_of_pairwise' hleft hright ?_
  refine (List.perm_insertionSort _ _).trans ?_
  refine List.Perm.trans ?_ ((List.perm_insertionSort _ _).filter _).symm
  rw [List.filter_map]
  exact List.Perm.refl _

/-- **The merge gives each id the signature of its chosen side**, the edges to absent items apart. -/
theorem sig_mergedDoc {base disk kb : SyncDoc} (hb : base.ids.Nodup) (hd : disk.ids.Nodup)
    (hk : kb.ids.Nodup) (id : Text) :
    sig (mergedDoc base disk kb) id =
      (sig (chosenSide base disk kb id) id).map (·.within (mergedDoc base disk kb).ids) := by
  rw [sig_eq (nodup_mergedDoc base disk kb), sig_eq (chosenSide_nodup hb hd hk id), item?_mergedDoc,
    ids_mergedDoc]
  cases hitem : (chosenSide base disk kb id).item? id with
  | none => rfl
  | some i =>
      have hid : id ∈ presentIds base disk kb := by
        rw [mem_presentIds, ← SyncDoc.item?_isSome, hitem]
        rfl
      simp only [Option.map_some, sigOf, Sig.within, ownedEdges_mergedDoc hid, sortPairs_filter]

/-! ## what the merge does -/

/-- **When a merge is refused**: some id clashes. -/
theorem clashes_iff {base disk kb : SyncDoc} (hb : base.ids.Nodup) (hd : disk.ids.Nodup)
    (hk : kb.ids.Nodup) :
    clashes base disk kb = true ↔ ∃ id, Clash (sig base id) (sig disk id) (sig kb id) := by
  simp only [clashes, List.any_eq_true, Bool.and_eq_true, decide_eq_true_eq, mem_changed hb hd,
    mem_changed hb hk, Clash, ne_comm (a := sig base _)]

/-- **Three-way merge loses no edit but an edge to an item that is gone.** It is a conflict exactly
when some id clashes; otherwise the merged document has one item for each id its chosen side has,
with that side's signature, less the owned edges whose other end the merge does not have. -/
theorem threeWay_spec (base disk kb : SyncDoc) (hb : base.ids.Nodup) (hd : disk.ids.Nodup)
    (hk : kb.ids.Nodup) :
    (threeWay base disk kb = .conflict ↔
        ∃ id, Clash (sig base id) (sig disk id) (sig kb id)) ∧
      ((¬ ∃ id, Clash (sig base id) (sig disk id) (sig kb id)) →
        ∃ m, threeWay base disk kb = .merged m ∧ m.ids.Nodup ∧
          (∀ id, id ∈ m.ids ↔ id ∈ (chosenSide base disk kb id).ids) ∧
          ∀ id, sig m id = (sig (chosenSide base disk kb id) id).map (·.within m.ids)) := by
  rw [← clashes_iff hb hd hk]
  constructor
  · cases h : clashes base disk kb <;> simp [threeWay, h]
  · intro hclash
    refine ⟨mergedDoc base disk kb, by simp [threeWay, hclash], nodup_mergedDoc base disk kb, ?_,
      sig_mergedDoc hb hd hk⟩
    intro id
    rw [ids_mergedDoc, mem_presentIds]

/-! ## an edge to an item the other side removed -/

/-- A task with nothing but a title. -/
def plainTask (id : Text) : SyncItem := { localId := id, kind := "task", content := id }

/-- Two tasks that say nothing of each other. -/
def twoTasks : SyncDoc := { items := [plainTask ['a'], plainTask ['b']] }

/-- The first depends on the second. -/
def dependent : SyncDoc := { twoTasks with edges := [⟨['a'], ['b'], .dependsOn⟩] }

/-- The second is gone. -/
def firstOnly : SyncDoc := { items := [plainTask ['a']] }

/-- A dependency the knowledge base adds is lost when the disk side removes what it names. -/
theorem threeWay_drops_edge :
    (twoTasks.WellFormed ∧ firstOnly.WellFormed ∧ dependent.WellFormed) ∧
      chosenSide twoTasks firstOnly dependent ['a'] = dependent ∧
        ∃ m, threeWay twoTasks firstOnly dependent = .merged m ∧ ['a'] ∈ m.ids ∧
          sig m ['a'] ≠ sig dependent ['a'] := by
  refine ⟨by decide, by decide, firstOnly, ?_⟩
  decide

/-- A dependency that one side adds on what the other has removed is dropped. -/
theorem threeWay_spec_dependent :
    ∃ m, threeWay twoTasks firstOnly dependent = .merged m ∧
      sig m ['a'] = (sig dependent ['a']).map (·.within [['a']]) := by
  obtain ⟨m, hm, -, -, hsig⟩ :=
    (threeWay_spec twoTasks firstOnly dependent (by decide) (by decide) (by decide)).2 (by
      rw [← clashes_iff (by decide) (by decide) (by decide)]
      decide)
  have hm' : m = firstOnly := ThreeWay.merged.inj (hm.symm.trans (by decide))
  have hside : chosenSide twoTasks firstOnly dependent ['a'] = dependent := by decide
  refine ⟨m, hm, ?_⟩
  rw [hsig ['a'], hside, hm']
  rfl

end Jkb.Sync
