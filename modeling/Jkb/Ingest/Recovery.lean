import Jkb.Ingest.Capture
import Jkb.Run

/-!
# Jkb.Ingest.Recovery

Captures among everything else that is done to the items. `capture_run` says which captures go through, whatever
sources have been captured before under whatever configurations; `ingest_run` that under one configuration all do,
after any removals and edits, and that a capture repeated writes nothing.

`Kept` is what every run keeps of the items, and `Whole` what a run under one configuration does: a source that has
a marker is a document with all its chunks derived from it, or fragments that a capture will find.
-/

namespace Jkb.Ingest

open Jkb.Text Jkb.Item Jkb.Glob Run

/-! ## uids -/

/-- Whether a uid is that of a chunk of a source. -/
def Under (hash uid : Text) : Prop := documentUid hash ++ [':'] <+: uid

/-- The pattern of a source's chunks matches their uids and no others. -/
theorem glob_chunkUid {hash uid : Text} : glob (chunkUidGlob hash) uid = true ↔ Under hash uid :=
  glob_prefixGlob (by decide)

/-- A document's uid says what source it is of. -/
theorem documentUid_inj {h h' : Text} (heq : documentUid h = documentUid h') : h = h' := List.append_cancel_left heq

/-- A document's uid has one colon, since a hash has none. -/
theorem count_documentUid {h : Text} (hh : ':' ∉ h) : (documentUid h).count ':' = 1 := by
  rw [documentUid, List.count_append, List.count_eq_zero.mpr hh]
  decide

/-- A chunk's uid has more colons than what it is cut from. -/
theorem count_chunkUid (pfx : Text) (idx : Nat) : pfx.count ':' < (chunkUid pfx idx).count ':' := by
  rw [chunkUid, List.count_append, List.count_cons_self]
  omega

/-- A uid that a cut gives is no document's. -/
theorem chunkUid_ne_documentUid {pfx h : Text} (hpfx : ':' ∈ pfx) (hh : ':' ∉ h) (idx : Nat) :
    chunkUid pfx idx ≠ documentUid h := fun heq => by
  have hlt := count_chunkUid pfx idx
  rw [heq, count_documentUid hh] at hlt
  have hpos := List.count_pos_iff.mpr hpfx
  omega

/-- A document's uid has a colon. -/
theorem colon_mem_documentUid (h : Text) : ':' ∈ documentUid h := List.mem_append_left _ (by decide)

/-- A chunk's uid is no document's. -/
theorem Under.ne_documentUid {h h' uid : Text} (hu : Under h uid) (hh : ':' ∉ h') : uid ≠ documentUid h' := by
  rintro rfl
  obtain ⟨t, ht⟩ := hu
  have hcount := congrArg (List.count ':') ht
  rw [count_documentUid hh, List.count_append, List.count_append] at hcount
  have hpos := List.count_pos_iff.mpr (colon_mem_documentUid h)
  have hone : [':'].count ':' = 1 := rfl
  omega

/-- A chunk is of one source. -/
theorem Under.unique {h h' uid : Text} (hh : ':' ∉ h) (hh' : ':' ∉ h') (hu : Under h uid) (hu' : Under h' uid) :
    h = h' := by
  obtain ⟨t, rfl⟩ := hu
  obtain ⟨t', ht⟩ := hu'
  simp only [documentUid, List.append_assoc] at ht
  have hsplit := congrArg (splitOnce ':') (List.append_cancel_left ht)
  rw [List.singleton_append, List.singleton_append, splitOnce_append hh', splitOnce_append hh] at hsplit
  exact (congrArg Prod.fst (Option.some.inj hsplit)).symm

/-- What begins as a document's uid does and goes on with a separator is of that source. -/
theorem under_chunkUid {h pfx : Text} (hpfx : pfx = documentUid h ∨ Under h pfx) (idx : Nat) :
    Under h (chunkUid pfx idx) := by
  obtain rfl | ⟨t, rfl⟩ := hpfx
  · exact ⟨showNat idx, by simp [chunkUid]⟩
  · exact ⟨t ++ ':' :: showNat idx, by simp [chunkUid]⟩

/-! ## a run -/

/-- A step: of an ingest, of an index pass, or of anybody else who writes items. -/
inductive Step (V : Type) where
  | ingest (p : Pipeline) (src : Source) (space : Except Fmt Space)
  | complete (key : Key)
  | recut (chunking : ChunkConfig) (id : Int)
  | storeVector (id rev : Int) (embedding : V)
  | removeVector (id : Int)
  | create (new : NewItem)
  | edit (id : Int) (content : Text)
  | write (id : Int) (content : Option Text)
  | remove (id : Int)
  | link (src dst : Int) (type : EdgeType)
  | unlink (src dst : Int) (type : EdgeType)

section Steps

variable {V : Type} (lib : Hasher) (b : Base V)

/-- Commit a write of items. A refused one changes nothing. -/
def Base.commit (x : Except Fmt (Store V)) : Base V := { b with store := Tx.commit x b.store }

/-- Take one step. -/
def next : Step V → Base V
  | .ingest p src space => Tx.commit ((capture p src space b).map (·.1)) b
  | .complete key => { b with markers := markComplete b.markers key }
  | .recut chunking id => b.commit ((rechunkIfStale b.store lib chunking id).map (·.1))
  | .storeVector id rev embedding => { b with store := (Index.upsertVector b.store id rev embedding).1 }
  | .removeVector id => { b with store := Index.removeVector b.store id }
  | .create new => b.commit ((upsert b.store new).map (·.1))
  | .edit id content => b.commit (setContent b.store id content none)
  | .write id content => b.commit (writeContent b.store id content)
  | .remove id => b.commit (remove b.store id)
  | .link src dst type => b.commit (link b.store src dst type)
  | .unlink src dst type => { b with store := unlink b.store src dst type }

/-- What the writers beside ingest do: an item that is made has no source's uid and no hash, and what a chunk is
derived from is left to ingest. -/
def Ordinary : Step V → Prop
  | .create new => new.contentHash = none ∧ ¬ "b3:".toList <+: new.uid
  | .link src _ type => type = .derivedFrom → ∀ r ∈ b.store.items.rows, r.id = src → r.kind ≠ KIND_CHUNK
  | .unlink _ _ type => type ≠ .derivedFrom
  | _ => True

instance (step : Step V) : Decidable (Ordinary b step) := by
  cases step <;> unfold Ordinary <;> infer_instance

/-- Whether two pipelines capture under one key. -/
def SameKey (q p : Pipeline) : Prop := q.version = p.version ∧ q.strategy = p.strategy ∧ q.model = p.model

instance (q p : Pipeline) : Decidable (SameKey q p) := inferInstanceAs (Decidable (_ ∧ _ ∧ _))

/-- Whether a step that ingests does so under a pipeline's key. -/
def Step.Uses (p : Pipeline) : Step V → Prop
  | .ingest q _ _ => SameKey q p
  | _ => True

instance (p : Pipeline) (step : Step V) : Decidable (step.Uses p) := by
  cases step <;> unfold Step.Uses <;> infer_instance

end Steps

/-! ## what every run keeps of the items -/

section Kept

variable {V : Type} {s s' t : Store V}

/-- What every item is: one that has a source's hash has its uid, one of that uid is a document, and one of a uid
below it is a chunk. -/
structure RowOk (r : ItemRow) : Prop where
  hash : ∀ h, r.contentHash = some h → ':' ∉ h ∧ r.uid = documentUid h
  document : ∀ h, ':' ∉ h → r.uid = documentUid h → r.kind = Index.KIND_DOCUMENT
  chunk : ∀ h, ':' ∉ h → Under h r.uid → r.kind = KIND_CHUNK

/-- **The invariant** of every run. -/
structure Kept (s : Store V) : Prop where
  sound : Sound s
  rows : ∀ r ∈ s.items.rows, RowOk r

/-- What a run keeps is read of the items and the edges. -/
theorem Kept.congr (h : Kept s) (hitems : s'.items = s.items) (hedges : s'.edges = s.edges) : Kept s' :=
  ⟨h.sound.congr hitems hedges, hitems ▸ h.rows⟩

/-- An item without a hash, whose uid is no source's, is as it has to be. -/
theorem rowOk_of_plain {r : ItemRow} (hhash : r.contentHash = none) (huid : ¬ "b3:".toList <+: r.uid) : RowOk r where
  hash h hh := by
    rw [hhash] at hh
    cases hh
  document h _ heq := absurd ⟨h, heq.symm⟩ huid
  chunk h _ hu := absurd (((List.prefix_append _ h).trans (List.prefix_append _ _)).trans hu) huid

/-- So is the document of a source. -/
theorem rowOk_document (src : Source) (id : Int) (rev : Option Int) :
    RowOk ⟨id, documentUid src.hash, Index.KIND_DOCUMENT, some src.text, some src.hash, 0, rev⟩ where
  hash h hh := by
    cases hh
    exact ⟨src.hex, rfl⟩
  document _ _ _ := rfl
  chunk h _ hu := absurd rfl (hu.ne_documentUid src.hex)

/-- So is a chunk of what has a colon in its uid. -/
theorem rowOk_chunkRow {pfx : Text} (hpfx : ':' ∈ pfx) (id : Int) (idx : Nat) (chunk : Text) :
    RowOk (chunkRow id pfx idx chunk) where
  hash h hh := by cases hh
  document h hh heq := absurd heq (chunkUid_ne_documentUid hpfx hh idx)
  chunk _ _ _ := rfl

/-- A change of the content keeps what an item is, if it gives no hash. -/
theorem RowOk.set {r : ItemRow} (h : RowOk r) {columns : Columns}
    (hhash : columns.contentHash = none ∨ columns.contentHash = some none) : RowOk (r.set columns) where
  hash h' hh := by
    obtain hnone | hnone := hhash <;> simp only [ItemRow.set, hnone, Option.getD_none, Option.getD_some] at hh
    · exact h.hash h' hh
    · cases hh
  document := h.document
  chunk := h.chunk

/-- An item that is as it has to be can be added. -/
theorem Kept.inserted (h : Kept s) {new : NewItem} (hnew : Inserted s s' new)
    (hrow : RowOk ⟨s.items.nextKey, new.uid, new.kind, new.content, new.contentHash, 0, none⟩) : Kept s' where
  sound := h.sound.inserted hnew
  rows r hr := by
    obtain hr | rfl := (hnew.items r).mp hr
    · exact h.rows r hr
    · exact hrow

/-- An item can be written to if it does not get a hash by it. -/
theorem Kept.updated (h : Kept s) {id : Int} {columns : Columns} (hup : Updated s s' id columns)
    (hhash : columns.contentHash = none ∨ columns.contentHash = some none) : Kept s' where
  sound := hup.sound h.sound
  rows r hr := by
    obtain ⟨y, hy, rfl⟩ := (hup.items r).mp hr
    split
    · exact (h.rows y hy).set hhash
    · exact h.rows y hy

/-- Items can be removed. -/
theorem Kept.removed (h : Kept s) {ids : List Int} (hgone : Removed s s' ids) : Kept s' where
  sound := hgone.sound h.sound
  rows r hr := h.rows r ((hgone.items r).mp hr).1

/-- A document can be cut. -/
theorem Kept.cutDone (h : Kept s) {cut : Cut} (hcut : CutDone s s' cut) (hpfx : ':' ∈ cut.uidPrefix) : Kept s' where
  sound := hcut.sound
  rows r hr := by
    obtain ⟨x, hx, rfl⟩ | ⟨i, c, -, rfl⟩ := (hcut.items r).mp hr
    · obtain ⟨hhash, hdocument, hchunk⟩ := h.rows x hx
      split <;> exact ⟨hhash, hdocument, hchunk⟩
    · exact rowOk_chunkRow hpfx _ i c

/-- Items can be linked. -/
theorem Kept.link (h : Kept s) {src dst : Int} {type : EdgeType} (hl : link s src dst type = .ok s') : Kept s' where
  sound := h.sound.link hl
  rows := by
    obtain ⟨hitems, -⟩ | hlinked := link_eq_ok hl
    · exact hitems ▸ h.rows
    · exact hlinked.items ▸ h.rows

/-- Items can be unlinked. -/
theorem Kept.unlink (h : Kept s) (src dst : Int) (type : EdgeType) : Kept (unlink s src dst type) where
  sound := h.sound.unlink src dst type
  rows := (unlink_frame s src dst type).1 ▸ h.rows

end Kept

/-! ## what a capture does -/

section Captures

variable {V : Type} {p : Pipeline} {src : Source} {space : Except Fmt Space} {b b' : Base V} {c : Captured}

/-- **What a capture from nothing leaves**: a document, found by its hash or new, and its cut, in a namespace that takes
them. -/
theorem freshCapture_eq_ok (hs : Sound b.store) (h : freshCapture p src space b = .ok (b', c)) :
    ∃ t document rev home,
      ((t = b.store ∧ ∃ r ∈ b.store.items.rows, r.contentHash = some src.hash ∧ r.id = document) ∨
        document = b.store.items.nextKey ∧ Inserted b.store t (documentItem src)) ∧
      CutDone t b'.store ⟨document, rev, documentUid src.hash, chunkText src.text p.chunking, some home⟩ ∧
      (∀ i < (chunkText src.text p.chunking).length, ∀ r ∈ t.items.rows, r.uid ≠ chunkUid (documentUid src.hash) i) ∧
      b'.markers = recordCapture b.markers (p.key src.hash) := by
  obtain ⟨home, -, h⟩ := Tx.bind_eq_ok.mp h
  obtain ⟨⟨t, document⟩, hup, h⟩ := Tx.bind_eq_ok.mp h
  obtain ⟨_, -, h⟩ := Tx.bind_eq_ok.mp h
  obtain ⟨rev, hrev, h⟩ := Tx.bind_eq_ok.mp h
  obtain ⟨store, hcut, h⟩ := Tx.bind_eq_ok.mp h
  cases h
  have hdoc : document < t.items.nextKey := by
    unfold contentRev at hrev
    split at hrev
    · next r hr =>
        obtain ⟨hmem, rfl⟩ := item?_eq_some.mp hr
        exact t.items.key_lt_nextKey hmem
    · cases hrev
  obtain ⟨r, hr, hash, hhash, hrh, hid, rfl⟩ | ⟨rfl, hnew⟩ := upsert_eq_ok hup
  · cases hhash
    obtain ⟨hdone, hfree, -⟩ := writeChunks_eq_ok hs hdoc hcut
    exact ⟨b.store, document, rev, home, Or.inl ⟨rfl, r, hr, hrh, hid⟩, hdone, hfree, rfl⟩
  · obtain ⟨hdone, hfree, -⟩ := writeChunks_eq_ok (hs.inserted hnew) hdoc hcut
    exact ⟨t, _, rev, home, Or.inr ⟨rfl, hnew⟩, hdone, hfree, rfl⟩

/-- A document of a source is one, whether it was found or is new. -/
theorem Kept.kind_of_upsert {s t : Store V} {document : Int} (hk : Kept s)
    (h : upsert s (documentItem src) = .ok (t, document)) :
    ∃ r ∈ t.items.rows, r.id = document ∧ r.kind = Index.KIND_DOCUMENT := by
  obtain ⟨r, hr, hash, hhash, hrh, hid, rfl⟩ | ⟨rfl, hnew⟩ := upsert_eq_ok h
  · have hrow := hk.rows r hr
    obtain ⟨hhex, huid⟩ := hrow.hash hash hrh
    exact ⟨r, hr, hid, hrow.document hash hhex huid⟩
  · exact ⟨_, (hnew.items _).mpr (Or.inr rfl), rfl, rfl⟩

/-- A capture from nothing is of a namespace that takes it. -/
theorem Kept.takes_of_freshCapture (hk : Kept b.store) (h : freshCapture p src space b = .ok (b', c)) :
    Takes space (chunkText src.text p.chunking) := by
  obtain ⟨home, hspace, h⟩ := Tx.bind_eq_ok.mp h
  obtain ⟨⟨t, document⟩, hup, h⟩ := Tx.bind_eq_ok.mp h
  obtain ⟨_, hplace, h⟩ := Tx.bind_eq_ok.mp h
  obtain ⟨rev, -, h⟩ := Tx.bind_eq_ok.mp h
  obtain ⟨store, hcut, -⟩ := Tx.bind_eq_ok.mp h
  obtain ⟨r, hr, rfl, hkind⟩ := hk.kind_of_upsert hup
  have hsound : Sound t := by
    obtain ⟨_, _, _, _, _, _, rfl⟩ | ⟨-, hnew⟩ := upsert_eq_ok hup
    · exact hk.sound
    · exact hk.sound.inserted hnew
  refine ⟨home, hspace, ?_, (writeChunks_eq_ok hsound (t.items.key_lt_nextKey hr) hcut).2.2⟩
  rw [place_eq hr, hkind] at hplace
  exact hplace

/-- Where the document is found, or there is room for it, and there is for its chunks, in a namespace that takes
them. -/
theorem exists_freshCapture (hk : Kept b.store) (htakes : Takes space (chunkText src.text p.chunking))
    (huid : ∀ r ∈ b.store.items.rows, r.uid = documentUid src.hash → r.contentHash = some src.hash)
    (hfree : ∀ i < (chunkText src.text p.chunking).length, ∀ r ∈ b.store.items.rows,
      r.uid ≠ chunkUid (documentUid src.hash) i) : ∃ b' c, freshCapture p src space b = .ok (b', c) := by
  obtain ⟨home, hspace, hdocument, hchunks⟩ := htakes
  have hmade : ∃ t document, upsert b.store (documentItem src) = .ok (t, document) ∧ Sound t ∧
      (∃ r ∈ t.items.rows, r.id = document) ∧ ∀ i < (chunkText src.text p.chunking).length, ∀ r ∈ t.items.rows,
        r.uid ≠ chunkUid (documentUid src.hash) i := by
    by_cases hfound : ∃ r ∈ b.store.items.rows, r.contentHash = some src.hash
    · cases hfind : b.store.items.rows.find? (·.contentHash = some src.hash) with
      | none =>
          obtain ⟨r, hr, hrh⟩ := hfound
          exact absurd hrh (by simpa using List.find?_eq_none.mp hfind r hr)
      | some r =>
          refine ⟨b.store, r.id, ?_, hk.sound, ⟨r, List.mem_of_find?_eq_some hfind, rfl⟩, hfree⟩
          simp only [upsert, documentItem, Option.bind_some, hfind]
    · have hnone : ∀ r ∈ b.store.items.rows, r.contentHash ≠ some src.hash := fun r hr hh => hfound ⟨r, hr, hh⟩
      have hhash : ∀ h, (documentItem src).contentHash = some h → ∀ r ∈ b.store.items.rows, r.contentHash ≠ some h := by
        intro h hh r hr
        cases hh
        exact hnone r hr
      obtain ⟨t, hup, hnew⟩ := exists_inserted (fun r hr heq => hnone r hr (huid r hr heq)) hhash
      refine ⟨t, _, hup, hk.sound.inserted hnew, ⟨_, (hnew.items _).mpr (Or.inr rfl), rfl⟩, fun i hi r hr => ?_⟩
      obtain hr | rfl := (hnew.items r).mp hr
      · exact hfree i hi r hr
      · exact (chunkUid_ne_documentUid (colon_mem_documentUid _) src.hex i).symm
  obtain ⟨t, document, hup, hs, hdoc, hroom⟩ := hmade
  have hrev : ∃ rev, contentRev t document = .ok rev := by
    obtain ⟨r, hr, hid⟩ := hdoc
    unfold contentRev
    rw [item?_eq_some.mpr ⟨hr, hid⟩]
    exact ⟨_, rfl⟩
  obtain ⟨rev, hrev⟩ := hrev
  have hplace : place t home document = .ok () := by
    obtain ⟨r, hr, rfl, hkind⟩ := hk.kind_of_upsert hup
    rw [place_eq hr, hkind]
    exact hdocument
  let cut : Cut := ⟨document, rev, documentUid src.hash, chunkText src.text p.chunking, some home⟩
  obtain ⟨store, hcut⟩ : ∃ store, writeChunks t cut = .ok store := exists_writeChunks hs hdoc hroom hchunks
  exact ⟨_, _, Tx.bind_eq_ok.mpr ⟨home, hspace, Tx.bind_eq_ok.mpr ⟨_, hup, Tx.bind_eq_ok.mpr ⟨(), hplace,
    Tx.bind_eq_ok.mpr ⟨rev, hrev, Tx.bind_eq_ok.mpr ⟨store, hcut, rfl⟩⟩⟩⟩⟩⟩

/-- A first capture keeps what a run keeps. -/
theorem Kept.freshCapture (hk : Kept b.store) (h : freshCapture p src space b = .ok (b', c)) : Kept b'.store := by
  obtain ⟨t, document, rev, home, ht, hdone, -⟩ := freshCapture_eq_ok hk.sound h
  have hkt : Kept t := by
    obtain ⟨rfl, -⟩ | ⟨-, hnew⟩ := ht
    · exact hk
    · exact hk.inserted hnew (rowOk_document src _ none)
  exact hkt.cutDone hdone (colon_mem_documentUid _)

/-- The item that a uid names has the uid. -/
theorem idForUid_eq_some {s : Store V} {uid : Text} {id : Int} (h : idForUid s uid = some id) :
    ∃ r ∈ s.items.rows, r.uid = uid ∧ r.id = id := by
  obtain ⟨r, hr, hid⟩ := Option.map_eq_some_iff.mp h
  exact ⟨r, List.mem_of_find?_eq_some hr, by simpa using List.find?_some hr, hid⟩

/-- A uid that names no item is nobody's. -/
theorem idForUid_eq_none {s : Store V} {uid : Text} :
    idForUid s uid = none ↔ ∀ r ∈ s.items.rows, r.uid ≠ uid := by
  simp [idForUid, List.find?_eq_none]

/-- What is left of a source is its document and whatever is under its uid. -/
theorem mem_survivingFragments {s : Store V} {hash : Text} {id : Int} :
    id ∈ survivingFragments s hash ↔ ∃ r ∈ s.items.rows, (r.uid = documentUid hash ∨ Under hash r.uid) ∧ r.id = id := by
  simp only [survivingFragments, List.mem_mergeSort, List.mem_map, List.mem_filter, Bool.or_eq_true, decide_eq_true_eq,
    glob_chunkUid, and_assoc]

/-- Nothing that is left of a source is counted twice. -/
theorem nodup_survivingFragments (s : Store V) (hash : Text) : (survivingFragments s hash).Nodup :=
  (List.mergeSort_perm _ _).nodup_iff.mpr (s.items.nodup.sublist (List.filter_sublist.map _))

/-- Fragments can always be removed. -/
theorem Kept.exists_removeFragments {s : Store V} (hk : Kept s) (src : Source) :
    ∃ s', (survivingFragments s src.hash).foldlM remove s = .ok s' := by
  refine exists_removeAll (nodup_survivingFragments s src.hash) fun id hid => ?_
  obtain ⟨r, hr, huid | hu, rfl⟩ := mem_survivingFragments.mp hid
  · refine ⟨r, hr, rfl, ?_⟩
    rw [(hk.rows r hr).document src.hash src.hex huid]
    decide
  · refine ⟨r, hr, rfl, ?_⟩
    rw [(hk.rows r hr).chunk src.hash src.hex hu]
    decide

/-- Nothing of a source is left. -/
def Cleared (s : Store V) (hash : Text) : Prop :=
  ∀ r ∈ s.items.rows, r.uid ≠ documentUid hash ∧ ¬ Under hash r.uid

/-- When what is left of a source is removed, nothing is left of it. -/
theorem cleared_of_removed {s s' : Store V} {hash : Text} (h : Removed s s' (survivingFragments s hash)) :
    Cleared s' hash := fun r hr => by
  obtain ⟨hr, hnot⟩ := (h.items r).mp hr
  exact ⟨fun huid => hnot (mem_survivingFragments.mpr ⟨r, hr, Or.inl huid, rfl⟩),
    fun hu => hnot (mem_survivingFragments.mpr ⟨r, hr, Or.inr hu, rfl⟩)⟩

/-- Where nothing of a source is left it can be captured. -/
theorem Cleared.exists_freshCapture (hk : Kept b.store) (htakes : Takes space (chunkText src.text p.chunking))
    (h : Cleared b.store src.hash) : ∃ b' c, Ingest.freshCapture p src space b = .ok (b', c) :=
  Ingest.exists_freshCapture hk htakes (fun r hr huid => absurd huid (h r hr).1) fun i _ r hr huid =>
    (h r hr).2 (huid ▸ under_chunkUid (Or.inl rfl) i)

/-- A capture whose document is there writes nothing. -/
theorem exists_resumeCapture {id : Int} (h : idForUid b.store (documentUid src.hash) = some id) (status : Status) :
    ∃ c, resumeCapture src b status = .ok (b, c) := by
  have hdoc : documentId b.store src.hash = .ok id := by
    unfold documentId
    rw [h]
  unfold resumeCapture
  rw [hdoc]
  cases status with
  | captured => exact ⟨_, rfl⟩
  | complete => exact ⟨_, rfl⟩

/-- **What a capture does**: nothing where the marker and the document are there, else a capture from nothing, of
the items as they are or without the fragments. -/
theorem capture_cases (p : Pipeline) (src : Source) (space : Except Fmt Space) (b : Base V) :
    (∃ m d, b.markers.find? (p.key src.hash) = some m ∧ d ∈ b.store.items.rows ∧ d.uid = documentUid src.hash ∧
        ∃ c, capture p src space b = .ok (b, c)) ∨
      (b.markers.find? (p.key src.hash) = none ∧ capture p src space b = freshCapture p src space b) ∨
      ∃ m, b.markers.find? (p.key src.hash) = some m ∧ idForUid b.store (documentUid src.hash) = none ∧
        capture p src space b = (survivingFragments b.store src.hash).foldlM remove b.store >>= fun store =>
          freshCapture p src space { b with store } := by
  cases hm : b.markers.find? (p.key src.hash) with
  | none =>
      refine Or.inr (Or.inl ⟨rfl, ?_⟩)
      rw [capture, hm]
  | some m =>
      cases hd : idForUid b.store (documentUid src.hash) with
      | none =>
          refine Or.inr (Or.inr ⟨m, rfl, rfl, ?_⟩)
          rw [capture, hm, hd]
      | some id =>
          obtain ⟨d, hmem, huid, rfl⟩ := idForUid_eq_some hd
          refine Or.inl ⟨m, d, rfl, hmem, huid, ?_⟩
          rw [capture, hm]
          dsimp only
          rw [hd]
          exact exists_resumeCapture hd m.status

/-- **What cutting again leaves**: nothing changed, or the old chunks gone and new ones there. -/
theorem rechunkIfStale_eq_ok {s s' : Store V} {lib : Hasher} {chunking : ChunkConfig} {document : Int} {done : Bool}
    (hs : Sound s) (h : rechunkIfStale s lib chunking document = .ok (s', done)) :
    (s' = s ∧ ∀ r ∈ s.items.rows, r.id = document → needsRechunk s r = false) ∨
      ∃ r ∈ s.items.rows, r.id = document ∧ needsRechunk s r = true ∧
        ∃ t, Removed s t (chunkIdsOf s document) ∧ CutDone t s' (recut lib chunking r) := by
  unfold rechunkIfStale at h
  split at h
  · next hnone =>
      cases h
      refine Or.inl ⟨rfl, fun r hr hid => ?_⟩
      rw [item?_eq_some.mpr ⟨hr, hid⟩] at hnone
      cases hnone
  · next r hr =>
      obtain ⟨hmem, rfl⟩ := item?_eq_some.mp hr
      split at h
      · next hneeds =>
          obtain ⟨t, hgone, h⟩ := Tx.bind_eq_ok.mp h
          obtain ⟨store, hcut, h⟩ := Tx.bind_eq_ok.mp h
          cases h
          have hremoved := removeAll_eq_ok hgone
          have hlt := s.items.key_lt_nextKey hmem
          rw [← hremoved.next] at hlt
          exact Or.inr ⟨r, hmem, rfl, hneeds, t, hremoved, (writeChunks_eq_ok (hremoved.sound hs) hlt hcut).1⟩
      · next hneeds =>
          cases h
          refine Or.inl ⟨rfl, fun x hx hid => ?_⟩
          rw [Table.eq_of_key_eq _ hx hmem hid]
          exact Bool.eq_false_of_not_eq_true hneeds

/-- A cut that is made again keeps what a run keeps. -/
theorem Kept.rechunkIfStale {s s' : Store V} (hk : Kept s) {lib : Hasher} {chunking : ChunkConfig} {document : Int}
    {done : Bool} (h : rechunkIfStale s lib chunking document = .ok (s', done)) : Kept s' := by
  obtain ⟨rfl, -⟩ | ⟨r, -, -, -, t, hgone, hcut⟩ := rechunkIfStale_eq_ok hk.sound h
  · exact hk
  · exact (hk.removed hgone).cutDone hcut (by simp [recut])

/-- A capture keeps what a run keeps. -/
theorem Kept.capture (hk : Kept b.store) (h : capture p src space b = .ok (b', c)) : Kept b'.store := by
  obtain ⟨-, -, -, -, -, c', hc⟩ | ⟨-, heq⟩ | ⟨m, -, -, heq⟩ := capture_cases p src space b
  · rw [hc] at h
    cases h
    exact hk
  · exact hk.freshCapture (heq ▸ h)
  · obtain ⟨store, hgone, hfresh⟩ := Tx.bind_eq_ok.mp (heq ▸ h)
    exact (hk.removed (removeAll_eq_ok hgone)).freshCapture hfresh

/-- **The step lemma.** -/
theorem kept_next {lib : Hasher} (hk : Kept b.store) {step : Step V} (hstep : Ordinary b step) :
    Kept (next lib b step).store := by
  have hcommit : ∀ x : Except Fmt (Store V), (∀ s', x = .ok s' → Kept s') → Kept (Tx.commit x b.store) := by
    intro x hx
    cases x with
    | error e => exact hk
    | ok s' => exact hx s' rfl
  cases step with
  | ingest p src space =>
      simp only [next]
      cases hc : capture p src space b with
      | error e => exact hk
      | ok r => exact hk.capture hc
  | complete key => exact hk
  | recut chunking id =>
      refine hcommit _ fun s' hs' => ?_
      obtain ⟨⟨t, done⟩, ht, rfl⟩ := Tx.map_eq_ok.mp hs'
      exact hk.rechunkIfStale ht
  | storeVector id rev embedding =>
      obtain ⟨hitems, hedges, -⟩ := Index.upsertVector_frame b.store id rev embedding
      exact hk.congr hitems hedges
  | removeVector id => exact hk.congr rfl rfl
  | create new =>
      refine hcommit _ fun s' hs' => ?_
      obtain ⟨⟨t, id⟩, ht, rfl⟩ := Tx.map_eq_ok.mp hs'
      obtain ⟨-, -, -, -, -, -, rfl⟩ | ⟨-, hnew⟩ := upsert_eq_ok ht
      · exact hk
      · exact hk.inserted hnew (rowOk_of_plain hstep.1 hstep.2)
  | edit id content => exact hcommit _ fun s' hs' => hk.updated (setContent_eq_ok hs') (Or.inr rfl)
  | write id content => exact hcommit _ fun s' hs' => hk.updated (writeContent_eq_ok hs') (Or.inl rfl)
  | remove id => exact hcommit _ fun s' hs' => hk.removed (remove_eq_ok hs')
  | link src dst type => exact hcommit _ fun s' hs' => hk.link hs'
  | unlink src dst type => exact hk.unlink src dst type

/-- What every run keeps, whatever is captured under whatever configurations. -/
theorem kept_run {lib : Hasher} (steps : List (Step V)) (hsteps : EveryStep (next lib) Ordinary .empty steps) :
    Kept (run (next lib) .empty steps).store :=
  have hstep : ∀ (b : Base V) (step : Step V), Ordinary b step → Kept b.store → Kept (next lib b step).store :=
    fun _ _ hstep hk => kept_next hk hstep
  run_invariant_of_everyStep hstep hsteps ⟨sound_empty, fun _ hr => (List.not_mem_nil hr).elim⟩

/-- **Which captures go through.** After any run, of captures under whatever configurations, index passes, edits and
removals: those of a key that has a marker and a source whose document is there; and, into a namespace that takes what
they make, those of a key that has a marker, and those whose document is not there or not edited, and whose chunks find
their uids free. -/
theorem capture_run (lib : Hasher) (steps : List (Step V)) (hsteps : EveryStep (next lib) Ordinary .empty steps)
    (p : Pipeline) (src : Source) (space : Except Fmt Space) :
    let b := run (next lib) .empty steps
    (∃ b' c, capture p src space b = .ok (b', c)) ↔
      ((b.markers.find? (p.key src.hash)).isSome ∧ ∃ r ∈ b.store.items.rows, r.uid = documentUid src.hash) ∨
      Takes space (chunkText src.text p.chunking) ∧
        ((b.markers.find? (p.key src.hash)).isSome ∨
          (∀ r ∈ b.store.items.rows, r.uid = documentUid src.hash → r.contentHash = some src.hash) ∧
          ∀ i < (chunkText src.text p.chunking).length, ∀ r ∈ b.store.items.rows,
            r.uid ≠ chunkUid (documentUid src.hash) i) := by
  intro b
  have hk : Kept b.store := kept_run steps hsteps
  obtain ⟨m, d, hm, hd, huid, c, hc⟩ | ⟨hm, heq⟩ | ⟨m, hm, hd, heq⟩ := capture_cases p src space b
  · exact ⟨fun _ => Or.inl ⟨by rw [hm]; rfl, d, hd, huid⟩, fun _ => ⟨b, c, hc⟩⟩
  · rw [hm, heq]
    simp only [Option.isSome_none, Bool.false_eq_true, false_and, false_or]
    refine ⟨fun ⟨b', c, h⟩ => ⟨hk.takes_of_freshCapture h, ?_⟩,
      fun ⟨htakes, huid, hfree⟩ => exists_freshCapture hk htakes huid hfree⟩
    obtain ⟨t, document, rev, home, ⟨rfl, x, hx, hxh, -⟩ | ⟨-, hnew⟩, -, hfree, -⟩ := freshCapture_eq_ok hk.sound h
    · refine ⟨fun r hr huid => ?_, hfree⟩
      rw [hk.sound.uid r hr x hx (huid.trans ((hk.rows x hx).hash _ hxh).2.symm)]
      exact hxh
    · refine ⟨fun r hr huid => absurd huid (hnew.uid r hr), fun i hi r hr => ?_⟩
      exact hfree i hi r ((hnew.items r).mpr (Or.inl hr))
  · have hgone : ¬ ∃ r ∈ b.store.items.rows, r.uid = documentUid src.hash := fun ⟨r, hr, huid⟩ =>
      idForUid_eq_none.mp hd r hr huid
    obtain ⟨store, hstore⟩ := hk.exists_removeFragments src
    have hremoved := removeAll_eq_ok hstore
    rw [hm, heq]
    simp only [Option.isSome_some, true_and, hgone, false_or, true_or, and_true]
    constructor
    · rintro ⟨b', c, h⟩
      obtain ⟨store', hstore', h⟩ := Tx.bind_eq_ok.mp h
      cases hstore.symm.trans hstore'
      exact (hk.removed hremoved).takes_of_freshCapture h
    · intro htakes
      obtain ⟨b', c, h⟩ := (cleared_of_removed hremoved).exists_freshCapture (b := { b with store })
        (hk.removed hremoved) htakes
      exact ⟨b', c, Tx.bind_eq_ok.mpr ⟨store, hstore, h⟩⟩

end Captures

/-! ## one configuration -/

section Whole

variable {V : Type} {p : Pipeline} {src : Source} {space : Except Fmt Space} {b b' : Base V} {s' : Store V}
  {c : Captured}

/-- **The invariant** of a run under one configuration. Where anything of a source is left there is its marker; what
is left of a document that is there is derived from it; and nothing else has chunks, or a record of any. -/
structure Whole (p : Pipeline) (b : Base V) : Prop where
  kept : Kept b.store
  marked : ∀ r ∈ b.store.items.rows, ∀ h, ':' ∉ h → r.uid = documentUid h ∨ Under h r.uid →
    (b.markers.find? (p.key h)).isSome
  derived : ∀ r ∈ b.store.items.rows, ∀ d ∈ b.store.items.rows, ∀ h, ':' ∉ h → Under h r.uid →
    d.uid = documentUid h → Derives b.store r.id d.id
  origin : ∀ r ∈ b.store.items.rows, r.kind = KIND_CHUNK → ∀ d ∈ b.store.items.rows, Derives b.store r.id d.id →
    ∃ h, ':' ∉ h ∧ d.uid = documentUid h ∧ Under h r.uid
  cut : ∀ r ∈ b.store.items.rows, r.chunkedRev.isSome → ∃ h, ':' ∉ h ∧ r.uid = documentUid h

/-- What is derived is there, and so is what it is derived from. -/
theorem Derives.mem {s : Store V} (hs : Sound s) {x y : Int} (h : Derives s x y) :
    (∃ r ∈ s.items.rows, r.id = x) ∧ ∃ d ∈ s.items.rows, d.id = y := by
  obtain ⟨e, he, rfl, rfl, -⟩ := h
  exact ⟨hs.src e he, hs.dst e he⟩

/-- Whether the sources are whole is read of the items and of what is derived. -/
theorem Whole.congr (hw : Whole p b) (hk : Kept s') (hitems : s'.items = b.store.items)
    (hderives : ∀ x y, Derives s' x y ↔ Derives b.store x y) : Whole p { b with store := s' } where
  kept := hk
  marked := hitems ▸ hw.marked
  derived r hr d hd h hh hu hdoc := (hderives _ _).mpr (hw.derived r (hitems ▸ hr) d (hitems ▸ hd) h hh hu hdoc)
  origin r hr hkind d hd hder := hw.origin r (hitems ▸ hr) hkind d (hitems ▸ hd) ((hderives _ _).mp hder)
  cut := hitems ▸ hw.cut

/-- An update that records no cut changes nothing of this. -/
theorem Whole.updated (hw : Whole p b) {id : Int} {columns : Columns} (hup : Updated b.store s' id columns)
    (hhash : columns.contentHash = none ∨ columns.contentHash = some none) (hrev : columns.chunkedRev = none) :
    Whole p { b with store := s' } := by
  have hrow : ∀ r ∈ s'.items.rows, ∃ x ∈ b.store.items.rows, x.id = r.id ∧ x.uid = r.uid ∧ x.kind = r.kind ∧
      x.chunkedRev = r.chunkedRev := by
    intro r hr
    obtain ⟨x, hx, rfl⟩ := (hup.items r).mp hr
    refine ⟨x, hx, ?_⟩
    split <;> simp [ItemRow.set, hrev]
  have hder := derives_congr hup.edges
  refine ⟨hw.kept.updated hup hhash, fun r hr h hh huid => ?_, fun r hr d hd h hh hu hdoc => ?_,
    fun r hr hkind d hd h => ?_, fun r hr h => ?_⟩
  · obtain ⟨x, hx, -, hxuid, -⟩ := hrow r hr
    exact hw.marked x hx h hh (hxuid ▸ huid)
  · obtain ⟨x, hx, hxid, hxuid, -⟩ := hrow r hr
    obtain ⟨y, hy, hyid, hyuid, -⟩ := hrow d hd
    rw [← hxid, ← hyid]
    exact (hder _ _).mpr (hw.derived x hx y hy h hh (hxuid ▸ hu) (hyuid ▸ hdoc))
  · obtain ⟨x, hx, hxid, hxuid, hxkind, -⟩ := hrow r hr
    obtain ⟨y, hy, hyid, hyuid, -⟩ := hrow d hd
    rw [← hxuid, ← hyuid]
    exact hw.origin x hx (hxkind.trans hkind) y hy (by rw [hxid, hyid]; exact (hder _ _).mp h)
  · obtain ⟨x, hx, -, hxuid, -, hxrev⟩ := hrow r hr
    rw [← hxuid]
    exact hw.cut x hx (hxrev ▸ h)

/-- A removal takes the derivations of what it removes, and no others. -/
theorem derives_removed {s : Store V} {ids : List Int} (h : Removed s s' ids) (x y : Int) :
    Derives s' x y ↔ Derives s x y ∧ x ∉ ids ∧ y ∉ ids := by
  constructor
  · rintro ⟨e, he, rfl, rfl, htype⟩
    obtain ⟨hmem, hsrc, hdst⟩ := (h.edges e).mp he
    exact ⟨⟨e, hmem, rfl, rfl, htype⟩, hsrc, hdst⟩
  · rintro ⟨⟨e, he, rfl, rfl, htype⟩, hsrc, hdst⟩
    exact ⟨e, (h.edges e).mpr ⟨he, hsrc, hdst⟩, rfl, rfl, htype⟩

/-- A removal leaves of every source all or fragments. -/
theorem Whole.removed (hw : Whole p b) {ids : List Int} (h : Removed b.store s' ids) :
    Whole p { b with store := s' } := by
  have hder := derives_removed h
  refine ⟨hw.kept.removed h, fun r hr => hw.marked r ((h.items r).mp hr).1, fun r hr d hd hash hh hu hdoc => ?_,
    fun r hr hkind d hd hd' => ?_, fun r hr => hw.cut r ((h.items r).mp hr).1⟩
  · obtain ⟨hr, hrid⟩ := (h.items r).mp hr
    obtain ⟨hd, hdid⟩ := (h.items d).mp hd
    exact (hder _ _).mpr ⟨hw.derived r hr d hd hash hh hu hdoc, hrid, hdid⟩
  · exact hw.origin r ((h.items r).mp hr).1 hkind d ((h.items d).mp hd).1 ((hder _ _).mp hd').1

/-- A new item that is no source's, no chunk of one, and has no chunks. -/
theorem Whole.created (hw : Whole p b) {new : NewItem} (hnew : Inserted b.store s' new) (hhash : new.contentHash = none)
    (huid : ¬ "b3:".toList <+: new.uid) : Whole p { b with store := s' } := by
  have hder := derives_congr hnew.edges
  have hnot : ∀ h, new.uid ≠ documentUid h ∧ ¬ Under h new.uid := fun h =>
    ⟨fun heq => huid (heq ▸ List.prefix_append _ h),
      fun hu => huid (((List.prefix_append _ h).trans (List.prefix_append _ _)).trans hu)⟩
  have hold : ∀ {r}, r ∈ s'.items.rows → ∀ {h}, r.uid = documentUid h ∨ Under h r.uid → r ∈ b.store.items.rows := by
    intro r hr h hrh
    obtain hr | rfl := (hnew.items r).mp hr
    · exact hr
    · exact (hrh.elim (hnot h).1 (hnot h).2).elim
  refine ⟨hw.kept.inserted hnew (rowOk_of_plain hhash huid), fun r hr h hh hrh => ?_,
    fun r hr d hd h hh hu hdoc => ?_, fun r hr hkind d hd hd' => ?_, fun r hr h => ?_⟩
  · exact hw.marked r (hold hr hrh) h hh hrh
  · exact (hder _ _).mpr (hw.derived r (hold hr (Or.inr hu)) d (hold hd (Or.inl hdoc)) h hh hu hdoc)
  · have hthere := (hder _ _).mp hd'
    obtain ⟨⟨x, hx, hxid⟩, y, hy, hyid⟩ := hthere.mem hw.kept.sound
    obtain hr | rfl := (hnew.items r).mp hr
    · obtain hd | rfl := (hnew.items d).mp hd
      · exact hw.origin r hr hkind d hd hthere
      · exact absurd hyid (ne_nextKey hy)
    · exact absurd hxid (ne_nextKey hx)
  · obtain hr | rfl := (hnew.items r).mp hr
    · exact hw.cut r hr h
    · cases h

/-- A link that derives nothing from a chunk. -/
theorem Whole.linked (hw : Whole p b) {x y : Int} {type : EdgeType} (h : link b.store x y type = .ok s')
    (htype : type = .derivedFrom → ∀ r ∈ b.store.items.rows, r.id = x → r.kind ≠ KIND_CHUNK) :
    Whole p { b with store := s' } := by
  have hk := hw.kept.link h
  obtain ⟨hitems, hedges, -⟩ | hlinked := link_eq_ok h
  · exact hw.congr hk hitems (derives_congr hedges)
  · have hkeep : ∀ i j, Derives b.store i j → Derives s' i j := fun i j ⟨e, he, hends⟩ =>
      ⟨e, (hlinked.edges e).mpr (Or.inl he), hends⟩
    have hitems := hlinked.items
    refine ⟨hk, hitems ▸ hw.marked, fun r hr d hd hash hh hu hdoc => ?_, fun r hr hkind d hd hd' => ?_, hitems ▸ hw.cut⟩
    · exact hkeep _ _ (hw.derived r (hitems ▸ hr) d (hitems ▸ hd) hash hh hu hdoc)
    · rw [hitems] at hr hd
      obtain ⟨e, he, hsrc, hdst, hetype⟩ := hd'
      obtain he | rfl := (hlinked.edges e).mp he
      · exact hw.origin r hr hkind d hd ⟨e, he, hsrc, hdst, hetype⟩
      · exact absurd hkind (htype hetype r hr hsrc.symm)

/-- To unlink in another type takes no derivation. -/
theorem derives_unlink {s : Store V} (hs : Sound s) {x y : Int} {type : EdgeType} (htype : type ≠ .derivedFrom)
    (i j : Int) : Derives (unlink s x y type) i j ↔ Derives s i j := by
  constructor
  · rintro ⟨e, he, hends⟩
    exact ⟨e, (hs.mem_edges_unlink.mp he).1, hends⟩
  · rintro ⟨e, he, hsrc, hdst, hetype⟩
    exact ⟨e, hs.mem_edges_unlink.mpr ⟨he, fun h => htype (h.2.2.symm.trans hetype)⟩, hsrc, hdst, hetype⟩

/-- A cut of a source's document, under uids of that source. -/
theorem Whole.cutDone (hw : Whole p b) {cut : Cut} (hcut : CutDone b.store s' cut) {hash : Text} (hhash : ':' ∉ hash)
    (hdoc : ∀ r ∈ b.store.items.rows, r.id = cut.document → r.uid = documentUid hash)
    (hpfx : cut.uidPrefix = documentUid hash ∨ Under hash cut.uidPrefix) : Whole p { b with store := s' } := by
  have hcolon : ':' ∈ cut.uidPrefix := by
    obtain heq | ⟨t, ht⟩ := hpfx
    · exact heq ▸ colon_mem_documentUid hash
    · rw [← ht]
      simp
  have hk := hw.kept.cutDone hcut hcolon
  have hrow : ∀ r ∈ s'.items.rows, (∃ x ∈ b.store.items.rows, x.id = r.id ∧ x.uid = r.uid ∧ x.kind = r.kind ∧
      (r.chunkedRev = x.chunkedRev ∨ r.id = cut.document)) ∨
      ∃ i < cut.chunks.length, ∃ c, r = chunkRow (b.store.items.nextKey + (i : Nat)) cut.uidPrefix i c := by
    intro r hr
    obtain ⟨x, hx, rfl⟩ | ⟨i, c, hc, rfl⟩ := (hcut.items r).mp hr
    · refine Or.inl ⟨x, hx, ?_⟩
      split
      · next hid => exact ⟨rfl, rfl, rfl, Or.inr hid⟩
      · exact ⟨rfl, rfl, rfl, Or.inl rfl⟩
    · exact Or.inr ⟨i, (List.getElem?_eq_some_iff.mp hc).1, c, rfl⟩
  obtain ⟨doc, hdocmem, hdocid⟩ := hcut.document
  have hdocuid := hdoc doc hdocmem hdocid
  have hsame : ∀ x ∈ b.store.items.rows, x.uid = documentUid hash → x.id = cut.document := fun x hx hxuid => by
    rw [hw.kept.sound.uid x hx doc hdocmem (hxuid.trans hdocuid.symm), hdocid]
  have hnew : ∀ i c h, ':' ∉ h → Under h (chunkRow (b.store.items.nextKey + (i : Nat)) cut.uidPrefix i c).uid →
      h = hash := fun i c h hh hu => Under.unique hh hhash hu (under_chunkUid hpfx i)
  refine ⟨hk, fun r hr h hh hrh => ?_, fun r hr d hd h hh hu hduid => ?_, fun r hr hkind d hd hder => ?_,
    fun r hr hsome => ?_⟩
  · obtain ⟨x, hx, -, hxuid, -⟩ | ⟨i, -, c, rfl⟩ := hrow r hr
    · exact hw.marked x hx h hh (hxuid ▸ hrh)
    · obtain heq | hu := hrh
      · exact absurd heq (chunkUid_ne_documentUid hcolon hh i)
      · rw [hnew i c h hh hu]
        exact hw.marked doc hdocmem hash hhash (Or.inl hdocuid)
  · obtain ⟨y, hy, hyid, hyuid, -⟩ | ⟨j, -, c', rfl⟩ := hrow d hd
    · obtain ⟨x, hx, hxid, hxuid, -⟩ | ⟨i, hi, c, rfl⟩ := hrow r hr
      · rw [← hxid, ← hyid]
        exact (hcut.derives _ _).mpr (Or.inl (hw.derived x hx y hy h hh (hxuid ▸ hu) (hyuid.trans hduid)))
      · rw [hnew i c h hh hu] at hduid
        rw [← hyid, hsame y hy (hyuid.trans hduid)]
        exact (hcut.derives _ _).mpr (Or.inr ⟨i, hi, rfl, rfl⟩)
    · exact absurd hduid (chunkUid_ne_documentUid hcolon hh j)
  · obtain hder | ⟨i, hi, hsrc, hdst⟩ := (hcut.derives _ _).mp hder
    · obtain ⟨⟨x, hx, hxid⟩, y, hy, hyid⟩ := hder.mem hw.kept.sound
      have hid_lt : r.id < b.store.items.nextKey ∧ d.id < b.store.items.nextKey :=
        ⟨hxid ▸ b.store.items.key_lt_nextKey hx, hyid ▸ b.store.items.key_lt_nextKey hy⟩
      obtain ⟨x', hx', hxid', hxuid', hxkind', -⟩ | ⟨i, -, c, rfl⟩ := hrow r hr
      · obtain ⟨y', hy', hyid', hyuid', -⟩ | ⟨j, -, c', rfl⟩ := hrow d hd
        · rw [← hxuid', ← hyuid']
          exact hw.origin x' hx' (hxkind'.trans hkind) y' hy' (by rw [hxid', hyid']; exact hder)
        · exact absurd hid_lt.2 (by show ¬ b.store.items.nextKey + (j : Int) < _; omega)
      · exact absurd hid_lt.1 (by show ¬ b.store.items.nextKey + (i : Int) < _; omega)
    · refine ⟨hash, hhash, ?_, ?_⟩
      · obtain ⟨y, hy, hyid, hyuid, -⟩ | ⟨j, -, c', rfl⟩ := hrow d hd
        · rw [← hyuid]
          exact hdoc y hy (hyid.trans hdst)
        · have hlt := b.store.items.key_lt_nextKey hdocmem
          exact absurd hdst (by show ¬ b.store.items.nextKey + (j : Int) = _; omega)
      · obtain ⟨x, hx, hxid, -⟩ | ⟨j, -, c, rfl⟩ := hrow r hr
        · have hlt := b.store.items.key_lt_nextKey hx
          omega
        · exact under_chunkUid hpfx j
  · obtain ⟨x, hx, hxid, hxuid, -, hrev | hid⟩ | ⟨i, -, c, rfl⟩ := hrow r hr
    · rw [← hxuid]
      exact hw.cut x hx (hrev ▸ hsome)
    · rw [← hxuid]
      exact ⟨hash, hhash, hdoc x hx (hxid.trans hid)⟩
    · cases hsome

/-- A capture that is recorded gives its key a marker, and no other. -/
theorem isSome_recordCapture {markers : Table Marker.key} {key k : Key} :
    ((recordCapture markers key).find? k).isSome ↔ k = key ∨ (markers.find? k).isSome := by
  unfold recordCapture
  by_cases hk : k = key
  · subst hk
    rw [Table.find?_upsert_self markers ⟨k, .captured⟩]
    simp
  · rw [Table.find?_upsert_of_ne markers ⟨key, .captured⟩ _ _ _ (Ne.symm hk)]
    simp [hk]

/-- A marker that is completed gives no key a marker. -/
theorem isSome_markComplete {markers : Table Marker.key} {key k : Key} :
    ((markComplete markers key).find? k).isSome ↔ (markers.find? k).isSome := by
  rw [markComplete, Table.find?_updateWhere, Option.isSome_map]

/-- Configurations that agree have the same keys. -/
theorem SameKey.key_eq {q p : Pipeline} (h : SameKey q p) (hash : Text) : q.key hash = p.key hash := by
  obtain ⟨hversion, hstrategy, hmodel⟩ := h
  rw [Pipeline.key, Pipeline.key, hversion, hstrategy, hmodel]

/-- The document of a source of which nothing is left, with its marker. -/
theorem Whole.document (hw : Whole p b) (hclear : Cleared b.store src.hash)
    (hnew : Inserted b.store s' (documentItem src)) :
    Whole p ⟨s', recordCapture b.markers (p.key src.hash)⟩ := by
  have hder := derives_congr hnew.edges
  have hnotUnder : ∀ {h}, ¬ Under h (documentUid src.hash) := fun hu => hu.ne_documentUid src.hex rfl
  refine ⟨hw.kept.inserted hnew (rowOk_document src _ none), fun r hr h hh hrh => isSome_recordCapture.mpr ?_,
    fun r hr d hd h hh hu hdoc => ?_, fun r hr hkind d hd hd' => ?_, fun r hr hsome => ?_⟩
  · obtain hr | rfl := (hnew.items r).mp hr
    · exact Or.inr (hw.marked r hr h hh hrh)
    · obtain heq | hu := hrh
      · exact Or.inl (by rw [← documentUid_inj heq])
      · exact absurd hu hnotUnder
  · obtain hr | rfl := (hnew.items r).mp hr
    · obtain hd | rfl := (hnew.items d).mp hd
      · exact (hder _ _).mpr (hw.derived r hr d hd h hh hu hdoc)
      · rw [← documentUid_inj hdoc] at hu
        exact absurd hu (hclear r hr).2
    · exact absurd hu hnotUnder
  · have hthere := (hder _ _).mp hd'
    obtain ⟨⟨x, hx, hxid⟩, y, hy, hyid⟩ := hthere.mem hw.kept.sound
    obtain hr | rfl := (hnew.items r).mp hr
    · obtain hd | rfl := (hnew.items d).mp hd
      · exact hw.origin r hr hkind d hd hthere
      · exact absurd hyid (ne_nextKey hy)
    · exact absurd hxid (ne_nextKey hx)
  · obtain hr | rfl := (hnew.items r).mp hr
    · exact hw.cut r hr hsome
    · cases hsome

/-- A capture from nothing, of a source of which nothing is left. -/
theorem Whole.fresh {q : Pipeline} (hw : Whole p b) (hkey : SameKey q p) (hclear : Cleared b.store src.hash)
    (h : freshCapture q src space b = .ok (b', c)) : Whole p b' := by
  obtain ⟨t, document, rev, home, ht, hcut, -, hmarkers⟩ := freshCapture_eq_ok hw.kept.sound h
  obtain ⟨rfl, r, hr, hrh, -⟩ | ⟨rfl, hnew⟩ := ht
  · exact absurd ((hw.kept.rows r hr).hash _ hrh).2 (hclear r hr).1
  · obtain ⟨store, markers⟩ := b'
    rw [hkey.key_eq] at hmarkers
    obtain rfl : markers = _ := hmarkers
    refine (hw.document hclear hnew).cutDone hcut src.hex (fun r hr hid => ?_) (Or.inl rfl)
    obtain hr | rfl := (hnew.items r).mp hr
    · exact absurd hid (ne_nextKey hr)
    · rfl

/-- Where there is no marker there is nothing of the source. -/
theorem Whole.cleared {q : Pipeline} (hw : Whole p b) (hkey : SameKey q p)
    (hnone : b.markers.find? (q.key src.hash) = none) : Cleared b.store src.hash := fun r hr => by
  rw [hkey.key_eq] at hnone
  have hmarked := hw.marked r hr src.hash src.hex
  rw [hnone, Option.isSome_none, Bool.false_eq_true] at hmarked
  exact ⟨fun huid => hmarked (Or.inl huid), fun hu => hmarked (Or.inr hu)⟩

/-- A capture under the configuration leaves every source whole. -/
theorem Whole.capture {q : Pipeline} (hw : Whole p b) (hkey : SameKey q p) (h : capture q src space b = .ok (b', c)) :
    Whole p b' := by
  obtain ⟨-, -, -, -, -, c', hc⟩ | ⟨hnone, heq⟩ | ⟨m, -, -, heq⟩ := capture_cases q src space b
  · rw [hc] at h
    cases h
    exact hw
  · exact hw.fresh hkey (hw.cleared hkey hnone) (heq ▸ h)
  · obtain ⟨store, hgone, hfresh⟩ := Tx.bind_eq_ok.mp (heq ▸ h)
    have hremoved := removeAll_eq_ok hgone
    exact (hw.removed hremoved).fresh hkey (cleared_of_removed hremoved) hfresh

/-- The chunks of a document are the chunks that are derived from it. -/
theorem mem_chunkIdsOf {s : Store V} {document id : Int} :
    id ∈ chunkIdsOf s document ↔ Derives s id document ∧ ∃ r ∈ s.items.rows, r.id = id ∧ r.kind = KIND_CHUNK := by
  simp only [chunkIdsOf, List.mem_map, List.mem_filter, Bool.and_eq_true, decide_eq_true_eq, Option.any_eq_true,
    item?_eq_some]
  constructor
  · rintro ⟨e, ⟨he, ⟨hdst, htype⟩, r, ⟨hr, hid⟩, hkind⟩, rfl⟩
    exact ⟨⟨e, he, rfl, hdst, htype⟩, r, hr, hid, hkind⟩
  · rintro ⟨⟨e, he, rfl, hdst, htype⟩, r, hr, hid, hkind⟩
    exact ⟨e, ⟨he, ⟨hdst, htype⟩, r, ⟨hr, hid⟩, hkind⟩, rfl⟩

/-- Only a source's document is cut again. -/
theorem Whole.uid_of_needsRechunk (hw : Whole p b) {r : ItemRow} (hr : r ∈ b.store.items.rows)
    (h : needsRechunk b.store r = true) : ∃ hash, ':' ∉ hash ∧ r.uid = documentUid hash := by
  unfold needsRechunk at h
  split at h
  · next rev heq => exact hw.cut r hr (by rw [heq]; rfl)
  · cases h
  · next id ids _ heq =>
      obtain ⟨hder, x, hx, rfl, hkind⟩ := mem_chunkIdsOf.mp (heq ▸ List.mem_cons_self (a := id) (l := ids))
      obtain ⟨hash, hhash, huid, -⟩ := hw.origin x hx hkind r hr hder
      exact ⟨hash, hhash, huid⟩

/-- A cut that is made again leaves every source whole. -/
theorem Whole.rechunkIfStale (hw : Whole p b) {lib : Hasher} {chunking : ChunkConfig} {document : Int} {done : Bool}
    (h : rechunkIfStale b.store lib chunking document = .ok (s', done)) : Whole p { b with store := s' } := by
  obtain ⟨rfl, -⟩ | ⟨r, hr, rfl, hneeds, t, hgone, hcut⟩ := rechunkIfStale_eq_ok hw.kept.sound h
  · exact hw
  · obtain ⟨hash, hhash, huid⟩ := hw.uid_of_needsRechunk hr hneeds
    refine (hw.removed hgone).cutDone hcut hhash (fun x hx hid => ?_) (Or.inr ?_)
    · rw [Table.eq_of_key_eq _ ((hgone.items x).mp hx).1 hr hid]
      exact huid
    · exact ⟨lib.textHash (r.content.getD []), by simp [recut, huid]⟩

/-- **The step lemma.** -/
theorem Whole.next {lib : Hasher} (hw : Whole p b) {step : Step V} (hstep : Ordinary b step) (hkey : step.Uses p) :
    Whole p (next lib b step) := by
  have hcommit : ∀ x : Except Fmt (Store V), (∀ s', x = .ok s' → Whole p { b with store := s' }) →
      Whole p (b.commit x) := by
    intro x hx
    cases x with
    | error e => exact hw
    | ok s' => exact hx s' rfl
  cases step with
  | ingest q src space =>
      simp only [Ingest.next]
      cases hc : Ingest.capture q src space b with
      | error e => exact hw
      | ok r => exact hw.capture hkey hc
  | complete key =>
      exact ⟨hw.kept, fun r hr h hh hrh => isSome_markComplete.mpr (hw.marked r hr h hh hrh), hw.derived, hw.origin,
        hw.cut⟩
  | recut chunking id =>
      refine hcommit _ fun s' hs' => ?_
      obtain ⟨⟨t, done⟩, ht, rfl⟩ := Tx.map_eq_ok.mp hs'
      exact hw.rechunkIfStale ht
  | storeVector id rev embedding =>
      obtain ⟨hitems, hedges, -⟩ := Index.upsertVector_frame b.store id rev embedding
      exact hw.congr (hw.kept.congr hitems hedges) hitems (derives_congr hedges)
  | removeVector id => exact hw.congr (hw.kept.congr rfl rfl) rfl fun _ _ => Iff.rfl
  | create new =>
      refine hcommit _ fun s' hs' => ?_
      obtain ⟨⟨t, id⟩, ht, rfl⟩ := Tx.map_eq_ok.mp hs'
      obtain ⟨-, -, -, -, -, -, rfl⟩ | ⟨-, hnew⟩ := upsert_eq_ok ht
      · exact hw
      · exact hw.created hnew hstep.1 hstep.2
  | edit id content => exact hcommit _ fun s' hs' => hw.updated (setContent_eq_ok hs') (Or.inr rfl) rfl
  | write id content => exact hcommit _ fun s' hs' => hw.updated (writeContent_eq_ok hs') (Or.inl rfl) rfl
  | remove id => exact hcommit _ fun s' hs' => hw.removed (remove_eq_ok hs')
  | link src dst type => exact hcommit _ fun s' hs' => hw.linked hs' hstep
  | unlink src dst type =>
      exact hw.congr (hw.kept.unlink src dst type) (unlink_frame b.store src dst type).1
        (derives_unlink hw.kept.sound hstep)

/-- **What a run under one configuration keeps**: every source that has a marker is whole, or fragments. -/
theorem whole_run {lib : Hasher} (steps : List (Step V))
    (hsteps : EveryStep (Ingest.next lib) (fun b step => Ordinary b step ∧ step.Uses p) .empty steps) :
    Whole p (run (Ingest.next lib) .empty steps) :=
  have hempty : Whole p (.empty : Base V) :=
    ⟨⟨sound_empty, fun _ hr => (List.not_mem_nil hr).elim⟩, fun _ hr => (List.not_mem_nil hr).elim,
      fun _ hr => (List.not_mem_nil hr).elim, fun _ hr => (List.not_mem_nil hr).elim,
      fun _ hr => (List.not_mem_nil hr).elim⟩
  have hstep : ∀ (b : Base V) (step : Step V), Ordinary b step ∧ step.Uses p → Whole p b →
      Whole p (Ingest.next lib b step) := fun _ _ hstep hw => hw.next hstep.1 hstep.2
  run_invariant_of_everyStep hstep hsteps hempty

/-- A source as it is captured: its document holds its text, and derived from it are the chunks of the text. -/
structure Holds (s : Store V) (src : Source) (chunks : List Text) (d : ItemRow) : Prop where
  content : d.content = some src.text
  chunks : ∀ x, Derives s x d.id ↔ ∃ (i : Nat) (c : Text), chunks[i]? = some c ∧
    ∃ r ∈ s.items.rows, r.id = x ∧ r.uid = chunkUid (documentUid src.hash) i ∧ r.content = some c

/-- What a capture from nothing makes. -/
theorem Whole.holds (hw : Whole p b) (hclear : Cleared b.store src.hash)
    (h : freshCapture p src space b = .ok (b', c)) :
    (b'.markers.find? (p.key src.hash)).isSome ∧ ∃ d ∈ b'.store.items.rows, d.uid = documentUid src.hash ∧
      Holds b'.store src (chunkText src.text p.chunking) d := by
  obtain ⟨t, document, rev, home, ht, hcut, -, hmarkers⟩ := freshCapture_eq_ok hw.kept.sound h
  obtain ⟨rfl, r, hr, hrh, -⟩ | ⟨rfl, hnew⟩ := ht
  · exact absurd ((hw.kept.rows r hr).hash _ hrh).2 (hclear r hr).1
  refine ⟨hmarkers ▸ isSome_recordCapture.mpr (Or.inl rfl), _,
    (hcut.items _).mpr (Or.inl ⟨_, (hnew.items _).mpr (Or.inr rfl), (if_pos rfl).symm⟩), rfl, rfl, fun x => ?_⟩
  have hnone : ¬ Derives t x b.store.items.nextKey := fun hder => by
    obtain ⟨-, d, hd, hid⟩ := ((derives_congr hnew.edges _ _).mp hder).mem hw.kept.sound
    exact ne_nextKey hd hid
  have hrow : ∀ {i : Nat} {c}, (chunkText src.text p.chunking)[i]? = some c →
      chunkRow (t.items.nextKey + i) (documentUid src.hash) i c ∈ b'.store.items.rows := fun hc =>
    (hcut.items _).mpr (Or.inr ⟨_, _, hc, rfl⟩)
  refine (hcut.derives x _).trans ⟨fun hor => ?_, fun ⟨i, c, hc, r, hr, hid, huid, _⟩ => Or.inr ⟨i, ?_, ?_, rfl⟩⟩
  · obtain ⟨i, hi, rfl, -⟩ := hor.resolve_left hnone
    have hc := List.getElem?_eq_getElem hi
    exact ⟨i, _, hc, _, hrow hc, rfl, rfl, rfl⟩
  · exact (List.getElem?_eq_some_iff.mp hc).1
  · rw [← hid, hcut.sound.uid r hr _ (hrow hc) huid]
    rfl

/-- What a capture leaves: one item has the source's uid, a document, made as the source is where there was none; and
to capture the source again, into whatever namespace, writes nothing. -/
structure Recaptured (p : Pipeline) (src : Source) (b b' : Base V) : Prop where
  document : ∃ d ∈ b'.store.items.rows, d.uid = documentUid src.hash ∧ d.kind = Index.KIND_DOCUMENT ∧
    (∀ r ∈ b'.store.items.rows, r.uid = documentUid src.hash → r = d) ∧
    ((∀ r ∈ b.store.items.rows, r.uid ≠ documentUid src.hash) → Holds b'.store src (chunkText src.text p.chunking) d)
  again : ∀ space, ∃ c, capture p src space b' = .ok (b', c)

/-- **Ingest recovers.** Under one configuration, after any run of captures, cuts, edits and removals, any source can
be captured into any namespace that takes it. -/
theorem ingest_run (lib : Hasher) (p : Pipeline) (steps : List (Step V))
    (hsteps : EveryStep (Ingest.next lib) (fun b step => Ordinary b step ∧ step.Uses p) .empty steps) (src : Source)
    (space : Except Fmt Space) (htakes : Takes space (chunkText src.text p.chunking)) :
    ∃ b' c, capture p src space (run (Ingest.next lib) .empty steps) = .ok (b', c) ∧
      Recaptured p src (run (Ingest.next lib) .empty steps) b' := by
  generalize hb : run (Ingest.next lib) .empty steps = b
  have hw : Whole p b := hb ▸ whole_run steps hsteps
  have hmade : ∃ b' c, capture p src space b = .ok (b', c) ∧ (b'.markers.find? (p.key src.hash)).isSome ∧
      ∃ d ∈ b'.store.items.rows, d.uid = documentUid src.hash ∧
        ((∀ r ∈ b.store.items.rows, r.uid ≠ documentUid src.hash) →
          Holds b'.store src (chunkText src.text p.chunking) d) := by
    obtain ⟨m, d, hm, hd, huid, c, hc⟩ | ⟨hnone, heq⟩ | ⟨m, -, -, heq⟩ := capture_cases p src space b
    · exact ⟨b, c, hc, by rw [hm]; rfl, d, hd, huid, fun hnot => absurd huid (hnot d hd)⟩
    · have hclear := hw.cleared ⟨rfl, rfl, rfl⟩ hnone
      obtain ⟨b', c, h⟩ := hclear.exists_freshCapture hw.kept htakes
      obtain ⟨hmark, d, hd, huid, hholds⟩ := hw.holds hclear h
      exact ⟨b', c, heq ▸ h, hmark, d, hd, huid, fun _ => hholds⟩
    · obtain ⟨store, hgone⟩ := hw.kept.exists_removeFragments src
      have hremoved := removeAll_eq_ok hgone
      have hclear := cleared_of_removed hremoved
      obtain ⟨b', c, h⟩ := hclear.exists_freshCapture (b := { b with store }) (hw.kept.removed hremoved) htakes
      obtain ⟨hmark, d, hd, huid, hholds⟩ := (hw.removed hremoved).holds hclear h
      exact ⟨b', c, by rw [heq]; exact Tx.bind_eq_ok.mpr ⟨store, hgone, h⟩, hmark, d, hd, huid, fun _ => hholds⟩
  obtain ⟨b', c, hc, hmark, d, hd, huid, hholds⟩ := hmade
  have hw' : Whole p b' := hw.capture ⟨rfl, rfl, rfl⟩ hc
  refine ⟨b', c, hc, ⟨d, hd, huid, (hw'.kept.rows d hd).document _ src.hex huid,
    fun r hr hr_uid => hw'.kept.sound.uid r hr d hd (hr_uid.trans huid.symm), hholds⟩, fun space' => ?_⟩
  obtain ⟨-, -, -, -, -, c', hc'⟩ | ⟨hnone, -⟩ | ⟨m, -, hgone, -⟩ := capture_cases p src space' b'
  · exact ⟨c', hc'⟩
  · rw [hnone] at hmark
    cases hmark
  · exact absurd huid (idForUid_eq_none.mp hgone d hd)

end Whole

/-! ## a source of two chunks -/

/-- The source `ab`. -/
def ab : Source := ⟨"2dc99999a6aaef3f20349d2ed4057a2b54419545dabb809e6381de1bad8337e2".toList, "ab".toList, by decide⟩

/-- One character a chunk. -/
def oneChar (model : String) : Pipeline := ⟨⟨1, 0, 0, by decide, by decide⟩, 1, model.toList⟩

/-- The hash of `abc`, the only text that the runs here cut again. -/
def abcHasher : Hasher :=
  ⟨fun _ => "6437b3ac38465133ffb63b75273a8db548c558465d79db03fd359c6cd5bd9d85".toList, fun _ => by decide⟩

/-- A namespace that no type governs. -/
def untyped : Except Fmt Space := .ok fun _ => .ok ()

/-- What no type governs takes whatever is captured. -/
theorem takes_untyped (chunks : List Text) : Takes untyped chunks :=
  ⟨_, rfl, rfl, fun _ _ hspace => Option.some.inj hspace ▸ rfl⟩

/-- A source that is captured under one model cannot be under another. -/
theorem capture_run_otherModel :
    ¬ ∃ b' c, capture (oneChar "y") ab untyped
      (run (next abcHasher) .empty [(.ingest (oneChar "x") ab untyped : Step Nat)]) = .ok (b', c) :=
  mt (capture_run abcHasher _ (by decide +kernel) (oneChar "y") ab untyped).mp <| by
    rintro (hmarked | ⟨-, hfree⟩)
    · exact absurd hmarked.1 (by decide +kernel)
    · exact absurd hfree (by decide +kernel)

/-- A capture, an edit, a new cut and a removal of the document, whose chunks are left. -/
def cutThenRemoved : List (Step Nat) :=
  [.ingest (oneChar "x") ab untyped, .edit 1 "abc".toList, .recut (oneChar "x").chunking 1, .remove 1]

/-- What was removed after a cut is captured again, though chunks were left. -/
theorem ingest_run_cutThenRemoved :
    ∃ b' c, capture (oneChar "x") ab untyped (run (next abcHasher) .empty cutThenRemoved) = .ok (b', c) ∧
      Recaptured (oneChar "x") ab (run (next abcHasher) .empty cutThenRemoved) b' :=
  ingest_run abcHasher (oneChar "x") cutThenRemoved (by decide +kernel) ab untyped (takes_untyped _)

-- Three chunks are left without their document.
example : (run (next abcHasher) .empty cutThenRemoved).store.items.rows.map (fun r => (r.id, r.content)) =
    [(4, some ['a']), (5, some ['b']), (6, some ['c'])] := by decide +kernel

end Jkb.Ingest
