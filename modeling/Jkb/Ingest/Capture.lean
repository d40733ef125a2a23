import Jkb.Core.Item.Sound
import Jkb.Core.Ns.Writers
import Jkb.Core.Nstype
import Jkb.Glob
import Jkb.Index.Vector
import Jkb.Ingest.Chunk

/-!
# Jkb.Ingest.Capture

The capture of a source: a document, the chunks that it is cut into, and a marker that says which configuration has
captured it. A source is known by a hash, its document and chunks by uids made of it.

The marker is evidence and not proof: items go without it. A capture that finds the marker and no document removes
the chunks that are left and starts again. `writeChunks` is the one writer of chunks, of a capture and of a document
that is cut again after an edit.

The namespace that a capture names is given by what the tree answers of it: that it cannot be made, or which kinds of
items may be placed there. `takes_spaceOf` says of which namespaces of a tree a capture is not refused.
-/

namespace Jkb.Ingest

open Jkb.Text Jkb.Item Jkb.Glob

/-! ## sources and markers -/

/-- What gives a text the hash that its chunks are named after, in hex. -/
structure Hasher where
  textHash : Text → Text
  hex : ∀ t, ':' ∉ textHash t

/-- A parsed source, and the address of what it was parsed from, in hex. -/
structure Source where
  hash : Text
  text : Text
  hex : ':' ∉ hash

/-- What a pipeline is configured with. -/
structure Pipeline where
  chunking : ChunkConfig
  version : Int
  model : Text

/-- What identifies one ingestion. -/
structure Key where
  sourceHash : Text
  pipelineVersion : Int
  strategy : Text
  embedderModel : Text
deriving Repr, DecidableEq

inductive Status where
  | captured | complete
deriving Repr, DecidableEq

/-- A row of `ingestions`. -/
structure Marker where
  key : Key
  status : Status
deriving Repr, DecidableEq

/-- The tables that an ingest writes. -/
structure Base (V : Type) where
  store : Store V
  markers : Table Marker.key

def Base.empty {V : Type} : Base V := ⟨.empty, .empty⟩

/-- The chunking, as part of the key. -/
def Pipeline.strategy (p : Pipeline) : Text :=
  "char:".toList ++ showNat p.chunking.max ++ ':' :: showNat p.chunking.overlap

def Pipeline.key (p : Pipeline) (hash : Text) : Key := ⟨hash, p.version, p.strategy, p.model⟩

/-- Record that a capture finished. -/
def recordCapture (markers : Table Marker.key) (key : Key) : Table Marker.key :=
  markers.upsert ⟨key, .captured⟩ (fun _ => true) (fun m => { m with status := .captured }) fun _ => rfl

/-- Record that the vectors are written. -/
def markComplete (markers : Table Marker.key) (key : Key) : Table Marker.key :=
  markers.updateWhere (·.key = key) (fun m => { m with status := .complete }) fun _ => rfl

/-! ## namespaces -/

/-- A namespace, by how the check of `placement::place` answers of an item's kind there. -/
abbrev Space := Text → Except Fmt Unit

/-- The check of `placement::place` on an item that is there. -/
def place {V : Type} (s : Store V) (space : Space) (id : Int) : Except Fmt Unit :=
  match s.item? id with
  | none => .ok ()
  | some r => space r.kind

/-- `nstype::check_placement`, by an item's kind. -/
def checkPlacement (x : Nstype.Typing) (spaces : List Ns.Namespace) (id : Int) : Space := fun kind =>
  match spaces.find? (·.id = id) with
  | none => .ok ()
  | some n => do
      match ← Nstype.forNamespace x spaces n.path with
      | none => return ()
      | some (_, t) => if t.acceptsKind kind then return () else .error (Nstype.rejectKind n.path t kind)

/-- What a tree answers of the namespace at a path, which is made where it is not there. -/
def spaceOf (x : Nstype.Typing) (tree : Ns.Store) (now path : Text) : Except Fmt Space := do
  let (tree, id) ← Ns.ensure x.toOutside tree now path
  return checkPlacement x tree.rows id

/-! ## chunks -/

def KIND_CHUNK : Text := "chunk".toList

def documentUid (hash : Text) : Text := "b3:".toList ++ hash

def chunkUid (pfx : Text) (idx : Nat) : Text := pfx ++ ':' :: showNat idx

/-- The pattern of the uids of a source's chunks. -/
def chunkUidGlob (hash : Text) : Text := prefixGlob (documentUid hash) ':'

section Chunks

variable {V : Type} (s : Store V)

/-- `item::id_for_uid`. -/
def idForUid (uid : Text) : Option Int := (s.items.rows.find? (·.uid = uid)).map (·.id)

/-- The chunks that are derived from an item. -/
def chunkIdsOf (document : Int) : List Int :=
  (s.edges.rows.filter fun e =>
    e.dst = document && e.type = .derivedFrom && (s.item? e.src).any (·.kind = KIND_CHUNK)).map (·.src)

/-- Items left over from an ingestion, the latest first. -/
def survivingFragments (hash : Text) : List Int :=
  ((s.items.rows.filter fun r => r.uid = documentUid hash || glob (chunkUidGlob hash) r.uid).map (·.id)).mergeSort
    fun a b => b ≤ a

def countChunks (hash : Text) : Nat := (s.items.rows.filter fun r => glob (chunkUidGlob hash) r.uid).length

/-- Write one chunk of a document, and place it where the document is. -/
def writeChunk (home : Option Space) (document : Int) (pfx : Text) (idx : Nat) (chunk : Text) :
    Except Fmt (Store V) := do
  let (s, id) ← upsert s { uid := chunkUid pfx idx, kind := KIND_CHUNK, content := some chunk, contentHash := none }
  let s ← link s id document .derivedFrom
  home.forM (place s · id)
  return s

/-- The loop of `write_chunks`. -/
def writeChunksFrom (s : Store V) (home : Option Space) (document : Int) (pfx : Text) :
    Nat → List Text → Except Fmt (Store V)
  | _, [] => .ok s
  | idx, chunk :: chunks => do
      let s ← writeChunk s home document pfx idx chunk
      writeChunksFrom s home document pfx (idx + 1) chunks

/-- One cut of a document: its revision that the chunks are cut from, what their uids begin with, and the document's
home, if it has one. -/
structure Cut where
  document : Int
  rev : Int
  uidPrefix : Text
  chunks : List Text
  home : Option Space

/-- Write a cut, and record the revision. -/
def writeChunks (cut : Cut) : Except Fmt (Store V) := do
  let s ← writeChunksFrom s cut.home cut.document cut.uidPrefix 0 cut.chunks
  setChunkedRev s cut.document cut.rev

/-! ## capture -/

/-- What a capture did. -/
inductive Captured where
  | complete (document : Int) (chunkCount : Nat)
  | pending (document : Int) (chunkCount : Nat) (resumed : Bool)
deriving Repr, DecidableEq

/-- The document of a source. -/
def documentId (hash : Text) : Except Fmt Int :=
  match idForUid s (documentUid hash) with
  | some id => .ok id
  | none => .error ["Query returned no rows"]

def contentRev (id : Int) : Except Fmt Int :=
  match s.item? id with
  | some r => .ok r.contentRev
  | none => .error ["Query returned no rows"]

end Chunks

section Capture

variable {V : Type} (p : Pipeline) (src : Source) (space : Except Fmt Space) (b : Base V)

/-- A capture that is there already, by its recorded status. -/
def resumeCapture (status : Status) : Except Fmt (Base V × Captured) := do
  let document ← documentId b.store src.hash
  let chunkCount := countChunks b.store src.hash
  match status with
  | .complete => return (b, .complete document chunkCount)
  | .captured => return (b, .pending document chunkCount true)

/-- A source's document, as it is made. -/
def documentItem : NewItem where
  uid := documentUid src.hash
  kind := Index.KIND_DOCUMENT
  content := some src.text
  contentHash := some src.hash

/-- A capture from nothing. -/
def freshCapture : Except Fmt (Base V × Captured) := do
  let chunks := chunkText src.text p.chunking
  let home ← space
  let (s, document) ← upsert b.store (documentItem src)
  place s home document
  let rev ← contentRev s document
  let store ← writeChunks s { document, rev, uidPrefix := documentUid src.hash, chunks, home := some home }
  return ({ store, markers := recordCapture b.markers (p.key src.hash) }, .pending document chunks.length false)

/-- The capture transaction: resume what is there, or create. -/
def capture : Except Fmt (Base V × Captured) :=
  match b.markers.find? (p.key src.hash) with
  | none => freshCapture p src space b
  | some m =>
      match idForUid b.store (documentUid src.hash) with
      | some _ => resumeCapture src b m.status
      | none => do
          let store ← (survivingFragments b.store src.hash).foldlM remove b.store
          freshCapture p src space { b with store }

end Capture

/-! ## cutting again -/

section Rechunk

variable {V : Type} (s : Store V)

/-- Whether an item's chunks were cut from a text that it no longer holds. **The** re-chunk rule. -/
def needsRechunk (r : ItemRow) : Bool :=
  match r.chunkedRev, chunkIdsOf s r.id with
  | some rev, _ => rev ≠ r.contentRev
  | none, [] => false
  | none, _ :: _ => 0 ≠ r.contentRev

/-- The cut of a document as it is now. The text's hash keeps the new uids apart from those that the capture gave.
A home that does not take the new chunks, as one that has been typed since, refuses the whole of the cut, which leaves
everything as it was; the cuts here are those that are not refused so. -/
def recut (lib : Hasher) (chunking : ChunkConfig) (r : ItemRow) : Cut where
  document := r.id
  rev := r.contentRev
  uidPrefix := r.uid ++ ':' :: lib.textHash (r.content.getD [])
  chunks := chunkText (r.content.getD []) chunking
  home := none

/-- Cut a document's chunks again if they were cut from a text that it no longer holds. Whether it did. -/
def rechunkIfStale (lib : Hasher) (chunking : ChunkConfig) (document : Int) : Except Fmt (Store V × Bool) :=
  match s.item? document with
  | none => .ok (s, false)
  | some r =>
      if needsRechunk s r then do
        let s ← (chunkIdsOf s document).foldlM remove s
        let s ← writeChunks s (recut lib chunking r)
        return (s, true)
      else .ok (s, false)

end Rechunk

/-! ## what a cut leaves -/

section Written

variable {V : Type} {s s' t : Store V} {home : Option Space} {document : Int} {pfx : Text}

/-- Whether the chunks of a document may be placed where it is. -/
def TakesChunks (home : Option Space) : Prop := ∀ space ∈ home, space KIND_CHUNK = .ok ()

/-- Whether an item is derived from another. -/
def Derives (s : Store V) (src dst : Int) : Prop :=
  ∃ e ∈ s.edges.rows, e.src = src ∧ e.dst = dst ∧ e.type = .derivedFrom

/-- A chunk as it is written. -/
def chunkRow (id : Int) (pfx : Text) (idx : Nat) (chunk : Text) : ItemRow :=
  ⟨id, chunkUid pfx idx, KIND_CHUNK, some chunk, none, 0, none⟩

theorem chunkUid_inj {i j : Nat} (h : chunkUid pfx i = chunkUid pfx j) : i = j :=
  showNat_injective (List.cons.inj (List.append_cancel_left h)).2

/-- Chunks that have been written, from an index on: their rows, of the ids that came next, and their edges. -/
structure Written (s s' : Store V) (document : Int) (pfx : Text) (idx : Nat) (chunks : List Text) : Prop where
  items : ∀ r, r ∈ s'.items.rows ↔ r ∈ s.items.rows ∨
    ∃ (i : Nat) (c : Text), chunks[i]? = some c ∧ r = chunkRow (s.items.nextKey + i) pfx (idx + i) c
  derives : ∀ src dst, Derives s' src dst ↔ Derives s src dst ∨
    ∃ i < chunks.length, src = s.items.nextKey + i ∧ dst = document
  next : s'.items.nextKey = s.items.nextKey + chunks.length
  vectors : s'.vectors = s.vectors
  sources : s'.sources = s.sources
  sound : Sound s'

/-- A link that is made is one more derivation. -/
theorem derives_linked {src : Int} (h : Linked s s' src document .derivedFrom) (x y : Int) :
    Derives s' x y ↔ Derives s x y ∨ x = src ∧ y = document := by
  constructor
  · rintro ⟨e, he, hsrc, hdst, htype⟩
    obtain he | rfl := (h.edges e).mp he
    · exact Or.inl ⟨e, he, hsrc, hdst, htype⟩
    · exact Or.inr ⟨hsrc.symm, hdst.symm⟩
  · rintro (⟨e, he, hends⟩ | ⟨rfl, rfl⟩)
    · exact ⟨e, (h.edges e).mpr (Or.inl he), hends⟩
    · exact ⟨_, (h.edges _).mpr (Or.inr rfl), rfl, rfl, rfl⟩

theorem derives_congr (h : s'.edges = s.edges) (x y : Int) : Derives s' x y ↔ Derives s x y := by
  unfold Derives
  rw [h]

theorem Written.nil (hs : Sound s) (document : Int) (pfx : Text) (idx : Nat) : Written s s document pfx idx [] where
  items r := by simp
  derives src dst := by simp
  next := by simp
  vectors := rfl
  sources := rfl
  sound := hs

/-- One chunk, of the next id, linked. -/
theorem written_of_linked (hs : Sound s) {idx : Nat} {chunk : Text}
    (hnew : Inserted s t ⟨chunkUid pfx idx, KIND_CHUNK, some chunk, none⟩)
    (hlink : Linked t s' s.items.nextKey document .derivedFrom) : Written s s' document pfx idx [chunk] where
  items r := by
    rw [hlink.items, hnew.items]
    refine or_congr_right ⟨fun h => ⟨0, chunk, rfl, ?_⟩, ?_⟩
    · simpa [chunkRow] using h
    · rintro ⟨i, c, hc, rfl⟩
      cases i with
      | zero =>
          cases hc
          simp [chunkRow]
      | succ i => cases hc
  derives src dst := by
    rw [derives_linked hlink, derives_congr hnew.edges]
    refine or_congr_right ⟨fun h => ⟨0, Nat.zero_lt_one, by simpa using h⟩, ?_⟩
    rintro ⟨i, hi, h⟩
    obtain rfl : i = 0 := by
      rw [List.length_singleton] at hi
      omega
    simpa using h
  next := by
    rw [hlink.items, hnew.next]
    rfl
  vectors := hlink.vectors.trans hnew.vectors
  sources := hlink.sources.trans hnew.sources
  sound := (hs.inserted hnew).linked hlink

/-- The check on an item, by its kind. -/
theorem place_eq {space : Space} {r : ItemRow} (hr : r ∈ s.items.rows) : place s space r.id = space r.kind := by
  rw [place, item?_eq_some.mpr ⟨hr, rfl⟩]

/-- A chunk that has been written may be placed where its document is if that takes chunks. -/
theorem Written.placed {idx : Nat} {chunk : Text} (h : Written s t document pfx idx [chunk]) :
    home.forM (place t · s.items.nextKey) = .ok () ↔ TakesChunks home := by
  have hrow : chunkRow s.items.nextKey pfx idx chunk ∈ t.items.rows :=
    (h.items _).mpr (Or.inr ⟨0, chunk, rfl, by simp⟩)
  cases home with
  | none => exact iff_of_true rfl fun space hspace => by cases hspace
  | some space =>
      have hplace : place t space s.items.nextKey = space KIND_CHUNK := place_eq hrow
      simp only [TakesChunks, Option.mem_def, Option.some.injEq, forall_eq']
      rw [← hplace]
      rfl

theorem writeChunk_eq_ok (hs : Sound s) {idx : Nat} {chunk : Text}
    (h : writeChunk s home document pfx idx chunk = .ok s') :
    Written s s' document pfx idx [chunk] ∧ (∀ r ∈ s.items.rows, r.uid ≠ chunkUid pfx idx) ∧ TakesChunks home := by
  obtain ⟨⟨t, id⟩, hup, h⟩ := Tx.bind_eq_ok.mp h
  obtain ⟨u, hlink, h⟩ := Tx.bind_eq_ok.mp h
  obtain ⟨_, hplace, h⟩ := Tx.bind_eq_ok.mp h
  cases h
  obtain ⟨_, _, _, hnone, _⟩ | ⟨rfl, hnew⟩ := upsert_eq_ok hup
  · cases hnone
  · obtain ⟨-, -, -, -, e, he, hsrc, -⟩ | hlinked := link_eq_ok hlink
    · exact absurd hsrc (hs.src_ne_nextKey (hnew.edges ▸ he))
    · have hwritten := written_of_linked hs hnew hlinked
      exact ⟨hwritten, hnew.uid, hwritten.placed.mp hplace⟩

theorem exists_writeChunk (hs : Sound s) (hdoc : ∃ r ∈ s.items.rows, r.id = document) {idx : Nat} {chunk : Text}
    (hfree : ∀ r ∈ s.items.rows, r.uid ≠ chunkUid pfx idx) (htakes : TakesChunks home) :
    ∃ s', writeChunk s home document pfx idx chunk = .ok s' := by
  let new : NewItem := ⟨chunkUid pfx idx, KIND_CHUNK, some chunk, none⟩
  obtain ⟨t, hup, hnew⟩ : ∃ t, upsert s new = .ok (t, s.items.nextKey) ∧ Inserted s t new := exists_inserted hfree nofun
  obtain ⟨s', hlink, hlinked⟩ : ∃ s', link t s.items.nextKey document .derivedFrom = .ok s' ∧ _ := exists_linked
    (fun e he hsrc => absurd hsrc (hs.src_ne_nextKey (hnew.edges ▸ he)))
    ⟨_, (hnew.items _).mpr (Or.inr rfl), rfl⟩ (hdoc.imp fun r hr => ⟨(hnew.items r).mpr (Or.inl hr.1), hr.2⟩)
  have hplace := (written_of_linked hs hnew hlinked).placed.mpr htakes
  exact ⟨s', Tx.bind_eq_ok.mpr ⟨_, hup, Tx.bind_eq_ok.mpr ⟨s', hlink, Tx.bind_eq_ok.mpr ⟨(), hplace, rfl⟩⟩⟩⟩

/-- A chunk, and those after it. -/
theorem Written.cons {idx : Nat} {chunk : Text} {chunks : List Text} (h : Written s t document pfx idx [chunk])
    (h' : Written t s' document pfx (idx + 1) chunks) : Written s s' document pfx idx (chunk :: chunks) where
  items r := by
    have hhead : (∃ (i : Nat) (c : Text), [chunk][i]? = some c ∧ r = chunkRow (s.items.nextKey + i) pfx (idx + i) c) ↔
        r = chunkRow s.items.nextKey pfx idx chunk := by
      constructor
      · rintro ⟨i, c, hc, rfl⟩
        cases i with
        | zero =>
            cases hc
            simp
        | succ i => cases hc
      · intro hr
        exact ⟨0, chunk, rfl, by simpa using hr⟩
    have hnext : t.items.nextKey = s.items.nextKey + 1 := h.next
    rw [h'.items, h.items, hhead, or_assoc, hnext]
    refine or_congr_right ⟨?_, ?_⟩
    · rintro (hr | ⟨i, c, hc, hr⟩)
      · exact ⟨0, chunk, rfl, by simpa using hr⟩
      · refine ⟨i + 1, c, hc, ?_⟩
        rw [hr]
        congr 1 <;> push_cast <;> omega
    · rintro ⟨i, c, hc, hr⟩
      cases i with
      | zero =>
          cases hc
          exact Or.inl (by simpa using hr)
      | succ i =>
          refine Or.inr ⟨i, c, hc, ?_⟩
          rw [hr]
          congr 1 <;> push_cast <;> omega
  derives src dst := by
    have hnext : t.items.nextKey = s.items.nextKey + 1 := h.next
    rw [h'.derives, h.derives, or_assoc, hnext]
    refine or_congr_right ⟨?_, ?_⟩
    · rintro (⟨i, hi, hsrc, hdst⟩ | ⟨i, hi, hsrc, hdst⟩)
      · rw [List.length_singleton] at hi
        exact ⟨i, by rw [List.length_cons]; omega, hsrc, hdst⟩
      · exact ⟨i + 1, by rw [List.length_cons]; omega, by push_cast; omega, hdst⟩
    · rintro ⟨i, hi, hsrc, hdst⟩
      cases i with
      | zero => exact Or.inl ⟨0, Nat.zero_lt_one, hsrc, hdst⟩
      | succ i =>
          rw [List.length_cons] at hi
          push_cast at hsrc
          exact Or.inr ⟨i, by omega, by omega, hdst⟩
  next := by
    rw [h'.next, h.next, List.length_singleton, List.length_cons]
    push_cast
    omega
  vectors := h'.vectors.trans h.vectors
  sources := h'.sources.trans h.sources
  sound := h'.sound

/-- **What the loop leaves**, where it goes through: it does if no uid that it gives is taken. -/
theorem writeChunksFrom_eq_ok (hs : Sound s) {idx : Nat} {chunks : List Text}
    (h : writeChunksFrom s home document pfx idx chunks = .ok s') :
    Written s s' document pfx idx chunks ∧
      (∀ i < chunks.length, ∀ r ∈ s.items.rows, r.uid ≠ chunkUid pfx (idx + i)) ∧
      (chunks ≠ [] → TakesChunks home) := by
  induction chunks generalizing s idx with
  | nil =>
      cases h
      exact ⟨.nil hs .., fun i hi => absurd hi (Nat.not_lt_zero i), fun hne => absurd rfl hne⟩
  | cons chunk chunks ih =>
      obtain ⟨t, hone, h⟩ := Tx.bind_eq_ok.mp h
      obtain ⟨hhead, hfree, htakes⟩ := writeChunk_eq_ok hs hone
      obtain ⟨htail, hrest, -⟩ := ih hhead.sound h
      refine ⟨hhead.cons htail, fun i hi r hr => ?_, fun _ => htakes⟩
      cases i with
      | zero => exact hfree r hr
      | succ i =>
          have hne := hrest i (Nat.lt_of_succ_lt_succ hi) r ((hhead.items r).mpr (Or.inl hr))
          rwa [Nat.add_assoc, Nat.add_comm 1 i] at hne

theorem exists_writeChunksFrom (hs : Sound s) (hdoc : ∃ r ∈ s.items.rows, r.id = document) {idx : Nat}
    {chunks : List Text} (hfree : ∀ i < chunks.length, ∀ r ∈ s.items.rows, r.uid ≠ chunkUid pfx (idx + i))
    (htakes : chunks ≠ [] → TakesChunks home) :
    ∃ s', writeChunksFrom s home document pfx idx chunks = .ok s' := by
  induction chunks generalizing s idx with
  | nil => exact ⟨s, rfl⟩
  | cons chunk chunks ih =>
      have htakes : TakesChunks home := htakes (List.cons_ne_nil _ _)
      obtain ⟨t, ht⟩ : ∃ t, writeChunk s home document pfx idx chunk = .ok t :=
        exists_writeChunk hs hdoc (hfree 0 (Nat.zero_lt_succ _)) htakes
      have hhead := (writeChunk_eq_ok hs ht).1
      have hrest : ∀ i < chunks.length, ∀ r ∈ t.items.rows, r.uid ≠ chunkUid pfx (idx + 1 + i) := by
        intro i hi r hr
        obtain hr | ⟨j, c, hc, rfl⟩ := (hhead.items r).mp hr
        · have hne := hfree (i + 1) (Nat.succ_lt_succ hi) r hr
          rwa [Nat.add_comm i 1, ← Nat.add_assoc] at hne
        · intro heq
          have hidx : idx + j = idx + 1 + i := chunkUid_inj heq
          have hj : j < 1 := (List.getElem?_eq_some_iff.mp hc).1
          omega
      obtain ⟨s', hs'⟩ :=
        ih hhead.sound (hdoc.imp fun r hr => ⟨(hhead.items r).mpr (Or.inl hr.1), hr.2⟩) hrest fun _ => htakes
      exact ⟨s', Tx.bind_eq_ok.mpr ⟨t, ht, hs'⟩⟩

/-- What a cut leaves: its chunks, and the revision that they are of. -/
structure CutDone (s s' : Store V) (cut : Cut) : Prop where
  document : ∃ r ∈ s.items.rows, r.id = cut.document
  items : ∀ r, r ∈ s'.items.rows ↔
    (∃ x ∈ s.items.rows, r = if x.id = cut.document then { x with chunkedRev := some cut.rev } else x) ∨
      ∃ (i : Nat) (c : Text), cut.chunks[i]? = some c ∧ r = chunkRow (s.items.nextKey + i) cut.uidPrefix i c
  derives : ∀ src dst, Derives s' src dst ↔ Derives s src dst ∨
    ∃ i < cut.chunks.length, src = s.items.nextKey + i ∧ dst = cut.document
  vectors : s'.vectors = s.vectors
  sources : s'.sources = s.sources
  sound : Sound s'

theorem set_chunkedRev (r : ItemRow) (rev : Int) :
    r.set { chunkedRev := some (some rev) } = { r with chunkedRev := some rev } := by
  simp [ItemRow.set]

/-- **What a cut leaves**, where it goes through: it does if the document is there, no uid that it gives is taken, and
the document's home takes chunks. -/
theorem writeChunks_eq_ok (hs : Sound s) {cut : Cut} (hlt : cut.document < s.items.nextKey)
    (h : writeChunks s cut = .ok s') :
    CutDone s s' cut ∧ (∀ i < cut.chunks.length, ∀ r ∈ s.items.rows, r.uid ≠ chunkUid cut.uidPrefix i) ∧
      (cut.chunks ≠ [] → TakesChunks cut.home) := by
  obtain ⟨t, hloop, hrev⟩ := Tx.bind_eq_ok.mp h
  obtain ⟨hwritten, hfree, htakes⟩ := writeChunksFrom_eq_ok hs hloop
  have hup := setChunkedRev_eq_ok hrev
  simp only [Nat.zero_add] at hfree
  have hne : ∀ (i : Nat) (c : Text), (chunkRow (s.items.nextKey + i) cut.uidPrefix (0 + i) c).id ≠ cut.document :=
    fun i c heq => by
      have heq : s.items.nextKey + i = cut.document := heq
      omega
  refine ⟨⟨?_, fun r => ?_, fun src dst => ?_, ?_, ?_, hup.sound hwritten.sound⟩, hfree, htakes⟩
  · obtain ⟨r, hr, hid⟩ := hup.mem
    obtain hr | ⟨i, c, -, rfl⟩ := (hwritten.items r).mp hr
    · exact ⟨r, hr, hid⟩
    · exact absurd hid (hne i c)
  · rw [hup.items]
    constructor
    · rintro ⟨y, hy, rfl⟩
      obtain hy | ⟨i, c, hc, rfl⟩ := (hwritten.items y).mp hy
      · exact Or.inl ⟨y, hy, by rw [set_chunkedRev]⟩
      · exact Or.inr ⟨i, c, hc, by rw [if_neg (hne i c), Nat.zero_add]⟩
    · rintro (⟨x, hx, rfl⟩ | ⟨i, c, hc, rfl⟩)
      · exact ⟨x, (hwritten.items x).mpr (Or.inl hx), by rw [set_chunkedRev]⟩
      · exact ⟨_, (hwritten.items _).mpr (Or.inr ⟨i, c, hc, rfl⟩), by rw [if_neg (hne i c), Nat.zero_add]⟩
  · rw [derives_congr hup.edges, hwritten.derives]
  · exact hup.vectors.trans hwritten.vectors
  · exact hup.sources.trans hwritten.sources

theorem exists_writeChunks (hs : Sound s) {cut : Cut} (hdoc : ∃ r ∈ s.items.rows, r.id = cut.document)
    (hfree : ∀ i < cut.chunks.length, ∀ r ∈ s.items.rows, r.uid ≠ chunkUid cut.uidPrefix i)
    (htakes : cut.chunks ≠ [] → TakesChunks cut.home) : ∃ s', writeChunks s cut = .ok s' := by
  have hroom : ∀ i < cut.chunks.length, ∀ r ∈ s.items.rows, r.uid ≠ chunkUid cut.uidPrefix (0 + i) := fun i hi => by
    rw [Nat.zero_add]
    exact hfree i hi
  obtain ⟨t, ht⟩ : ∃ t, writeChunksFrom s cut.home cut.document cut.uidPrefix 0 cut.chunks = .ok t :=
    exists_writeChunksFrom hs hdoc hroom htakes
  have hwritten := (writeChunksFrom_eq_ok hs ht).1
  obtain ⟨s', hs'⟩ := hwritten.sound.exists_setChunkedRev cut.rev
    (hdoc.imp fun r hr => ⟨(hwritten.items r).mpr (Or.inl hr.1), hr.2⟩)
  exact ⟨s', Tx.bind_eq_ok.mpr ⟨t, ht, hs'⟩⟩

end Written

/-! ## which namespaces take a capture -/

/-- Whether what a capture makes may be placed in the namespace that it names: its document, and its chunks if it has
any. -/
def Takes (space : Except Fmt Space) (chunks : List Text) : Prop :=
  ∃ home, space = .ok home ∧ home Index.KIND_DOCUMENT = .ok () ∧ (chunks ≠ [] → TakesChunks (some home))

/-- No type of this build takes documents. -/
theorem not_acceptsKind_document (t : Nstype.NamespaceType) : t.acceptsKind Index.KIND_DOCUMENT = false := by
  cases t <;> decide

/-- **A namespace takes captures if it can be made and no type governs it.** -/
theorem takes_spaceOf {x : Nstype.Typing} {tree : Ns.Store} {now path : Text} {chunks : List Text}
    (hn : Ns.Composition x.nfc) (hs : Ns.Agrees tree.rows) :
    Takes (spaceOf x tree now path) chunks ↔ ∃ tree' id p, Ns.ensure x.toOutside tree now path = .ok (tree', id) ∧
      Ns.normalize x.nfc path = .ok p ∧ Nstype.forNamespace x tree'.rows p = .ok none := by
  have hcheck : ∀ {tree' : Ns.Store} {id : Int}, Ns.ensure x.toOutside tree now path = .ok (tree', id) →
      ∃ p, Ns.normalize x.nfc path = .ok p ∧ ∀ kind, checkPlacement x tree'.rows id kind = (do
        match ← Nstype.forNamespace x tree'.rows p with
        | none => return ()
        | some (_, t) => if t.acceptsKind kind then return () else .error (Nstype.rejectKind p t kind)) := by
    intro tree' id hmade
    obtain ⟨p, hp, -, ⟨g, r, hr, rfl, rfl, -⟩, -⟩ := Ns.ensure_eq_ok hn hmade hs
    have hfind : tree'.rows.find? (·.id = r.id) = some r := Table.find?_of_mem (t := tree'.namespaces.toTable) hr
    exact ⟨r.path, hp, fun kind => by rw [checkPlacement, hfind]⟩
  constructor
  · rintro ⟨home, hspace, hdocument, -⟩
    obtain ⟨⟨tree', id⟩, hmade, hhome⟩ := Tx.bind_eq_ok.mp hspace
    cases hhome
    obtain ⟨p, hp, hkind⟩ := hcheck hmade
    refine ⟨tree', id, p, hmade, hp, ?_⟩
    rw [hkind] at hdocument
    obtain ⟨governs, hgoverns, hdocument⟩ := Tx.bind_eq_ok.mp hdocument
    cases governs with
    | none => exact hgoverns
    | some found =>
        simp only [not_acceptsKind_document] at hdocument
        cases hdocument
  · rintro ⟨tree', id, p, hmade, hp, hnone⟩
    obtain ⟨p', hp', hkind⟩ := hcheck hmade
    cases hp.symm.trans hp'
    have htakes : ∀ kind, checkPlacement x tree'.rows id kind = .ok () := fun kind => by
      rw [hkind, hnone]
      rfl
    refine ⟨_, Tx.bind_eq_ok.mpr ⟨_, hmade, rfl⟩, htakes _, fun _ space hspace => ?_⟩
    cases hspace
    exact htakes _

/-- Texts that are composed as they are, and metadata that are a mark and the name of a type, if they name one. -/
def named : Nstype.Typing where
  nfc := id
  typed m := ['@'] <+: m
  setType _ t := '@' :: t
  typeOf m := if ['@'] <+: m then some m.tail else none

/-- The namespaces of a database with nothing in it. -/
def bare : Ns.Store where
  namespaces :=
    { rows := []
      nodup := by decide
      last := 0
      le_last := by decide
      unique := by decide
      linked := by decide }
  placements := []
  mounts := []
  log := []

/-- What is captured into `tasks` is refused, since the namespace gets its type when it is made; into `docs` it goes. -/
theorem takes_spaceOf_bare :
    ¬ Takes (spaceOf named bare [] "tasks".toList) [] ∧ Takes (spaceOf named bare [] "docs".toList) ["a".toList] := by
  have hn : Ns.Composition named.nfc := ⟨fun _ => id, fun _ => id, fun _ => rfl⟩
  have hs : Ns.Agrees bare.rows := by decide
  refine ⟨fun h => ?_, (takes_spaceOf hn hs).mpr ⟨_, _, _, rfl, rfl, by decide +kernel⟩⟩
  obtain ⟨tree', id, p, hmade, hp, hnone⟩ := (takes_spaceOf hn hs).mp h
  cases hmade
  cases hp
  exact absurd hnone (by decide)

end Jkb.Ingest
