import Jkb.Index.Fresh
import Jkb.Ingest.Recovery
import Jkb.Slices

/-!
# Jkb.Ingest.IndexPass

The index pass: it cuts again the documents whose text changed, embeds what is pending from its own text, and then
brings each pending document's vector up to date from its chunks'. What is pending is never marked: it is read off
the vectors, what is known of where they are from, and the order in which they were written.

`Settled` is what a pass leaves: `exists_indexPending` says so of any store, and `Settled.indexPending_eq` that another
pass writes nothing. `index_run` is about every state that ingest and its neighbours can leave.
-/

namespace Jkb.Ingest

open Jkb.Text Jkb.Item Jkb.Run
open Jkb.Index (KIND_DOCUMENT pendingPredicate Pending pendingOf Embedded storeVectors upsertVector removeVector
  vectorsFor nextSeq)

/-! ## the embedder -/

/-- An embedder: whether it answers, and the vector of a text, which is the same whenever it is asked. Its vectors are
of one length, that of the table they are stored in; their mean is taken of floats. -/
structure Embedder (V : Type) where
  healthCheck : Except Fmt Unit
  embed : Text → Except Fmt V
  mean : List V → V
  length : V → Nat
  dim : Nat
  dim_pos : 0 < dim
  length_eq : ∀ v, length v = dim

/-- The mean of some vectors, or none if there are none, or they disagree on length, or there are too many. -/
def Embedder.centroid {V : Type} (E : Embedder V) : List V → Option V
  | [] => none
  | first :: vs =>
      let dim := E.length first
      if dim = 0 ∨ (first :: vs).any (E.length · ≠ dim) then none
      else if 2 ^ 32 ≤ (first :: vs).length then none
      else some (E.mean (first :: vs))

/-- Whether an error of the embedder is counted, or fails the call. -/
inductive Failures where
  | count | propagate
deriving DecidableEq

structure IndexReport where
  embedded : Nat := 0
  derived : Nat := 0
  failed : Nat := 0
  firstError : Option Fmt := none

def IndexReport.total (r : IndexReport) : Nat := r.embedded + r.derived

def IndexReport.noteFailure (r : IndexReport) (message : Fmt) : IndexReport :=
  { r with failed := r.failed + 1, firstError := r.firstError.or (some message) }

def EMBED_BATCH : Nat := 256

/-- Whether a text has nothing to embed. -/
def isBlank (text : Text) : Bool := trim text = []

/-! ## what is pending -/

section Pending

variable {V : Type} (s : Store V)

/-- The second half of `document_rule`: whether a chunk's vector was written after the document's own. -/
def outdated (document : Int) : Bool :=
  (chunkIdsOf s document).any fun id =>
    match s.sources.find? id, s.sources.find? document with
    | some cs, some ds => ds.seq < cs.seq
    | _, _ => false

/-- Whether a document must be re-derived, whatever its own vector was computed from. -/
def documentRule (r : ItemRow) : Bool := needsRechunk s r || outdated s r.id

/-- Whether an item is listed. -/
def listed (r : ItemRow) : Bool :=
  pendingPredicate s r || (r.kind = KIND_DOCUMENT && r.content.isSome && documentRule s r)

/-- Every row that may be waiting, and whether it is to be cut again. -/
def pendingRows : List (Pending × Bool) :=
  (s.items.rows.filter (listed s)).filterMap fun r => (pendingOf r).map fun p => (p, needsRechunk s r)

/-- The items that wait for the embedder. -/
def pendingItems : List Pending :=
  ((pendingRows s).filter fun (p, rechunk) => !isBlank p.content || rechunk).map (·.1)

/-- Delete the vectors of items whose text is blank now. -/
def dropBlankVectors : Store V × Nat :=
  let blank := ((pendingRows s).filter fun (p, rechunk) => isBlank p.content && !rechunk).map (·.1.id)
  let held := vectorsFor s blank
  ((held.map (·.itemId)).foldl removeVector s, held.length)

def unembeddedCount : Nat := (pendingItems s).length

end Pending

/-! ## embedding -/

section Embedding

variable {V : Type} (E : Embedder V) (lib : Hasher) (chunking : ChunkConfig)

/-- Embed each of some items from its own text. -/
def embedEach (failures : Failures) : List Pending → IndexReport → Except Fmt (List (Embedded V) × IndexReport)
  | [], report => .ok ([], report)
  | p :: items, report =>
      match E.embed p.content with
      | .ok v => (embedEach failures items report).map fun (es, report) => ((p.id, p.rev, v) :: es, report)
      | .error e =>
          match failures with
          | .count => embedEach failures items (report.noteFailure e)
          | .propagate => .error e

/-- Embed one batch, and write it. -/
def embedBatch (failures : Failures) (acc : Store V × IndexReport) (batch : List Pending) :
    Except Fmt (Store V × IndexReport) := do
  let (embeddings, report) ← embedEach E failures batch acc.2
  let (s, landed) := storeVectors acc.1 embeddings
  return (s, { report with embedded := report.embedded + landed })

/-- Embed some items in committed batches. -/
def embedBatches (failures : Failures) (items : List Pending) (acc : Store V × IndexReport) :
    Except Fmt (Store V × IndexReport) :=
  (Slices.chunks EMBED_BATCH items).foldlM (embedBatch E failures) acc

/-- The rows of a document's chunks. -/
def chunkRowsOf (s : Store V) (document : Int) : List ItemRow := (chunkIdsOf s document).filterMap s.item?

/-- A document's chunks that are pending, minus blank ones. -/
def staleChunks (s : Store V) (document : Int) : List Pending :=
  ((((chunkRowsOf s document).filter (pendingPredicate s)).mergeSort fun a b => a.id ≤ b.id).filterMap pendingOf).filter
    fun p => !isBlank p.content

/-- What is to be written for a document. -/
inductive Derivation (V : Type) where
  | current
  | wait
  | centroid (rev : Int) (vectors : List V)
  | ownText (rev : Int) (text : Text)

/-- A document's chunks that are not blank. -/
def textChunks (s : Store V) (document : Int) : List ItemRow :=
  (chunkRowsOf s document).filter fun c => c.content.any fun text => !isBlank text

/-- Decide a document's vector. -/
def derivation (s : Store V) (document : Int) : Derivation V :=
  match s.item? document with
  | none => .current
  | some r =>
      match r.content, pendingPredicate s r || documentRule s r with
      | some text, true =>
          if needsRechunk s r then .wait
          else
            match textChunks s document with
            | [] => if isBlank text then .current else .ownText r.contentRev text
            | c :: cs =>
                let current := (c :: cs).filter fun c => !pendingPredicate s c
                match (vectorsFor s (current.map (·.id))).map (·.embedding) with
                | [] => .wait
                | v :: vs => .centroid r.contentRev (v :: vs)
      | _, _ => .current

/-- Write what is to be written for a document. -/
def writeDerivation (failures : Failures) (s : Store V) (report : IndexReport) (document : Int) :
    Derivation V → Except Fmt (Store V × IndexReport)
  -- Nothing to write, or an edit raced this run and the document is cut again next time.
  | .current | .wait => .ok (s, report)
  | .centroid rev vectors =>
      match E.centroid vectors with
      | none => .ok (s, report)
      | some c =>
          let (s, landed) := storeVectors s [(document, rev, c)]
          .ok (s, { report with derived := report.derived + landed })
  | .ownText rev text => do
      let (embeddings, report) ← embedEach E failures [⟨document, text, KIND_DOCUMENT, rev⟩] report
      let (s, landed) := storeVectors s embeddings
      return (s, { report with embedded := report.embedded + landed })

/-- Bring a document's vector up to date. -/
def embedDocument (failures : Failures) (acc : Store V × IndexReport) (document : Int) :
    Except Fmt (Store V × IndexReport) := do
  let (s, _) ← rechunkIfStale acc.1 lib chunking document
  let (s, report) ← embedBatches E failures (staleChunks s document) (s, acc.2)
  writeDerivation E failures s report document (derivation s document)

/-- Cut again every listed document that needs it. -/
def recutAll (s : Store V) : Except Fmt (Store V) :=
  ((pendingRows s).filter (·.2)).foldlM (fun s r => (rechunkIfStale s lib chunking r.1.id).map (·.1)) s

/-- `index_pending`: embed every item whose vector is missing or out of date, and re-derive every document whose chunks
changed. -/
def indexPending (s : Store V) : Except Fmt (Store V × IndexReport) := do
  if (pendingRows s).all fun (p, rechunk) => isBlank p.content && !rechunk then
    return ((dropBlankVectors s).1, {})
  let _ ← E.healthCheck
  let s ← recutAll lib chunking s
  let direct := (pendingItems s).filter (·.kind ≠ KIND_DOCUMENT)
  let (s, report) ← embedBatches E .count direct (s, {})
  let documents := ((pendingItems s).filter (·.kind = KIND_DOCUMENT)).map (·.id)
  let (s, report) ← documents.foldlM (embedDocument E lib chunking .count) (s, report)
  return ((dropBlankVectors s).1, report)

end Embedding

/-! ## storing vectors -/

section Storing

variable {V : Type} {s s' : Store V} {i r : ItemRow}

/-- What the pass reads beside the vectors: the items and the edges are the same. -/
structure SameItems (s s' : Store V) : Prop where
  items : s'.items = s.items
  edges : s'.edges = s.edges

/-- A store that nothing is written to has the same items. -/
theorem SameItems.refl (s : Store V) : SameItems s s := ⟨rfl, rfl⟩

/-- Two writes that leave the items leave them one after the other. -/
theorem SameItems.trans {t : Store V} (h : SameItems s t) (h' : SameItems t s') : SameItems s s' :=
  ⟨h'.items.trans h.items, h'.edges.trans h.edges⟩

/-- The chunks of a document are read of the items and the edges. -/
theorem SameItems.chunkIdsOf_eq (h : SameItems s s') (document : Int) :
    chunkIdsOf s' document = chunkIdsOf s document := by
  unfold chunkIdsOf Store.item?
  rw [h.items, h.edges]

/-- So is whether it must be cut again. -/
theorem SameItems.needsRechunk_eq (h : SameItems s s') (r : ItemRow) : needsRechunk s' r = needsRechunk s r := by
  unfold needsRechunk
  rw [h.chunkIdsOf_eq]

/-- A vector that is written leaves the items. -/
theorem sameItems_upsertVector (s : Store V) (id rev : Int) (embedding : V) :
    SameItems s (upsertVector s id rev embedding).1 := by
  obtain ⟨hitems, hedges, -⟩ := Index.upsertVector_frame s id rev embedding
  exact ⟨hitems, hedges⟩

/-- So do many. -/
theorem sameItems_storeVectors (s : Store V) (es : List (Embedded V)) : SameItems s (storeVectors s es).1 := by
  obtain ⟨hitems, hedges, -⟩ := Index.storeVectors_frame s es
  exact ⟨hitems, hedges⟩

/-- Whether a vector is of a row as it is now. -/
def Hits (id rev : Int) (r : ItemRow) : Prop := r.id = id ∧ r.contentRev = rev

instance (id rev : Int) (r : ItemRow) : Decidable (Hits id rev r) := inferInstanceAs (Decidable (_ ∧ _))

/-- A vector that is of no row as it is now is not stored. -/
theorem upsertVector_of_not_hits {id rev : Int} (h : ∀ r ∈ s.items.rows, ¬ Hits id rev r) (embedding : V) :
    upsertVector s id rev embedding = (s, false) := by
  unfold upsertVector
  cases hi : s.item? id with
  | none => rfl
  | some r =>
      obtain ⟨hr, hid⟩ := item?_eq_some.mp hi
      exact if_neg fun hrev => h r hr ⟨hid, hrev⟩

/-- A vector that is of a row as it is now is stored. -/
theorem upsertVector_of_hits {id rev : Int} (hr : r ∈ s.items.rows) (h : Hits id rev r) (embedding : V) :
    (upsertVector s id rev embedding).2 = true ∧
      (∀ v, v ∈ (upsertVector s id rev embedding).1.vectors.rows ↔
        v ∈ s.vectors.rows ∧ v.itemId ≠ id ∨ v = ⟨id, embedding⟩) ∧
      ∀ k, (upsertVector s id rev embedding).1.sources.find? k =
        if k = id then some ⟨id, rev, nextSeq s⟩ else s.sources.find? k := by
  have hlands : (upsertVector s id rev embedding).2 = true := by
    unfold upsertVector
    rw [item?_eq_some.mpr ⟨hr, h.1⟩]
    exact congrArg Prod.snd (if_pos h.2)
  obtain ⟨-, -, -, -, hvectors, hsources⟩ := Index.upsertVector_eq_true (Prod.ext rfl hlands)
  refine ⟨hlands, hvectors, fun k => ?_⟩
  by_cases hk : k = id
  · subst hk
    rw [if_pos rfl]
    exact Table.find?_eq_some.mpr ⟨(hsources _).mpr (Or.inr rfl), rfl⟩
  · rw [if_neg hk]
    cases hfind : s.sources.find? k with
    | none =>
        refine Table.find?_eq_none.mpr fun x hx => ?_
        obtain ⟨hx, -⟩ | rfl := (hsources x).mp hx
        · exact Table.find?_eq_none.mp hfind x hx
        · exact Ne.symm hk
    | some x =>
        obtain ⟨hx, rfl⟩ := Table.find?_eq_some.mp hfind
        exact Table.find?_eq_some.mpr ⟨(hsources x).mpr (Or.inl ⟨hx, hk⟩), rfl⟩

/-- What the pending rule asks of a row. -/
theorem pendingPredicate_eq_false : pendingPredicate s r = false ↔
    r.content = none ∨ (∃ v ∈ s.vectors.rows, v.itemId = r.id) ∧
      ∃ x, s.sources.find? r.id = some x ∧ x.contentRev = r.contentRev := by
  simp only [pendingPredicate, Bool.and_eq_false_iff, Option.isSome_eq_false_iff, Option.isNone_iff_eq_none,
    Bool.or_eq_false_iff, Bool.not_eq_false', List.any_eq_true, decide_eq_true_eq, Bool.and_eq_true,
    Table.find?_eq_some, and_assoc]

/-- What is stored of a row as it is now takes it off the list, and puts nothing on it. -/
theorem pendingPredicate_upsertVector (hi : i ∈ s.items.rows) (id rev : Int) (embedding : V) :
    pendingPredicate (upsertVector s id rev embedding).1 i =
      (pendingPredicate s i && !decide (Hits id rev i)) := by
  by_cases hhits : ∃ r ∈ s.items.rows, Hits id rev r
  · obtain ⟨r, hr, hhit⟩ := hhits
    obtain ⟨-, hvectors, hsources⟩ := upsertVector_of_hits hr hhit embedding
    by_cases hid : i.id = id
    · have hihit : Hits id rev i := Table.eq_of_key_eq _ hr hi (hhit.1.trans hid.symm) ▸ hhit
      rw [decide_eq_true hihit, Bool.not_true, Bool.and_false]
      refine pendingPredicate_eq_false.mpr (Or.inr ⟨⟨_, (hvectors _).mpr (Or.inr rfl), hid.symm⟩,
        ⟨id, rev, nextSeq s⟩, ?_, hihit.2.symm⟩)
      rw [hsources, if_pos hid]
    · rw [decide_eq_false fun hihit : Hits id rev i => hid hihit.1, Bool.not_false, Bool.and_true, Bool.eq_iff_iff,
        ← not_iff_not, Bool.not_eq_true, Bool.not_eq_true, pendingPredicate_eq_false, pendingPredicate_eq_false,
        hsources, if_neg hid]
      refine or_congr_right (and_congr_left fun _ => exists_congr fun v => ?_)
      rw [hvectors]
      refine ⟨fun ⟨hv, hvid⟩ => ⟨(hv.resolve_right fun heq => hid ?_).1, hvid⟩,
        fun ⟨hv, hvid⟩ => ⟨Or.inl ⟨hv, ?_⟩, hvid⟩⟩
      · rw [← hvid, heq]
      · exact fun heq => hid (hvid.symm.trans heq)
  · rw [not_exists] at hhits
    simp only [not_and] at hhits
    rw [upsertVector_of_not_hits hhits, decide_eq_false (hhits i hi), Bool.not_false, Bool.and_true]

/-- Vectors are written one after another. -/
theorem storeVectors_cons (s : Store V) (e : Embedded V) (es : List (Embedded V)) :
    (storeVectors s (e :: es)).1 = (storeVectors (upsertVector s e.1 e.2.1 e.2.2).1 es).1 := by
  have hcount : ∀ (n m : Nat) (t : Store V), (es.foldl (fun acc e =>
      ((upsertVector acc.1 e.1 e.2.1 e.2.2).1, if (upsertVector acc.1 e.1 e.2.1 e.2.2).2 then acc.2 + 1 else acc.2))
        (t, n)).1 = (es.foldl (fun acc e =>
      ((upsertVector acc.1 e.1 e.2.1 e.2.2).1, if (upsertVector acc.1 e.1 e.2.1 e.2.2).2 then acc.2 + 1 else acc.2))
        (t, m)).1 := by
    induction es with
    | nil => exact fun _ _ _ => rfl
    | cons e es ih => exact fun n m t => ih _ _ _
  exact hcount _ _ _

/-- Two lists of vectors are written one after the other. -/
theorem storeVectors_append (s : Store V) (es es' : List (Embedded V)) :
    (storeVectors s (es ++ es')).1 = (storeVectors (storeVectors s es).1 es').1 := by
  induction es generalizing s with
  | nil => rfl
  | cons e es ih => rw [List.cons_append, storeVectors_cons, ih, storeVectors_cons]

/-- What is stored takes the rows that it is of off the list, and puts nothing on it. -/
theorem pendingPredicate_storeVectors (hi : i ∈ s.items.rows) (es : List (Embedded V)) :
    pendingPredicate (storeVectors s es).1 i = (pendingPredicate s i && !es.any fun e => Hits e.1 e.2.1 i) := by
  induction es generalizing s with
  | nil => simp [storeVectors]
  | cons e es ih =>
      rw [storeVectors_cons, ih ((sameItems_upsertVector s _ _ _).items ▸ hi), pendingPredicate_upsertVector hi,
        List.any_cons, Bool.not_or, Bool.and_assoc]

end Storing

/-! ## embedding in batches -/

section Batches

variable {V : Type} (E : Embedder V)

/-- The vector of an item's own text, if the embedder has one. -/
def embeddedOf (p : Pending) : Option (Embedded V) :=
  match E.embed p.content with
  | .ok v => some (p.id, p.rev, v)
  | .error _ => none

/-- A pass goes on past what is rejected. -/
theorem embedEach_count (items : List Pending) (report : IndexReport) :
    ∃ report', embedEach E .count items report = .ok (items.filterMap (embeddedOf E), report') ∧
      report'.embedded = report.embedded ∧ report'.derived = report.derived := by
  induction items generalizing report with
  | nil => exact ⟨report, rfl, rfl, rfl⟩
  | cons p items ih =>
      cases hp : E.embed p.content with
      | ok v =>
          obtain ⟨report', heq, hcounts⟩ := ih report
          refine ⟨report', ?_, hcounts⟩
          have hof : embeddedOf E p = some (p.id, p.rev, v) := by rw [embeddedOf, hp]
          rw [embedEach, hp, List.filterMap_cons, hof]
          dsimp only
          rw [heq]
          rfl
      | error e =>
          obtain ⟨report', heq, hembedded, hderived⟩ := ih (report.noteFailure e)
          refine ⟨report', ?_, hembedded, hderived⟩
          have hof : embeddedOf E p = none := by rw [embeddedOf, hp]
          rw [embedEach, hp, List.filterMap_cons, hof]
          exact heq

/-- What batches leave, and what they count: nothing where nothing is embedded. -/
theorem embedBatches_count (items : List Pending) (s : Store V) (report : IndexReport) :
    ∃ report', embedBatches E .count items (s, report) =
        .ok ((storeVectors s (items.filterMap (embeddedOf E))).1, report') ∧
      report'.derived = report.derived ∧
      (items.filterMap (embeddedOf E) = [] → report'.embedded = report.embedded) := by
  have hloop : ∀ (batches : List (List Pending)) (s : Store V) (report : IndexReport),
      ∃ report', batches.foldlM (embedBatch E .count) (s, report) =
          .ok ((storeVectors s (batches.flatten.filterMap (embeddedOf E))).1, report') ∧
        report'.derived = report.derived ∧
          (batches.flatten.filterMap (embeddedOf E) = [] → report'.embedded = report.embedded) := by
    intro batches
    induction batches with
    | nil => exact fun s report => ⟨report, rfl, rfl, fun _ => rfl⟩
    | cons batch batches ih =>
        intro s report
        obtain ⟨mid, hmid, hmid_embedded, hmid_derived⟩ := embedEach_count E batch report
        obtain ⟨report', hrest, hderived, hnone⟩ := ih (storeVectors s (batch.filterMap (embeddedOf E))).1
          { mid with embedded := mid.embedded + (storeVectors s (batch.filterMap (embeddedOf E))).2 }
        have hone : embedBatch E .count (s, report) batch =
            .ok ((storeVectors s (batch.filterMap (embeddedOf E))).1,
              { mid with embedded := mid.embedded + (storeVectors s (batch.filterMap (embeddedOf E))).2 }) := by
          unfold embedBatch
          rw [hmid]
          rfl
        refine ⟨report', ?_, hderived.trans hmid_derived, fun hempty => ?_⟩
        · rw [List.foldlM_cons, hone, List.flatten_cons, List.filterMap_append, storeVectors_append]
          exact hrest
        · rw [List.flatten_cons, List.filterMap_append, List.append_eq_nil_iff] at hempty
          rw [hnone hempty.2, hempty.1]
          exact hmid_embedded
  have hflat := Slices.flatten_chunks (n := EMBED_BATCH) (by decide) items
  have hall := hloop (Slices.chunks EMBED_BATCH items) s report
  rw [hflat] at hall
  exact hall

end Batches

/-! ## cutting again -/

section Recut

variable {V : Type} {s s' : Store V} {i r x : ItemRow}

/-- What must be cut again was cut at another revision, or has chunks of no known one and was edited. -/
theorem needsRechunk_eq_true : needsRechunk s r = true ↔
    (∃ rev, r.chunkedRev = some rev ∧ rev ≠ r.contentRev) ∨
      r.chunkedRev = none ∧ (∃ id, id ∈ chunkIdsOf s r.id) ∧ 0 ≠ r.contentRev := by
  unfold needsRechunk
  cases hrev : r.chunkedRev with
  | some rev => simp
  | none =>
      cases hids : chunkIdsOf s r.id with
      | nil => simp
      | cons id ids => simp

/-- What the pending rule reads. -/
theorem pendingPredicate_congr (hid : i.id = x.id) (hcontent : i.content = x.content)
    (hrev : i.contentRev = x.contentRev) (hvectors : ∀ v, v.itemId = x.id → (v ∈ s'.vectors.rows ↔ v ∈ s.vectors.rows))
    (hsources : ∀ v, v.itemId = x.id → (v ∈ s'.sources.rows ↔ v ∈ s.sources.rows)) :
    pendingPredicate s' i = pendingPredicate s x := by
  rw [Bool.eq_iff_iff, ← not_iff_not, Bool.not_eq_true, Bool.not_eq_true, pendingPredicate_eq_false,
    pendingPredicate_eq_false, hid, hcontent, hrev]
  refine or_congr_right (and_congr (exists_congr fun v => and_congr_left fun hv => hvectors v hv)
    (exists_congr fun v => and_congr_left fun _ => ?_))
  rw [Table.find?_eq_some, Table.find?_eq_some]
  exact and_congr_left fun hv => hsources v hv

/-- **What cutting a document again leaves of the others**: whoever needs it afterwards needed it before, and was as
pending as it is. -/
theorem needed_of_rechunk {lib : Hasher} {chunking : ChunkConfig} {document : Int} {done : Bool} (hs : Sound s)
    (h : rechunkIfStale s lib chunking document = .ok (s', done)) (hi : i ∈ s'.items.rows)
    (hneeds : needsRechunk s' i = true) :
    i ∈ s.items.rows ∧ i.id ≠ document ∧ needsRechunk s i = true ∧ pendingPredicate s' i = pendingPredicate s i := by
  obtain ⟨rfl, hnot⟩ | ⟨r, hr, rfl, -, t, hgone, hcut⟩ := rechunkIfStale_eq_ok hs h
  · refine ⟨hi, fun hid => ?_, hneeds, rfl⟩
    rw [hnot i hi hid] at hneeds
    cases hneeds
  obtain ⟨doc, hdoc, hdocid⟩ := hcut.document
  have hlt : r.id < t.items.nextKey := by
    have hlt := t.items.key_lt_nextKey hdoc
    rwa [hdocid] at hlt
  obtain ⟨x, hx, rfl⟩ | ⟨j, c, -, rfl⟩ := (hcut.items i).mp hi
  · obtain ⟨hxs, hxgone⟩ := (hgone.items x).mp hx
    by_cases hxid : x.id = r.id
    · exfalso
      obtain rfl := Table.eq_of_key_eq _ hxs hr hxid
      have hxid : x.id = (recut lib chunking x).document := rfl
      rw [if_pos hxid, needsRechunk_eq_true] at hneeds
      obtain ⟨rev, hrev, hne⟩ | ⟨hnone, -⟩ := hneeds
      · exact hne (Option.some.inj hrev).symm
      · cases hnone
    · have hxid' : x.id ≠ (recut lib chunking r).document := hxid
      rw [if_neg hxid'] at hneeds hi ⊢
      refine ⟨hxs, hxid, needsRechunk_eq_true.mpr ((needsRechunk_eq_true.mp hneeds).imp_right ?_), ?_⟩
      · rintro ⟨hnone, ⟨id, hid⟩, hrev⟩
        obtain ⟨hder, y, hy, hyid, hkind⟩ := mem_chunkIdsOf.mp hid
        have hder' : Derives t id x.id := ((hcut.derives id x.id).mp hder).resolve_right fun ⟨_, _, _, heq⟩ => hxid heq
        obtain ⟨⟨z, hz, hzid⟩, -⟩ := hder'.mem (hgone.sound hs)
        have hzkind : z.kind = KIND_CHUNK := by
          have hz' := (hcut.items _).mpr (Or.inl ⟨z, hz, rfl⟩)
          rw [← hkind, Table.eq_of_key_eq _ hy hz' (by rw [hyid, ← hzid]; split <;> rfl)]
          split <;> rfl
        refine ⟨hnone, ⟨id, mem_chunkIdsOf.mpr ⟨((derives_removed hgone _ _).mp hder').1, z, ((hgone.items z).mp hz).1,
          hzid, hzkind⟩⟩, hrev⟩
      · refine pendingPredicate_congr rfl rfl rfl (fun v hv => ?_) fun v hv => ?_
        · rw [hcut.vectors, hgone.vectors, hv]
          exact and_iff_left hxgone
        · rw [hcut.sources, hgone.sources, hv]
          exact and_iff_left hxgone
  · exfalso
    obtain ⟨rev, hrev, -⟩ | ⟨-, ⟨id, hid⟩, -⟩ := needsRechunk_eq_true.mp hneeds
    · cases hrev
    · obtain ⟨hder, -⟩ := mem_chunkIdsOf.mp hid
      obtain hder | ⟨_, _, _, heq⟩ := (hcut.derives _ _).mp hder
      · obtain ⟨-, d, hd, hdid⟩ := hder.mem (hgone.sound hs)
        have hdlt := t.items.key_lt_nextKey hd
        have hdid : d.id = t.items.nextKey + j := hdid
        omega
      · have heq : t.items.nextKey + (j : Int) = r.id := heq
        omega

/-- Nothing that is listed is to be cut again. -/
def Quiet (s : Store V) : Prop :=
  ∀ i ∈ s.items.rows, needsRechunk s i = true → i.content = none ∨ i.kind ≠ KIND_DOCUMENT ∧ pendingPredicate s i = false

/-- An item that needs a cut and is not listed. -/
theorem unlisted_cases (hneeds : needsRechunk s i = true) (h : listed s i = false) :
    i.content = none ∨ i.kind ≠ KIND_DOCUMENT ∧ pendingPredicate s i = false := by
  cases hc : i.content with
  | none => exact Or.inl rfl
  | some text =>
      simp only [listed, documentRule, hneeds, hc, Option.isSome_some, Bool.true_or, Bool.and_true,
        Bool.or_eq_false_iff, decide_eq_false_iff_not] at h
      exact Or.inr h.symm

/-- A row is pending if it is listed and has a text. -/
theorem mem_pendingRows {p : Pending} {rechunk : Bool} : (p, rechunk) ∈ pendingRows s ↔
    ∃ i ∈ s.items.rows, listed s i = true ∧ pendingOf i = some p ∧ needsRechunk s i = rechunk := by
  simp only [pendingRows, List.mem_filterMap, List.mem_filter, Option.map_eq_some_iff, Prod.mk.injEq, and_assoc]
  constructor
  · rintro ⟨i, hi, hlisted, q, hq, rfl, hre⟩
    exact ⟨i, hi, hlisted, hq, hre⟩
  · rintro ⟨i, hi, hlisted, hp, hre⟩
    exact ⟨i, hi, hlisted, p, hp, rfl, hre⟩

/-- Where no cut is stale, none is made. -/
theorem Quiet.rechunk_eq_false (hq : Quiet s) {p : Pending} {rechunk : Bool} (h : (p, rechunk) ∈ pendingRows s) :
    rechunk = false := by
  obtain ⟨i, hi, hlisted, hp, rfl⟩ := mem_pendingRows.mp h
  by_contra hneeds
  rw [Bool.not_eq_false] at hneeds
  obtain ⟨c, hc, -⟩ := Option.map_eq_some_iff.mp hp
  obtain hnone | ⟨hkind, hpend⟩ := hq i hi hneeds
  · rw [hc] at hnone
    cases hnone
  · simp [listed, hpend, hkind] at hlisted

/-- **After the cuts nothing that is listed needs one.** -/
theorem quiet_recutAll {lib : Hasher} {chunking : ChunkConfig} (hs : Sound s) (h : recutAll lib chunking s = .ok s') :
    Sound s' ∧ Quiet s' := by
  have hloop : ∀ (rows : List (Pending × Bool)) (t t' : Store V), Sound t →
      rows.foldlM (fun s r => (rechunkIfStale s lib chunking r.1.id).map (·.1)) t = .ok t' →
        Sound t' ∧ ∀ i ∈ t'.items.rows, needsRechunk t' i = true →
          i ∈ t.items.rows ∧ (∀ r ∈ rows, i.id ≠ r.1.id) ∧ needsRechunk t i = true ∧
            pendingPredicate t' i = pendingPredicate t i := by
    intro rows
    induction rows with
    | nil =>
        intro t t' ht hrows
        cases hrows
        exact ⟨ht, fun i hi hneeds => ⟨hi, fun _ hr => absurd hr List.not_mem_nil, hneeds, rfl⟩⟩
    | cons r rows ih =>
        intro t t' ht hrows
        rw [List.foldlM_cons] at hrows
        obtain ⟨mid, hmid, hrest⟩ := Tx.bind_eq_ok.mp hrows
        obtain ⟨⟨u, done⟩, hu, rfl⟩ := Tx.map_eq_ok.mp hmid
        have hus : Sound u := by
          obtain ⟨rfl, -⟩ | ⟨_, _, _, _, _, _, hcut⟩ := rechunkIfStale_eq_ok ht hu
          · exact ht
          · exact hcut.sound
        obtain ⟨ht', hkeep⟩ := ih u t' hus hrest
        refine ⟨ht', fun i hi hneeds => ?_⟩
        obtain ⟨hiu, hne, hneeds', hpend⟩ := hkeep i hi hneeds
        obtain ⟨hit, hid, hneeds'', hpend'⟩ := needed_of_rechunk ht hu hiu hneeds'
        refine ⟨hit, fun q hq => ?_, hneeds'', hpend.trans hpend'⟩
        obtain rfl | hq := List.mem_cons.mp hq
        · exact hid
        · exact hne q hq
  obtain ⟨hs', hkeep⟩ := hloop _ s s' hs h
  refine ⟨hs', fun i hi hneeds => ?_⟩
  obtain ⟨his, hnot, hneeded, hpend⟩ := hkeep i hi hneeds
  cases hc : i.content with
  | none => exact Or.inl rfl
  | some text =>
      have hunlisted : listed s i = false := by
        by_contra hlisted
        rw [Bool.not_eq_false] at hlisted
        have hp : pendingOf i = some ⟨i.id, text, i.kind, i.contentRev⟩ := by rw [pendingOf, hc]; rfl
        exact hnot _ (List.mem_filter.mpr ⟨mem_pendingRows.mpr ⟨i, his, hlisted, hp, rfl⟩, hneeded⟩) rfl
      rw [← hc, hpend]
      exact unlisted_cases hneeded hunlisted

end Recut

/-! ## what a pass settles -/

section Settled

variable {V : Type} {E : Embedder V} {lib : Hasher} {chunking : ChunkConfig} {s s' t : Store V} {i : ItemRow}
  {p : Pending}

/-- The embedder rejects a text. -/
def Rejects (E : Embedder V) (text : Text) : Prop := ∃ e, E.embed text = .error e

/-- Whatever a pass would embed for an item, the embedder rejects. -/
def Rejected (E : Embedder V) (s : Store V) (p : Pending) : Prop :=
  if p.kind = KIND_DOCUMENT ∧ textChunks s p.id ≠ [] then
    ∀ c ∈ textChunks s p.id, pendingPredicate s c = true ∧ ∀ text, c.content = some text → Rejects E text
  else Rejects E p.content

/-- **The invariant** of what a pass leaves: no document is to be cut again, what is pending is rejected, and what is
blank has no vector. -/
structure Settled (E : Embedder V) (s : Store V) : Prop where
  quiet : Quiet s
  rejected : ∀ p ∈ pendingItems s, Rejected E s p
  blank : ∀ i ∈ s.items.rows, listed s i = true → (∀ text, i.content = some text → isBlank text = true) →
    ∀ v ∈ s.vectors.rows, v.itemId ≠ i.id

/-- What is pending of an item is its text, at its revision. -/
theorem pendingOf_eq_some :
    pendingOf i = some p ↔ ∃ text, i.content = some text ∧ p = ⟨i.id, text, i.kind, i.contentRev⟩ := by
  unfold pendingOf
  rw [Option.map_eq_some_iff]
  exact exists_congr fun _ => and_congr_right fun _ => eq_comm

/-- Where no cut is stale, what is pending is what is listed and not blank. -/
theorem Quiet.mem_pendingItems (hq : Quiet s) : p ∈ pendingItems s ↔
    ∃ i ∈ s.items.rows, listed s i = true ∧ pendingOf i = some p ∧ isBlank p.content = false := by
  simp only [pendingItems, List.mem_map, List.mem_filter, Prod.exists, exists_and_right, exists_eq_right,
    Bool.or_eq_true, Bool.not_eq_true']
  constructor
  · rintro ⟨rechunk, hmem, hor⟩
    obtain rfl := hq.rechunk_eq_false hmem
    obtain ⟨i, hi, hlisted, hp, -⟩ := mem_pendingRows.mp hmem
    exact ⟨i, hi, hlisted, hp, hor.resolve_right (by decide)⟩
  · rintro ⟨i, hi, hlisted, hp, hblank⟩
    exact ⟨needsRechunk s i, mem_pendingRows.mpr ⟨i, hi, hlisted, hp, rfl⟩, Or.inl hblank⟩

/-- A document with a content is as it was cut. -/
theorem Quiet.needsRechunk_eq_false (hq : Quiet s) (hi : i ∈ s.items.rows) (hkind : i.kind = KIND_DOCUMENT)
    {text : Text} (hc : i.content = some text) : needsRechunk s i = false := by
  by_contra hneeds
  obtain hnone | ⟨hnot, -⟩ := hq i hi (Bool.eq_true_of_not_eq_false hneeds)
  · rw [hc] at hnone
    cases hnone
  · exact hnot hkind

/-- The rows of a document's chunks. -/
theorem mem_chunkRowsOf {document : Int} {c : ItemRow} : c ∈ chunkRowsOf s document ↔
    c ∈ s.items.rows ∧ c.kind = KIND_CHUNK ∧ Derives s c.id document := by
  simp only [chunkRowsOf, List.mem_filterMap, mem_chunkIdsOf, item?_eq_some]
  constructor
  · rintro ⟨id, ⟨hder, r, hr, hrid, hkind⟩, hc, rfl⟩
    obtain rfl := Table.eq_of_key_eq _ hr hc hrid
    exact ⟨hr, hkind, hder⟩
  · rintro ⟨hc, hkind, hder⟩
    exact ⟨c.id, ⟨hder, c, hc, rfl, hkind⟩, hc, rfl⟩

/-- The chunks with a text that can be embedded. -/
theorem mem_textChunks {document : Int} {c : ItemRow} : c ∈ textChunks s document ↔
    c ∈ chunkRowsOf s document ∧ ∃ text, c.content = some text ∧ isBlank text = false := by
  simp only [textChunks, List.mem_filter, Option.any_eq_true, Bool.not_eq_true']

/-- No chunk is a document. -/
theorem chunk_ne_document {c : ItemRow} (h : c.kind = KIND_CHUNK) : c.kind ≠ KIND_DOCUMENT := by
  rw [h]
  decide

/-- The chunks with a text are read of the items and the edges. -/
theorem SameItems.textChunks_eq (h : SameItems s s') (document : Int) :
    textChunks s' document = textChunks s document := by
  unfold textChunks chunkRowsOf Store.item?
  rw [h.chunkIdsOf_eq, h.items]

/-- Only the chunks of a document count, and its own text. -/
theorem SameItems.rejected_iff (h : SameItems s s')
    (hpend : ∀ c ∈ textChunks s p.id, pendingPredicate s' c = pendingPredicate s c) :
    Rejected E s' p ↔ Rejected E s p := by
  unfold Rejected
  rw [h.textChunks_eq]
  split
  · exact forall₂_congr fun c hc => by rw [hpend c hc]
  · exact Iff.rfl

/-- Storing vectors asks for no new cut. -/
theorem Quiet.storeVectors (hq : Quiet s) (es : List (Embedded V)) : Quiet (storeVectors s es).1 := by
  intro i hi hneeds
  have hsame := sameItems_storeVectors s es
  rw [hsame.items] at hi
  rw [hsame.needsRechunk_eq] at hneeds
  obtain hnone | ⟨hkind, hpend⟩ := hq i hi hneeds
  · exact Or.inl hnone
  · refine Or.inr ⟨hkind, ?_⟩
    rw [pendingPredicate_storeVectors hi, hpend, Bool.false_and]

/-- A cut of what needs none does nothing. -/
theorem rechunkIfStale_of_not (hi : i ∈ s.items.rows) (h : needsRechunk s i = false) :
    rechunkIfStale s lib chunking i.id = .ok (s, false) := by
  unfold rechunkIfStale
  rw [item?_eq_some.mpr ⟨hi, rfl⟩]
  dsimp only
  rw [h]
  rfl

/-! ### the items' own texts -/

/-- What is pending of the items that are not documents is rejected. -/
def TextSettled (E : Embedder V) (s : Store V) : Prop :=
  ∀ i ∈ s.items.rows, i.kind ≠ KIND_DOCUMENT → pendingPredicate s i = true → ∀ text, i.content = some text →
    isBlank text = false → Rejects E text

/-- Where everything is rejected nothing is embedded. -/
theorem filterMap_embeddedOf_eq_nil {ps : List Pending} (h : ∀ p ∈ ps, Rejects E p.content) :
    ps.filterMap (embeddedOf E) = [] := by
  refine List.filterMap_eq_nil_iff.mpr fun p hp => ?_
  obtain ⟨e, he⟩ := h p hp
  rw [embeddedOf, he]

/-- **The direct pass**: what it leaves pending is rejected. -/
theorem Quiet.textSettled (hq : Quiet s) :
    TextSettled E (Index.storeVectors s
      (((pendingItems s).filter (·.kind ≠ KIND_DOCUMENT)).filterMap (embeddedOf E))).1 := by
  intro i hi hkind hpend text hc hblank
  rw [(sameItems_storeVectors s _).items] at hi
  rw [pendingPredicate_storeVectors hi, Bool.and_eq_true, Bool.not_eq_true', List.any_eq_false] at hpend
  obtain ⟨hpend, hmiss⟩ := hpend
  cases he : E.embed text with
  | error e => exact ⟨e, he⟩
  | ok v =>
      exfalso
      have hmem : (⟨i.id, text, i.kind, i.contentRev⟩ : Pending) ∈ (pendingItems s).filter (·.kind ≠ KIND_DOCUMENT) :=
        List.mem_filter.mpr ⟨hq.mem_pendingItems.mpr ⟨i, hi, by simp [listed, hpend],
          pendingOf_eq_some.mpr ⟨text, hc, rfl⟩, hblank⟩, by simpa using hkind⟩
      refine hmiss (i.id, i.contentRev, v) (List.mem_filterMap.mpr ⟨_, hmem, ?_⟩) (decide_eq_true ⟨rfl, rfl⟩)
      rw [embeddedOf, he]

/-- Where what was pending stays pending, what was settled stays settled. -/
theorem TextSettled.congr (ht : TextSettled E s) (hsame : SameItems s s')
    (hpend : ∀ i ∈ s.items.rows, i.kind ≠ KIND_DOCUMENT → pendingPredicate s' i = pendingPredicate s i) :
    TextSettled E s' := fun i hi hkind hp text hc hblank => by
  rw [hsame.items] at hi
  rw [hpend i hi hkind] at hp
  exact ht i hi hkind hp text hc hblank

/-- A document's pending chunks are rejected again. -/
theorem TextSettled.staleChunks (ht : TextSettled E s) (document : Int) :
    (staleChunks s document).filterMap (embeddedOf E) = [] := by
  refine filterMap_embeddedOf_eq_nil fun p hp => ?_
  simp only [Ingest.staleChunks, List.mem_filter, List.mem_filterMap, List.mem_mergeSort, Bool.not_eq_true'] at hp
  obtain ⟨⟨c, ⟨hc, hpend⟩, hof⟩, hblank⟩ := hp
  obtain ⟨hcs, hkind, -⟩ := mem_chunkRowsOf.mp hc
  obtain ⟨text, htext, rfl⟩ := pendingOf_eq_some.mp hof
  exact ht c hcs (chunk_ne_document hkind) hpend text htext hblank

/-! ### documents -/

/-- The next number of a source row is new. -/
theorem lt_nextSeq {x : SourceRow} (hx : x ∈ s.sources.rows) : x.seq < nextSeq s := by
  unfold nextSeq
  have hmem : x.seq ∈ s.sources.rows.map (·.seq) := List.mem_map_of_mem hx
  cases hmax : (s.sources.rows.map (·.seq)).max? with
  | none =>
      rw [List.max?_eq_none_iff.mp hmax] at hmem
      exact (List.not_mem_nil hmem).elim
  | some m =>
      have hle := (List.max?_eq_some_iff.mp hmax).2 _ hmem
      simp only [Option.getD_some]
      omega

/-- A document whose vector is written is the last that was. -/
theorem outdated_upsertVector (hi : i ∈ s.items.rows) (hkind : i.kind = KIND_DOCUMENT) (v : V) (document : Int) :
    outdated (upsertVector s i.id i.contentRev v).1 document = (outdated s document && decide (document ≠ i.id)) := by
  obtain ⟨-, -, hsources⟩ := upsertVector_of_hits hi ⟨rfl, rfl⟩ v
  have hchunk : ∀ id ∈ chunkIdsOf s document, id ≠ i.id := by
    rintro id hid rfl
    obtain ⟨-, c, hc, hcid, hckind⟩ := mem_chunkIdsOf.mp hid
    obtain rfl := Table.eq_of_key_eq _ hc hi hcid
    exact chunk_ne_document hckind hkind
  unfold outdated
  rw [(sameItems_upsertVector s _ _ _).chunkIdsOf_eq]
  by_cases hd : document = i.id
  · subst hd
    rw [decide_eq_false (not_not.mpr rfl), Bool.and_false, List.any_eq_false]
    intro id hid
    rw [hsources, hsources, if_pos rfl, if_neg (hchunk id hid)]
    cases hfind : s.sources.find? id with
    | none => exact Bool.false_ne_true
    | some x =>
        have hlt := lt_nextSeq (Table.mem_of_find? hfind)
        simp only [decide_eq_true_eq, not_lt]
        exact hlt.le
  · rw [decide_eq_true hd, Bool.and_true, Bool.eq_iff_iff, List.any_eq_true, List.any_eq_true]
    refine exists_congr fun id => and_congr_right fun hid => ?_
    rw [hsources, hsources, if_neg hd, if_neg (hchunk id hid)]

/-- A document whose vector is written is not listed any more, and no other item is that was not. -/
theorem listed_upsertVector (hq : Quiet s) (hi : i ∈ s.items.rows) (hkind : i.kind = KIND_DOCUMENT) {text : Text}
    (hc : i.content = some text) (v : V) {j : ItemRow} (hj : j ∈ s.items.rows)
    (h : listed (upsertVector s i.id i.contentRev v).1 j = true) : listed s j = true ∧ j ≠ i := by
  have hsame := sameItems_upsertVector s i.id i.contentRev v
  simp only [listed, documentRule, hsame.needsRechunk_eq, outdated_upsertVector hi hkind,
    pendingPredicate_upsertVector hj, Bool.or_eq_true, Bool.and_eq_true, decide_eq_true_eq, Bool.not_eq_true',
    decide_eq_false_iff_not] at h ⊢
  refine ⟨h.imp And.left (And.imp_right (Or.imp_right And.left)), ?_⟩
  rintro rfl
  obtain ⟨-, hmiss⟩ | ⟨-, hneeds | ⟨-, hne⟩⟩ := h
  · exact hmiss ⟨rfl, rfl⟩
  · rw [hq.needsRechunk_eq_false hj hkind hc] at hneeds
    cases hneeds
  · exact hne rfl

/-- What is decided for a document that is as it was cut. -/
theorem derivation_of_row (hi : i ∈ s.items.rows) {text : Text} (hc : i.content = some text)
    (hnot : needsRechunk s i = false) : derivation s i.id =
      if pendingPredicate s i || outdated s i.id then
        match textChunks s i.id with
        | [] => if isBlank text then .current else .ownText i.contentRev text
        | c :: cs =>
            match (vectorsFor s (((c :: cs).filter fun c => !pendingPredicate s c).map (·.id))).map (·.embedding) with
            | [] => .wait
            | v :: vs => .centroid i.contentRev (v :: vs)
      else .current := by
  unfold derivation documentRule
  rw [item?_eq_some.mpr ⟨hi, rfl⟩]
  dsimp only
  rw [hc, hnot, Bool.false_or]
  cases pendingPredicate s i || outdated s i.id <;> rfl

/-- A document that the embedder answers gets a vector. -/
theorem filterMap_embeddedOf_of_ok {document rev : Int} {text : Text} {v : V} (h : E.embed text = .ok v) :
    [(⟨document, text, KIND_DOCUMENT, rev⟩ : Pending)].filterMap (embeddedOf E) = [(document, rev, v)] := by
  have hof : embeddedOf E ⟨document, text, KIND_DOCUMENT, rev⟩ = some (document, rev, v) := by rw [embeddedOf, h]
  rw [List.filterMap_cons, hof]
  rfl

/-- A document that is embedded from its own text. -/
theorem writeDerivation_ownText (E : Embedder V) (s : Store V) (report : IndexReport) (document rev : Int)
    (text : Text) :
    ∃ report', writeDerivation E .count s report document (.ownText rev text) =
        .ok ((storeVectors s ([⟨document, text, KIND_DOCUMENT, rev⟩].filterMap (embeddedOf E))).1, report') ∧
      ([(⟨document, text, KIND_DOCUMENT, rev⟩ : Pending)].filterMap (embeddedOf E) = [] →
        report'.total = report.total) := by
  obtain ⟨mid, hmid, hembedded, hderived⟩ := embedEach_count E [⟨document, text, KIND_DOCUMENT, rev⟩] report
  refine ⟨{ mid with embedded := mid.embedded + (storeVectors s
    ([⟨document, text, KIND_DOCUMENT, rev⟩].filterMap (embeddedOf E))).2 }, ?_, fun hnil => ?_⟩
  · unfold writeDerivation
    dsimp only
    rw [hmid]
    rfl
  · rw [hnil]
    simp [IndexReport.total, hembedded, hderived, storeVectors]

/-- There are fewer items than a mean can be taken of. -/
def Few (s : Store V) : Prop := s.items.rows.length < 2 ^ 32

/-- A mean can be taken of some vectors of a table. -/
theorem Embedder.exists_centroid (E : Embedder V) {v : V} {vs : List V} (hlt : (v :: vs).length < 2 ^ 32) :
    ∃ m, E.centroid (v :: vs) = some m := by
  have hlength : ¬ (E.length v = 0 ∨ (v :: vs).any (E.length · ≠ E.length v)) := by
    simp [E.length_eq, E.dim_pos.ne']
  refine ⟨E.mean (v :: vs), ?_⟩
  rw [centroid, if_neg hlength, if_neg (not_le.mpr hlt)]

/-- There is one vector of an item at most. -/
theorem length_vectorsFor {ids : List Int} (hids : ∀ id ∈ ids, ∃ r ∈ s.items.rows, r.id = id) :
    (vectorsFor s ids).length ≤ s.items.rows.length := by
  have hnodup : ((vectorsFor s ids).map (·.itemId)).Nodup := s.vectors.nodup.sublist (List.filter_sublist.map _)
  have hsub : (vectorsFor s ids).map (·.itemId) ⊆ s.items.rows.map (·.id) := by
    intro id hid
    obtain ⟨v, hv, rfl⟩ := List.mem_map.mp hid
    obtain ⟨r, hr, hrid⟩ := hids _ (of_decide_eq_true (List.mem_filter.mp hv).2)
    exact hrid ▸ List.mem_map_of_mem hr
  simpa using (List.subperm_of_subset hnodup hsub).length_le

/-- **What bringing a document up to date does** where nothing is to be cut and what is pending of the texts is
rejected: nothing, and then its vector is up to date or what it would be from is rejected; or its vector is written. -/
theorem embedDocument_cases (lib : Hasher) (chunking : ChunkConfig)
    (hfew : Few s) (hq : Quiet s) (ht : TextSettled E s) (hi : i ∈ s.items.rows)
    (hkind : i.kind = KIND_DOCUMENT) {text : Text} (hc : i.content = some text)
    (report : IndexReport) :
    ∃ s' report', embedDocument E lib chunking .count (s, report) i.id = .ok (s', report') ∧
      (s' = s ∧ report'.total = report.total ∧
          (listed s i = true → isBlank text = false → Rejected E s ⟨i.id, text, i.kind, i.contentRev⟩) ∨
        ¬ Rejected E s ⟨i.id, text, i.kind, i.contentRev⟩ ∧ ∃ v, s' = (upsertVector s i.id i.contentRev v).1) := by
  have hnot := hq.needsRechunk_eq_false hi hkind hc
  obtain ⟨mid, hmid, hderived, hembedded⟩ := embedBatches_count E (staleChunks s i.id) s report
  rw [ht.staleChunks] at hmid hembedded
  have htotal : mid.total = report.total := by rw [IndexReport.total, hembedded rfl, hderived]; rfl
  have hrun : embedDocument E lib chunking .count (s, report) i.id =
      writeDerivation E .count s mid i.id (derivation s i.id) := by
    unfold embedDocument
    rw [rechunkIfStale_of_not hi hnot]
    show (embedBatches E .count (staleChunks s i.id) (s, report) >>= _) = _
    rw [hmid]
    rfl
  rw [hrun, derivation_of_row hi hc hnot]
  by_cases hdue : (pendingPredicate s i || outdated s i.id) = true
  · rw [if_pos hdue]
    cases hchunks : textChunks s i.id with
    | nil =>
        have hown : Rejected E s ⟨i.id, text, i.kind, i.contentRev⟩ ↔ Rejects E text := by
          unfold Rejected
          rw [if_neg fun hdoc => hdoc.2 hchunks]
        dsimp only
        by_cases hblank : isBlank text = true
        · rw [if_pos hblank]
          refine ⟨s, mid, rfl, Or.inl ⟨rfl, htotal, fun _ hne => ?_⟩⟩
          rw [hblank] at hne
          cases hne
        · rw [if_neg hblank]
          obtain ⟨report', heq, hreport⟩ := writeDerivation_ownText E s mid i.id i.contentRev text
          refine ⟨_, report', heq, ?_⟩
          cases he : E.embed text with
          | ok v =>
              rw [filterMap_embeddedOf_of_ok he]
              refine Or.inr ⟨fun hrej => ?_, v, rfl⟩
              obtain ⟨e, he'⟩ := hown.mp hrej
              rw [he] at he'
              cases he'
          | error e =>
              have hnil : [(⟨i.id, text, KIND_DOCUMENT, i.contentRev⟩ : Pending)].filterMap (embeddedOf E) = [] :=
                filterMap_embeddedOf_eq_nil fun p hp => by
                  obtain rfl := List.mem_singleton.mp hp
                  exact ⟨e, he⟩
              rw [hnil]
              exact Or.inl ⟨rfl, (hreport hnil).trans htotal, fun _ _ => hown.mpr ⟨e, he⟩⟩
    | cons c cs =>
        have hall : Rejected E s ⟨i.id, text, i.kind, i.contentRev⟩ ↔ ∀ c ∈ textChunks s i.id,
            pendingPredicate s c = true ∧ ∀ text, c.content = some text → Rejects E text := by
          unfold Rejected
          rw [if_pos ⟨hkind, by rw [hchunks]; exact List.cons_ne_nil _ _⟩]
        dsimp only
        rw [← hchunks]
        cases hvectors : (vectorsFor s (((textChunks s i.id).filter fun c => !pendingPredicate s c).map (·.id))).map
            (·.embedding) with
        | nil =>
            refine ⟨s, mid, rfl, Or.inl ⟨rfl, htotal, fun _ _ => hall.mpr fun x hx => ?_⟩⟩
            obtain ⟨hrow, t, hxt, hblank⟩ := mem_textChunks.mp hx
            obtain ⟨hxs, hxkind, -⟩ := mem_chunkRowsOf.mp hrow
            have hpend : pendingPredicate s x = true := by
              by_contra hcur
              rw [Bool.not_eq_true] at hcur
              obtain hnone | ⟨⟨v, hv, hvid⟩, -⟩ := pendingPredicate_eq_false.mp hcur
              · rw [hxt] at hnone
                cases hnone
              · refine List.not_mem_nil (a := v.embedding)
                  (hvectors ▸ List.mem_map_of_mem (List.mem_filter.mpr ⟨hv, ?_⟩))
                rw [decide_eq_true_eq, hvid]
                exact List.mem_map_of_mem (List.mem_filter.mpr ⟨hx, by rw [hcur]; rfl⟩)
            refine ⟨hpend, fun t' ht' => ?_⟩
            rw [hxt, Option.some.injEq] at ht'
            exact ht' ▸ ht x hxs (chunk_ne_document hxkind) hpend t hxt hblank
        | cons v vs =>
            have hlength := @length_vectorsFor _ s (((textChunks s i.id).filter fun c =>
              !pendingPredicate s c).map (·.id)) fun id hid => by
                obtain ⟨x, hx, rfl⟩ := List.mem_map.mp hid
                exact ⟨x, (mem_chunkRowsOf.mp (mem_textChunks.mp (List.mem_filter.mp hx).1).1).1, rfl⟩
            rw [← List.length_map (f := (·.embedding)), hvectors] at hlength
            obtain ⟨m, hm⟩ := E.exists_centroid (hlength.trans_lt hfew)
            refine ⟨_, { mid with derived := mid.derived + (storeVectors s [(i.id, i.contentRev, m)]).2 }, ?_,
              Or.inr ⟨fun hrej => ?_, m, rfl⟩⟩
            · unfold writeDerivation
              dsimp only
              rw [hm]
              rfl
            · obtain ⟨w, hw, -⟩ := List.mem_map.mp (hvectors ▸ List.mem_cons_self (a := v) (l := vs))
              have hwid := of_decide_eq_true (List.mem_filter.mp hw).2
              obtain ⟨x, hx, -⟩ := List.mem_map.mp hwid
              obtain ⟨hx, hcur⟩ := List.mem_filter.mp hx
              rw [(hall.mp hrej x hx).1] at hcur
              cases hcur
  · rw [if_neg hdue]
    rw [Bool.or_eq_true, not_or] at hdue
    refine ⟨s, mid, rfl, Or.inl ⟨rfl, htotal, fun hlisted => ?_⟩⟩
    simp [listed, documentRule, hnot, hdue.1, hdue.2] at hlisted

/-- What bringing some documents up to date leaves: the items, and what is pending of the texts, are as they were; no
item is listed that was not; and what is left of those documents is rejected. -/
structure Brought (E : Embedder V) (s s' : Store V) (documents : List Int) : Prop where
  same : SameItems s s'
  quiet : Quiet s'
  pend : ∀ i ∈ s.items.rows, i.kind ≠ KIND_DOCUMENT → pendingPredicate s' i = pendingPredicate s i
  listed : ∀ i ∈ s.items.rows, listed s' i = true → listed s i = true
  rejected : ∀ i ∈ s.items.rows, i.id ∈ documents → ∀ text, i.content = some text → isBlank text = false →
    Ingest.listed s' i = true → Rejected E s' ⟨i.id, text, i.kind, i.contentRev⟩

/-- With no documents there is nothing to bring up to date. -/
theorem Brought.nil (hq : Quiet s) : Brought E s s [] where
  same := .refl s
  quiet := hq
  pend _ _ _ := rfl
  listed _ _ h := h
  rejected _ _ h := (List.not_mem_nil h).elim

/-- What is pending of a document's chunks stays so, and what is rejected with it. -/
theorem Brought.rejected_iff {documents : List Int} (h : Brought E s s' documents) :
    Rejected E s' p ↔ Rejected E s p :=
  h.same.rejected_iff fun c hc => by
    obtain ⟨hrow, -⟩ := mem_textChunks.mp hc
    obtain ⟨hcs, hkind, -⟩ := mem_chunkRowsOf.mp hrow
    exact h.pend c hcs (chunk_ne_document hkind)

/-- One document after another is brought up to date. -/
theorem Brought.cons {document : Int} {documents : List Int} (h : Brought E s t [document])
    (h' : Brought E t s' documents) : Brought E s s' (document :: documents) where
  same := h.same.trans h'.same
  quiet := h'.quiet
  pend i hi hkind := (h'.pend i (h.same.items ▸ hi) hkind).trans (h.pend i hi hkind)
  listed i hi hlisted := h.listed i hi (h'.listed i (h.same.items ▸ hi) hlisted)
  rejected i hi hid text hc hblank hlisted := by
    have hit : i ∈ t.items.rows := h.same.items ▸ hi
    obtain hid | hid := List.mem_cons.mp hid
    · exact h'.rejected_iff.mpr
        (h.rejected i hi (List.mem_singleton.mpr hid) text hc hblank (h'.listed i hit hlisted))
    · exact h'.rejected i hit hid text hc hblank hlisted

/-- A document's vector, written. -/
theorem brought_upsertVector (hq : Quiet s) (hi : i ∈ s.items.rows) (hkind : i.kind = KIND_DOCUMENT) {text : Text}
    (hc : i.content = some text) (v : V) : Brought E s (upsertVector s i.id i.contentRev v).1 [i.id] where
  same := sameItems_upsertVector s _ _ _
  quiet := hq.storeVectors [(i.id, i.contentRev, v)]
  pend j hj hjkind := by
    rw [pendingPredicate_upsertVector hj, decide_eq_false fun hhit : Hits i.id i.contentRev j => ?_, Bool.not_false,
      Bool.and_true]
    exact hjkind (Table.eq_of_key_eq _ hi hj hhit.1.symm ▸ hkind)
  listed j hj h := (listed_upsertVector hq hi hkind hc v hj h).1
  rejected j hj hid _ _ _ h :=
    absurd (Table.eq_of_key_eq _ hj hi (List.mem_singleton.mp hid)) (listed_upsertVector hq hi hkind hc v hj h).2

/-- What is to be brought up to date: documents with a content. -/
def AreDocuments (s : Store V) (documents : List Int) : Prop :=
  ∀ d ∈ documents, ∃ i ∈ s.items.rows, i.id = d ∧ i.kind = KIND_DOCUMENT ∧ ∃ text, i.content = some text

/-- **The pass over the documents.** -/
theorem brought_embedDocuments (lib : Hasher) (chunking : ChunkConfig)
    (hfew : Few s) (hq : Quiet s)
    (ht : TextSettled E s) {documents : List Int} (hdocs : AreDocuments s documents) (report : IndexReport) :
    ∃ s' report', documents.foldlM (embedDocument E lib chunking .count) (s, report) = .ok (s', report') ∧
      Brought E s s' documents := by
  induction documents generalizing s report with
  | nil => exact ⟨s, report, rfl, .nil hq⟩
  | cons document documents ih =>
      obtain ⟨i, hi, rfl, hkind, text, hc⟩ := hdocs document List.mem_cons_self
      obtain ⟨t, mid, hone, hcases⟩ := embedDocument_cases lib chunking hfew hq ht hi hkind hc report
      have hbrought : Brought E s t [i.id] := by
        obtain ⟨rfl, -, hrej⟩ | ⟨-, v, rfl⟩ := hcases
        · have hnil : Brought E t t [] := .nil hq
          refine { hnil with rejected := fun j hj hid text' hc' hblank hlisted => ?_ }
          obtain rfl := Table.eq_of_key_eq _ hj hi (List.mem_singleton.mp hid)
          rw [hc, Option.some.injEq] at hc'
          exact hc' ▸ hrej hlisted (hc' ▸ hblank)
        · exact brought_upsertVector hq hi hkind hc v
      have hdocs' : AreDocuments t documents := fun d hd => by
        obtain ⟨j, hj, hrest⟩ := hdocs d (List.mem_cons_of_mem _ hd)
        exact ⟨j, hbrought.same.items ▸ hj, hrest⟩
      have hfew' : Few t := by
        rw [Few, hbrought.same.items]
        exact hfew
      obtain ⟨s', report', hrest, hall⟩ := ih hfew' hbrought.quiet (ht.congr hbrought.same hbrought.pend) hdocs' mid
      refine ⟨s', report', ?_, hbrought.cons hall⟩
      rw [List.foldlM_cons, hone]
      exact hrest

/-- Documents of which everything is rejected are left as they are. -/
theorem embedDocuments_of_rejected (lib : Hasher) (chunking : ChunkConfig)
    (hfew : Few s) (hq : Quiet s)
    (ht : TextSettled E s) {documents : List Int} (hdocs : ∀ d ∈ documents, ∃ i ∈ s.items.rows, i.id = d ∧
      i.kind = KIND_DOCUMENT ∧ ∃ text, i.content = some text ∧ Rejected E s ⟨i.id, text, i.kind, i.contentRev⟩)
    (report : IndexReport) :
    ∃ report', documents.foldlM (embedDocument E lib chunking .count) (s, report) = .ok (s, report') ∧
      report'.total = report.total := by
  induction documents generalizing report with
  | nil => exact ⟨report, rfl, rfl⟩
  | cons document documents ih =>
      obtain ⟨i, hi, rfl, hkind, text, hc, hrej⟩ := hdocs document List.mem_cons_self
      obtain ⟨t, mid, hone, hcases⟩ := embedDocument_cases lib chunking hfew hq ht hi hkind hc report
      obtain ⟨rfl, hmid, -⟩ := hcases.resolve_right fun hright => hright.1 hrej
      obtain ⟨report', hrest, htotal⟩ := ih (fun d hd => hdocs d (List.mem_cons_of_mem _ hd)) mid
      refine ⟨report', ?_, htotal.trans hmid⟩
      rw [List.foldlM_cons, hone]
      exact hrest

/-! ### blank items -/

/-- An item whose vector is dropped. -/
def Dropped (s : Store V) (i : ItemRow) : Prop :=
  listed s i = true ∧ needsRechunk s i = false ∧ ∃ text, i.content = some text ∧ isBlank text = true

/-- Vectors that are removed are gone, and nothing else is. -/
theorem foldl_removeVector (ids : List Int) (s : Store V) :
    (ids.foldl removeVector s).items = s.items ∧ (ids.foldl removeVector s).edges = s.edges ∧
      (ids.foldl removeVector s).sources = s.sources ∧
      ∀ v, v ∈ (ids.foldl removeVector s).vectors.rows ↔ v ∈ s.vectors.rows ∧ v.itemId ∉ ids := by
  induction ids generalizing s with
  | nil => exact ⟨rfl, rfl, rfl, fun v => by simp⟩
  | cons id ids ih =>
      obtain ⟨hitems, hedges, hsources, hvectors⟩ := ih (removeVector s id)
      refine ⟨hitems, hedges, hsources, fun v => ?_⟩
      rw [List.foldl_cons, hvectors]
      simp only [removeVector, Table.mem_deleteWhere, decide_eq_false_iff_not, List.mem_cons, not_or, and_assoc]

/-- The vectors of blank items are dropped, and the items left. -/
theorem sameItems_dropBlankVectors (s : Store V) : SameItems s (dropBlankVectors s).1 := by
  obtain ⟨hitems, hedges, -⟩ := foldl_removeVector _ s
  exact ⟨hitems, hedges⟩

/-- Which vectors are left when those of the blank items are dropped. -/
theorem mem_vectors_dropBlankVectors {v : VectorRow V} : v ∈ (dropBlankVectors s).1.vectors.rows ↔
    v ∈ s.vectors.rows ∧ ¬ ∃ i ∈ s.items.rows, i.id = v.itemId ∧ Dropped s i := by
  obtain ⟨-, -, -, hvectors⟩ := foldl_removeVector ((vectorsFor s (((pendingRows s).filter fun (p, rechunk) =>
    isBlank p.content && !rechunk).map (·.1.id))).map (·.itemId)) s
  refine (hvectors v).trans (and_congr_right fun hv => not_congr ?_)
  simp only [vectorsFor, List.mem_map, List.mem_filter, decide_eq_true_eq, Prod.exists, Bool.and_eq_true,
    Bool.not_eq_true', mem_pendingRows, pendingOf_eq_some]
  constructor
  · rintro ⟨w, ⟨-, q, rechunk, ⟨⟨i, hi, hlisted, ⟨text, hc, rfl⟩, rfl⟩, hblank, hnot⟩, hid⟩, hwid⟩
    exact ⟨i, hi, hid.trans hwid, hlisted, hnot, text, hc, hblank⟩
  · rintro ⟨i, hi, hid, hlisted, hnot, text, hc, hblank⟩
    exact ⟨v, ⟨hv, _, _, ⟨⟨i, hi, hlisted, ⟨text, hc, rfl⟩, rfl⟩, hblank, hnot⟩, hid⟩, rfl⟩

/-- What keeps its vector is as pending as it was. -/
theorem pendingPredicate_dropBlankVectors (hi : i ∈ s.items.rows) (h : ¬ Dropped s i) :
    pendingPredicate (dropBlankVectors s).1 i = pendingPredicate s i := by
  obtain ⟨-, -, hsources, -⟩ := foldl_removeVector ((vectorsFor s (((pendingRows s).filter fun (p, rechunk) =>
    isBlank p.content && !rechunk).map (·.1.id))).map (·.itemId)) s
  refine pendingPredicate_congr rfl rfl rfl (fun v hv => ?_) fun v _ => ?_
  · rw [mem_vectors_dropBlankVectors]
    refine and_iff_left ?_
    rintro ⟨j, hj, hjid, hdrop⟩
    exact h (Table.eq_of_key_eq _ hj hi (hjid.trans hv) ▸ hdrop)
  · exact iff_of_eq (congrArg (fun t => v ∈ t.rows) hsources)

/-- The rule of the documents does not see the drop. -/
theorem documentRule_dropBlankVectors (i : ItemRow) :
    documentRule (dropBlankVectors s).1 i = documentRule s i := by
  obtain ⟨-, -, hsources, -⟩ := foldl_removeVector ((vectorsFor s (((pendingRows s).filter fun (p, rechunk) =>
    isBlank p.content && !rechunk).map (·.1.id))).map (·.itemId)) s
  have hsources : (dropBlankVectors s).1.sources = s.sources := hsources
  unfold documentRule outdated
  rw [(sameItems_dropBlankVectors s).needsRechunk_eq, (sameItems_dropBlankVectors s).chunkIdsOf_eq, hsources]

/-- No item is listed that was not. -/
theorem listed_dropBlankVectors (hi : i ∈ s.items.rows) (h : listed (dropBlankVectors s).1 i = true) :
    listed s i = true := by
  by_contra hnot
  unfold listed at h
  rw [pendingPredicate_dropBlankVectors hi fun hdrop => hnot hdrop.1, documentRule_dropBlankVectors] at h
  exact hnot h

/-- The drop makes no cut stale. -/
theorem Quiet.dropBlank (hq : Quiet s) : Quiet (dropBlankVectors s).1 := by
  intro i hi hneeds
  have hsame := sameItems_dropBlankVectors s
  rw [hsame.items] at hi
  rw [hsame.needsRechunk_eq] at hneeds
  refine (hq i hi hneeds).imp_right fun ⟨hkind, hpend⟩ => ⟨hkind, ?_⟩
  rw [pendingPredicate_dropBlankVectors hi fun hdrop => ?_, hpend]
  rw [hdrop.2.1] at hneeds
  cases hneeds

/-- The drop makes nothing pending. -/
theorem Quiet.pendingItems_dropBlankVectors (hq : Quiet s) (h : p ∈ pendingItems (dropBlankVectors s).1) :
    p ∈ pendingItems s := by
  obtain ⟨i, hi, hlisted, hp, hblank⟩ := hq.dropBlank.mem_pendingItems.mp h
  rw [(sameItems_dropBlankVectors s).items] at hi
  exact hq.mem_pendingItems.mpr ⟨i, hi, listed_dropBlankVectors hi hlisted, hp, hblank⟩

/-- **The last step of a pass** settles what the others left rejected. -/
theorem settled_dropBlankVectors (hq : Quiet s) (hrej : ∀ p ∈ pendingItems s, Rejected E s p) :
    Settled E (dropBlankVectors s).1 where
  quiet := hq.dropBlank
  rejected p hp := by
    refine ((sameItems_dropBlankVectors s).rejected_iff fun c hc => ?_).mpr
      (hrej p (hq.pendingItems_dropBlankVectors hp))
    obtain ⟨hrow, text, hc, hblank⟩ := mem_textChunks.mp hc
    refine pendingPredicate_dropBlankVectors (mem_chunkRowsOf.mp hrow).1 ?_
    rintro ⟨-, -, text', hc', hblank'⟩
    rw [hc, Option.some.injEq] at hc'
    rw [hc', hblank'] at hblank
    cases hblank
  blank i hi hlisted hblank v hv hid := by
    rw [(sameItems_dropBlankVectors s).items] at hi
    have hlisted := listed_dropBlankVectors hi hlisted
    have hcontent : ∃ text, i.content = some text := by
      rw [← Option.isSome_iff_exists]
      by_contra hnone
      simp [listed, pendingPredicate, hnone] at hlisted
    obtain ⟨text, hc⟩ := hcontent
    have hnot : needsRechunk s i = false := hq.rechunk_eq_false
      (mem_pendingRows.mpr ⟨i, hi, hlisted, pendingOf_eq_some.mpr ⟨text, hc, rfl⟩, rfl⟩)
    exact (mem_vectors_dropBlankVectors.mp hv).2 ⟨i, hi, hid.symm, hlisted, hnot, text, hc, hblank text hc⟩

/-- Nothing is dropped of a store that is settled. -/
theorem Settled.dropBlankVectors_eq (hs : Settled E s) : (dropBlankVectors s).1 = s := by
  have hnone : vectorsFor s (((pendingRows s).filter fun (p, rechunk) => isBlank p.content && !rechunk).map (·.1.id)) =
      [] := by
    refine List.filter_eq_nil_iff.mpr fun v hv hmem => ?_
    simp only [List.mem_map, List.mem_filter, decide_eq_true_eq, Prod.exists, Bool.and_eq_true, Bool.not_eq_true',
      mem_pendingRows, pendingOf_eq_some] at hmem
    obtain ⟨q, rechunk, ⟨⟨i, hi, hlisted, ⟨text, hc, rfl⟩, -⟩, hblank, -⟩, hid⟩ := hmem
    refine hs.blank i hi hlisted (fun text' hc' => ?_) v hv hid.symm
    rw [hc, Option.some.injEq] at hc'
    exact hc' ▸ hblank
  unfold dropBlankVectors
  dsimp only
  rw [hnone]
  rfl

/-! ### the pass -/

/-- Where there is nothing to embed. -/
theorem all_blank_iff :
    ((pendingRows s).all fun (p, rechunk) => isBlank p.content && !rechunk) = true ↔ pendingItems s = [] := by
  unfold pendingItems
  rw [List.map_eq_nil_iff, List.filter_eq_nil_iff, List.all_eq_true]
  refine forall₂_congr fun ⟨p, rechunk⟩ _ => ?_
  cases hblank : isBlank p.content <;> cases rechunk <;> simp [hblank]

/-- Where nothing is pending, no cut is stale. -/
theorem quiet_of_pendingItems (h : pendingItems s = []) : Quiet s := by
  intro i hi hneeds
  cases hc : i.content with
  | none => exact Or.inl rfl
  | some text =>
      have hunlisted : listed s i = false := by
        by_contra hlisted
        rw [Bool.not_eq_false] at hlisted
        have hrow : ((⟨i.id, text, i.kind, i.contentRev⟩ : Pending), true) ∈ pendingRows s :=
          mem_pendingRows.mpr ⟨i, hi, hlisted, pendingOf_eq_some.mpr ⟨text, hc, rfl⟩, hneeds⟩
        have hall := List.all_eq_true.mp (all_blank_iff.mpr h) _ hrow
        simp at hall
      rw [← hc]
      exact unlisted_cases hneeds hunlisted

/-- What is settled is settled for each of the texts. -/
theorem Settled.textSettled (hs : Settled E s) : TextSettled E s := by
  intro i hi hkind hpend text hc hblank
  have hmem : (⟨i.id, text, i.kind, i.contentRev⟩ : Pending) ∈ pendingItems s :=
    hs.quiet.mem_pendingItems.mpr ⟨i, hi, by simp [listed, hpend], pendingOf_eq_some.mpr ⟨text, hc, rfl⟩, hblank⟩
  have hrej := hs.rejected _ hmem
  unfold Rejected at hrej
  rwa [if_neg fun h => hkind h.1] at hrej

/-- A pass, from what its steps come to. -/
theorem indexPending_of_steps {u v : Store V} {mid report : IndexReport} (hhealth : E.healthCheck = .ok ())
    (hnil : pendingItems s ≠ []) (hrecut : recutAll lib chunking s = .ok t)
    (hdirect : embedBatches E .count ((pendingItems t).filter (·.kind ≠ KIND_DOCUMENT)) (t, {}) = .ok (u, mid))
    (hdocs : (((pendingItems u).filter (·.kind = KIND_DOCUMENT)).map (·.id)).foldlM
      (embedDocument E lib chunking .count) (u, mid) = .ok (v, report)) :
    indexPending E lib chunking s = .ok ((dropBlankVectors v).1, report) := by
  unfold indexPending
  rw [if_neg (mt all_blank_iff.mp hnil)]
  exact Tx.bind_eq_ok.mpr ⟨(), hhealth, Tx.bind_eq_ok.mpr ⟨t, hrecut, Tx.bind_eq_ok.mpr ⟨(u, mid), hdirect,
    Tx.bind_eq_ok.mpr ⟨(v, report), hdocs, rfl⟩⟩⟩⟩

/-- Nothing is cut again where nothing needs it. -/
theorem Quiet.recutAll_eq (hq : Quiet s) : recutAll lib chunking s = .ok s := by
  have hnone : (pendingRows s).filter (·.2) = [] := List.filter_eq_nil_iff.mpr fun r hr => by
    obtain ⟨p, rechunk⟩ := r
    simp [hq.rechunk_eq_false hr]
  unfold recutAll
  rw [hnone]
  rfl

/-- **A pass over what is settled writes nothing.** -/
theorem Settled.indexPending_eq (hfew : Few s) (hs : Settled E s)
    (h : pendingItems s = [] ∨ E.healthCheck = .ok ()) :
    ∃ report, indexPending E lib chunking s = .ok (s, report) ∧ report.total = 0 := by
  by_cases hnil : pendingItems s = []
  · refine ⟨{}, ?_, rfl⟩
    unfold indexPending
    rw [if_pos (all_blank_iff.mpr hnil), hs.dropBlankVectors_eq]
    rfl
  have hrecut : recutAll lib chunking s = .ok s := hs.quiet.recutAll_eq
  have hdirect : ((pendingItems s).filter (·.kind ≠ KIND_DOCUMENT)).filterMap (embeddedOf E) = [] :=
    filterMap_embeddedOf_eq_nil fun p hp => by
      obtain ⟨hp, hkind⟩ := List.mem_filter.mp hp
      have hrej := hs.rejected p hp
      unfold Rejected at hrej
      rwa [if_neg fun h => of_decide_eq_true hkind h.1] at hrej
  obtain ⟨mid, hmid, hderived, hembedded⟩ :=
    embedBatches_count E ((pendingItems s).filter (·.kind ≠ KIND_DOCUMENT)) s {}
  rw [hdirect] at hmid hembedded
  have hrejected : ∀ d ∈ ((pendingItems s).filter (·.kind = KIND_DOCUMENT)).map (·.id), ∃ i ∈ s.items.rows, i.id = d ∧
      i.kind = KIND_DOCUMENT ∧ ∃ text, i.content = some text ∧ Rejected E s ⟨i.id, text, i.kind, i.contentRev⟩ := by
    intro d hd
    obtain ⟨p, hp, rfl⟩ := List.mem_map.mp hd
    obtain ⟨hp, hkind⟩ := List.mem_filter.mp hp
    obtain ⟨i, hi, -, hof, -⟩ := hs.quiet.mem_pendingItems.mp hp
    obtain ⟨text, hc, rfl⟩ := pendingOf_eq_some.mp hof
    exact ⟨i, hi, rfl, of_decide_eq_true hkind, text, hc, hs.rejected _ hp⟩
  obtain ⟨report, hdocs, htotal⟩ := embedDocuments_of_rejected lib chunking hfew hs.quiet hs.textSettled hrejected mid
  refine ⟨report, ?_, ?_⟩
  · rw [indexPending_of_steps (h.resolve_left hnil) hnil hrecut hmid hdocs, hs.dropBlankVectors_eq]
  · rw [htotal, IndexReport.total, hembedded rfl, hderived]
    rfl

/-- What a pass goes through: the cuts, the texts, the documents, and the blank items. -/
theorem exists_indexPending (hs : Sound s) (hhealth : E.healthCheck = .ok ()) (hnil : pendingItems s ≠ [])
    (hrecut : recutAll lib chunking s = .ok t) (hfew : Few t) :
    ∃ s' report, indexPending E lib chunking s = .ok (s', report) ∧ Settled E s' ∧ Few s' := by
  obtain ⟨-, hq⟩ := quiet_recutAll hs hrecut
  set direct := (pendingItems t).filter (·.kind ≠ KIND_DOCUMENT) with hdirect
  set u := (storeVectors t (direct.filterMap (embeddedOf E))).1 with hu
  have hqu : Quiet u := hq.storeVectors _
  have htu : TextSettled E u := hq.textSettled
  obtain ⟨mid, hmid, -, -⟩ := embedBatches_count E direct t {}
  have hdocs : AreDocuments u (((pendingItems u).filter (·.kind = KIND_DOCUMENT)).map (·.id)) := fun d hd => by
    obtain ⟨p, hp, rfl⟩ := List.mem_map.mp hd
    obtain ⟨hp, hkind⟩ := List.mem_filter.mp hp
    obtain ⟨i, hi, -, hof, -⟩ := hqu.mem_pendingItems.mp hp
    obtain ⟨text, hc, rfl⟩ := pendingOf_eq_some.mp hof
    exact ⟨i, hi, rfl, of_decide_eq_true hkind, text, hc⟩
  have hfew' : Few u := by
    rw [Few, hu, (sameItems_storeVectors t _).items]
    exact hfew
  obtain ⟨v, report, hall, hbrought⟩ := brought_embedDocuments lib chunking hfew' hqu htu hdocs mid
  refine ⟨(dropBlankVectors v).1, report, ?_, settled_dropBlankVectors hbrought.quiet fun p hp => ?_, ?_⟩
  · exact indexPending_of_steps hhealth hnil hrecut hmid hall
  · obtain ⟨i, hi, hlisted, hof, hblank⟩ := hbrought.quiet.mem_pendingItems.mp hp
    obtain ⟨text, hc, rfl⟩ := pendingOf_eq_some.mp hof
    rw [hbrought.same.items] at hi
    by_cases hkind : i.kind = KIND_DOCUMENT
    · refine hbrought.rejected i hi ?_ text hc hblank hlisted
      exact List.mem_map_of_mem (List.mem_filter.mpr ⟨hqu.mem_pendingItems.mpr
        ⟨i, hi, hbrought.listed i hi hlisted, pendingOf_eq_some.mpr ⟨text, hc, rfl⟩, hblank⟩, decide_eq_true hkind⟩)
    · unfold Rejected
      rw [if_neg fun h => hkind h.1]
      refine htu i hi hkind ?_ text hc hblank
      rw [← hbrought.pend i hi hkind]
      simpa [listed, hkind] using hlisted
  · rw [Few, (sameItems_dropBlankVectors v).items, hbrought.same.items]
    exact hfew'

end Settled

/-! ## a pass after a run -/

section Runs

variable {V : Type} {p : Pipeline} {b : Base V} {lib : Hasher}

/-- No chunk of a document is counted twice. -/
theorem Sound.nodup_chunkIdsOf {s : Store V} (hs : Sound s) (document : Int) : (chunkIdsOf s document).Nodup := by
  have hedges : s.edges.rows.Nodup := .of_map _ s.edges.nodup
  refine (hedges.filter _).map_on fun e he e' he' hsrc => ?_
  simp only [List.mem_filter, Bool.and_eq_true, decide_eq_true_eq] at he he'
  exact hs.edge e he.1 e' he'.1 hsrc (he.2.1.1.trans he'.2.1.1.symm) (he.2.1.2.trans he'.2.1.2.symm)

/-- A document that needs it can be cut again: the uids that its new chunks take are free once the old ones are
gone. -/
theorem Whole.exists_rechunkIfStale (hw : Whole p b) (lib : Hasher) (chunking : ChunkConfig) (document : Int) :
    ∃ s' done, Ingest.rechunkIfStale b.store lib chunking document = .ok (s', done) := by
  unfold Ingest.rechunkIfStale
  cases hfind : b.store.item? document with
  | none => exact ⟨_, _, rfl⟩
  | some r =>
      obtain ⟨hr, rfl⟩ := item?_eq_some.mp hfind
      dsimp only
      split
      case isFalse => exact ⟨_, _, rfl⟩
      case isTrue hneeds =>
        obtain ⟨hash, hhash, huid⟩ := hw.uid_of_needsRechunk hr hneeds
        obtain ⟨t, ht⟩ := exists_removeAll (Sound.nodup_chunkIdsOf hw.kept.sound r.id) fun id hid => by
          obtain ⟨-, x, hx, hxid, hkind⟩ := mem_chunkIdsOf.mp hid
          exact ⟨x, hx, hxid, by rw [hkind]; decide⟩
        have hgone := removeAll_eq_ok ht
        have hrt : r ∈ t.items.rows := (hgone.items r).mpr ⟨hr, fun hmem => by
          obtain ⟨-, x, hx, hxid, hkind⟩ := mem_chunkIdsOf.mp hmem
          obtain rfl := Table.eq_of_key_eq _ hx hr hxid
          exact chunk_ne_document hkind ((hw.kept.rows x hr).document hash hhash huid)⟩
        have hunder : Under hash (recut lib chunking r).uidPrefix :=
          ⟨lib.textHash (r.content.getD []), by simp [recut, huid]⟩
        obtain ⟨s', hs'⟩ : ∃ s', writeChunks t (recut lib chunking r) = .ok s' := by
          refine exists_writeChunks (hgone.sound hw.kept.sound) ⟨r, hrt, rfl⟩ (fun i _ x hx hxuid => ?_)
            fun _ _ hhome => by cases hhome
          obtain ⟨hxb, hxnot⟩ := (hgone.items x).mp hx
          have hxunder : Under hash x.uid := hxuid ▸ under_chunkUid (Or.inr hunder) i
          exact hxnot (mem_chunkIdsOf.mpr ⟨hw.derived x hxb r hr hash hhash hxunder huid, x, hxb, rfl,
            (hw.kept.rows x hxb).chunk hash hhash hxunder⟩)
        exact ⟨s', true, Tx.bind_eq_ok.mpr ⟨t, ht, Tx.bind_eq_ok.mpr ⟨s', hs', rfl⟩⟩⟩

/-- The cuts of a pass go through where the sources are whole. -/
theorem Whole.exists_recutAll (hw : Whole p b) (lib : Hasher) (chunking : ChunkConfig) :
    ∃ s', recutAll lib chunking b.store = .ok s' := by
  unfold recutAll
  generalize (pendingRows b.store).filter (·.2) = rows
  induction rows generalizing b with
  | nil => exact ⟨b.store, rfl⟩
  | cons r rows ih =>
      obtain ⟨t, done, ht⟩ := hw.exists_rechunkIfStale lib chunking r.1.id
      obtain ⟨s', hs'⟩ := ih (hw.rechunkIfStale ht)
      exact ⟨s', by rw [List.foldlM_cons, ht]; exact hs'⟩

/-- **An index pass settles whatever a run has left.** After any run of captures under one configuration, of parts of
index passes, edits and removals, a pass goes through if the embedder answers, as long as cutting leaves fewer items
than a mean can be taken of. What it leaves pending the embedder has rejected, which is nothing if it rejects no text;
and another pass, for which the embedder answers as it did, writes nothing. -/
theorem index_run (lib : Hasher) (p : Pipeline) (steps : List (Step V))
    (hsteps : EveryStep (Ingest.next lib) (fun b step => Ordinary b step ∧ step.Uses p) .empty steps) (E : Embedder V)
    (hhealth : E.healthCheck = .ok ()) (chunking : ChunkConfig)
    (hfew : ∀ t, recutAll lib chunking (run (Ingest.next lib) .empty steps).store = .ok t → Few t) :
    ∃ s' report, indexPending E lib chunking (run (Ingest.next lib) .empty steps).store = .ok (s', report) ∧
      (∀ q ∈ pendingItems s', Rejected E s' q) ∧
      ((∀ text, ∃ v, E.embed text = .ok v) → unembeddedCount s' = 0) ∧
      ∃ again, indexPending E lib chunking s' = .ok (s', again) ∧ again.total = 0 := by
  have hw : Whole p (run (Ingest.next lib) .empty steps) := whole_run steps hsteps
  generalize run (Ingest.next lib) .empty steps = b at hw hfew
  have hpass : ∃ s' report, indexPending E lib chunking b.store = .ok (s', report) ∧ Settled E s' ∧ Few s' := by
    by_cases hnil : pendingItems b.store = []
    · have hquiet := quiet_of_pendingItems hnil
      refine ⟨(dropBlankVectors b.store).1, {}, ?_, settled_dropBlankVectors hquiet fun q hq => ?_, ?_⟩
      · unfold indexPending
        rw [if_pos (all_blank_iff.mpr hnil)]
        rfl
      · rw [hnil] at hq
        exact (List.not_mem_nil hq).elim
      · rw [Few, (sameItems_dropBlankVectors b.store).items]
        exact hfew _ hquiet.recutAll_eq
    · obtain ⟨t, ht⟩ := hw.exists_recutAll lib chunking
      exact exists_indexPending hw.kept.sound hhealth hnil ht (hfew t ht)
  obtain ⟨s', report, hok, hsettled, hfew'⟩ := hpass
  refine ⟨s', report, hok, hsettled.rejected, fun htotal => ?_, hsettled.indexPending_eq hfew' (Or.inr hhealth)⟩
  rw [unembeddedCount, List.length_eq_zero_iff, List.eq_nil_iff_forall_not_mem]
  intro q hq
  have hrej := hsettled.rejected q hq
  have hnone : ∀ text, ¬ Rejects E text := fun text ⟨e, he⟩ => by
    obtain ⟨v, hv⟩ := htotal text
    rw [hv] at he
    cases he
  unfold Rejected at hrej
  split at hrej
  · next hdoc =>
      obtain ⟨c, hc⟩ := List.exists_mem_of_ne_nil _ hdoc.2
      obtain ⟨-, text, htext, -⟩ := mem_textChunks.mp hc
      exact hnone text ((hrej c hc).2 text htext)
  · exact hnone _ hrej

end Runs

/-! ## a document of which one chunk is rejected -/

/-- An embedder that rejects `b`. -/
def notB : Embedder Nat where
  healthCheck := .ok ()
  embed text := if text = ['b'] then .error [] else .ok text.length
  mean := List.sum
  length _ := 1
  dim := 1
  dim_pos := Nat.one_pos
  length_eq _ := rfl

/-- A capture, and an edit of the document. -/
def edited : List (Step Nat) := [.ingest (oneChar "x") ab untyped, .edit 1 "abc".toList]

/-- A pass over a document that was edited after it was embedded. -/
theorem index_run_edited :
    ∃ s' report, indexPending notB abcHasher (oneChar "x").chunking (run (Ingest.next abcHasher) .empty edited).store =
        .ok (s', report) ∧
      (∀ q ∈ pendingItems s', Rejected notB s' q) ∧
      ((∀ text, ∃ v, notB.embed text = .ok v) → unembeddedCount s' = 0) ∧
      ∃ again, indexPending notB abcHasher (oneChar "x").chunking s' = .ok (s', again) ∧ again.total = 0 := by
  refine index_run abcHasher (oneChar "x") edited (by decide +kernel) notB rfl (oneChar "x").chunking fun t ht => ?_
  have hcut : (recutAll abcHasher (oneChar "x").chunking (run (Ingest.next abcHasher) .empty edited).store).map
      (·.items.rows.length) = .ok 4 := by decide +kernel
  rw [ht] at hcut
  have hcount : t.items.rows.length = 4 := Except.ok.inj hcut
  rw [Few, hcount]
  decide

-- The chunk `b` is left.
example : ((indexPending notB abcHasher (oneChar "x").chunking (run (Ingest.next abcHasher) .empty edited).store).map
    fun r => (pendingItems r.1).map fun p => (p.id, p.content)) = .ok [(5, ['b'])] := by decide +kernel

end Jkb.Ingest
