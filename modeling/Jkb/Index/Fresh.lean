import Jkb.Index.Vector

/-!
# Jkb.Index.Fresh

An item never looks embedded for a text it no longer holds. The rows that count are those of the items that
are there, and those that an undo may still put back: together they have one row for each id, and what an
embedding run has read of an item agrees with that row, or is of an earlier revision.

`fresh_next` is the step lemma over every writer, every undo and every step of an embedding run;
`embedded_of_not_pending` what it comes to in every state of a run.
-/

namespace Jkb.Index

open Jkb.Text Jkb.Item

variable {V : Type}

/-! ## the rows that count -/

/-- The item that an undo of a change would put back. -/
def removedItem : Change → Option ItemRow
  | .deleteItem snap => some snap.item
  | _ => none

/-- The items that are there, and those that some changes may put back. -/
def held (s : Store V) (pend : List Change) : List ItemRow := s.items.rows ++ pend.filterMap removedItem

/-- An item as an embedding run read it. -/
structure Pending where
  id : Int
  content : Text
  kind : Text
  rev : Int
deriving Repr, DecidableEq

/-- A row agrees with what was read: it is at a later revision, or at that one with that text. -/
def Pending.AgreesWith (p : Pending) (i : ItemRow) : Prop :=
  i.id = p.id → i.kind = p.kind ∧ p.rev ≤ i.contentRev ∧ (p.rev = i.contentRev → i.content = some p.content)

/-- **The invariant**: one row for each id, of no text but the one each reading of that revision saw, and a
vector recorded at the revision its item is at is that of its text. -/
structure Fresh (E : Text → V) (s : Store V) (pend : List Change) (reads : List Pending) : Prop where
  ids : ((held s pend).map (·.id)).Nodup
  issued : ∀ i ∈ held s pend, i.id ≤ s.items.last
  reads : ∀ p ∈ reads, p.id ≤ s.items.last ∧ ∀ i ∈ held s pend, p.AgreesWith i
  vectors : ∀ v ∈ s.vectors.rows, ∃ i ∈ s.items.rows, i.id = v.itemId
  sources : ∀ r ∈ s.sources.rows, ∃ i ∈ s.items.rows, i.id = r.itemId ∧ r.contentRev ≤ i.contentRev
  current : ∀ i ∈ s.items.rows, i.kind ≠ KIND_DOCUMENT → ∀ r ∈ s.sources.rows, r.itemId = i.id →
    r.contentRev = i.contentRev → ∀ v ∈ s.vectors.rows, v.itemId = i.id →
      ∀ c, i.content = some c → v.embedding = E c

/-- A store with nothing in it is fresh. -/
theorem fresh_empty (E : Text → V) : Fresh E .empty [] [] where
  ids := List.nodup_nil
  issued := by simp [held, Store.empty, AutoTable.empty, Table.empty]
  reads := by simp
  vectors := by simp [Store.empty, Table.empty]
  sources := by simp [Store.empty, Table.empty]
  current := by simp [Store.empty, AutoTable.empty, Table.empty]

section Keeps

variable {E : Text → V} {s s' : Store V} {pend pend' : List Change} {reads : List Pending}

/-- What the items, the vectors and their sources are is all that counts. -/
theorem Fresh.congr (h : Fresh E s pend reads) (hitems : s'.items = s.items)
    (hvectors : s'.vectors = s.vectors) (hsources : s'.sources = s.sources) : Fresh E s' pend reads := by
  obtain ⟨hids, hissued, hreads, hv, hs, hc⟩ := h
  constructor <;> simp only [held, hitems, hvectors, hsources] at * <;> assumption

/-- Rows that go, or change places, and vectors and sources that go, keep the rest. -/
theorem Fresh.mono (h : Fresh E s pend reads) (hp : (held s' pend').Subperm (held s pend))
    (hlast : s.items.last ≤ s'.items.last)
    (hvectors : ∀ v ∈ s'.vectors.rows, v ∈ s.vectors.rows ∧ ∃ i ∈ s'.items.rows, i.id = v.itemId)
    (hsources : ∀ r ∈ s'.sources.rows, r ∈ s.sources.rows ∧ ∃ i ∈ s'.items.rows, i.id = r.itemId)
    (hrows : ∀ i ∈ s'.items.rows, i ∈ s.items.rows ∨ ∀ r ∈ s.sources.rows, r.itemId ≠ i.id) :
    Fresh E s' pend' reads where
  ids := by
    obtain ⟨l, hl, hsub⟩ := hp
    exact (hl.map _).nodup_iff.mp (h.ids.sublist (hsub.map _))
  issued i hi := le_trans (h.issued i (hp.subset hi)) hlast
  reads p hp' := ⟨le_trans (h.reads p hp').1 hlast, fun i hi => (h.reads p hp').2 i (hp.subset hi)⟩
  vectors v hv := (hvectors v hv).2
  sources r hr := by
    obtain ⟨hr, i, hi, hid⟩ := hsources r hr
    refine ⟨i, hi, hid, ?_⟩
    rcases hrows i hi with hold | hnone
    · obtain ⟨j, hj, hjd, hle⟩ := h.sources r hr
      obtain rfl := Table.eq_of_key_eq _ hold hj (hid.trans hjd.symm)
      exact hle
    · exact absurd hid.symm (hnone r hr)
  current i hi hkind r hr hid hrev v hv hvid c hc := by
    rcases hrows i hi with hold | hnone
    · exact h.current i hold hkind r (hsources r hr).1 hid hrev v (hvectors v hv).1 hvid c hc
    · exact absurd hid (hnone r (hsources r hr).1)

/-- Changes that put no item back may come and go. -/
theorem Fresh.changes (h : Fresh E s pend reads) (hp : (pend'.filterMap removedItem).Subperm
    (pend.filterMap removedItem)) : Fresh E s pend' reads :=
  h.mono ((List.subperm_append_left _).mpr hp) le_rfl (fun v hv => ⟨hv, h.vectors v hv⟩)
    (fun r hr => ⟨hr, (h.sources r hr).imp fun _ hi => ⟨hi.1, hi.2.1⟩⟩) fun _ hi => Or.inl hi

/-- A removal that nothing can undo takes the vector and its source along. -/
theorem Fresh.deleteItem (h : Fresh E s pend reads) (id : Int) : Fresh E (deleteItem s id) pend reads := by
  have hkept : ∀ {k : Int}, k ≠ id → (∃ i ∈ s.items.rows, i.id = k) →
      ∃ i ∈ (Item.deleteItem s id).items.rows, i.id = k := by
    rintro k hk ⟨i, hi, rfl⟩
    exact ⟨i, by simpa [Item.deleteItem] using ⟨hi, hk⟩, rfl⟩
  refine h.mono ?_ le_rfl (fun v hv => ?_) (fun r hr => ?_) fun i hi => ?_
  · exact (List.Sublist.append_right List.filter_sublist _).subperm
  · simp only [Item.deleteItem, Table.mem_deleteWhere, decide_eq_false_iff_not] at hv
    exact ⟨hv.1, hkept hv.2 (h.vectors v hv.1)⟩
  · simp only [Item.deleteItem, Table.mem_deleteWhere, decide_eq_false_iff_not] at hr
    exact ⟨hr.1, hkept hr.2 ((h.sources r hr.1).imp fun _ hi => ⟨hi.1, hi.2.1⟩)⟩
  · exact Or.inl (AutoTable.mem_deleteWhere.mp hi).1

/-- A removal that an undo may revert. -/
theorem Fresh.removed (h : Fresh E s pend reads) {r : ItemRow} (hr : r ∈ s.items.rows)
    (edges : List EdgeRow) : Fresh E (Item.deleteItem s r.id) (pend ++ [.deleteItem ⟨r, edges⟩]) reads := by
  have hdel := h.deleteItem r.id
  refine h.mono ?_ le_rfl (fun v hv => ⟨?_, hdel.vectors v hv⟩)
    (fun x hx => ⟨?_, (hdel.sources x hx).imp fun _ hi => ⟨hi.1, hi.2.1⟩⟩)
    fun i hi => Or.inl (AutoTable.mem_deleteWhere.mp hi).1
  · have hrows : s.items.rows.Perm (r :: (Item.deleteItem s r.id).items.rows) :=
      Table.perm_cons_deleteWhere hr
    have hheld : held (Item.deleteItem s r.id) (pend ++ [.deleteItem ⟨r, edges⟩]) =
        held (Item.deleteItem s r.id) pend ++ [r] := by
      simp [held, removedItem]
    rw [hheld]
    exact ((List.perm_append_singleton r _).trans (hrows.symm.append_right _)).subperm
  · exact (Table.mem_deleteWhere.mp hv).1
  · exact (Table.mem_deleteWhere.mp hx).1

/-- A new item. -/
theorem Fresh.insertItem (h : Fresh E s pend reads) {r : ItemRow} (hr : r.id = s.items.last + 1)
    (hrows : s'.items.rows = s.items.rows ++ [r]) (hlast : s'.items.last = s.items.last + 1)
    (hvectors : s'.vectors = s.vectors) (hsources : s'.sources = s.sources) :
    Fresh E s' pend reads := by
  have hheld : ∀ i, i ∈ held s' pend ↔ i ∈ held s pend ∨ i = r := by
    intro i
    simp only [held, hrows, List.mem_append, List.mem_singleton]
    tauto
  have hmem : ∀ i ∈ s.items.rows, i ∈ s'.items.rows := fun i hi => by simp [hrows, hi]
  have hold : ∀ i ∈ s'.items.rows, ∀ k, (∃ j ∈ s.items.rows, j.id = k) → i.id = k → i ∈ s.items.rows := by
    rintro i hi k ⟨j, hj, rfl⟩ hid
    rw [hrows, List.mem_append, List.mem_singleton] at hi
    rcases hi with hi | rfl
    · exact hi
    · have := s.items.le_last j hj
      omega
  refine ⟨?_, fun i hi => ?_, fun p hp => ⟨?_, fun i hi => ?_⟩, ?_, ?_, ?_⟩
  · have hperm : (held s' pend).Perm (r :: held s pend) := by
      simp only [held, hrows]
      exact (List.perm_append_singleton r _).append_right _
    refine (hperm.map _).nodup_iff.mpr (List.nodup_cons.mpr ⟨fun hin => ?_, h.ids⟩)
    obtain ⟨i, hi, hid⟩ := List.mem_map.mp hin
    have hid : i.id = r.id := hid
    have := h.issued i hi
    omega
  · rcases (hheld i).mp hi with hi | rfl
    · have := h.issued i hi
      omega
    · exact (hr.trans hlast.symm).le
  · have := (h.reads p hp).1
    omega
  · rcases (hheld i).mp hi with hi | rfl
    · exact (h.reads p hp).2 i hi
    · intro hid
      have := (h.reads p hp).1
      omega
  · rw [hvectors]
    exact fun v hv => (h.vectors v hv).imp fun i hi => ⟨hmem i hi.1, hi.2⟩
  · rw [hsources]
    exact fun x hx => (h.sources x hx).imp fun i hi => ⟨hmem i hi.1, hi.2⟩
  · rw [hvectors, hsources]
    intro i hi hkind x hx hid hrev v hv hvid
    have hi := hold i hi _ (h.vectors v hv) hvid.symm
    exact h.current i hi hkind x hx hid hrev v hv hvid

/-- An update never lowers the revision, and leaves it only with the content. -/
theorem contentRev_set (r : ItemRow) (columns : Columns) :
    r.contentRev ≤ (r.set columns).contentRev ∧
      ((r.set columns).contentRev = r.contentRev → (r.set columns).content = r.content) := by
  simp only [ItemRow.set]
  split
  · next hsame => exact ⟨le_rfl, fun _ => hsame⟩
  · exact ⟨by omega, fun h => by omega⟩

/-- Rows that are updated: each keeps its id and its kind, and its text with its revision. -/
theorem Fresh.map (h : Fresh E s pend reads) {f : ItemRow → ItemRow}
    (hf : ∀ i, (f i).id = i.id ∧ (f i).kind = i.kind ∧ i.contentRev ≤ (f i).contentRev ∧
      ((f i).contentRev = i.contentRev → (f i).content = i.content))
    (hrows : s'.items.rows = s.items.rows.map f) (hlast : s'.items.last = s.items.last)
    (hvectors : s'.vectors = s.vectors) (hsources : s'.sources = s.sources) : Fresh E s' pend reads := by
  have hheld : ∀ i ∈ held s' pend, ∃ j ∈ held s pend, i.id = j.id ∧ i.kind = j.kind ∧
      j.contentRev ≤ i.contentRev ∧ (i.contentRev = j.contentRev → i.content = j.content) := by
    intro i hi
    rcases List.mem_append.mp hi with hi | hi
    · rw [hrows] at hi
      obtain ⟨j, hj, rfl⟩ := List.mem_map.mp hi
      exact ⟨j, List.mem_append_left _ hj, hf j⟩
    · exact ⟨i, List.mem_append_right _ hi, rfl, rfl, le_rfl, fun _ => rfl⟩
  have hin : ∀ j ∈ s.items.rows, f j ∈ s'.items.rows := fun j hj => hrows ▸ List.mem_map_of_mem hj
  refine ⟨?_, fun i hi => ?_, fun p hp => ⟨?_, fun i hi hid => ?_⟩, fun v hv => ?_, fun r hr => ?_, ?_⟩
  · have hids : (held s' pend).map (·.id) = (held s pend).map (·.id) := by
      simp only [held, hrows, List.map_append, List.map_map]
      congr 1
      exact List.map_congr_left fun i _ => (hf i).1
    rw [hids]
    exact h.ids
  · obtain ⟨j, hj, hid, -⟩ := hheld i hi
    rw [hid, hlast]
    exact h.issued j hj
  · rw [hlast]
    exact (h.reads p hp).1
  · obtain ⟨j, hj, hjd, hkind, hle, hcontent⟩ := hheld i hi
    obtain ⟨hk, hrev, hc⟩ := (h.reads p hp).2 j hj (hjd ▸ hid)
    refine ⟨hkind.trans hk, hrev.trans hle, fun heq => ?_⟩
    have hsame : i.contentRev = j.contentRev := by omega
    rw [hcontent hsame]
    exact hc (by omega)
  · obtain ⟨i, hi, hid⟩ := h.vectors v (hvectors ▸ hv)
    exact ⟨f i, hin i hi, (hf i).1.trans hid⟩
  · obtain ⟨i, hi, hid, hle⟩ := h.sources r (hsources ▸ hr)
    exact ⟨f i, hin i hi, (hf i).1.trans hid, hle.trans (hf i).2.2.1⟩
  · rw [hvectors, hsources, hrows]
    intro i hi hkind r hr hid hrev v hv hvid c hc
    obtain ⟨j, hj, rfl⟩ := List.mem_map.mp hi
    obtain ⟨hfid, hfkind, hle, hcontent⟩ := hf j
    obtain ⟨k, hk, hkd, hkle⟩ := h.sources r hr
    obtain rfl := Table.eq_of_key_eq _ hj hk (hfid.symm.trans (hid.symm.trans hkd.symm))
    have hsame : (f j).contentRev = j.contentRev := by omega
    exact h.current j hj (hfkind ▸ hkind) r hr hkd.symm (hrev.trans hsame) v hv (hvid.trans hfid) c
      ((hcontent hsame).symm.trans hc)

/-- An update of an item leaves no vector of another text. -/
theorem Fresh.updateItem (h : Fresh E s pend reads) {id : Int} {columns : Columns}
    (hs' : Item.updateItem s id columns = .ok s') : Fresh E s' pend reads := by
  unfold Item.updateItem at hs'
  split at hs'
  · cases hs'
  · split at hs'
    · cases hs'
    · cases hs'
      refine @Fresh.map _ _ _ _ _ _ h (fun i => if i.id = id then i.set columns else i) (fun i => ?_) ?_ rfl rfl
        rfl
      · split
        · exact ⟨rfl, rfl, contentRev_set i columns⟩
        · exact ⟨rfl, rfl, le_rfl, fun _ => rfl⟩
      · simp [AutoTable.updateWhere, Table.updateWhere]

/-- An item that is put back, under its own id and with the revision it had. -/
theorem Fresh.restored {snap : Snapshot} (h : Fresh E s (.deleteItem snap :: pend) reads)
    (hrows : s'.items.rows = s.items.rows ++ [snap.item]) (hlast : s.items.last ≤ s'.items.last)
    (hvectors : s'.vectors = s.vectors) (hsources : s'.sources = s.sources) : Fresh E s' pend reads := by
  have hmem : ∀ i ∈ s.items.rows, i ∈ s'.items.rows := fun i hi => by simp [hrows, hi]
  have hgone : ∀ i ∈ s.items.rows, i.id ≠ snap.item.id := by
    intro i hi hid
    have hnodup := h.ids
    simp only [held, List.map_append, List.nodup_append] at hnodup
    exact hnodup.2.2 i.id (List.mem_map_of_mem hi) snap.item.id (by simp [removedItem]) hid
  refine h.mono ?_ hlast (fun v hv => ?_) (fun r hr => ?_) fun i hi => ?_
  · simp only [held, hrows, List.append_assoc, removedItem, List.filterMap_cons, List.singleton_append]
    exact List.Subperm.refl _
  · rw [hvectors] at hv
    exact ⟨hv, (h.vectors v hv).imp fun i hi => ⟨hmem i hi.1, hi.2⟩⟩
  · rw [hsources] at hr
    exact ⟨hr, (h.sources r hr).imp fun i hi => ⟨hmem i hi.1, hi.2.1⟩⟩
  · rw [hrows, List.mem_append, List.mem_singleton] at hi
    rcases hi with hi | rfl
    · exact Or.inl hi
    · refine Or.inr fun r hr hid => ?_
      obtain ⟨i, hi, hid', -⟩ := h.sources r hr
      exact hgone i hi (hid'.trans hid)

/-- A vector that is stored for an item at the revision it was computed from. -/
theorem Fresh.upsertVector (h : Fresh E s pend reads) {id rev : Int} {embedding : V} {stored : Bool}
    (hs' : Index.upsertVector s id rev embedding = (s', stored))
    (htext : ∀ i ∈ s.items.rows, i.id = id → i.contentRev = rev → i.kind ≠ KIND_DOCUMENT →
      ∀ c, i.content = some c → embedding = E c) : Fresh E s' pend reads := by
  cases stored with
  | false =>
      obtain rfl : s' = s := by
        unfold Index.upsertVector at hs'
        split at hs'
        · exact (Prod.ext_iff.mp hs').1.symm
        · split at hs'
          · cases hs'
          · exact (Prod.ext_iff.mp hs').1.symm
      exact h
  | true =>
      obtain ⟨⟨j, hj, hjd, hjrev⟩, hitems, -, -, hvectors, hsources⟩ := upsertVector_eq_true hs'
      have hheld : held s' pend = held s pend := by rw [held, hitems, held]
      refine ⟨hheld ▸ h.ids, ?_, ?_, fun v hv => ?_, fun r hr => ?_, ?_⟩
      · rw [hheld, hitems]
        exact h.issued
      · rw [hheld, hitems]
        exact h.reads
      · rw [hitems]
        rcases (hvectors v).mp hv with ⟨hv, -⟩ | rfl
        · exact h.vectors v hv
        · exact ⟨j, hj, hjd⟩
      · rw [hitems]
        rcases (hsources r).mp hr with ⟨hr, -⟩ | rfl
        · exact h.sources r hr
        · exact ⟨j, hj, hjd, hjrev.ge⟩
      · rw [hitems]
        intro i hi hkind r hr hid hrev v hv hvid c hc
        rcases (hvectors v).mp hv with ⟨hv, hvne⟩ | rfl
        · rcases (hsources r).mp hr with ⟨hr, -⟩ | rfl
          · exact h.current i hi hkind r hr hid hrev v hv hvid c hc
          · exact absurd (hvid.trans hid.symm) hvne
        · obtain rfl := Table.eq_of_key_eq _ hi hj (hvid.symm.trans hjd.symm)
          exact htext i hi hjd hjrev hkind c hc

end Keeps

/-! ## the writers -/

/-- What a writer keeps: whatever may still be undone beside what it logs. -/
structure Keeps (E : Text → V) (reads : List Pending) (s s' : Store V) : Prop where
  fresh : ∀ pend, Fresh E s (pend ++ s.log) reads → Fresh E s' (pend ++ s'.log) reads
  last : s.items.last ≤ s'.items.last

namespace Keeps

variable {E : Text → V} {reads : List Pending} {s s' s'' : Store V}

/-- Where nothing is written, what is fresh stays so. -/
theorem refl (s : Store V) : Keeps E reads s s := ⟨fun _ h => h, le_rfl⟩

/-- Two writers, one after the other. -/
theorem trans (h : Keeps E reads s s') (h' : Keeps E reads s' s'') : Keeps E reads s s'' :=
  ⟨fun pend hf => h'.fresh pend (h.fresh pend hf), h.last.trans h'.last⟩

/-- A change of the edges, and changes that put no item back. -/
theorem edges (hitems : s'.items = s.items) (hvectors : s'.vectors = s.vectors)
    (hsources : s'.sources = s.sources) (changes : List Change) (hlog : s'.log = s.log ++ changes)
    (hnone : ∀ c ∈ changes, removedItem c = none) : Keeps E reads s s' := by
  refine ⟨fun pend h => ?_, by rw [hitems]⟩
  refine (h.congr hitems hvectors hsources).changes ?_
  rw [hlog, ← List.append_assoc, List.filterMap_append, List.filterMap_eq_nil_iff.mpr hnone, List.append_nil]

/-- A log entry that removes no item changes nothing. -/
theorem logged (s : Store V) {c : Change} (hc : removedItem c = none) : Keeps E reads s (s.logged c) :=
  edges rfl rfl rfl [c] rfl (by simpa using hc)

/-- `upsert` keeps what is fresh. -/
theorem upsert {new : NewItem} {id : Int} (h : Item.upsert s new = .ok (s', id)) : Keeps E reads s s' := by
  unfold Item.upsert at h
  split at h
  · cases h
    exact refl s
  · split at h
    · cases h
    · cases h
      refine Keeps.trans ⟨fun pend hf => ?_, ?_⟩ (logged _ rfl)
      · exact @Fresh.insertItem _ _ _ _ _ _ hf ⟨_, _, _, _, _, 0, none⟩ rfl rfl rfl rfl rfl
      · exact (Int.lt_succ _).le

/-- So does an update of an item. -/
theorem updateItem {id : Int} {columns : Columns} (h : Item.updateItem s id columns = .ok s') :
    Keeps E reads s s' := by
  have hsame : s'.log = s.log ∧ s'.items.last = s.items.last := by
    unfold Item.updateItem at h
    split at h
    · cases h
    · split at h
      · cases h
      · cases h
        exact ⟨rfl, rfl⟩
  exact ⟨fun pend hf => hsame.1 ▸ hf.updateItem h, hsame.2.ge⟩

/-- An update, logged with what it overwrote. -/
theorem updateLogged {id : Int} {columns : Columns} {c : Change} (hc : removedItem c = none)
    (h : (Item.updateItem s id columns).map (·.logged c) = .ok s') : Keeps E reads s s' := by
  obtain ⟨t, ht, rfl⟩ := Tx.map_eq_ok.mp h
  exact (updateItem ht).trans (logged t hc)

/-- So does `set_content`. -/
theorem setContent {id : Int} {content : Text} {hash : Option Text}
    (h : Item.setContent s id content hash = .ok s') : Keeps E reads s s' := by
  unfold Item.setContent at h
  split at h
  · cases h
  · exact updateLogged rfl h

/-- So does a content that is written. -/
theorem writeContent {id : Int} {content : Option Text} (h : Item.writeContent s id content = .ok s') :
    Keeps E reads s s' := by
  unfold Item.writeContent at h
  split at h
  · cases h
  · exact updateLogged rfl h

/-- So does a revision that is recorded. -/
theorem setChunkedRev {id rev : Int} (h : Item.setChunkedRev s id rev = .ok s') : Keeps E reads s s' := by
  unfold Item.setChunkedRev at h
  split at h
  · cases h
  · exact updateLogged rfl h

/-- So does `remove`, whose vector goes with the item. -/
theorem remove {id : Int} (h : Item.remove s id = .ok s') : Keeps E reads s s' := by
  unfold Item.remove at h
  split at h
  · cases h
  · next r hr =>
      split at h
      · cases h
      · cases h
        obtain ⟨hmem, rfl⟩ := Table.find?_eq_some.mp hr
        refine ⟨fun pend hf => ?_, le_rfl⟩
        rw [Store.logged, ← List.append_assoc]
        exact (hf.removed hmem (snapshot s r).edges).congr rfl rfl rfl

/-- An edge that is put in changes nothing else. -/
theorem insertEdge_eq_ok {id : Option Int} {src dst new : Int} {type : EdgeType}
    (h : insertEdge s id src dst type = .ok (s', new)) :
    s'.items = s.items ∧ s'.vectors = s.vectors ∧ s'.sources = s.sources ∧ s'.log = s.log := by
  unfold insertEdge at h
  split at h
  · cases h
  · split at h
    · cases h
    · split at h
      · cases h
        exact ⟨rfl, rfl, rfl, rfl⟩
      · split at h
        · cases h
          exact ⟨rfl, rfl, rfl, rfl⟩
        · cases h

/-- So does `link`. -/
theorem link {src dst : Int} {type : EdgeType} (h : Item.link s src dst type = .ok s') :
    Keeps E reads s s' := by
  unfold Item.link at h
  split at h
  · cases h
    exact logged s rfl
  · obtain ⟨⟨t, id⟩, ht, rfl⟩ := Tx.map_eq_ok.mp h
    obtain ⟨hitems, hvectors, hsources, hlog⟩ := insertEdge_eq_ok ht
    exact (edges hitems hvectors hsources [] (by rw [hlog, List.append_nil]) (by simp)).trans (logged t rfl)

/-- So does `unlink`. -/
theorem unlink (s : Store V) (src dst : Int) (type : EdgeType) :
    Keeps E reads s (Item.unlink s src dst type) := by
  unfold Item.unlink
  split
  · exact refl s
  · exact edges rfl rfl rfl [_] rfl (by simp [removedItem])

end Keeps

/-! ## undo -/

section Undo

variable {E : Text → V} {reads : List Pending} {s s' : Store V}

/-- An edge that is put back leaves items, vectors and sources. -/
theorem restoreEdge_eq_ok {e : EdgeRow} (h : restoreEdge s e = .ok s') :
    s'.items = s.items ∧ s'.vectors = s.vectors ∧ s'.sources = s.sources := by
  unfold restoreEdge at h
  split at h
  · cases h
    exact ⟨rfl, rfl, rfl⟩
  · obtain ⟨⟨t, id⟩, ht, rfl⟩ := Tx.map_eq_ok.mp h
    obtain ⟨hitems, hvectors, hsources, -⟩ := Keeps.insertEdge_eq_ok ht
    exact ⟨hitems, hvectors, hsources⟩

/-- So do many. -/
theorem restoreEdges_eq_ok {es : List EdgeRow} (h : es.foldlM restoreEdge s = .ok s') :
    s'.items = s.items ∧ s'.vectors = s.vectors ∧ s'.sources = s.sources := by
  induction es generalizing s with
  | nil =>
      cases h
      exact ⟨rfl, rfl, rfl⟩
  | cons e es ih =>
      rw [List.foldlM_cons] at h
      obtain ⟨t, ht, h⟩ := Tx.bind_eq_ok.mp h
      obtain ⟨hi, hv, hs⟩ := restoreEdge_eq_ok ht
      obtain ⟨hi', hv', hs'⟩ := ih h
      exact ⟨hi'.trans hi, hv'.trans hv, hs'.trans hs⟩

/-- **Inverting a change keeps the rest**, whatever the order that changes are undone in. -/
theorem fresh_invert {pend : List Change} {change : Change} (h : invert s change = .ok s')
    (hf : Fresh E s (change :: pend) reads) : Fresh E s' pend reads ∧ s.items.last ≤ s'.items.last := by
  have hrest : Fresh E s pend reads :=
    hf.changes ((List.sublist_cons_self change pend).filterMap removedItem).subperm
  cases change with
  | insertItem id =>
      cases h
      exact ⟨hrest.deleteItem id, le_rfl⟩
  | updateItem id before =>
      exact ⟨hrest.updateItem h, (@Keeps.updateItem _ E reads _ _ _ _ h).last⟩
  | deleteItem snap =>
      simp only [invert, restoreItem] at h
      split at h
      · cases h
      · split at h
        · cases h
        · next items hitems =>
            obtain ⟨-, hrows, hlast⟩ := AutoTable.tryRestore_eq_some hitems
            obtain ⟨hi, hv, hs⟩ := restoreEdges_eq_ok h
            have hle : s.items.last ≤ s'.items.last := by
              rw [hi, hlast]
              exact le_max_left _ _
            exact ⟨hf.restored (by rw [hi, hrows]) hle hv hs, hle⟩
  | insertEdge id =>
      cases h
      exact ⟨hrest.congr rfl rfl rfl, le_rfl⟩
  | updateEdge id =>
      simp only [invert] at h
      split at h
      · cases h
        exact ⟨hrest, le_rfl⟩
      · cases h
  | deleteEdge e =>
      obtain ⟨⟨t, id⟩, ht, rfl⟩ := Tx.map_eq_ok.mp h
      obtain ⟨hitems, hvectors, hsources, -⟩ := Keeps.insertEdge_eq_ok ht
      exact ⟨hrest.congr hitems hvectors hsources, by rw [hitems]⟩

/-- **An undo keeps what is fresh**: an item comes back without a vector. -/
theorem Fresh.undo {j j' : Journal Change} {txn : Nat}
    (h : Journal.undo invert s j txn = .ok (s', j')) (hf : Fresh E s j.pending reads) :
    Fresh E s' j'.pending reads ∧ s.items.last ≤ s'.items.last := by
  refine @Journal.undo_rule _ _ (fun t pend => Fresh E t pend reads ∧ s.items.last ≤ t.items.last) invert
    (fun t l l' hl ht => ?_) (fun t t' e l he ht => ?_) _ _ _ _ _ h ⟨hf, le_rfl⟩
  · exact ⟨ht.1.changes (hl.symm.filterMap removedItem).subperm, ht.2⟩
  · obtain ⟨hfresh, hle⟩ := fresh_invert he ht.1
    exact ⟨hfresh, ht.2.trans hle⟩

end Undo

/-! ## embedding runs -/

/-- A vector ready to store: the item, the revision it was computed from, and the vector. -/
abbrev Embedded (V : Type) := Int × Int × V

/-- An item with a content, as it is read. -/
def pendingOf (i : ItemRow) : Option Pending :=
  i.content.map fun content => { id := i.id, content, kind := i.kind, rev := i.contentRev }

/-- What an embedding run reads of some items: those that need a vector, and documents. -/
def readPending (s : Store V) (ids : List Int) : List Pending :=
  (s.items.rows.filter fun i =>
    i.id ∈ ids && (pendingPredicate s i || i.kind = KIND_DOCUMENT)).filterMap pendingOf

/-- Embed each of some items from its own text. -/
def embedEach (E : Text → V) (items : List Pending) : List (Embedded V) :=
  items.map fun p => (p.id, p.rev, E p.content)

/-- Write a batch of vectors, and count those that landed. -/
def storeVectors (s : Store V) (embeddings : List (Embedded V)) : Store V × Nat :=
  embeddings.foldl (fun acc e =>
    let (t, landed) := upsertVector acc.1 e.1 e.2.1 e.2.2
    (t, if landed then acc.2 + 1 else acc.2)) (s, 0)

section Embedding

variable {E : Text → V} {s : Store V} {pend : List Change} {reads : List Pending}

/-- What is read as pending is there, at its revision. -/
theorem mem_readPending {ids : List Int} {p : Pending} (h : p ∈ readPending s ids) :
    ∃ i ∈ s.items.rows, i.id = p.id ∧ i.kind = p.kind ∧ i.contentRev = p.rev ∧ i.content = some p.content := by
  obtain ⟨i, hi, hp⟩ := List.mem_filterMap.mp h
  obtain ⟨c, hc, rfl⟩ := Option.map_eq_some_iff.mp hp
  exact ⟨i, (List.mem_filter.mp hi).1, rfl, rfl, rfl, hc⟩

/-- Storing vectors touches neither items nor edges, nor the log. -/
theorem storeVectors_frame (s : Store V) (embeddings : List (Embedded V)) :
    (storeVectors s embeddings).1.items = s.items ∧ (storeVectors s embeddings).1.edges = s.edges ∧
      (storeVectors s embeddings).1.log = s.log := by
  unfold storeVectors
  generalize 0 = landed
  induction embeddings generalizing s landed with
  | nil => exact ⟨rfl, rfl, rfl⟩
  | cons e embeddings ih =>
      obtain ⟨hitems, hedges, hlog⟩ := upsertVector_frame s e.1 e.2.1 e.2.2
      obtain ⟨hi, he, hl⟩ := ih (upsertVector s e.1 e.2.1 e.2.2).1
        (if (upsertVector s e.1 e.2.1 e.2.2).2 then landed + 1 else landed)
      exact ⟨hi.trans hitems, he.trans hedges, hl.trans hlog⟩

/-- What is read of an item that is there agrees with every row that counts. -/
theorem Fresh.read (h : Fresh E s pend reads) (ids : List Int) :
    Fresh E s pend (reads ++ readPending s ids) := by
  refine { h with reads := fun p hp => ?_ }
  rcases List.mem_append.mp hp with hp | hp
  · exact h.reads p hp
  · obtain ⟨i, hi, hid, hkind, hrev, hcontent⟩ := mem_readPending hp
    have hheld : i ∈ held s pend := List.mem_append_left _ hi
    refine ⟨hid ▸ h.issued i hheld, fun j hj hjd => ?_⟩
    obtain rfl := List.inj_on_of_nodup_map h.ids hj hheld (hjd.trans hid.symm)
    exact ⟨hkind, hrev.ge, fun _ => hcontent⟩

/-- A vector that was computed from what was read, by the embedder unless it is a document's. -/
def ComputedFrom (E : Text → V) (reads : List Pending) (e : Embedded V) : Prop :=
  ∃ p ∈ reads, p.id = e.1 ∧ p.rev = e.2.1 ∧ (p.kind ≠ KIND_DOCUMENT → e.2.2 = E p.content)

/-- Storing what was computed keeps the rest, however much later. -/
theorem Fresh.storeVectors (h : Fresh E s pend reads) {embeddings : List (Embedded V)}
    (he : ∀ e ∈ embeddings, ComputedFrom E reads e) :
    Fresh E (Index.storeVectors s embeddings).1 pend reads := by
  unfold Index.storeVectors
  generalize 0 = landed
  induction embeddings generalizing s landed with
  | nil => exact h
  | cons e embeddings ih =>
      rw [List.foldl_cons]
      refine ih ?_ (fun e' he' => he e' (List.mem_cons_of_mem _ he')) _
      refine Fresh.upsertVector h rfl fun i hi hid hrev hkind c hc => ?_
      obtain ⟨p, hp, hpd, hprev, hcomputed⟩ := he e List.mem_cons_self
      obtain ⟨hk, -, hcontent⟩ := (h.reads p hp).2 i (List.mem_append_left _ hi) (hid.trans hpd.symm)
      rw [hcomputed (hk ▸ hkind)]
      rw [hcontent (hprev.trans hrev.symm), Option.some.injEq] at hc
      rw [hc]

end Embedding

/-! ## runs -/

/-- The store, its journal, and everything that embedding runs have read. A run may store what it read in any
later transaction, or never. -/
structure Sys (V : Type) where
  store : Store V
  journal : Journal Change
  reads : List Pending

/-- An empty store. -/
def Sys.start : Sys V := ⟨.empty, .empty, []⟩

/-- Commit a write transaction. A refused one changes nothing. -/
def Sys.commit (s : Sys V) (x : Except Fmt (Store V)) : Sys V :=
  match x with
  | .ok store => { s with store := { store with log := [] }, journal := s.journal.append store.log }
  | .error _ => s

/-- The operations: the writers of items and edges, undo, and the steps of embedding runs. -/
inductive Op (V : Type) where
  | upsert (new : NewItem)
  | setContent (id : Int) (content : Text) (hash : Option Text)
  | writeContent (id : Int) (content : Option Text)
  | setChunkedRev (id rev : Int)
  | remove (id : Int)
  | link (src dst : Int) (type : EdgeType)
  | unlink (src dst : Int) (type : EdgeType)
  | undo (txn : Nat)
  | read (ids : List Int)
  | embed (batch : List Pending)
  | derive (document : Pending) (vector : V)
  | forgetSources
  | clear
  | removeVectors (ids : List Int)
  | dropOrphanVectors

/-- Carry out one operation. -/
def next (E : Text → V) (s : Sys V) : Op V → Sys V
  | .upsert new => s.commit ((upsert s.store new).map (·.1))
  | .setContent id content hash => s.commit (setContent s.store id content hash)
  | .writeContent id content => s.commit (writeContent s.store id content)
  | .setChunkedRev id rev => s.commit (setChunkedRev s.store id rev)
  | .remove id => s.commit (remove s.store id)
  | .link src dst type => s.commit (link s.store src dst type)
  | .unlink src dst type => s.commit (.ok (unlink s.store src dst type))
  | .undo txn =>
      match Journal.undo invert s.store s.journal txn with
      | .ok (store, journal) => { s with store := { store with log := [] }, journal }
      | .error _ => s
  | .read ids => { s with reads := s.reads ++ readPending s.store ids }
  | .embed batch =>
      if batch ⊆ s.reads then { s with store := (storeVectors s.store (embedEach E batch)).1 } else s
  | .derive document vector =>
      if document ∈ s.reads ∧ document.kind = KIND_DOCUMENT then
        { s with store := (storeVectors s.store [(document.id, document.rev, vector)]).1 }
      else s
  | .forgetSources => { s with store := forgetSources s.store }
  | .clear => { s with store := clear s.store }
  | .removeVectors ids => { s with store := ids.foldl removeVector s.store }
  | .dropOrphanVectors => { s with store := dropOrphanVectors s.store }

section Runs

variable {E : Text → V}

/-- The invariant of a run: between transactions nothing is logged that is not in the journal. -/
def Sys.Fresh (E : Text → V) (s : Sys V) : Prop :=
  Index.Fresh E s.store s.journal.pending s.reads ∧ s.store.log = []

/-- A writer that keeps what is fresh can be committed. -/
theorem fresh_commit {s : Sys V} (h : s.Fresh E) {x : Except Fmt (Store V)}
    (hx : ∀ s', x = .ok s' → Keeps E s.reads s.store s') :
    (s.commit x).Fresh E ∧ s.store.items.last ≤ (s.commit x).store.items.last := by
  cases x with
  | error e => exact ⟨h, le_rfl⟩
  | ok s' =>
      obtain ⟨hfresh, hlast⟩ := hx s' rfl
      have hpend : Index.Fresh E s.store (s.journal.pending ++ s.store.log) s.reads := by
        rw [h.2, List.append_nil]
        exact h.1
      refine ⟨⟨?_, rfl⟩, hlast⟩
      show Index.Fresh E { s' with log := [] } (s.journal.append s'.log).pending s.reads
      rw [Journal.pending_append]
      exact (hfresh _ hpend).congr rfl rfl rfl

/-- Vectors and their sources that go keep the rest. -/
theorem Fresh.drop {s s' : Store V} {pend : List Change} {reads : List Pending} (h : Fresh E s pend reads)
    (hitems : s'.items = s.items) (hvectors : s'.vectors.rows ⊆ s.vectors.rows)
    (hsources : s'.sources.rows ⊆ s.sources.rows) : Fresh E s' pend reads := by
  refine h.mono ?_ (by rw [hitems]) (fun v hv => ⟨hvectors hv, hitems ▸ h.vectors v (hvectors hv)⟩)
    (fun r hr => ⟨hsources hr, ?_⟩) fun i hi => Or.inl (hitems ▸ hi)
  · rw [held, hitems]
    exact List.Subperm.refl _
  · rw [hitems]
    exact (h.sources r (hsources hr)).imp fun _ hi => ⟨hi.1, hi.2.1⟩

/-- **The step lemma**: every operation keeps the invariant, and no id comes free. -/
theorem fresh_next {s : Sys V} (h : s.Fresh E) (op : Op V) :
    (next E s op).Fresh E ∧ s.store.items.last ≤ (next E s op).store.items.last := by
  have hdrop : ∀ {s' : Store V}, s'.items = s.store.items → s'.vectors.rows ⊆ s.store.vectors.rows →
      s'.sources.rows ⊆ s.store.sources.rows → s'.log = s.store.log →
        Sys.Fresh E { s with store := s' } ∧ s.store.items.last ≤ s'.items.last :=
    fun hitems hvectors hsources hlog =>
      ⟨⟨h.1.drop hitems hvectors hsources, hlog.trans h.2⟩, by rw [hitems]⟩
  have hstore : ∀ {embeddings : List (Embedded V)}, (∀ e ∈ embeddings, ComputedFrom E s.reads e) →
      Sys.Fresh E { s with store := (storeVectors s.store embeddings).1 } ∧
        s.store.items.last ≤ (storeVectors s.store embeddings).1.items.last := by
    intro embeddings he
    obtain ⟨hitems, -, hlog⟩ := storeVectors_frame s.store embeddings
    exact ⟨⟨h.1.storeVectors he, hlog.trans h.2⟩, by rw [hitems]⟩
  cases op with
  | upsert new =>
      refine fresh_commit h fun s' hs' => ?_
      obtain ⟨⟨t, id⟩, ht, rfl⟩ := Tx.map_eq_ok.mp hs'
      exact Keeps.upsert ht
  | setContent id content hash => exact fresh_commit h fun s' hs' => Keeps.setContent hs'
  | writeContent id content => exact fresh_commit h fun s' hs' => Keeps.writeContent hs'
  | setChunkedRev id rev => exact fresh_commit h fun s' hs' => Keeps.setChunkedRev hs'
  | remove id => exact fresh_commit h fun s' hs' => Keeps.remove hs'
  | link src dst type => exact fresh_commit h fun s' hs' => Keeps.link hs'
  | unlink src dst type =>
      refine fresh_commit h fun s' hs' => ?_
      cases hs'
      exact Keeps.unlink ..
  | undo txn =>
      simp only [next]
      split
      · next store journal hundo =>
          obtain ⟨hfresh, hlast⟩ := h.1.undo hundo
          exact ⟨⟨hfresh.congr rfl rfl rfl, rfl⟩, hlast⟩
      · exact ⟨h, le_rfl⟩
  | read ids => exact ⟨⟨h.1.read ids, h.2⟩, le_rfl⟩
  | embed batch =>
      simp only [next]
      split
      · next hsub =>
          refine hstore fun e he => ?_
          obtain ⟨p, hp, rfl⟩ := List.mem_map.mp he
          exact ⟨p, hsub hp, rfl, rfl, fun _ => rfl⟩
      · exact ⟨h, le_rfl⟩
  | derive document vector =>
      simp only [next]
      split
      · next hdoc =>
          refine hstore fun e he => ?_
          obtain rfl := List.mem_singleton.mp he
          exact ⟨document, hdoc.1, rfl, rfl, fun hne => absurd hdoc.2 hne⟩
      · exact ⟨h, le_rfl⟩
  | forgetSources => exact hdrop rfl (fun _ hv => hv) (List.nil_subset _) rfl
  | clear => exact hdrop rfl (List.nil_subset _) (List.nil_subset _) rfl
  | removeVectors ids =>
      obtain ⟨hitems, hsub, hsources, hlog⟩ := removeVectors_frame s.store ids
      exact hdrop hitems hsub (fun _ hr => hsources ▸ hr) hlog
  | dropOrphanVectors =>
      exact hdrop rfl (fun _ hv => (Table.mem_deleteWhere.mp hv).1) (fun _ hr => hr) rfl

/-- What holds of every state of a run, from any state on. -/
theorem fresh_run {s : Sys V} (h : s.Fresh E) (ops : List (Op V)) :
    (Run.run (next E) s ops).Fresh E ∧ s.store.items.last ≤ (Run.run (next E) s ops).store.items.last :=
  @Run.run_invariant _ _ (next E) (fun t => t.Fresh E ∧ s.store.items.last ≤ t.store.items.last)
    (fun _ op ht => ⟨(fresh_next ht.1 op).1, ht.2.trans (fresh_next ht.1 op).2⟩) s ⟨h, le_rfl⟩ ops

/-- An id that an upsert gives is that of an item that is there, or the next one. -/
theorem upsert_id {s s' : Store V} {new : NewItem} {id : Int} (h : upsert s new = .ok (s', id)) :
    (∃ i ∈ s.items.rows, i.id = id) ∨ id = s.items.last + 1 := by
  unfold upsert at h
  split at h
  · next existing hfind =>
      cases h
      obtain ⟨hash, -, hfind⟩ := Option.bind_eq_some_iff.mp hfind
      exact Or.inl ⟨existing, List.mem_of_find?_eq_some hfind, rfl⟩
  · split at h
    · cases h
    · cases h
      exact Or.inr rfl

/-- **An item never looks embedded for a text it no longer holds**, in every state of a run: an item that the
pending rule does not list has the vector of the text it holds, every vector is of an item that is there, and
an id that is given to a new item was no item's before. -/
theorem embedded_of_not_pending (ops : List (Op V)) :
    let s := (Run.run (next E) .start ops).store
    (∀ i ∈ s.items.rows, i.kind ≠ KIND_DOCUMENT → pendingPredicate s i = false → ∀ c, i.content = some c →
      ∃ v ∈ s.vectors.rows, v.itemId = i.id ∧ v.embedding = E c) ∧
    (∀ v ∈ s.vectors.rows, ∃ i ∈ s.items.rows, i.id = v.itemId) ∧
    (∀ new s' id, upsert s new = .ok (s', id) → (∀ i ∈ s.items.rows, i.id ≠ id) →
      ∀ earlier rest, ops = earlier ++ rest →
        ∀ i ∈ (Run.run (next E) .start earlier).store.items.rows, i.id ≠ id) := by
  intro s
  have hstart : Sys.Fresh E (Sys.start : Sys V) := ⟨fresh_empty E, rfl⟩
  obtain ⟨⟨hfresh, -⟩, -⟩ := fresh_run hstart ops
  refine ⟨fun i hi hkind hnot c hc => ?_, hfresh.vectors, fun new s' id hup hnew earlier rest hops i hi hid => ?_⟩
  · have hlisted : (∃ v ∈ s.vectors.rows, v.itemId = i.id) ∧
        ∃ r ∈ s.sources.rows, r.itemId = i.id ∧ r.contentRev = i.contentRev := by
      simpa [pendingPredicate, hc] using hnot
    obtain ⟨⟨v, hv, hvid⟩, r, hr, hrid, hrev⟩ := hlisted
    exact ⟨v, hv, hvid, hfresh.current i hi hkind r hr hrid hrev v hv hvid c hc⟩
  · have hid' : id = s.items.last + 1 := (upsert_id hup).resolve_left fun ⟨j, hj, hjd⟩ => hnew j hj hjd
    obtain ⟨hearlier, -⟩ := fresh_run hstart earlier
    have hlast : (Run.run (next E) Sys.start earlier).store.items.last ≤ s.items.last := by
      have := (fresh_run hearlier rest).2
      rwa [← Run.run_append, ← hops] at this
    have := (Run.run (next E) Sys.start earlier).store.items.le_last i hi
    omega

end Runs

end Jkb.Index
