import Jkb.Core.Item
import Jkb.Tx

/-!
# Jkb.Core.Item.Sound

What the constraints of the schema keep of items and edges, whatever is written: `uid` and `content_hash` are
unique, an edge is between two items that are there, and no two edges are alike. Each writer has one lemma that says
which rows it leaves, and one that says that it keeps the constraints.
-/

namespace Jkb.Item

open Jkb.Text

variable {V : Type} {s s' : Store V}

/-- The constraints of `items` and `edges`. -/
structure Sound (s : Store V) : Prop where
  uid : ∀ r ∈ s.items.rows, ∀ r' ∈ s.items.rows, r.uid = r'.uid → r = r'
  hash : ∀ r ∈ s.items.rows, ∀ r' ∈ s.items.rows, ∀ h, r.contentHash = some h → r'.contentHash = some h → r = r'
  src : ∀ e ∈ s.edges.rows, ∃ r ∈ s.items.rows, r.id = e.src
  dst : ∀ e ∈ s.edges.rows, ∃ r ∈ s.items.rows, r.id = e.dst
  edge : ∀ e ∈ s.edges.rows, ∀ e' ∈ s.edges.rows, e.src = e'.src → e.dst = e'.dst → e.type = e'.type → e = e'

/-- A store with nothing in it is sound. -/
theorem sound_empty : Sound (.empty : Store V) where
  uid _ hr := (List.not_mem_nil hr).elim
  hash _ hr := (List.not_mem_nil hr).elim
  src _ he := (List.not_mem_nil he).elim
  dst _ he := (List.not_mem_nil he).elim
  edge _ he := (List.not_mem_nil he).elim

/-- Only the items and the edges are constrained. -/
theorem Sound.congr (h : Sound s) (hitems : s'.items = s.items) (hedges : s'.edges = s.edges) : Sound s' := by
  obtain ⟨huid, hhash, hsrc, hdst, hedge⟩ := h
  rw [← hitems] at huid hhash hsrc hdst
  rw [← hedges] at hsrc hdst hedge
  exact ⟨huid, hhash, hsrc, hdst, hedge⟩

/-! ## statements -/

/-- An item that is found is there. -/
theorem item?_eq_some {id : Int} {r : ItemRow} : s.item? id = some r ↔ r ∈ s.items.rows ∧ r.id = id :=
  Table.find?_eq_some

/-- An item is found if it is there. -/
theorem isNone_item? {id : Int} : (s.item? id).isNone = false ↔ ∃ r ∈ s.items.rows, r.id = id := by
  rw [Option.isNone_eq_false_iff, Option.isSome_iff_exists]
  exact exists_congr fun r => item?_eq_some

/-- What is taken is another row's. -/
theorem taken_eq_false {id : Int} {uid : Text} {hash : Option Text} :
    taken s id uid hash = false ↔
      ∀ r ∈ s.items.rows, r.id ≠ id → r.uid ≠ uid ∧ ∀ h, hash = some h → r.contentHash ≠ some h := by
  simp only [taken, List.any_eq_false, Bool.and_eq_true, decide_eq_true_eq, Bool.or_eq_true, not_and, not_or]
  refine forall₂_congr fun r hr => imp_congr_right fun hid => and_congr_right fun _ => ?_
  cases hash with
  | none => simp
  | some h => simp

/-- An update that goes through takes no other item's uid or hash, and writes its columns. -/
theorem updateItem_eq_ok {id : Int} {columns : Columns} (h : updateItem s id columns = .ok s') :
    ∃ r ∈ s.items.rows, r.id = id ∧ taken s id r.uid (r.set columns).contentHash = false ∧
      (∀ x, x ∈ s'.items.rows ↔ ∃ y ∈ s.items.rows, (if y.id = id then y.set columns else y) = x) ∧
      s'.items.last = s.items.last ∧ s'.edges = s.edges ∧ s'.vectors = s.vectors ∧ s'.sources = s.sources := by
  unfold updateItem at h
  split at h
  · cases h
  · next r hr =>
      obtain ⟨hmem, hid⟩ := item?_eq_some.mp hr
      split at h
      · cases h
      · next htaken =>
          cases h
          refine ⟨r, hmem, hid, Bool.eq_false_of_not_eq_true htaken, fun x => ?_, rfl, rfl, rfl, rfl⟩
          refine Iff.trans AutoTable.mem_updateWhere ?_
          simp only [decide_eq_true_eq]

/-- Where the constraints hold, an update that gives no hash goes through. -/
theorem Sound.exists_updateItem (hs : Sound s) {id : Int} {columns : Columns} {r : ItemRow} (hr : r ∈ s.items.rows)
    (hid : r.id = id) (hhash : columns.contentHash = none ∨ columns.contentHash = some none) :
    ∃ s', updateItem s id columns = .ok s' := by
  have htaken : taken s id r.uid (r.set columns).contentHash = false := by
    refine taken_eq_false.mpr fun x hx hne => ⟨fun huid => hne ((hs.uid x hx r hr huid) ▸ hid), fun h hset hxh => ?_⟩
    obtain hnone | hnone := hhash <;> simp only [ItemRow.set, hnone, Option.getD_none, Option.getD_some] at hset
    · exact hne (hs.hash x hx r hr h hxh hset ▸ hid)
    · cases hset
  unfold updateItem
  rw [item?_eq_some.mpr ⟨hr, hid⟩]
  dsimp only
  rw [htaken]
  exact ⟨_, rfl⟩

/-- An update keeps a store sound. -/
theorem Sound.updateItem (hs : Sound s) {id : Int} {columns : Columns} (h : updateItem s id columns = .ok s') :
    Sound s' := by
  obtain ⟨r, hr, hid, htaken, hitems, -, hedges, -⟩ := updateItem_eq_ok h
  have hfree := taken_eq_false.mp htaken
  have hrows : ∀ y ∈ s.items.rows, y.id = id → y = r := fun y hy hyid =>
    Table.eq_of_key_eq _ hy hr (hyid.trans hid.symm)
  have hkept : ∀ e : Int, (∃ r ∈ s.items.rows, r.id = e) → ∃ r ∈ s'.items.rows, r.id = e := by
    rintro e ⟨x, hx, rfl⟩
    exact ⟨_, (hitems _).mpr ⟨x, hx, rfl⟩, by split <;> rfl⟩
  refine ⟨fun x hx x' hx' huid => ?_, fun x hx x' hx' h hxh hxh' => ?_, fun e he => ?_, fun e he => ?_, ?_⟩
  · obtain ⟨y, hy, rfl⟩ := (hitems x).mp hx
    obtain ⟨y', hy', rfl⟩ := (hitems x').mp hx'
    have heq : y.uid = y'.uid := by
      split at huid <;> split at huid <;> exact huid
    rw [hs.uid y hy y' hy' heq]
  · obtain ⟨y, hy, rfl⟩ := (hitems x).mp hx
    obtain ⟨y', hy', rfl⟩ := (hitems x').mp hx'
    by_cases hyid : y.id = id
    · by_cases hyid' : y'.id = id
      · rw [Table.eq_of_key_eq _ hy hy' (hyid.trans hyid'.symm)]
      · rw [if_pos hyid, hrows y hy hyid] at hxh
        rw [if_neg hyid'] at hxh'
        exact absurd hxh' ((hfree y' hy' hyid').2 h hxh)
    · by_cases hyid' : y'.id = id
      · rw [if_pos hyid', hrows y' hy' hyid'] at hxh'
        rw [if_neg hyid] at hxh
        exact absurd hxh ((hfree y hy hyid).2 h hxh')
      · rw [if_neg hyid] at hxh ⊢
        rw [if_neg hyid'] at hxh' ⊢
        exact hs.hash y hy y' hy' h hxh hxh'
  · exact hkept _ (hs.src e (hedges ▸ he))
  · exact hkept _ (hs.dst e (hedges ▸ he))
  · rw [hedges]
    exact hs.edge

/-- The items after one is deleted. -/
theorem mem_items_deleteItem {id : Int} {r : ItemRow} :
    r ∈ (deleteItem s id).items.rows ↔ r ∈ s.items.rows ∧ r.id ≠ id := by
  simp [deleteItem]

/-- The edges of a deleted item go with it. -/
theorem mem_edges_deleteItem {id : Int} {e : EdgeRow} :
    e ∈ (deleteItem s id).edges.rows ↔ e ∈ s.edges.rows ∧ e.src ≠ id ∧ e.dst ≠ id := by
  simp [deleteItem]

/-- A deletion keeps a store sound. -/
theorem Sound.deleteItem (hs : Sound s) (id : Int) : Sound (deleteItem s id) where
  uid r hr r' hr' := hs.uid r (mem_items_deleteItem.mp hr).1 r' (mem_items_deleteItem.mp hr').1
  hash r hr r' hr' := hs.hash r (mem_items_deleteItem.mp hr).1 r' (mem_items_deleteItem.mp hr').1
  src e he := by
    obtain ⟨hmem, hsrc, -⟩ := mem_edges_deleteItem.mp he
    obtain ⟨r, hr, hid⟩ := hs.src e hmem
    exact ⟨r, mem_items_deleteItem.mpr ⟨hr, hid ▸ hsrc⟩, hid⟩
  dst e he := by
    obtain ⟨hmem, -, hdst⟩ := mem_edges_deleteItem.mp he
    obtain ⟨r, hr, hid⟩ := hs.dst e hmem
    exact ⟨r, mem_items_deleteItem.mpr ⟨hr, hid ▸ hdst⟩, hid⟩
  edge e he e' he' := hs.edge e (mem_edges_deleteItem.mp he).1 e' (mem_edges_deleteItem.mp he').1

/-- An edge that is found has the ends and the type. -/
theorem findEdge_eq_some {src dst : Int} {type : EdgeType} {e : EdgeRow} (h : findEdge s src dst type = some e) :
    e ∈ s.edges.rows ∧ e.src = src ∧ e.dst = dst ∧ e.type = type := by
  refine ⟨List.mem_of_find?_eq_some h, ?_⟩
  have hfound := List.find?_some h
  simp only [Bool.and_eq_true, decide_eq_true_eq, and_assoc] at hfound
  exact hfound

/-- An edge that is not found is not there. -/
theorem findEdge_eq_none {src dst : Int} {type : EdgeType} :
    findEdge s src dst type = none ↔ ∀ e ∈ s.edges.rows, e.src = src → e.dst = dst → e.type ≠ type := by
  simp [findEdge, List.find?_eq_none]

/-- A new edge, of the next id. -/
structure Linked (s s' : Store V) (src dst : Int) (type : EdgeType) : Prop where
  items : s'.items = s.items
  edges : ∀ e, e ∈ s'.edges.rows ↔ e ∈ s.edges.rows ∨ e = ⟨s.edges.nextKey, src, dst, type⟩
  free : ∀ e ∈ s.edges.rows, e.src = src → e.dst = dst → e.type ≠ type
  src : ∃ r ∈ s.items.rows, r.id = src
  dst : ∃ r ∈ s.items.rows, r.id = dst
  vectors : s'.vectors = s.vectors
  sources : s'.sources = s.sources

/-- An edge that is inserted is new, and nothing else is. -/
theorem insertEdge_eq_ok {src dst id : Int} {type : EdgeType} (h : insertEdge s none src dst type = .ok (s', id)) :
    Linked s s' src dst type := by
  unfold insertEdge at h
  split at h
  · cases h
  · next hfree =>
      split at h
      · cases h
      · next hends =>
          simp only [Bool.or_eq_true, not_or, Bool.not_eq_true] at hends
          cases h
          refine ⟨rfl, fun e => AutoTable.mem_insertNext, findEdge_eq_none.mp ?_, isNone_item?.mp hends.1,
            isNone_item?.mp hends.2, rfl, rfl⟩
          simpa using hfree

/-- An edge between two items that have none such goes in. -/
theorem exists_insertEdge {src dst : Int} {type : EdgeType}
    (hfree : ∀ e ∈ s.edges.rows, e.src = src → e.dst = dst → e.type ≠ type)
    (hsrc : ∃ r ∈ s.items.rows, r.id = src) (hdst : ∃ r ∈ s.items.rows, r.id = dst) :
    ∃ s' id, insertEdge s none src dst type = .ok (s', id) := by
  unfold insertEdge
  rw [findEdge_eq_none.mpr hfree, isNone_item?.mpr hsrc, isNone_item?.mpr hdst]
  exact ⟨_, _, rfl⟩

/-- A new edge between items keeps a store sound. -/
theorem Sound.linked (hs : Sound s) {src dst : Int} {type : EdgeType} (h : Linked s s' src dst type) : Sound s' where
  uid := h.items ▸ hs.uid
  hash := h.items ▸ hs.hash
  src e he := by
    obtain he | rfl := (h.edges e).mp he
    · exact h.items ▸ hs.src e he
    · exact h.items ▸ h.src
  dst e he := by
    obtain he | rfl := (h.edges e).mp he
    · exact h.items ▸ hs.dst e he
    · exact h.items ▸ h.dst
  edge e he e' he' hsrc hdst htype := by
    obtain he | rfl := (h.edges e).mp he
    · obtain he' | rfl := (h.edges e').mp he'
      · exact hs.edge e he e' he' hsrc hdst htype
      · exact absurd htype (h.free e he hsrc hdst)
    · obtain he' | rfl := (h.edges e').mp he'
      · exact absurd htype.symm (h.free e' he' hsrc.symm hdst.symm)
      · rfl

/-! ## writers -/

/-- A new item, of the next id. -/
structure Inserted (s s' : Store V) (new : NewItem) : Prop where
  items : ∀ r, r ∈ s'.items.rows ↔
    r ∈ s.items.rows ∨ r = ⟨s.items.nextKey, new.uid, new.kind, new.content, new.contentHash, 0, none⟩
  next : s'.items.nextKey = s.items.nextKey + 1
  uid : ∀ r ∈ s.items.rows, r.uid ≠ new.uid
  hash : ∀ h, new.contentHash = some h → ∀ r ∈ s.items.rows, r.contentHash ≠ some h
  edges : s'.edges = s.edges
  vectors : s'.vectors = s.vectors
  sources : s'.sources = s.sources

/-- No item has the next id. -/
theorem ne_nextKey {r : ItemRow} (hr : r ∈ s.items.rows) : r.id ≠ s.items.nextKey :=
  (s.items.key_lt_nextKey hr).ne

/-- No edge is of an item that is not there yet. -/
theorem Sound.src_ne_nextKey (hs : Sound s) {e : EdgeRow} (he : e ∈ s.edges.rows) : e.src ≠ s.items.nextKey := by
  obtain ⟨r, hr, hid⟩ := hs.src e he
  exact hid ▸ ne_nextKey hr

/-- An upsert finds the item with its hash, or inserts one. -/
theorem upsert_eq_ok {new : NewItem} {id : Int} (h : upsert s new = .ok (s', id)) :
    (∃ r ∈ s.items.rows, ∃ hash, new.contentHash = some hash ∧ r.contentHash = some hash ∧ r.id = id ∧ s' = s) ∨
      id = s.items.nextKey ∧ Inserted s s' new := by
  unfold upsert at h
  split at h
  · next existing hfind =>
      cases h
      obtain ⟨hash, hhash, hfind⟩ := Option.bind_eq_some_iff.mp hfind
      exact Or.inl ⟨existing, List.mem_of_find?_eq_some hfind, hash, hhash, by simpa using List.find?_some hfind,
        rfl, rfl⟩
  · next hfind =>
      split at h
      · cases h
      · next htaken =>
          cases h
          have hfree := taken_eq_false.mp (Bool.eq_false_of_not_eq_true htaken)
          exact Or.inr ⟨rfl, fun r => AutoTable.mem_insertNext, rfl, fun r hr => (hfree r hr (ne_nextKey hr)).1,
            fun hash hhash r hr => (hfree r hr (ne_nextKey hr)).2 hash hhash, rfl, rfl, rfl⟩

/-- An item whose uid is free, and whose hash no item has, goes in. -/
theorem exists_inserted {new : NewItem} (huid : ∀ r ∈ s.items.rows, r.uid ≠ new.uid)
    (hhash : ∀ h, new.contentHash = some h → ∀ r ∈ s.items.rows, r.contentHash ≠ some h) :
    ∃ s', upsert s new = .ok (s', s.items.nextKey) ∧ Inserted s s' new := by
  have hfind : (new.contentHash.bind fun hash => s.items.rows.find? (·.contentHash = some hash)) = none := by
    cases hnew : new.contentHash with
    | none => rfl
    | some hash => simpa using hhash hash hnew
  have htaken : taken s s.items.nextKey new.uid new.contentHash = false :=
    taken_eq_false.mpr fun r hr _ => ⟨huid r hr, fun h hh => hhash h hh r hr⟩
  have hup : ∃ s', upsert s new = .ok (s', s.items.nextKey) := by
    unfold upsert
    rw [hfind]
    dsimp only
    rw [htaken]
    exact ⟨_, rfl⟩
  obtain ⟨s', hs'⟩ := hup
  obtain ⟨r, hr, hash, hnew, hrh, -⟩ | ⟨-, hins⟩ := upsert_eq_ok hs'
  · exact absurd hrh (hhash hash hnew r hr)
  · exact ⟨s', hs', hins⟩

/-- So does a new item. -/
theorem Sound.inserted (hs : Sound s) {new : NewItem} (h : Inserted s s' new) : Sound s' where
  uid r hr r' hr' huid := by
    obtain hr | rfl := (h.items r).mp hr
    · obtain hr' | rfl := (h.items r').mp hr'
      · exact hs.uid r hr r' hr' huid
      · exact absurd huid (h.uid r hr)
    · obtain hr' | rfl := (h.items r').mp hr'
      · exact absurd huid.symm (h.uid r' hr')
      · rfl
  hash r hr r' hr' hash hh hh' := by
    obtain hr | rfl := (h.items r).mp hr
    · obtain hr' | rfl := (h.items r').mp hr'
      · exact hs.hash r hr r' hr' hash hh hh'
      · exact absurd hh (h.hash hash hh' r hr)
    · obtain hr' | rfl := (h.items r').mp hr'
      · exact absurd hh' (h.hash hash hh r' hr')
      · rfl
  src e he := by
    obtain ⟨r, hr, hid⟩ := hs.src e (h.edges ▸ he)
    exact ⟨r, (h.items r).mpr (Or.inl hr), hid⟩
  dst e he := by
    obtain ⟨r, hr, hid⟩ := hs.dst e (h.edges ▸ he)
    exact ⟨r, (h.items r).mpr (Or.inl hr), hid⟩
  edge := h.edges ▸ hs.edge

/-- A write of an item's columns. -/
structure Updated (s s' : Store V) (id : Int) (columns : Columns) : Prop where
  mem : ∃ r ∈ s.items.rows, r.id = id
  items : ∀ x, x ∈ s'.items.rows ↔ ∃ y ∈ s.items.rows, (if y.id = id then y.set columns else y) = x
  next : s'.items.nextKey = s.items.nextKey
  edges : s'.edges = s.edges
  vectors : s'.vectors = s.vectors
  sources : s'.sources = s.sources
  sound : Sound s → Sound s'

/-- An update, logged with what it overwrote. -/
theorem updated_of_logged {id : Int} {columns : Columns} {c : Change}
    (h : (updateItem s id columns).map (·.logged c) = .ok s') : Updated s s' id columns := by
  obtain ⟨t, ht, rfl⟩ := Tx.map_eq_ok.mp h
  obtain ⟨r, hr, hid, -, hitems, hlast, hedges, hvectors, hsources⟩ := updateItem_eq_ok ht
  exact ⟨⟨r, hr, hid⟩, hitems, congrArg (· + 1) hlast, hedges, hvectors, hsources,
    fun hs => (hs.updateItem ht).congr rfl rfl⟩

/-- A content that is set with its hash is an update of both. -/
theorem setContent_eq_ok {id : Int} {content : Text} {hash : Option Text} (h : setContent s id content hash = .ok s') :
    Updated s s' id { content := some (some content), contentHash := some hash } := by
  unfold setContent at h
  split at h
  · cases h
  · exact updated_of_logged h

/-- A content that is written is an update of it. -/
theorem writeContent_eq_ok {id : Int} {content : Option Text} (h : writeContent s id content = .ok s') :
    Updated s s' id { content := some content } := by
  unfold writeContent at h
  split at h
  · cases h
  · exact updated_of_logged h

/-- A revision that is recorded is an update of it. -/
theorem setChunkedRev_eq_ok {id rev : Int} (h : setChunkedRev s id rev = .ok s') :
    Updated s s' id { chunkedRev := some (some rev) } := by
  unfold setChunkedRev at h
  split at h
  · cases h
  · exact updated_of_logged h

/-- The revision that an item's chunks were cut from is recorded, whatever there is. -/
theorem Sound.exists_setChunkedRev (hs : Sound s) {id : Int} (rev : Int) (h : ∃ r ∈ s.items.rows, r.id = id) :
    ∃ s', setChunkedRev s id rev = .ok s' := by
  obtain ⟨r, hr, hid⟩ := h
  obtain ⟨t, ht⟩ : ∃ t, Item.updateItem s id { chunkedRev := some (some rev) } = .ok t :=
    hs.exists_updateItem hr hid (Or.inl rfl)
  unfold setChunkedRev
  rw [item?_eq_some.mpr ⟨hr, hid⟩]
  dsimp only
  rw [ht]
  exact ⟨_, rfl⟩

/-- Items that are removed go with their edges, their vectors and what is known of these. -/
structure Removed (s s' : Store V) (ids : List Int) : Prop where
  items : ∀ r, r ∈ s'.items.rows ↔ r ∈ s.items.rows ∧ r.id ∉ ids
  next : s'.items.nextKey = s.items.nextKey
  edges : ∀ e, e ∈ s'.edges.rows ↔ e ∈ s.edges.rows ∧ e.src ∉ ids ∧ e.dst ∉ ids
  vectors : ∀ v, v ∈ s'.vectors.rows ↔ v ∈ s.vectors.rows ∧ v.itemId ∉ ids
  sources : ∀ v, v ∈ s'.sources.rows ↔ v ∈ s.sources.rows ∧ v.itemId ∉ ids
  sound : Sound s → Sound s'

/-- A removal takes one item. -/
theorem remove_eq_ok {id : Int} (h : remove s id = .ok s') : Removed s s' [id] := by
  unfold remove at h
  split at h
  · cases h
  · next r hr =>
      split at h
      · cases h
      · cases h
        refine ⟨fun x => ?_, rfl, fun e => ?_, fun v => ?_, fun v => ?_,
          fun hs => (hs.deleteItem id).congr rfl rfl⟩
        · simp [Store.logged, deleteItem]
        · simp [Store.logged, deleteItem]
        · simp [Store.logged, deleteItem]
        · simp [Store.logged, deleteItem]

/-- An item that is no design can be removed. -/
theorem exists_remove {r : ItemRow} (hr : r ∈ s.items.rows) (hkind : r.kind ≠ KIND_DESIGN) :
    ∃ s', remove s r.id = .ok s' := by
  unfold remove
  rw [item?_eq_some.mpr ⟨hr, rfl⟩]
  dsimp only
  rw [if_neg hkind]
  exact ⟨_, rfl⟩

/-- Where nothing is removed, all is there. -/
theorem Removed.nil (s : Store V) : Removed s s [] where
  items r := by simp
  next := rfl
  edges e := by simp
  vectors v := by simp
  sources v := by simp
  sound := id

/-- Two removals, one after the other. -/
theorem Removed.append {t : Store V} {ids ids' : List Int} (h : Removed s t ids) (h' : Removed t s' ids') :
    Removed s s' (ids ++ ids') where
  items r := by rw [h'.items, h.items, List.mem_append, not_or, and_assoc]
  next := h'.next.trans h.next
  edges e := by
    rw [h'.edges, h.edges]
    simp only [List.mem_append, not_or]
    tauto
  vectors v := by rw [h'.vectors, h.vectors, List.mem_append, not_or, and_assoc]
  sources v := by rw [h'.sources, h.sources, List.mem_append, not_or, and_assoc]
  sound := h'.sound ∘ h.sound

/-- What is left after items have been removed one by one. -/
theorem removeAll_eq_ok {ids : List Int} (h : ids.foldlM remove s = .ok s') : Removed s s' ids := by
  induction ids generalizing s with
  | nil =>
      cases h
      exact .nil _
  | cons id ids ih =>
      rw [List.foldlM_cons] at h
      obtain ⟨t, ht, h⟩ := Tx.bind_eq_ok.mp h
      exact (remove_eq_ok ht).append (ih h)

/-- Items of which none is a design can be removed, each once. -/
theorem exists_removeAll {ids : List Int} (hnodup : ids.Nodup)
    (h : ∀ id ∈ ids, ∃ r ∈ s.items.rows, r.id = id ∧ r.kind ≠ KIND_DESIGN) : ∃ s', ids.foldlM remove s = .ok s' := by
  induction ids generalizing s with
  | nil => exact ⟨s, rfl⟩
  | cons id ids ih =>
      obtain ⟨hnot, hids⟩ := List.nodup_cons.mp hnodup
      obtain ⟨r, hr, rfl, hkind⟩ := h id List.mem_cons_self
      obtain ⟨t, ht⟩ := exists_remove hr hkind
      have hgone := remove_eq_ok ht
      obtain ⟨s', hs'⟩ := ih hids (s := t) fun x hx => by
        obtain ⟨y, hy, rfl, hykind⟩ := h x (List.mem_cons_of_mem _ hx)
        refine ⟨y, (hgone.items y).mpr ⟨hy, ?_⟩, rfl, hykind⟩
        rw [List.mem_singleton]
        rintro heq
        exact hnot (heq ▸ hx)
      exact ⟨s', by rw [List.foldlM_cons]; exact Tx.bind_eq_ok.mpr ⟨t, ht, hs'⟩⟩

/-- A link makes an edge, or finds it. -/
theorem link_eq_ok {src dst : Int} {type : EdgeType} (h : link s src dst type = .ok s') :
    (s'.items = s.items ∧ s'.edges = s.edges ∧ s'.vectors = s.vectors ∧ s'.sources = s.sources ∧
      ∃ e ∈ s.edges.rows, e.src = src ∧ e.dst = dst ∧ e.type = type) ∨ Linked s s' src dst type := by
  unfold link at h
  split at h
  · next e he =>
      cases h
      exact Or.inl ⟨rfl, rfl, rfl, rfl, e, findEdge_eq_some he⟩
  · obtain ⟨⟨t, id⟩, ht, rfl⟩ := Tx.map_eq_ok.mp h
    obtain ⟨hitems, hedges, hfree, hsrc, hdst, hvectors, hsources⟩ := insertEdge_eq_ok ht
    exact Or.inr ⟨hitems, hedges, hfree, hsrc, hdst, hvectors, hsources⟩

/-- Two items that are there, with no such edge, can be linked. -/
theorem exists_linked {src dst : Int} {type : EdgeType}
    (hfree : ∀ e ∈ s.edges.rows, e.src = src → e.dst = dst → e.type ≠ type)
    (hsrc : ∃ r ∈ s.items.rows, r.id = src) (hdst : ∃ r ∈ s.items.rows, r.id = dst) :
    ∃ s', link s src dst type = .ok s' ∧ Linked s s' src dst type := by
  obtain ⟨t, id, ht⟩ := exists_insertEdge hfree hsrc hdst
  obtain ⟨hitems, hedges, hfree, hsrc, hdst, hvectors, hsources⟩ := insertEdge_eq_ok ht
  refine ⟨t.logged (.insertEdge id), ?_, hitems, hedges, hfree, hsrc, hdst, hvectors, hsources⟩
  unfold link
  rw [findEdge_eq_none.mpr hfree]
  dsimp only
  rw [ht]
  rfl

/-- A link keeps a store sound. -/
theorem Sound.link (hs : Sound s) {src dst : Int} {type : EdgeType} (h : link s src dst type = .ok s') : Sound s' := by
  obtain ⟨hitems, hedges, -⟩ | hlinked := link_eq_ok h
  · exact hs.congr hitems hedges
  · exact hs.linked hlinked

/-- An unlink takes the edges of its kind between the two items, and no others. -/
theorem Sound.mem_edges_unlink (hs : Sound s) {src dst : Int} {type : EdgeType} {e : EdgeRow} :
    e ∈ (unlink s src dst type).edges.rows ↔ e ∈ s.edges.rows ∧ ¬ (e.src = src ∧ e.dst = dst ∧ e.type = type) := by
  unfold unlink
  split
  · next hnone =>
      have hfree := findEdge_eq_none.mp hnone
      exact ⟨fun he => ⟨he, fun h => hfree e he h.1 h.2.1 h.2.2⟩, And.left⟩
  · next e' he' =>
      obtain ⟨hmem', hsrc', hdst', htype'⟩ := findEdge_eq_some he'
      simp only [Store.logged, AutoTable.mem_deleteWhere, decide_eq_false_iff_not]
      refine and_congr_right fun he => not_congr ⟨fun hid => ?_, fun h => ?_⟩
      · rw [Table.eq_of_key_eq _ he hmem' hid]
        exact ⟨hsrc', hdst', htype'⟩
      · rw [hs.edge e he e' hmem' (h.1.trans hsrc'.symm) (h.2.1.trans hdst'.symm) (h.2.2.trans htype'.symm)]

/-- To unlink is to change the edges alone. -/
theorem unlink_frame (s : Store V) (src dst : Int) (type : EdgeType) :
    (unlink s src dst type).items = s.items ∧ (unlink s src dst type).vectors = s.vectors ∧
      (unlink s src dst type).sources = s.sources := by
  unfold unlink
  split <;> exact ⟨rfl, rfl, rfl⟩

/-- To unlink keeps a store sound. -/
theorem Sound.unlink (hs : Sound s) (src dst : Int) (type : EdgeType) : Sound (unlink s src dst type) where
  uid := (unlink_frame s src dst type).1 ▸ hs.uid
  hash := (unlink_frame s src dst type).1 ▸ hs.hash
  src e he := (unlink_frame s src dst type).1 ▸ hs.src e (hs.mem_edges_unlink.mp he).1
  dst e he := (unlink_frame s src dst type).1 ▸ hs.dst e (hs.mem_edges_unlink.mp he).1
  edge e he e' he' := hs.edge e (hs.mem_edges_unlink.mp he).1 e' (hs.mem_edges_unlink.mp he').1

end Jkb.Item
