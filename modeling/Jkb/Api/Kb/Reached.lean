import Jkb.Api.Kb
import Jkb.Core.Ns.Path

/-!
# Jkb.Api.Kb.Reached

What a tree from the top level shows. Every namespace is listed, for one that holds another expands; an item is listed
where it is placed or in the item that contains it, as long as each container above it is listed and can be opened. An
item is hidden by a container that is terminal or whose uid names a namespace, and a chunk by a namespace that holds
nothing else (`Unhidden`). Nothing else is (`tree_appears`).
-/

namespace Jkb.Kb

open Jkb.Text Jkb.Ns Jkb.Outline Relation

section

variable {x : Outside} {s : Store} {all : Bool}

/-! ## what a place lists -/

/-- A visible item is listed. -/
theorem mem_itemChildren {items : List Substrate.ItemRow} {i : Substrate.ItemRow} (hi : i ∈ items)
    (hvisible : visible all i.status = true) : itemChild s i ∈ itemChildren s all items :=
  List.mem_map_of_mem (List.mem_filter.mpr ⟨hi, hvisible⟩)

/-- Every namespace is listed, and every item beside them. -/
theorem spaceChildren_eq_ok {spaces : List (Int × Text)} {items : List Substrate.ItemRow} {kids : List Child}
    (h : spaceChildren x s all spaces items = .ok kids) :
    (∀ n ∈ spaces, ∃ c ∈ kids, spaceChild x s all n = .ok c) ∧ ∀ c ∈ itemChildren s all items, c ∈ kids := by
  obtain ⟨made, hmade, h⟩ := Tx.bind_eq_ok.mp h
  cases h
  refine ⟨fun n hn => ?_, fun c hc => ?_⟩
  · obtain ⟨c, hc, hok⟩ := Tx.exists_mem_of_mapM hmade n hn
    exact ⟨c, (List.mem_insertionSort _).mpr (List.mem_append_left _ hc), hok⟩
  · exact (List.mem_insertionSort _).mpr (List.mem_append_right _ hc)

/-- A namespace without a parent is a root. -/
theorem mem_nsRoots {rows : List Namespace} {r : Namespace} (hr : r ∈ rows) (hparent : r.parentId = none) :
    (r.id, r.path) ∈ nsRoots rows := by
  rw [nsRoots, List.mem_insertionSort]
  exact List.mem_map.mpr ⟨r, List.mem_filter.mpr ⟨hr, decide_eq_true hparent⟩, rfl⟩

/-- A namespace is among the children of its parent. -/
theorem mem_nsChildren {nfc : Text → Text} {rows : List Namespace} {below : List (Int × Text)} {c p : Namespace}
    (h : nsChildren nfc rows p.path = .ok below) (hnormal : normalize nfc p.path = .ok p.path) (hc : c ∈ rows)
    (hp : p ∈ rows) (hparent : c.parentId = some p.id) : (c.id, c.path) ∈ below := by
  rw [nsChildren, hnormal] at h
  cases h
  rw [List.mem_insertionSort]
  refine List.mem_map.mpr ⟨c, List.mem_filter.mpr ⟨hc, ?_⟩, rfl⟩
  exact List.any_eq_true.mpr ⟨p, hp, decide_eq_true ⟨hparent, rfl⟩⟩

/-- An item that nothing contains is listed in the namespaces that it is placed in. -/
theorem mem_itemsDirectlyIn {p : Substrate.PlacementRow} {i : Substrate.ItemRow} (hp : p ∈ s.placements.rows)
    (hi : s.item? p.itemId = some i) (hfree : Containment.parent (contained s) p.itemId = none) :
    i ∈ itemsDirectlyIn s p.namespaceId := by
  refine List.mem_filterMap.mpr ⟨p, (List.mem_insertionSort _).mpr (List.mem_filter.mpr ⟨hp, ?_⟩), hi⟩
  exact decide_eq_true ⟨rfl, hfree⟩

/-- What is contained has a row in the containment. -/
theorem mem_containedRows {c p : Int} (h : Containment.Inside (contained s) c p) :
    ∃ r ∈ (contained s).rows.filter fun r => r.parent = p, r.child = c := by
  obtain ⟨r, hr, rfl⟩ := Option.map_eq_some_iff.mp h
  exact ⟨r, List.mem_filter.mpr ⟨Table.mem_of_find? hr, decide_eq_true rfl⟩, Table.key_of_find? hr⟩

/-- What is contained is listed below its container. -/
theorem mem_containedItems {p : Int} {i : Substrate.ItemRow} (hi : s.item? i.id = some i)
    (h : Containment.Inside (contained s) i.id p) : i ∈ containedItems s p := by
  obtain ⟨r, hr, hchild⟩ := mem_containedRows h
  exact List.mem_filterMap.mpr ⟨r, (List.mem_insertionSort _).mpr hr, hchild ▸ hi⟩

/-! ## what expands -/

/-- An item that contains another expands. -/
theorem hasChildren_itemChild {c i : Substrate.ItemRow} (hi : s.item? i.id = some i)
    (h : Containment.Inside (contained s) i.id c.id) : (itemChild s c).hasChildren = true := by
  obtain ⟨r, hr, hchild⟩ := mem_containedRows h
  have hmem : i ∈ ((contained s).rows.filter fun r => r.parent = c.id).filterMap fun r => s.item? r.child :=
    List.mem_filterMap.mpr ⟨r, hr, hchild ▸ hi⟩
  have hcounts : ((childCounts s c.id).any fun n => 0 < n.1) = true := by
    rw [childCounts, if_neg fun hempty => List.ne_nil_of_mem hmem (List.isEmpty_iff.mp hempty)]
    exact decide_eq_true (List.length_pos_of_mem hmem)
  exact (Bool.or_eq_true _ _).mpr (Or.inl hcounts)

/-- An item is placed in a namespace. -/
def PlacedIn (s : Store) (i : Substrate.ItemRow) (n : Namespace) : Prop :=
  ∃ p ∈ s.placements.rows, p.itemId = i.id ∧ p.namespaceId = n.id

/-- **A namespace that opens**: another is directly below it, or it holds a visible item that is counted. -/
def Opens (s : Store) (all : Bool) (n : Namespace) : Prop :=
  (∃ c ∈ s.spaces, c.parentId = some n.id) ∨
    ∃ i ∈ s.items.rows, PlacedIn s i n ∧ visible all i.status = true ∧ (all = true ∨ i.kind ≠ KIND_CHUNK)

/-- The kind of a visible item is counted in its namespace. -/
theorem mem_leafKinds {n : Namespace} {i : Substrate.ItemRow} (hi : i ∈ s.items.rows) (hplaced : PlacedIn s i n)
    (hvisible : visible all i.status = true) : ∃ count, (i.kind, count) ∈ leafKinds s all n.id ∧ 0 < count := by
  obtain ⟨p, hp, hitem, hspace⟩ := hplaced
  let sub := n.id :: Rooted.descend (Ns.children s.spaces) COUNTED_DEPTH n.id
  let leaves := s.items.rows.filter fun i =>
    visible all i.status && s.placements.rows.any fun p => p.itemId = i.id ∧ p.namespaceId ∈ sub
  have hplaces : (s.placements.rows.any fun p => p.itemId = i.id ∧ p.namespaceId ∈ sub) = true :=
    List.any_eq_true.mpr ⟨p, hp, decide_eq_true ⟨hitem, hspace ▸ List.mem_cons_self⟩⟩
  have hleaf : i ∈ leaves := List.mem_filter.mpr ⟨hi, (Bool.and_eq_true _ _).mpr ⟨hvisible, hplaces⟩⟩
  refine ⟨leaves.countP (·.kind = i.kind), List.mem_map.mpr ⟨i.kind, ?_, rfl⟩, ?_⟩
  · exact (List.mem_insertionSort _).mpr (List.mem_dedup.mpr (List.mem_map_of_mem hleaf))
  · exact List.countP_pos_iff.mpr ⟨i, hleaf, decide_eq_true rfl⟩

/-- What the child of a namespace says of it. -/
theorem spaceChild_eq_ok {n : Namespace} {c : Child} (h : spaceChild x s all (n.id, n.path) = .ok c) :
    c.reference = n.path ∧ ∃ below kinds, nsChildren x.nfc s.spaces n.path = .ok below ∧
      kinds = (if all then leafKinds s all n.id else (leafKinds s all n.id).filter (·.1 ≠ KIND_CHUNK)) ∧
      c.hasChildren = (!below.isEmpty || decide (0 < (kinds.map (·.2)).sum)) := by
  obtain ⟨below, hbelow, h⟩ := Tx.bind_eq_ok.mp h
  cases h
  exact ⟨rfl, below, _, hbelow, rfl, rfl⟩

/-- A namespace that opens expands. -/
theorem hasChildren_spaceChild {n : Namespace} {c : Child} (hn : n ∈ s.spaces)
    (hnormal : normalize x.nfc n.path = .ok n.path) (hopens : Opens s all n)
    (h : spaceChild x s all (n.id, n.path) = .ok c) : c.hasChildren = true := by
  obtain ⟨-, below, kinds, hbelow, hkinds, hchildren⟩ := spaceChild_eq_ok h
  rw [hchildren, Bool.or_eq_true]
  rcases hopens with ⟨m, hm, hparent⟩ | ⟨i, hi, hplaced, hvisible, hkind⟩
  · refine Or.inl ?_
    rw [Bool.not_eq_true', List.isEmpty_eq_false_iff]
    exact List.ne_nil_of_mem (mem_nsChildren hbelow hnormal hm hn hparent)
  · refine Or.inr (decide_eq_true (List.sum_pos_iff_exists_pos_nat.mpr ?_))
    obtain ⟨count, hmem, hpos⟩ := mem_leafKinds hi hplaced hvisible
    refine ⟨count, List.mem_map.mpr ⟨(i.kind, count), ?_, rfl⟩, hpos⟩
    rw [hkinds]
    split
    · exact hmem
    · next hall => exact List.mem_filter.mpr ⟨hmem, decide_eq_true (hkind.resolve_left hall)⟩

/-! ## the walk -/

/-- A child expands. -/
def Expands (c : Child) : Prop := c.hasChildren = true

/-- What a place lists. -/
def Listing (x : Outside) (s : Store) (all : Bool) (place : Option Text) (kids : List Child) : Prop :=
  children x s all place = .ok kids

/-- A step of a walk that was not cut short lists its child, and what is below it where it goes down. -/
theorem listChild_eq_ok {down : Down} {above : List Text} {out out' : List TreeNode} {w w' : TreeWalk} {c : Child}
    (h : listChild x down above (out, w) c = .ok (out', w')) (hcut : w'.cut = .whole) :
    w.cut = .whole ∧ ∃ t, out' = out ++ [t] ∧ t.child = c ∧
      ∀ go, down = some go → Expands c → c.reference ∉ above →
        ∃ w₁, go c.reference (c.reference :: above) w₁ = .ok (t.children, w') := by
  unfold listChild at h
  dsimp only at h
  split at h
  case isTrue hne =>
    cases h
    exact absurd hcut hne
  case isFalse hwhole =>
    split at h
    case isTrue =>
      cases h
      cases hcut
    case isFalse =>
      split at h
      case isTrue =>
        cases h
        cases hcut
      case isFalse =>
        obtain ⟨⟨sub, w₂⟩, hsub, h⟩ := Tx.map_eq_ok.mp h
        cases h
        refine ⟨not_not.mp hwhole, .mk c sub, rfl, rfl, ?_⟩
        rintro go rfl hexpands hfresh
        rw [nested, if_pos ⟨hexpands, hfresh⟩] at hsub
        exact ⟨_, hsub⟩

/-- A walk that is not cut lists every child, each with what is below it. -/
theorem foldlM_listChild {down : Down} {above : List Text} {kids : List Child} {out nodes : List TreeNode}
    {w w' : TreeWalk} (h : kids.foldlM (listChild x down above) (out, w) = .ok (nodes, w')) (hcut : w'.cut = .whole) :
    w.cut = .whole ∧ ∃ more, nodes = out ++ more ∧ more.map Node.child = kids ∧
      ∀ t ∈ more, ∀ go, down = some go → Expands t.child → t.child.reference ∉ above →
        ∃ w₁ w₂, go t.child.reference (t.child.reference :: above) w₁ = .ok (t.children, w₂) ∧ w₂.cut = .whole := by
  induction kids generalizing out w with
  | nil =>
      cases h
      exact ⟨hcut, [], (List.append_nil _).symm, rfl, fun t ht => absurd ht List.not_mem_nil⟩
  | cons c kids ih =>
      obtain ⟨⟨out₁, w₁⟩, hstep, hrest⟩ := Tx.bind_eq_ok.mp h
      obtain ⟨hcut₁, more, rfl, hmap, hmore⟩ := ih hrest
      obtain ⟨hcut₀, t, rfl, rfl, ht⟩ := listChild_eq_ok hstep hcut₁
      refine ⟨hcut₀, t :: more, by rw [List.append_assoc, List.singleton_append], by rw [List.map_cons, hmap], ?_⟩
      intro t' ht'
      rcases List.mem_cons.mp ht' with rfl | ht'
      · intro go hgo hexpands hfresh
        obtain ⟨w₀, hdown⟩ := ht go hgo hexpands hfresh
        exact ⟨w₀, w₁, hdown, hcut₁⟩
      · exact hmore t' ht'

/-- **A walk that was not cut short is whole**, down to its last level. -/
theorem whole_level {n : Nat} {place : Option Text} {above : List Text} {w w' : TreeWalk} {nodes : List TreeNode}
    (h : level x s all n place above w = .ok (nodes, w')) (hcut : w'.cut = .whole) :
    Whole (Listing x s all) Child.reference Expands n place above nodes := by
  induction n generalizing place above w w' nodes with
  | zero =>
      obtain ⟨kids, hkids, hfold⟩ := Tx.bind_eq_ok.mp h
      obtain ⟨-, more, rfl, hmap, -⟩ := foldlM_listChild hfold hcut
      exact hkids.trans (congrArg Except.ok hmap.symm)
  | succ n ih =>
      obtain ⟨kids, hkids, hfold⟩ := Tx.bind_eq_ok.mp h
      obtain ⟨-, more, rfl, hmap, hmore⟩ := foldlM_listChild hfold hcut
      refine ⟨hkids.trans (congrArg Except.ok hmap.symm), fun t ht hexpands hfresh => ?_⟩
      obtain ⟨w₁, w₂, hdown, hcut₂⟩ := hmore t ht _ rfl hexpands hfresh
      exact ih hdown hcut₂

/-! ## the namespaces -/

/-- What the schema and the writers keep: no two items of one uid, every contained item and every container there,
namespaces under one another in a forest, and each under a path that is found again. -/
structure Intact (x : Outside) (s : Store) : Prop where
  uids : (s.items.rows.map (·.uid)).Nodup
  inside : ∀ c p, Containment.Inside (contained s) c p → (s.item? c).isSome = true ∧ (s.item? p).isSome = true
  placed : ∀ p ∈ s.placements.rows, ∃ n ∈ s.spaces, n.id = p.namespaceId
  rooted : Graph.Acyclic fun c p => ∃ r ∈ s.spaces, r.id = c ∧ r.parentId = some p
  normal : ∀ n ∈ s.spaces, normalize x.nfc n.path = .ok n.path

/-- A uid that is read as a namespace's path. -/
def NamesSpace (x : Outside) (s : Store) (uid : Text) : Prop := ∃ n, Ns.get x.nfc s.spaces uid = .ok (some n)

/-- The parent of a namespace. -/
def spaceUp (s : Store) (id : Int) : Option Int := (s.namespaces.toTable.find? id).bind (·.parentId)

/-- The parent of a namespace is the one of its row. -/
theorem spaceUp_of_mem {n : Namespace} (hn : n ∈ s.spaces) : spaceUp s n.id = n.parentId := by
  have hfound : s.namespaces.toTable.find? n.id = some n := Table.find?_eq_some.mpr ⟨hn, rfl⟩
  rw [spaceUp, hfound]
  rfl

/-- A namespace with a parent has a row. -/
theorem spaceUp_eq_some {id p : Int} (h : spaceUp s id = some p) : ∃ n ∈ s.spaces, n.id = id ∧ n.parentId = some p := by
  obtain ⟨n, hn, hparent⟩ := Option.bind_eq_some_iff.mp h
  exact ⟨n, Table.mem_of_find? hn, Table.key_of_find? hn, hparent⟩

/-- No namespace is below itself. -/
theorem Intact.acyclic (hs : Intact x s) : Graph.Acyclic (Rooted.Up (spaceUp s)) :=
  hs.rooted.mono fun _ _ h => spaceUp_eq_some h

/-- A path names one namespace. -/
theorem space_of_path {n m : Namespace} (hn : n ∈ s.spaces) (hm : m ∈ s.spaces) (h : n.path = m.path) : n = m :=
  List.inj_on_of_nodup_map s.namespaces.unique hn hm h

/-- A namespace's path is read as it. -/
theorem Intact.get (hs : Intact x s) {n : Namespace} (hn : n ∈ s.spaces) :
    Ns.get x.nfc s.spaces n.path = .ok (some n.id) := by
  rw [Ns.get, hs.normal n hn]
  refine congrArg Except.ok ?_
  have hfound : (s.spaces.find? fun r => r.path = n.path).isSome = true :=
    List.find?_isSome.mpr ⟨n, hn, decide_eq_true rfl⟩
  obtain ⟨m, hm⟩ := Option.isSome_iff_exists.mp hfound
  have hpath : m.path = n.path := by simpa using List.find?_some hm
  dsimp only
  rw [hm, space_of_path (List.mem_of_find?_eq_some hm) hn hpath]
  rfl

/-- A level of the tree that can be reached. -/
abbrev Reached (x : Outside) (s : Store) (all : Bool) := Level (Listing x s all) Child.reference Expands

/-- Every level that can be reached is listed. -/
def Shows (x : Outside) (s : Store) (all : Bool) (nodes : List TreeNode) : Prop :=
  ∀ place above under, Reached x s all place above under →
    ∃ kids, Listing x s all place kids ∧ ∀ c ∈ kids, Lists none nodes under c

/-- A whole tree shows all that can be reached. -/
theorem shows_of_tree {nodes : List TreeNode} {depth : Option Nat} {budget : Budget}
    (htree : tree x s all none depth budget = .ok (nodes, .whole))
    (hfits : Fits Child.reference Expands (depthLimit depth) [] nodes) : Shows x s all nodes := by
  obtain ⟨⟨nodes', w⟩, hlevel, heq⟩ := Tx.map_eq_ok.mp htree
  obtain ⟨rfl, hcut⟩ := Prod.mk.inj heq
  exact fun place above under => lists_of_level (fun _ a b ha hb => Except.ok.inj (ha.symm.trans hb))
    (whole_level hlevel hcut) hfits

/-- A namespace is listed at a level that is reached below the namespaces above it alone. -/
def SpaceListed (x : Outside) (s : Store) (all : Bool) (n : Namespace) : Prop :=
  ∃ place above under kids, Reached x s all place above under ∧ Listing x s all place kids ∧
    (∃ c ∈ kids, spaceChild x s all (n.id, n.path) = .ok c) ∧
    ∀ k ∈ above, ∃ m ∈ s.spaces, k = m.path ∧ TransGen (Rooted.Up (spaceUp s)) n.id m.id

/-- A listed namespace that opens is a level of its own. -/
theorem SpaceListed.reached (hs : Intact x s) {n : Namespace} (hn : n ∈ s.spaces) (hopens : Opens s all n)
    (h : SpaceListed x s all n) :
    ∃ above c, Reached x s all (some n.path) (n.path :: above) (some c) ∧ spaceChild x s all (n.id, n.path) = .ok c ∧
      ∀ k ∈ above, ∃ m ∈ s.spaces, k = m.path ∧ TransGen (Rooted.Up (spaceUp s)) n.id m.id := by
  obtain ⟨place, above, under, kids, hreached, hkids, ⟨c, hc, hchild⟩, hkeys⟩ := h
  obtain ⟨href, -⟩ := spaceChild_eq_ok hchild
  have hexpands : Expands c := hasChildren_spaceChild hn (hs.normal n hn) hopens hchild
  have hfresh : c.reference ∉ above := by
    intro hmem
    obtain ⟨m, hm, hpath, hup⟩ := hkeys _ hmem
    obtain rfl := space_of_path hn hm (href.symm.trans hpath)
    exact hs.acyclic n.id hup
  have hdown := hreached.down hkids hc hexpands hfresh
  rw [href] at hdown
  exact ⟨above, c, hdown, hchild, hkeys⟩

/-- What a namespace lists. -/
theorem listing_space (hs : Intact x s) {n : Namespace} (hn : n ∈ s.spaces) {kids : List Child}
    (h : Listing x s all (some n.path) kids) :
    (∀ c ∈ s.spaces, c.parentId = some n.id → ∃ k ∈ kids, spaceChild x s all (c.id, c.path) = .ok k) ∧
      ∀ c ∈ itemChildren s all (itemsDirectlyIn s n.id), c ∈ kids := by
  rw [Listing, children, hs.get hn] at h
  obtain ⟨found, hfound, h⟩ := Tx.bind_eq_ok.mp h
  cases hfound
  obtain ⟨below, hbelow, h⟩ := Tx.bind_eq_ok.mp h
  obtain ⟨hspaces, hitems⟩ := spaceChildren_eq_ok h
  exact ⟨fun c hc hparent => hspaces _ (mem_nsChildren hbelow (hs.normal n hn) hc hn hparent), hitems⟩

/-- **Every namespace is listed.** -/
theorem spaceListed (hs : Intact x s) {nodes : List TreeNode} (hshows : Shows x s all nodes) {n : Namespace}
    (hn : n ∈ s.spaces) : SpaceListed x s all n := by
  have hkeys : ∀ a b, spaceUp s a = some b → a ∈ s.spaces.map (·.id) := by
    intro a b h
    obtain ⟨m, hm, rfl, -⟩ := spaceUp_eq_some h
    exact List.mem_map_of_mem hm
  obtain ⟨hpath, hroot⟩ := Rooted.rootOf_climb hs.acyclic hkeys n.id
  -- from the root down, along the parents
  generalize Rooted.climb (spaceUp s) _ n.id = root at hpath hroot
  generalize hid : n.id = id at hpath
  induction hpath using ReflTransGen.head_induction_on generalizing n with
  | refl =>
      rw [← hid, spaceUp_of_mem hn] at hroot
      obtain ⟨kids, hkids, -⟩ := hshows none [] none .top
      refine ⟨none, [], none, kids, .top, hkids, ?_, fun k hk => absurd hk List.not_mem_nil⟩
      exact (spaceChildren_eq_ok hkids).1 _ (mem_nsRoots hn hroot)
  | @head a b hup _ ih =>
      subst hid
      have hparent : n.parentId = some b := (spaceUp_of_mem hn).symm.trans hup
      obtain ⟨q, hq, rfl⟩ := s.namespaces.linked n hn b hparent
      obtain ⟨above, c, hreached, -, habove⟩ := (ih hq rfl).reached hs hq (Or.inl ⟨n, hn, hparent⟩)
      obtain ⟨kids, hkids, -⟩ := hshows _ _ _ hreached
      refine ⟨_, _, _, kids, hreached, hkids, (listing_space hs hq hkids).1 n hn hparent, fun k hk => ?_⟩
      rcases List.mem_cons.mp hk with rfl | hk
      · exact ⟨q, hq, rfl, .single hup⟩
      · obtain ⟨m, hm, rfl, hm'⟩ := habove k hk
        exact ⟨m, hm, rfl, .head hup hm'⟩

/-! ## the items -/

/-- A child is where an item is listed: its container, or a namespace it is placed in. -/
def ListedUnder (x : Outside) (s : Store) (all : Bool) (i : Substrate.ItemRow) (under : Child) : Prop :=
  match Containment.parent (contained s) i.id with
  | some p => ∃ c, s.item? p = some c ∧ under = itemChild s c
  | none => ∃ n ∈ s.spaces, PlacedIn s i n ∧ spaceChild x s all (n.id, n.path) = .ok under

/-- An item appears in a tree, where it belongs. -/
def Appears (x : Outside) (s : Store) (all : Bool) (nodes : List TreeNode) (i : Substrate.ItemRow) : Prop :=
  ∃ under, Lists none nodes (some under) (itemChild s i) ∧ ListedUnder x s all i under

/-- **Nothing hides an item**: it and its containers are visible, no container's uid names a namespace, and the
outermost is placed in a namespace that opens. -/
structure Unhidden (x : Outside) (s : Store) (all : Bool) (i : Substrate.ItemRow) : Prop where
  shown : ∀ a ∈ s.items.rows, ReflTransGen (Containment.Inside (contained s)) i.id a.id → visible all a.status = true
  named : ∀ a ∈ s.items.rows, TransGen (Containment.Inside (contained s)) i.id a.id → ¬ NamesSpace x s a.uid
  opened : ∀ a ∈ s.items.rows, ReflTransGen (Containment.Inside (contained s)) i.id a.id →
    Containment.parent (contained s) a.id = none → ∃ n ∈ s.spaces, PlacedIn s a n ∧ Opens s all n

/-- What contains an item that is not hidden is not hidden. -/
theorem Unhidden.container {i c : Substrate.ItemRow} (h : Unhidden x s all i)
    (hinside : Containment.Inside (contained s) i.id c.id) : Unhidden x s all c :=
  ⟨fun a ha hpath => h.shown a ha (.head hinside hpath), fun a ha hpath => h.named a ha (.head hinside hpath),
    fun a ha hpath => h.opened a ha (.head hinside hpath)⟩

/-- An item is found under its id. -/
theorem item?_of_mem {i : Substrate.ItemRow} (hi : i ∈ s.items.rows) : s.item? i.id = some i :=
  Table.find?_eq_some.mpr ⟨hi, rfl⟩

/-- An item is listed at a level that is reached below namespaces and its containers alone. -/
def ItemListed (x : Outside) (s : Store) (all : Bool) (i : Substrate.ItemRow) : Prop :=
  ∃ place above under kids, Reached x s all place above (some under) ∧ Listing x s all place kids ∧
    itemChild s i ∈ kids ∧ ListedUnder x s all i under ∧
    ∀ k ∈ above, (∃ m ∈ s.spaces, k = m.path) ∨
      ∃ j ∈ s.items.rows, TransGen (Containment.Inside (contained s)) i.id j.id ∧ k = j.uid

/-- An item that nothing contains is listed in a namespace it is placed in, if that opens. -/
theorem itemListed_placed (hs : Intact x s) {nodes : List TreeNode} (hshows : Shows x s all nodes)
    {i : Substrate.ItemRow} (hi : i ∈ s.items.rows) (h : Unhidden x s all i)
    (hfree : Containment.parent (contained s) i.id = none) : ItemListed x s all i := by
  obtain ⟨n, hn, ⟨p, hp, hitem, hspace⟩, hopens⟩ := h.opened i hi .refl hfree
  obtain ⟨above, c, hreached, hchild, habove⟩ := (spaceListed hs hshows hn).reached hs hn hopens
  obtain ⟨kids, hkids, -⟩ := hshows _ _ _ hreached
  have hdirect : i ∈ itemsDirectlyIn s n.id :=
    hspace ▸ mem_itemsDirectlyIn hp (hitem ▸ item?_of_mem hi) (hitem ▸ hfree)
  refine ⟨_, _, c, kids, hreached, hkids, ?_, ?_, fun k hk => ?_⟩
  · exact (listing_space hs hn hkids).2 _ (mem_itemChildren hdirect (h.shown i hi .refl))
  · rw [ListedUnder, hfree]
    exact ⟨n, hn, ⟨p, hp, hitem, hspace⟩, hchild⟩
  · rcases List.mem_cons.mp hk with rfl | hk
    · exact Or.inl ⟨n, hn, rfl⟩
    · obtain ⟨m, hm, rfl, -⟩ := habove k hk
      exact Or.inl ⟨m, hm, rfl⟩

/-- What an item lists whose uid names no namespace. -/
theorem listing_item (hs : Intact x s) {c : Substrate.ItemRow} (hc : c ∈ s.items.rows)
    (hnamed : ¬ NamesSpace x s c.uid) {kids : List Child} (h : Listing x s all (some c.uid) kids) :
    kids = containedChildren s all c.id := by
  obtain ⟨found, hfound, h⟩ := Tx.bind_eq_ok.mp h
  cases found with
  | some n => exact absurd ⟨n, hfound⟩ hnamed
  | none =>
      have hsome : (s.items.rows.find? fun i => i.uid = c.uid).isSome = true :=
        List.find?_isSome.mpr ⟨c, hc, decide_eq_true rfl⟩
      obtain ⟨i, hi⟩ := Option.isSome_iff_exists.mp hsome
      have huid : i.uid = c.uid := by simpa using List.find?_some hi
      obtain rfl := List.inj_on_of_nodup_map hs.uids (List.mem_of_find?_eq_some hi) hc huid
      dsimp only at h
      rw [hi] at h
      exact (Except.ok.inj h).symm

/-- **An item is listed in its container**, where that is listed and its uid names no namespace. -/
theorem ItemListed.inside (hs : Intact x s) (hforest : Containment.Forest (contained s)) {nodes : List TreeNode}
    (hshows : Shows x s all nodes) {i c : Substrate.ItemRow} (hi : i ∈ s.items.rows) (hc : c ∈ s.items.rows)
    (hinside : Containment.Inside (contained s) i.id c.id) (hvisible : visible all i.status = true)
    (hnamed : ¬ NamesSpace x s c.uid) (h : ItemListed x s all c) : ItemListed x s all i := by
  obtain ⟨place, above, under, kids, hreached, hkids, hmem, -, hkeys⟩ := h
  have hfresh : c.uid ∉ above := by
    intro hk
    rcases hkeys _ hk with ⟨m, hm, hpath⟩ | ⟨j, hj, hup, huid⟩
    · exact hnamed ⟨m.id, hpath ▸ hs.get hm⟩
    · obtain rfl := List.inj_on_of_nodup_map hs.uids hc hj huid
      exact hforest c.id hup
  have hexpands : Expands (itemChild s c) := hasChildren_itemChild (item?_of_mem hi) hinside
  have hdown : Reached x s all (some c.uid) (c.uid :: above) (some (itemChild s c)) :=
    hreached.down hkids hmem hexpands hfresh
  obtain ⟨below, hbelow, -⟩ := hshows _ _ _ hdown
  refine ⟨_, _, itemChild s c, below, hdown, hbelow, ?_, ?_, fun k hk => ?_⟩
  · rw [listing_item hs hc hnamed hbelow]
    exact mem_itemChildren (mem_containedItems (item?_of_mem hi) hinside) hvisible
  · have hparent : Containment.parent (contained s) i.id = some c.id := hinside
    rw [ListedUnder, hparent]
    exact ⟨c, item?_of_mem hc, rfl⟩
  · rcases List.mem_cons.mp hk with rfl | hk
    · exact Or.inr ⟨c, hc, .single hinside, rfl⟩
    · exact (hkeys k hk).imp id fun ⟨j, hj, hup, huid⟩ => ⟨j, hj, .head hinside hup, huid⟩

/-- Every item that nothing hides is listed. -/
theorem itemListed (hs : Intact x s) (hforest : Containment.Forest (contained s)) {nodes : List TreeNode}
    (hshows : Shows x s all nodes) {i : Substrate.ItemRow} (hi : i ∈ s.items.rows) (h : Unhidden x s all i) :
    ItemListed x s all i := by
  have hkeys : ∀ a b, Containment.parent (contained s) a = some b → a ∈ (contained s).rows.map (·.child) := by
    intro a b hab
    obtain ⟨r, hr, -⟩ := Option.map_eq_some_iff.mp hab
    exact List.mem_map.mpr ⟨r, Table.mem_of_find? hr, Table.key_of_find? hr⟩
  have hacyclic : Graph.Acyclic (Rooted.Up (Containment.parent (contained s))) := hforest
  obtain ⟨hpath, hroot⟩ := Rooted.rootOf_climb hacyclic hkeys i.id
  -- from the outermost container down
  generalize Rooted.climb (Containment.parent (contained s)) _ i.id = root at hpath hroot
  generalize hid : i.id = id at hpath
  induction hpath using ReflTransGen.head_induction_on generalizing i with
  | refl => exact itemListed_placed hs hshows hi h (hid ▸ hroot)
  | @head a b hup _ ih =>
      subst hid
      obtain ⟨c, hfound⟩ := Option.isSome_iff_exists.mp (hs.inside i.id b hup).2
      have hkey := Table.key_of_find? hfound
      have hcid : c.id = b := hkey
      subst hcid
      have hc : c ∈ s.items.rows := Table.mem_of_find? hfound
      have habove : ItemListed x s all c := ih hc (h.container hup) rfl
      exact habove.inside hs hforest hshows hi hc hup (h.shown i hi .refl) (h.named c hc (.single hup))

/-- With everything shown, only a name hides an item that is placed. -/
theorem unhidden_of_all (hs : Intact x s) (hplaced : ∀ i ∈ s.items.rows, ∃ p ∈ s.placements.rows, p.itemId = i.id)
    {i : Substrate.ItemRow}
    (hnamed : ∀ a ∈ s.items.rows, TransGen (Containment.Inside (contained s)) i.id a.id → ¬ NamesSpace x s a.uid) :
    Unhidden x s true i := by
  refine ⟨fun _ _ _ => rfl, hnamed, fun a ha _ _ => ?_⟩
  obtain ⟨p, hp, hitem⟩ := hplaced a ha
  obtain ⟨n, hn, hspace⟩ := hs.placed p hp
  have hin : PlacedIn s a n := ⟨p, hp, hitem, hspace.symm⟩
  exact ⟨n, hn, hin, Or.inr ⟨a, ha, hin, rfl, Or.inl rfl⟩⟩

/-- **A tree from the top level hides nothing else.** Where a tree answers whole, and no branch is deeper than its
limit, every item that nothing hides appears where it belongs; and with everything shown, every item does that has no
container, of any depth, whose uid names a namespace. -/
theorem tree_appears (hs : Intact x s) (hforest : Containment.Forest (contained s))
    (hplaced : ∀ i ∈ s.items.rows, ∃ p ∈ s.placements.rows, p.itemId = i.id) {depth : Option Nat} {budget : Budget}
    {nodes : List TreeNode} (htree : tree x s all none depth budget = .ok (nodes, .whole))
    (hfits : Fits Child.reference Expands (depthLimit depth) [] nodes) :
    (∀ i ∈ s.items.rows, Unhidden x s all i → Appears x s all nodes i) ∧
      (all = true → ∀ i ∈ s.items.rows,
        (∀ a ∈ s.items.rows, TransGen (Containment.Inside (contained s)) i.id a.id → ¬ NamesSpace x s a.uid) →
          Appears x s all nodes i) := by
  have hshows := shows_of_tree htree hfits
  have happears : ∀ i ∈ s.items.rows, Unhidden x s all i → Appears x s all nodes i := by
    intro i hi h
    obtain ⟨place, above, under, kids, hreached, hkids, hmem, hunder, -⟩ := itemListed hs hforest hshows hi h
    obtain ⟨kids', hkids', hlists⟩ := hshows place above (some under) hreached
    obtain rfl := Except.ok.inj (hkids.symm.trans hkids')
    exact ⟨under, hlists _ hmem, hunder⟩
  refine ⟨happears, ?_⟩
  rintro rfl i hi hnamed
  exact happears i hi (unhidden_of_all hs hplaced hnamed)

end

/-! ## what hides -/

/-- A listing from the top level that hides no visible item. -/
def HidesNothing (x : Outside) (s : Store) (all : Bool) : Prop :=
  Intact x s → Containment.Forest (contained s) →
    (∀ i ∈ s.items.rows, ∃ p ∈ s.placements.rows, p.itemId = i.id) → ∀ depth budget nodes,
      tree x s all none depth budget = .ok (nodes, .whole) →
        Fits Child.reference Expands (depthLimit depth) [] nodes →
          ∀ i ∈ s.items.rows, visible all i.status = true → Appears x s all nodes i

/-- The type that a metadata names: what comes after its mark. -/
def markedType : Text → Option Text
  | '@' :: t => some t
  | _ => none

/-- ASCII texts in lower case, metadata that are the name of a type, and children of no size. -/
def plain : Outside where
  nfc := id
  typed m := (markedType m).isSome
  setType _ t := '@' :: t
  typeOf := markedType
  lower := id
  size _ := 0

/-- The item contained in `filed`. -/
def inner (kind : Text) : Substrate.ItemRow := { id := 2, uid := "s".toList, kind, status := some .open }

/-- A namespace `tasks` that an item is placed in, and an open one that the first contains. -/
def filed (uid kind : Text) (status : Option TaskStatus) (innerKind : Text) : Store where
  namespaces :=
    { rows := [⟨1, "tasks".toList, none, .logical, [], []⟩]
      nodup := by decide
      last := 1
      le_last := by decide
      unique := by decide
      linked := by decide }
  mounts := []
  items :=
    { rows := [{ id := 1, uid, kind, status }, inner innerKind]
      nodup := by simp [inner]
      last := 2
      le_last := by simp [inner] }
  placements :=
    { rows := [
        { id := 1, itemId := 1, namespaceId := 1, role := .primary, position := 0 },
        { id := 2, itemId := 2, namespaceId := 1, role := .primary, position := 0 }]
      nodup := by decide
      last := 2
      le_last := by decide }
  tags := .empty
  edges := .empty
  containment := { rows := [⟨2, 1, 0⟩], nodup := by decide }
  transitions := []
  log := []
  updatedAt _ := []

section Filed

variable {uid kind innerKind : Text} {status : Option TaskStatus}

/-- The one containment of the store. -/
theorem inside_filed {c p : Int} :
    Containment.Inside (contained (filed uid kind status innerKind)) c p ↔ c = 2 ∧ p = 1 := by
  constructor
  · intro h
    obtain ⟨r, hr, rfl⟩ := Option.map_eq_some_iff.mp h
    have hkey : r.child = c := Table.key_of_find? hr
    obtain rfl : r = ⟨2, 1, 0⟩ := List.mem_singleton.mp (Table.mem_of_find? hr)
    exact ⟨hkey.symm, rfl⟩
  · rintro ⟨rfl, rfl⟩
    rfl

/-- It is a forest. -/
theorem forest_filed : Containment.Forest (contained (filed uid kind status innerKind)) := by
  refine Graph.acyclic_of_rank (fun i => if i = 2 then 0 else 1) fun c p h => ?_
  obtain ⟨rfl, rfl⟩ := inside_filed.mp h
  decide

/-- Every item of the store is placed. -/
theorem placed_filed : ∀ i ∈ (filed uid kind status innerKind).items.rows,
    ∃ p ∈ (filed uid kind status innerKind).placements.rows, p.itemId = i.id := by
  intro i hi
  rcases List.mem_cons.mp hi with rfl | hi
  · exact ⟨_, List.mem_cons_self, rfl⟩
  · obtain rfl := List.mem_singleton.mp hi
    exact ⟨_, List.mem_cons_of_mem _ List.mem_cons_self, rfl⟩

/-- The store is intact, whatever uid the outer item has. -/
theorem intact_filed (huid : uid ≠ "s".toList) : Intact plain (filed uid kind status innerKind) where
  uids := by
    refine List.nodup_cons.mpr ⟨fun hmem => ?_, List.nodup_singleton _⟩
    exact huid (List.mem_singleton.mp hmem)
  inside := by
    intro c p h
    obtain ⟨rfl, rfl⟩ := inside_filed.mp h
    exact ⟨rfl, rfl⟩
  placed := by
    intro p hp
    refine ⟨_, List.mem_singleton_self _, ?_⟩
    rcases List.mem_cons.mp hp with rfl | hp
    · rfl
    · obtain rfl := List.mem_singleton.mp hp
      rfl
  rooted := by
    refine Graph.acyclic_of_rank (fun _ => 0) fun c p h => ?_
    obtain ⟨r, hr, -, hparent⟩ := h
    obtain rfl := List.mem_singleton.mp hr
    cases hparent
  normal := by
    intro n hn
    obtain rfl := List.mem_singleton.mp hn
    rfl

end Filed

/-- A child with children that have none. -/
def leafy (c : Child) (leaves : List Child) : List TreeNode := [.mk c (leaves.map fun d => .mk d [])]

/-- A tree of one level fits. -/
theorem fits_leafy (c : Child) (leaves : List Child) :
    Fits Child.reference Expands MAX_TREE_DEPTH [] (leafy c leaves) := by
  intro t ht u hu
  obtain rfl := List.mem_singleton.mp ht
  obtain ⟨d, -, rfl⟩ := List.mem_map.mp hu
  exact fits_nil _ _

/-- It lists its leaves alone. -/
theorem mem_of_lists_leafy {c d under : Child} {leaves : List Child}
    (h : Lists none (leafy c leaves) (some under) d) : d ∈ leaves := by
  cases h with
  | inside ht h =>
      obtain rfl := List.mem_singleton.mp ht
      cases h with
      | here hu =>
          obtain ⟨e, he, rfl⟩ := List.mem_map.mp hu
          exact he
      | inside hu h =>
          obtain ⟨e, -, rfl⟩ := List.mem_map.mp hu
          cases h with
          | here hv => exact absurd hv List.not_mem_nil
          | inside hv => exact absurd hv List.not_mem_nil

/-- An item that is listed below no other child does not appear. -/
theorem not_hidesNothing {uid kind innerKind : Text} {status : Option TaskStatus} {all : Bool}
    (huid : uid ≠ "s".toList) {c : Child} (leaves : List Child)
    (htree : tree plain (filed uid kind status innerKind) all none none .UNLIMITED = .ok (leafy c leaves, .whole))
    (hleaves : ∀ d ∈ leaves, d.reference = uid) : ¬ HidesNothing plain (filed uid kind status innerKind) all := by
  intro h
  have hmem : inner innerKind ∈ (filed uid kind status innerKind).items.rows :=
    List.mem_cons_of_mem _ List.mem_cons_self
  have hvisible : visible all (inner innerKind).status = true := by cases all <;> rfl
  obtain ⟨under, hlists, -⟩ := h (intact_filed huid) forest_filed placed_filed none .UNLIMITED _ htree
    (fits_leafy c leaves) _ hmem hvisible
  exact huid (hleaves _ (mem_of_lists_leafy hlists)).symm

/-- **What is hidden**: an open task in a finished one, and a chunk in a namespace of chunks; and, with everything
shown, an item in one whose uid names a namespace. -/
theorem tree_hides :
    ¬ HidesNothing plain (filed "t".toList "task".toList (some .done) "task".toList) false ∧
      ¬ HidesNothing plain (filed "c".toList "chunk".toList none "chunk".toList) false ∧
      ¬ HidesNothing plain (filed "tasks".toList "document".toList none "task".toList) true := by
  refine ⟨?_, ?_, ?_⟩
  · exact not_hidesNothing (by decide) [] rfl fun d hd => absurd hd List.not_mem_nil
  · exact not_hidesNothing (by decide) [] rfl fun d hd => absurd hd List.not_mem_nil
  · refine not_hidesNothing (by decide) [_] rfl fun d hd => ?_
    obtain rfl := List.mem_singleton.mp hd
    rfl

/-- An open task in an open one. -/
def openFiled : Store := filed "t".toList "task".toList (some .open) "task".toList

/-- The inner item is not hidden in the open store. -/
theorem unhidden_inner : Unhidden plain openFiled false (inner "task".toList) := by
  have hvisible : ∀ a ∈ openFiled.items.rows, visible false a.status = true :=
    List.forall_iff_forall_mem.mp (by decide)
  have hnames : ∀ a ∈ openFiled.items.rows, Ns.get plain.nfc openFiled.spaces a.uid = .ok none :=
    List.forall_iff_forall_mem.mp ⟨rfl, rfl⟩
  have hspaces : ∀ p ∈ openFiled.placements.rows, p.namespaceId = 1 := List.forall_iff_forall_mem.mp (by decide)
  have hkinds : ∀ a ∈ openFiled.items.rows, a.kind ≠ KIND_CHUNK := List.forall_iff_forall_mem.mp (by decide)
  refine ⟨fun a ha _ => hvisible a ha, fun a ha _ hnamed => ?_, fun a ha _ _ => ?_⟩
  · obtain ⟨n, hn⟩ := hnamed
    rw [hnames a ha] at hn
    cases hn
  · obtain ⟨p, hp, hitem⟩ := placed_filed a ha
    have hin : PlacedIn openFiled a ⟨1, "tasks".toList, none, .logical, [], []⟩ := ⟨p, hp, hitem, hspaces p hp⟩
    exact ⟨_, List.mem_singleton_self _, hin, Or.inr ⟨a, ha, hin, hvisible a ha, Or.inr (hkinds a ha)⟩⟩

/-- A tree of three levels fits. -/
theorem fits_openFiled (c d e : Child) :
    Fits Child.reference Expands MAX_TREE_DEPTH [] [.mk c [.mk d [.mk e []]]] := by
  intro t ht u hu v hv
  obtain rfl := List.mem_singleton.mp ht
  obtain rfl := List.mem_singleton.mp hu
  obtain rfl := List.mem_singleton.mp hv
  exact fits_nil _ _

/-- The tree of the open store shows the inner item. -/
theorem tree_appears_inner : ∃ nodes, tree plain openFiled false none none .UNLIMITED = .ok (nodes, .whole) ∧
    Appears plain openFiled false nodes (inner "task".toList) := by
  have htree : ∃ c d e, tree plain openFiled false none none .UNLIMITED = .ok ([.mk c [.mk d [.mk e []]]], .whole) :=
    ⟨_, _, _, rfl⟩
  obtain ⟨c, d, e, htree⟩ := htree
  exact ⟨_, htree, (tree_appears (intact_filed (by decide)) forest_filed placed_filed htree (fits_openFiled c d e)).1 _
    (List.mem_cons_of_mem _ List.mem_cons_self) unhidden_inner⟩

end Jkb.Kb
