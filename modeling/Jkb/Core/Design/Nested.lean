import Jkb.Core.Design.Writers
import Jkb.Core.Ns.Writers

/-!
# Jkb.Core.Design.Nested

No approved text is exported to two files. Along every run of the writers of a tree of designs, designs nest in a
forest, a tree stays in one repo, only its root may have a doc target, and no two designs of a repo have the same one
(`Sound`). A nest that succeeds leaves every span of the trees it changed the plan steps it counted.

Each writer is put together from a few changes: an item is made, an item is contained, a target is set. What each of
them does to the trees is stated once (`Created`, `rootOf_contain`), and the writers' lemmas follow.
-/

namespace Jkb.Design.Tree

open Jkb.Text Jkb.Ns Jkb.Graph Jkb.Rooted Relation

section

variable {Doc Queue : Type} {x : Outside Doc Queue} {s s' : Store Doc Queue}

@[simp] theorem refuseIf_eq_ok {c : Prop} [Decidable c] {why : Fmt} {u : Unit} : refuseIf c why = .ok u ↔ ¬ c := by
  by_cases h : c <;> simp [refuseIf, h]

/-! ## reading a tree -/

/-- A design is an item of its kind. -/
theorem isDesign_eq_true {id : Int} : isDesign s id = true ↔ ∃ i, s.item? id = some i ∧ i.kind = KIND := by
  simp [isDesign, Option.any_eq_true]

/-- The parent of a design is the item that contains it, if that is a design. -/
theorem parentOf_eq_some {d p : Int} :
    parentOf s d = some p ↔ Containment.Inside (contained s) d p ∧ isDesign s p = true := by
  rw [parentOf, Option.filter_eq_some_iff, Containment.Inside]

/-- Nesting goes along containment. -/
theorem inside_of_up {d p : Int} (h : ReflTransGen (Up (parentOf s)) d p) :
    ReflTransGen (Containment.Inside (contained s)) d p :=
  ReflTransGen.mono (fun _ _ hup => (parentOf_eq_some.mp hup).1) _ _ h

/-- No design is below itself where containment is a forest. -/
theorem acyclic_parentOf (h : Containment.Forest (contained s)) : Acyclic (Up (parentOf s)) :=
  h.mono fun _ _ hup => (parentOf_eq_some.mp hup).1

/-- A design with a parent has a row in the containment. -/
theorem mem_keys_of_parentOf (d p : Int) (h : parentOf s d = some p) : d ∈ (contained s).rows.map (·.child) := by
  obtain ⟨r, hr, -⟩ := Option.map_eq_some_iff.mp (parentOf_eq_some.mp h).1
  exact List.mem_map.mpr ⟨r, Table.mem_of_find? hr, Table.key_of_find? hr⟩

/-- The walk up of `rootOf` ends at the top. -/
theorem rootOf_spec (h : Containment.Forest (contained s)) (d : Int) : RootOf (parentOf s) d (rootOf s d) := by
  have hroot := rootOf_climb (acyclic_parentOf h) mem_keys_of_parentOf d
  rwa [List.length_map] at hroot

/-- The walk to the root of a design ends where its parents end. -/
theorem rootOf_eq (h : Containment.Forest (contained s)) {d r : Int} (hr : RootOf (parentOf s) d r) :
    rootOf s d = r :=
  (rootOf_spec h d).unique hr

/-- What is above a design is a design. -/
theorem isDesign_of_up {d p : Int} (hd : isDesign s d = true) (h : ReflTransGen (Up (parentOf s)) d p) :
    isDesign s p = true := by
  rcases ReflTransGen.cases_tail h with rfl | ⟨q, -, hup⟩
  · exact hd
  · exact (parentOf_eq_some.mp hup).2

/-- The children of an item are those that it contains. -/
theorem mem_children {p c : Int} : c ∈ children s p ↔ Containment.Inside (contained s) c p := by
  rw [children, List.mem_map, Containment.Inside, Containment.parent, Option.map_eq_some_iff]
  constructor
  · rintro ⟨r, hr, rfl⟩
    obtain ⟨hr, hp⟩ := List.mem_filter.mp (List.mem_mergeSort.mp hr)
    exact ⟨r, Table.find?_of_mem hr, of_decide_eq_true hp⟩
  · rintro ⟨r, hr, rfl⟩
    exact ⟨r, List.mem_mergeSort.mpr (List.mem_filter.mpr ⟨Table.mem_of_find? hr, decide_eq_true rfl⟩),
      Table.key_of_find? hr⟩

/-- The designs directly under a design are those whose parent it is. -/
theorem mem_childrenOf {d c : Int} {uid : Text} (hd : isDesign s d = true) :
    (c, uid) ∈ childrenOf s d ↔ Up (parentOf s) c d ∧ ∃ i, s.item? c = some i ∧ i.kind = KIND ∧ i.uid = uid := by
  rw [childrenOf, List.mem_filterMap]
  constructor
  · rintro ⟨c', hc, h⟩
    obtain ⟨i, hi, he⟩ := Option.map_eq_some_iff.mp h
    obtain ⟨rfl, rfl⟩ := Prod.mk.inj he
    obtain ⟨hi, hkind⟩ := Option.filter_eq_some_iff.mp hi
    exact ⟨parentOf_eq_some.mpr ⟨mem_children.mp hc, hd⟩, i, hi, of_decide_eq_true hkind, rfl⟩
  · rintro ⟨hup, i, hi, hkind, rfl⟩
    refine ⟨c, mem_children.mpr (parentOf_eq_some.mp hup).1, ?_⟩
    simp [hi, hkind]

/-- The child designs of a design are the designs whose parent it is. -/
theorem mem_fst_childrenOf {d c : Int} (hd : isDesign s d = true) :
    c ∈ (childrenOf s d).map (·.1) ↔ Up (parentOf s) c d ∧ isDesign s c = true := by
  simp only [List.mem_map, Prod.exists, exists_and_right, exists_eq_right, mem_childrenOf hd, exists_and_left,
    isDesign_eq_true]
  refine and_congr_right fun _ => ⟨?_, ?_⟩
  · rintro ⟨uid, i, hi, hkind, -⟩
    exact ⟨i, hi, hkind⟩
  · rintro ⟨i, hi, hkind⟩
    exact ⟨i.uid, i, hi, hkind, rfl⟩

/-- The descendants are found by descending over the children alone, whatever positions they have. -/
theorem map_fst_descendantsFrom (n : Nat) (d : Int) :
    (descendantsFrom s n d).map (·.1) = descend (fun d => (childrenOf s d).map (·.1)) n d := by
  induction n generalizing d with
  | zero => rfl
  | succ n ih =>
      rw [descendantsFrom, descend, List.map_flatMap, List.flatMap_map]
      exact List.flatMap_congr fun c _ => congrArg (c.1 :: ·) (ih c.1)

/-- A design below another is listed below it. -/
theorem mem_descendants (hf : Containment.Forest (contained s)) {d top : Int} (hd : isDesign s d = true)
    (h : TransGen (Up (parentOf s)) d top) : d ∈ (descendants s top).map (·.1) := by
  -- the walk goes down from designs to designs, so it is the one along this parent
  let up : Int → Option Int := fun b => if isDesign s b then parentOf s b else none
  have hup : ∀ a b, up b = some a → isDesign s b = true ∧ parentOf s b = some a := by
    intro a b hb
    by_cases hdesign : isDesign s b = true
    · exact ⟨hdesign, by simpa only [up, hdesign, if_true] using hb⟩
    · simp only [up, hdesign] at hb
      cases hb
  have hbelow : TransGen (Up up) d top := by
    induction h using TransGen.head_induction_on with
    | single hstep => exact .single (by simpa only [Up, up, hd, if_true] using hstep)
    | @head b c hstep hrest ih =>
        refine .head (by simpa only [Up, up, hd, if_true] using hstep) (ih ?_)
        exact (parentOf_eq_some.mp hstep).2
  rw [descendants, map_fst_descendantsFrom]
  have hlen : depth s = ((contained s).rows.map (·.child)).length := (List.length_map _).symm
  rw [hlen]
  refine mem_descend (fun a b hb => ?_) ((acyclic_parentOf hf).mono fun b a hb => (hup a b hb).2)
    (fun b a hb => mem_keys_of_parentOf b a (hup a b hb).2) hbelow
  obtain ⟨hdesign, hparent⟩ := hup a b hb
  exact (mem_fst_childrenOf (parentOf_eq_some.mp hparent).2).mpr ⟨hparent, hdesign⟩

/-- What is listed below a design is a design below it. -/
theorem transGen_of_mem_descendants {d top : Int} (htop : isDesign s top = true)
    (h : d ∈ (descendants s top).map (·.1)) : TransGen (Up (parentOf s)) d top ∧ isDesign s d = true := by
  rw [descendants, map_fst_descendantsFrom] at h
  have hdown : ∀ a b, isDesign s a = true → b ∈ (childrenOf s a).map (·.1) →
      parentOf s b = some a ∧ isDesign s b = true := fun _ _ ha hb => (mem_fst_childrenOf ha).mp hb
  exact transGen_of_mem_descend hdown htop h

/-! ## containing an item -/

/-- What containing an item leaves: its container, and all else as it was. -/
theorem contain_eq_ok {c p position : Int} (h : contain s c p position = .ok s') :
    Containment.contain (Substrate.edgeItems s.toStore) (contained s) c p position = .ok (contained s') ∧
      s' = { s with containment := s'.containment } := by
  obtain ⟨t, ht, rfl⟩ := Tx.map_eq_ok.mp h
  refine ⟨ht.trans (congrArg Except.ok (Table.ext ?_)), rfl⟩
  simp [contained, Table.map, List.map_map, Function.comp_def]

section Contain

variable {c p position : Int} (h : contain s c p position = .ok s')
include h

/-- A containment makes no item a design and takes none away. -/
theorem isDesign_contain (id : Int) : isDesign s' id = isDesign s id := by
  rw [(contain_eq_ok h).2]
  rfl

/-- A containment leaves the repositories of the designs as they are. -/
theorem repoOf_contain (id : Int) : repoOf s' id = repoOf s id := by
  rw [(contain_eq_ok h).2]
  rfl

/-- A containment leaves the documents of the designs as they are. -/
theorem docTarget_contain (id : Int) : docTarget s' id = docTarget s id := by
  rw [(contain_eq_ok h).2]
  rfl

/-- What has been contained is inside of its container. -/
theorem inside_contain_self : Containment.Inside (contained s') c p :=
  (Containment.contain_eq_ok (contain_eq_ok h).1).2.1

/-- Only what is contained gets another container. -/
theorem parent_contain {d : Int} (hd : d ≠ c) :
    Containment.parent (contained s') d = Containment.parent (contained s) d :=
  (Containment.contain_eq_ok (contain_eq_ok h).1).2.2 d hd

/-- Only what is contained gets another parent. -/
theorem parentOf_contain {d : Int} (hd : d ≠ c) : parentOf s' d = parentOf s d := by
  rw [parentOf, parentOf, parent_contain h hd]
  simp only [isDesign_contain h]

/-- A containment that is let through keeps the forest. -/
theorem forest_contain (hf : Containment.Forest (contained s)) : Containment.Forest (contained s') :=
  hf.contain (contain_eq_ok h).1

/-- The new container is not inside what it contains. -/
theorem not_up_of_contain : ¬ ReflTransGen (Up (parentOf s)) p c := fun hup =>
  (Containment.contain_eq_ok (contain_eq_ok h).1).1 (inside_of_up hup)

/-- What the contained item is not above keeps its root. -/
theorem rootOf_contain_of_not_up (hf : Containment.Forest (contained s)) {d : Int}
    (hd : ¬ ReflTransGen (Up (parentOf s)) d c) : rootOf s' d = rootOf s d :=
  rootOf_eq (forest_contain h hf) ((rootOf_spec hf d).keep (fun _ hx => parentOf_contain h hx) hd)

/-- **Nesting a design gives its tree the root of its new parent.** -/
theorem rootOf_contain (hf : Containment.Forest (contained s)) (hp : isDesign s p = true) {d : Int}
    (hd : ReflTransGen (Up (parentOf s)) d c) : rootOf s' d = rootOf s p := by
  have hparent : parentOf s' c = some p :=
    parentOf_eq_some.mpr ⟨inside_contain_self h, (isDesign_contain h p).trans hp⟩
  exact rootOf_eq (forest_contain h hf)
    (RootOf.graft (fun _ hx => parentOf_contain h hx) hparent (not_up_of_contain h) hd (rootOf_spec hf p))

end Contain

/-! ## what holds of a tree -/

/-- **Designs nest in a forest whose trees each stay within one repo; no nested design has a doc target, and no two
designs of one repo have the same.** -/
structure Sound (s : Store Doc Queue) : Prop where
  forest : Containment.Forest (contained s)
  oneRepo : ∀ d, isDesign s d = true → repoOf s d = repoOf s (rootOf s d)
  nested : ∀ d, isDesign s d = true → (parentOf s d).isSome = true → docTarget s d = none
  alone : ∀ a b repo path, repoOf s a = some repo → repoOf s b = some repo → docTarget s a = some path →
    docTarget s b = some path → a = b

/-- What the tables themselves keep: no two items of one uid, every row's item there, and every namespace's path in
its normal form, below its parent's. -/
structure Stored (x : Outside Doc Queue) (s : Store Doc Queue) : Prop where
  uids : (s.items.rows.map (·.uid)).Nodup
  inside : ∀ c p, Containment.Inside (contained s) c p → (s.item? c).isSome = true ∧ (s.item? p).isSome = true
  placed : ∀ r ∈ s.placements.rows,
    (s.item? r.itemId).isSome = true ∧ (s.namespaces.toTable.find? r.namespaceId).isSome = true
  target : ∀ d, (docTarget s d).isSome = true → (s.item? d).isSome = true
  agrees : Agrees s.namespaces.rows
  normal : ∀ i path parent, At s.namespaces.rows i path parent → Normal x.nfc path

/-- A change of documents, metadata or the queue changes no tree. -/
theorem Sound.congr (h : Sound s) (hstore : s'.toStore = s.toStore) (htargets : s'.targets = s.targets) :
    Sound s' := by
  obtain ⟨_, _, _, _, _⟩ := s
  obtain ⟨_, _, _, _, _⟩ := s'
  cases hstore
  cases htargets
  exact ⟨h.forest, h.oneRepo, h.nested, h.alone⟩

/-- What a store keeps is read of its items and its targets. -/
theorem Stored.congr (h : Stored x s) (hstore : s'.toStore = s.toStore) (htargets : s'.targets = s.targets) :
    Stored x s' := by
  obtain ⟨_, _, _, _, _⟩ := s
  obtain ⟨_, _, _, _, _⟩ := s'
  cases hstore
  cases htargets
  exact ⟨h.uids, h.inside, h.placed, h.target, h.agrees, h.normal⟩

/-- The root of a design is a design. -/
theorem isDesign_rootOf (hf : Containment.Forest (contained s)) {d : Int} (hd : isDesign s d = true) :
    isDesign s (rootOf s d) = true :=
  isDesign_of_up hd (rootOf_spec hf d).1

/-- Designs of one tree are of one repo. -/
theorem Sound.repoOf_eq (h : Sound s) {a b : Int} (ha : isDesign s a = true) (hb : isDesign s b = true)
    (hroot : rootOf s a = rootOf s b) : repoOf s a = repoOf s b := by
  rw [h.oneRepo a ha, h.oneRepo b hb, hroot]

/-- What is above an item has its root. -/
theorem rootOf_eq_of_up (hf : Containment.Forest (contained s)) {a b : Int}
    (h : ReflTransGen (Up (parentOf s)) a b) : rootOf s a = rootOf s b :=
  rootOf_eq hf ((rootOf_spec hf b).below h)

/-- A containment of two items that are there keeps the store sound. -/
theorem Stored.contain {c p position : Int} (hs : Stored x s) (h : contain s c p position = .ok s')
    (hc : (s.item? c).isSome = true) (hp : (s.item? p).isSome = true) : Stored x s' := by
  have hinside : ∀ a b, Containment.Inside (contained s') a b →
      (s.item? a).isSome = true ∧ (s.item? b).isSome = true := by
    intro a b hab
    by_cases ha : a = c
    · subst ha
      obtain rfl := Option.some.inj (hab.symm.trans (inside_contain_self h))
      exact ⟨hc, hp⟩
    · exact hs.inside a b ((parent_contain h ha).symm.trans hab)
  rw [(contain_eq_ok h).2] at hinside ⊢
  exact ⟨hs.uids, hinside, hs.placed, hs.target, hs.agrees, hs.normal⟩

/-- **Nesting a design of the same repo, without a doc target, keeps what holds.** -/
theorem Sound.nest {c p position : Int} (hs : Sound s) (h : Tree.contain s c p position = .ok s')
    (hc : isDesign s c = true) (hp : isDesign s p = true) (hrepo : repoOf s c = repoOf s p)
    (hnone : docTarget s c = none) : Sound s' := by
  refine ⟨forest_contain h hs.forest, fun d hd => ?_, fun d hd hparent => ?_, fun a b repo path => ?_⟩
  · rw [isDesign_contain h] at hd
    rw [repoOf_contain h, repoOf_contain h]
    by_cases hup : ReflTransGen (Up (parentOf s)) d c
    · rw [rootOf_contain h hs.forest hp hup, hs.repoOf_eq hd hc (rootOf_eq_of_up hs.forest hup), hrepo]
      exact hs.oneRepo p hp
    · rw [rootOf_contain_of_not_up h hs.forest hup]
      exact hs.oneRepo d hd
  · rw [isDesign_contain h] at hd
    rw [docTarget_contain h]
    by_cases hdc : d = c
    · exact hdc ▸ hnone
    · exact hs.nested d hd (parentOf_contain h hdc ▸ hparent)
  · rw [repoOf_contain h, repoOf_contain h, docTarget_contain h, docTarget_contain h]
    exact hs.alone a b repo path

/-- Moving what is not a design changes no tree of designs. -/
theorem Sound.contain {c p position : Int} (hs : Sound s) (h : Tree.contain s c p position = .ok s')
    (hc : isDesign s c = false) : Sound s' := by
  have hne : ∀ d, isDesign s d = true → ¬ ReflTransGen (Up (parentOf s)) d c := by
    intro d hd hup
    rw [isDesign_of_up hd hup] at hc
    cases hc
  refine ⟨forest_contain h hs.forest, fun d hd => ?_, fun d hd hparent => ?_, fun a b repo path => ?_⟩
  · rw [isDesign_contain h] at hd
    rw [repoOf_contain h, repoOf_contain h, rootOf_contain_of_not_up h hs.forest (hne d hd)]
    exact hs.oneRepo d hd
  · rw [isDesign_contain h] at hd
    rw [docTarget_contain h]
    exact hs.nested d hd (parentOf_contain h (fun hdc => hne d hd (hdc ▸ .refl)) ▸ hparent)
  · rw [repoOf_contain h, repoOf_contain h, docTarget_contain h, docTarget_contain h]
    exact hs.alone a b repo path

/-! ## making a design -/

/-- What making a design leaves: one item more, a design that nothing contains, in the namespace at a path. -/
structure Created (s s' : Store Doc Queue) (id : Int) (uid path : Text) : Prop where
  fresh : s.item? id = none
  item : ∃ i, s'.item? id = some i ∧ i.kind = KIND ∧ i.uid = uid
  others : ∀ j, j ≠ id → s'.item? j = s.item? j
  inside : contained s' = contained s
  targets : s'.targets = s.targets
  repo : repoOf s' id = repoIn path
  repos : ∀ j, j ≠ id → repoOf s' j = repoOf s j

namespace Created

variable {id : Int} {uid path : Text} (h : Created s s' id uid path) (hs : Stored x s)
include h

/-- The item that is made has an id that no item has. -/
theorem ne_of_isSome {j : Int} (hj : (s.item? j).isSome = true) : j ≠ id := by
  rintro rfl
  rw [h.fresh] at hj
  cases hj

/-- What is made is a design. -/
theorem isDesign_self : isDesign s' id = true := by
  obtain ⟨i, hi, hkind, -⟩ := h.item
  exact isDesign_eq_true.mpr ⟨i, hi, hkind⟩

/-- Every other item is the design it was, or none. -/
theorem isDesign_of_ne {j : Int} (hj : j ≠ id) : isDesign s' j = isDesign s j := by
  rw [isDesign, isDesign, h.others j hj]

include hs

/-- What is made is nobody's parent, and takes nobody's. -/
theorem parentOf_eq : parentOf s' = parentOf s := by
  funext d
  rw [parentOf, parentOf, h.inside]
  cases hd : Containment.parent (contained s) d with
  | none => rfl
  | some p => rw [Option.filter_some, Option.filter_some, h.isDesign_of_ne (h.ne_of_isSome (hs.inside d p hd).2)]

/-- Every root stays the root that it was. -/
theorem rootOf_eq (d : Int) : rootOf s' d = rootOf s d := by
  rw [rootOf, rootOf, h.parentOf_eq hs, depth, depth, h.inside]

/-- What is made has no parent. -/
theorem parentOf_self : parentOf s id = none := by
  rw [parentOf, Option.filter_eq_none_iff]
  intro p hp
  exact absurd rfl (h.ne_of_isSome (hs.inside id p hp).1)

/-- **A design that is made stands alone.** -/
theorem sound (hsound : Sound s) : Sound s' := by
  have hnone : docTarget s id = none := by
    cases ht : docTarget s id with
    | none => rfl
    | some path => exact absurd rfl (h.ne_of_isSome (hs.target id (by simp [ht])))
  have htarget : ∀ d, docTarget s' d = docTarget s d := fun d => by rw [docTarget, docTarget, h.targets]
  refine ⟨by rw [h.inside]; exact hsound.forest, fun d hd => ?_, fun d hd hparent => ?_, fun a b repo path => ?_⟩
  · rw [h.rootOf_eq hs]
    by_cases hdi : d = id
    · subst hdi
      rw [Tree.rootOf_eq hsound.forest (RootOf.self (h.parentOf_self hs))]
    · rw [h.isDesign_of_ne hdi] at hd
      obtain ⟨i, hi, -⟩ := isDesign_eq_true.mp (isDesign_rootOf hsound.forest hd)
      rw [h.repos d hdi, h.repos _ (h.ne_of_isSome (by simp [hi]))]
      exact hsound.oneRepo d hd
  · rw [htarget]
    by_cases hdi : d = id
    · exact hdi ▸ hnone
    · rw [h.isDesign_of_ne hdi] at hd
      rw [h.parentOf_eq hs] at hparent
      exact hsound.nested d hd hparent
  · rw [htarget, htarget]
    intro ha hb hpa hpb
    have hne : ∀ d p, docTarget s d = some p → d ≠ id := by
      rintro d p hp rfl
      rw [hnone] at hp
      cases hp
    rw [h.repos a (hne a path hpa)] at ha
    rw [h.repos b (hne b path hpb)] at hb
    exact hsound.alone a b repo path ha hb hpa hpb

end Created

/-! ### the writers of the substrate -/

section Substrate

variable {b b' : Substrate.Store}

/-- A new item's id is no item's. -/
theorem item?_nextKey (b : Substrate.Store) : b.item? b.items.nextKey = none :=
  Table.find?_eq_none.mpr fun _ hr => (b.items.key_lt_nextKey hr).ne

theorem upsert_eq_ok {uid kind title : Text} {id : Int}
    (h : Substrate.upsert b { uid, kind, content := some title } = .ok (b', id)) :
    (∀ r ∈ b.items.rows, r.uid ≠ uid) ∧ id = b.items.nextKey ∧
      b'.items = b.items.insertNext (fun id => { id, uid, kind, content := some title }) (fun _ => rfl) ∧
      b'.namespaces = b.namespaces ∧ b'.placements = b.placements ∧ b'.containment = b.containment := by
  unfold Substrate.upsert at h
  simp only [Option.bind_none] at h
  split at h
  case isTrue => cases h
  case isFalse hfree =>
    cases h
    refine ⟨fun r hr huid => hfree (List.any_eq_true.mpr ⟨r, hr, ?_⟩), rfl, rfl, rfl, rfl, rfl⟩
    rw [huid]
    simp

/-- The path of a namespace. -/
def pathOf (b : Substrate.Store) (ns : Int) : Option Text := (b.namespaces.toTable.find? ns).map (·.path)

/-- The path of a namespace is the one of its row. -/
theorem pathOf_eq_some {ns : Int} {path : Text} :
    pathOf b ns = some path ↔ ∃ g, At b.namespaces.rows ns path g := by
  rw [pathOf, Option.map_eq_some_iff]
  constructor
  · rintro ⟨r, hr, rfl⟩
    exact ⟨r.parentId, r, Table.mem_of_find? hr, Table.key_of_find? hr, rfl, rfl⟩
  · rintro ⟨g, r, hr, rfl, rfl, -⟩
    exact ⟨r, Table.find?_of_mem hr, rfl⟩

/-- Making a namespace leaves every path, and the new one normal. -/
theorem ensure_eq_ok {now path : Text} {home : Int} (hx : Composition x.nfc)
    (hagrees : Agrees b.namespaces.rows) (hnormal : ∀ i p g, At b.namespaces.rows i p g → Normal x.nfc p)
    (hpath : Normal x.nfc path) (h : Substrate.ensure x.toTyping b now path = .ok (b', home)) :
    b'.items = b.items ∧ b'.placements = b.placements ∧ b'.containment = b.containment ∧
      Agrees b'.namespaces.rows ∧ (∀ i p g, At b'.namespaces.rows i p g → Normal x.nfc p) ∧
      pathOf b' home = some path ∧ ∀ ns p, pathOf b ns = some p → pathOf b' ns = some p := by
  obtain ⟨⟨t, id⟩, ht, he⟩ := Tx.map_eq_ok.mp h
  cases he
  obtain ⟨p, hp, hagrees', ⟨g, hat⟩, hgrown⟩ := Ns.ensure_eq_ok hx ht hagrees
  obtain rfl := hpath.eq hp
  refine ⟨rfl, rfl, rfl, hagrees', fun i q g hi => ?_, pathOf_eq_some.mpr ⟨g, hat⟩, fun ns q hq => ?_⟩
  · rcases hgrown.new i q g hi with hi | hwithin
    · exact hnormal i q g hi
    · rcases within_iff.mp hwithin with rfl | ⟨rest, rfl⟩
      · exact hpath
      · exact hpath.before
  · obtain ⟨g, hg⟩ := pathOf_eq_some.mp hq
    exact pathOf_eq_some.mpr ⟨g, hgrown.kept ns q g hg⟩

/-- Placing an item that is nowhere yet is one row more. -/
theorem place_eq_ok {y : Nstype.Typing} {item home : Int} (hnew : ∀ r ∈ b.placements.rows, r.itemId ≠ item)
    (h : Substrate.place y b item home .primary 0 = .ok b') :
    b'.items = b.items ∧ b'.namespaces = b.namespaces ∧ b'.containment = b.containment ∧
      b'.placements.rows =
        b.placements.rows ++ [⟨b.placements.nextKey, item, home, .primary, 0, "\x7b\x7d".toList⟩] := by
  obtain ⟨⟨⟩, -, h⟩ := Tx.bind_eq_ok.mp h
  split at h
  case h_1 r hr =>
    have hitem := List.find?_some hr
    simp only [Bool.and_eq_true, decide_eq_true_eq] at hitem
    exact absurd hitem.1.1 (hnew r (List.mem_of_find?_eq_some hr))
  case h_2 =>
    split at h
    · cases h
    · cases h
      exact ⟨rfl, rfl, rfl, rfl⟩

end Substrate

/-- A version of a design is written to its topic, and the items stay as they are. -/
theorem appendRow_eq_ok {d seq : Int} {uid : Text} {doc : Doc} (h : appendRow x s d uid doc = .ok (s', seq)) :
    s'.toStore = s.toStore ∧ s'.targets = s.targets := by
  obtain ⟨queue, -, he⟩ := Tx.bind_eq_ok.mp h
  cases he
  exact ⟨rfl, rfl⟩

/-- A body is written to its topic, and the items stay as they are. -/
theorem writeBody_eq_ok {id seq : Int} {uid body : Text} (h : writeBody x s id uid body = .ok (s', seq)) :
    s'.toStore = s.toStore ∧ s'.targets = s.targets := by
  unfold writeBody at h
  split at h
  · cases h
    exact ⟨rfl, rfl⟩
  · obtain ⟨written, -, h⟩ := Tx.bind_eq_ok.mp h
    cases written with
    | none =>
        cases h
        exact ⟨rfl, rfl⟩
    | some doc => exact appendRow_eq_ok h

/-- What `create` writes to the substrate. -/
theorem create_store {now stamp repo title body : Text} {made : DesignRow}
    (h : create x s now stamp repo title body = .ok (s', made)) :
    ∃ path b₁ id b₂ home, normalize x.nfc (ROOT ++ '/' :: repo) = .ok path ∧
      Substrate.upsert s.toStore { uid := made.uid, kind := KIND, content := some (trim title) } = .ok (b₁, id) ∧
      Substrate.ensure x.toTyping b₁ now path = .ok (b₂, home) ∧
      Substrate.place x.toTyping b₂ id home .primary 0 = .ok s'.toStore ∧ s'.targets = s.targets := by
  obtain ⟨_, -, h⟩ := Tx.bind_eq_ok.mp h
  obtain ⟨_, -, h⟩ := Tx.bind_eq_ok.mp h
  obtain ⟨path, hpath, h⟩ := Tx.bind_eq_ok.mp h
  obtain ⟨⟨b₁, id⟩, hupsert, h⟩ := Tx.bind_eq_ok.mp h
  obtain ⟨⟨b₂, home⟩, hensure, h⟩ := Tx.bind_eq_ok.mp h
  obtain ⟨b₃, hplace, h⟩ := Tx.bind_eq_ok.mp h
  obtain ⟨queue, -, h⟩ := Tx.bind_eq_ok.mp h
  obtain ⟨⟨t, seq⟩, ht, he⟩ := Tx.bind_eq_ok.mp h
  cases he
  obtain ⟨hstore, htargets⟩ := writeBody_eq_ok ht
  exact ⟨path, b₁, id, b₂, home, hpath, hupsert, hensure, hstore ▸ hplace, htargets⟩

/-- The primary namespace of an item is the first path that one of its primary placements names. -/
theorem primaryNamespace_eq (s : Store Doc Queue) (item : Int) :
    primaryNamespace s item = (s.placements.rows.filter fun p => p.itemId = item && p.role = .primary).findSome?
      fun p => pathOf s.toStore p.namespaceId := rfl

theorem findSome?_congr {α β : Type*} {f g : α → Option β} {l : List α} (h : ∀ a ∈ l, f a = g a) :
    l.findSome? f = l.findSome? g := by
  induction l with
  | nil => rfl
  | cons a l ih =>
      obtain ⟨ha, hl⟩ := List.forall_mem_cons.mp h
      rw [List.findSome?_cons, List.findSome?_cons, ha, ih hl]

/-- The rows of one more item, placed in one namespace, with every path there was. -/
structure Added (x : Outside Doc Queue) (s s' : Store Doc Queue) (uid title path : Text) (home : Int) : Prop where
  free : ∀ r ∈ s.items.rows, r.uid ≠ uid
  items : s'.items = s.items.insertNext (fun id => { id, uid, kind := KIND, content := some title }) fun _ => rfl
  placed : s'.placements.rows =
    s.placements.rows ++ [⟨s.placements.nextKey, s.items.nextKey, home, .primary, 0, "\x7b\x7d".toList⟩]
  inside : contained s' = contained s
  targets : s'.targets = s.targets
  home : pathOf s'.toStore home = some path
  paths : ∀ ns p, pathOf s.toStore ns = some p → pathOf s'.toStore ns = some p
  agrees : Agrees s'.namespaces.rows
  normal : ∀ i path parent, At s'.namespaces.rows i path parent → Normal x.nfc path

/-- A row of the placements is of an item that there is. -/
theorem Stored.not_placed (hs : Stored x s) : ∀ r ∈ s.placements.rows, r.itemId ≠ s.items.nextKey := by
  intro r hr he
  have hitem := (hs.placed r hr).1
  rw [he, item?_nextKey s.toStore] at hitem
  cases hitem

/-- The path of a namespace that something is placed in. -/
theorem Stored.path_placed (hs : Stored x s) {r : Substrate.PlacementRow} (hr : r ∈ s.placements.rows) :
    ∃ p, pathOf s.toStore r.namespaceId = some p := by
  obtain ⟨n, hn⟩ := Option.isSome_iff_exists.mp (hs.placed r hr).2
  exact ⟨n.path, by rw [pathOf, hn]; rfl⟩

/-- A namespace with a path is there. -/
theorem isSome_of_pathOf {b : Substrate.Store} {ns : Int} {p : Text} (h : pathOf b ns = some p) :
    (b.namespaces.toTable.find? ns).isSome = true := by
  obtain ⟨n, hn, -⟩ := Option.map_eq_some_iff.mp h
  rw [hn]
  rfl

/-- `create` adds an item to the tables. -/
theorem added_of_create {now stamp repo title body : Text} {made : DesignRow} (hx : Composition x.nfc)
    (hs : Stored x s) (h : create x s now stamp repo title body = .ok (s', made)) :
    ∃ path home, normalize x.nfc (ROOT ++ '/' :: repo) = .ok path ∧ Added x s s' made.uid (trim title) path home := by
  obtain ⟨path, b₁, id, b₂, home, hpath, hupsert, hensure, hplace, htargets⟩ := create_store h
  obtain ⟨huid, rfl, hitems₁, hspaces₁, hplaced₁, hinside₁⟩ := upsert_eq_ok hupsert
  obtain ⟨hitems₂, hplaced₂, hinside₂, hagrees, hnormal, hhome, hkept⟩ :=
    ensure_eq_ok hx (hspaces₁ ▸ hs.agrees) (hspaces₁ ▸ hs.normal) (normal_of_normalize hx hpath) hensure
  rw [hplaced₁] at hplaced₂
  obtain ⟨hitems₃, hspaces₃, hinside₃, hplaced₃⟩ := place_eq_ok (hplaced₂ ▸ hs.not_placed) hplace
  rw [hplaced₂] at hplaced₃
  refine ⟨path, home, hpath, huid, ?_, hplaced₃, ?_, htargets, ?_, fun ns p hp => ?_, hspaces₃ ▸ hagrees,
    hspaces₃ ▸ hnormal⟩
  · rw [hitems₃, hitems₂, hitems₁]
  · rw [contained, contained, hinside₃, hinside₂, hinside₁]
  · rw [pathOf, hspaces₃]
    exact hhome
  · rw [pathOf, hspaces₃]
    refine hkept ns p ?_
    rw [pathOf, hspaces₁]
    exact hp

namespace Added

variable {uid title path : Text} {home : Int} (h : Added x s s' uid title path home) (hs : Stored x s)
include h

/-- The items after a design is made: the ones before, and the design. -/
theorem item (j : Int) : s'.item? j =
    if s.items.nextKey = j then some { id := s.items.nextKey, uid, kind := KIND, content := some title }
    else s.item? j := by
  rw [Substrate.Store.item?, h.items, AutoTable.find?_insertNext]
  rfl

/-- An item that is there stays. -/
theorem isSome {j : Int} (hj : (s.item? j).isSome = true) : (s'.item? j).isSome = true := by
  rw [h.item]
  split <;> simp [hj]

include hs

/-- **An item that is added stands alone.** -/
theorem created : Created s s' s.items.nextKey uid path where
  fresh := item?_nextKey s.toStore
  item := ⟨_, by rw [h.item, if_pos rfl], rfl, rfl⟩
  others j hj := by rw [h.item, if_neg (Ne.symm hj)]
  inside := h.inside
  targets := h.targets
  repo := by
    have hnone : (s.placements.rows.filter fun p => p.itemId = s.items.nextKey && p.role = .primary) = [] :=
      List.filter_eq_nil_iff.mpr fun r hr => by simp [hs.not_placed r hr]
    rw [repoOf, primaryNamespace_eq, h.placed, List.filter_append, hnone, List.nil_append,
      List.filter_cons_of_pos (by simp), List.filter_nil, List.findSome?_cons, h.home]
    rfl
  repos j hj := by
    have hpaths : ∀ r ∈ s.placements.rows, pathOf s'.toStore r.namespaceId = pathOf s.toStore r.namespaceId := by
      intro r hr
      obtain ⟨p, hp⟩ := hs.path_placed hr
      rw [hp, h.paths _ _ hp]
    rw [repoOf, repoOf, primaryNamespace_eq, primaryNamespace_eq, h.placed, List.filter_append,
      List.filter_cons_of_neg (by simpa using fun he => absurd he (Ne.symm hj)), List.filter_nil, List.append_nil,
      findSome?_congr fun r hr => hpaths r (List.mem_of_mem_filter hr)]

/-- **The tables stay as they are kept.** -/
theorem stored : Stored x s' where
  uids := by
    rw [h.items]
    show ((s.items.rows ++ [_]).map fun r : Substrate.ItemRow => r.uid).Nodup
    rw [List.map_append, List.nodup_append]
    refine ⟨hs.uids, List.nodup_singleton _, fun u hu v hv => ?_⟩
    obtain ⟨r, hr, rfl⟩ := List.mem_map.mp hu
    rw [List.mem_singleton.mp hv]
    exact h.free r hr
  inside c p hcp := by
    rw [h.inside] at hcp
    exact ⟨h.isSome (hs.inside c p hcp).1, h.isSome (hs.inside c p hcp).2⟩
  placed r hr := by
    rw [h.placed, List.mem_append, List.mem_singleton] at hr
    rcases hr with hr | rfl
    · obtain ⟨p, hp⟩ := hs.path_placed hr
      exact ⟨h.isSome (hs.placed r hr).1, isSome_of_pathOf (h.paths _ _ hp)⟩
    · exact ⟨by rw [h.item, if_pos rfl]; rfl, isSome_of_pathOf h.home⟩
  target d hd := by
    rw [docTarget, h.targets] at hd
    exact h.isSome (hs.target d hd)
  agrees := h.agrees
  normal := h.normal

end Added

/-- **What `create` leaves**: a design that stands alone, and the tables as they are kept. -/
theorem create_eq_ok {now stamp repo title body : Text} {made : DesignRow} (hx : Composition x.nfc) (hs : Stored x s)
    (h : create x s now stamp repo title body = .ok (s', made)) :
    ∃ id path, normalize x.nfc (ROOT ++ '/' :: repo) = .ok path ∧ Created s s' id made.uid path ∧ Stored x s' := by
  obtain ⟨path, home, hpath, hadded⟩ := added_of_create hx hs h
  exact ⟨s.items.nextKey, path, hpath, hadded.created hs, hadded.stored hs⟩

/-! ## what the writers keep -/

/-- **What a writer keeps**: the tables and the trees as they have to be, every item, and every item's repo. -/
structure Kept (x : Outside Doc Queue) (s s' : Store Doc Queue) : Prop where
  stored : Stored x s'
  sound : Sound s'
  items : ∀ j i, s.item? j = some i → s'.item? j = some i
  repos : ∀ j, (s.item? j).isSome = true → repoOf s' j = repoOf s j

namespace Kept

/-- Where nothing is written, all is kept. -/
theorem refl (hs : Stored x s) (hsound : Sound s) : Kept x s s := ⟨hs, hsound, fun _ _ => id, fun _ _ => rfl⟩

/-- An item that is there stays. -/
theorem isSome {j : Int} (h : Kept x s s') (hj : (s.item? j).isSome = true) : (s'.item? j).isSome = true := by
  obtain ⟨i, hi⟩ := Option.isSome_iff_exists.mp hj
  rw [h.items j i hi]
  rfl

/-- A design stays one, and what is none becomes none. -/
theorem isDesign_eq {j : Int} (h : Kept x s s') (hj : (s.item? j).isSome = true) : isDesign s' j = isDesign s j := by
  obtain ⟨i, hi⟩ := Option.isSome_iff_exists.mp hj
  rw [isDesign, isDesign, hi, h.items j i hi]

/-- What two writes keep, one after the other, both keep. -/
theorem trans {t : Store Doc Queue} (h : Kept x s s') (h' : Kept x s' t) : Kept x s t where
  stored := h'.stored
  sound := h'.sound
  items j i hi := h'.items j i (h.items j i hi)
  repos j hj := (h'.repos j (h.isSome hj)).trans (h.repos j hj)

/-- A change of documents, metadata or the queue. -/
theorem congr {t : Store Doc Queue} (h : Kept x s s') (hstore : t.toStore = s'.toStore)
    (htargets : t.targets = s'.targets) : Kept x s t := by
  refine ⟨h.stored.congr hstore htargets, h.sound.congr hstore htargets, fun j i hi => ?_, fun j hj => ?_⟩
  · rw [hstore]
    exact h.items j i hi
  · rw [repoOf, primaryNamespace, hstore]
    exact h.repos j hj

end Kept

/-- Containing an item, where the trees stay as they have to be. -/
theorem kept_contain {c p position : Int} (hs : Stored x s) (h : contain s c p position = .ok s')
    (hsound : Sound s') (hc : (s.item? c).isSome = true) (hp : (s.item? p).isSome = true) : Kept x s s' := by
  refine ⟨hs.contain h hc hp, hsound, fun j i hi => ?_, fun j _ => repoOf_contain h j⟩
  rw [(contain_eq_ok h).2]
  exact hi

/-- Making a design keeps every item and every item's repo. -/
theorem Created.kept {id : Int} {uid path : Text} (h : Created s s' id uid path) (hs : Stored x s) (hs' : Stored x s')
    (hsound : Sound s) : Kept x s s' where
  stored := hs'
  sound := h.sound hs hsound
  items j i hi := by
    rw [h.others j (h.ne_of_isSome (by simp [hi]))]
    exact hi
  repos j hj := h.repos j (h.ne_of_isSome hj)

/-- `create` keeps every item and every item's repo. -/
theorem kept_create {now stamp repo title body : Text} {made : DesignRow} (hx : Composition x.nfc) (hs : Stored x s)
    (hsound : Sound s) (h : create x s now stamp repo title body = .ok (s', made)) : Kept x s s' := by
  obtain ⟨id, path, -, hcreated, hs'⟩ := create_eq_ok hx hs h
  exact hcreated.kept hs hs' hsound

/-- An item is found under its own id. -/
theorem id_of_item? {d : Int} {i : Substrate.ItemRow} (h : s.item? d = some i) : i.id = d := by
  have hkey := Table.key_of_find? h
  exact hkey

/-- A uid that names a design is the uid of an item of its kind. -/
theorem designId_eq_ok {uid : Text} {d : Int} (h : designId s uid = .ok d) :
    ∃ i ∈ s.items.rows, i.uid = uid ∧ i.id = d ∧ s.item? d = some i ∧ i.kind = KIND := by
  unfold designId at h
  split at h
  case h_1 => cases h
  case h_2 i hi =>
    have hmem := List.mem_of_find?_eq_some hi
    have huid : i.uid = uid := by simpa using List.find?_some hi
    split at h
    case isTrue hkind =>
      cases h
      exact ⟨i, hmem, huid, rfl, Table.find?_of_mem hmem, hkind⟩
    case isFalse => cases h

/-- The design that a uid names is there. -/
theorem isSome_of_designId {uid : Text} {d : Int} (h : designId s uid = .ok d) : (s.item? d).isSome = true := by
  obtain ⟨i, -, -, -, hi, -⟩ := designId_eq_ok h
  rw [hi]
  rfl

/-- What a uid names as a design is one. -/
theorem isDesign_of_designId {uid : Text} {d : Int} (h : designId s uid = .ok d) : isDesign s d = true := by
  obtain ⟨i, -, -, -, hi, hkind⟩ := designId_eq_ok h
  exact isDesign_eq_true.mpr ⟨i, hi, hkind⟩

/-- The id of a uid is that of the item that has it. -/
theorem id_of_designId (hs : Stored x s) {uid : Text} {d : Int} (h : designId s uid = .ok d) {i : Substrate.ItemRow}
    {j : Int} (hi : s.item? j = some i) (huid : i.uid = uid) : d = j := by
  obtain ⟨i', hmem, huid', rfl, -, -⟩ := designId_eq_ok h
  obtain rfl := List.inj_on_of_nodup_map hs.uids hmem (Table.mem_of_find? hi) (huid'.trans huid.symm)
  exact id_of_item? hi

/-! ### nesting -/

/-- **What a nest does**: nothing, of a design that is there already; else the design is of the same repo, has no doc
target, is contained, and no span of the tree it left lost a step. -/
theorem nest_eq_ok {uid under : Text} {r : DesignRow} (h : nest x s uid under = .ok (s', r)) :
    ∃ child parent, designId s uid = .ok child ∧ designId s under = .ok parent ∧ repoOf s child = repoOf s parent ∧
      (s' = s ∨ docTarget s child = none ∧ ∃ position before after, contain s child parent position = .ok s' ∧
        stagedSpans x s ((rootOf s child, []) :: descendants s (rootOf s child)) = .ok before ∧
        stagedSpans x s' ((rootOf s child, []) :: descendants s (rootOf s child)) = .ok after ∧
        lostSpans before after = []) := by
  obtain ⟨child, hchild, h⟩ := Tx.bind_eq_ok.mp h
  obtain ⟨parent, hparent, h⟩ := Tx.bind_eq_ok.mp h
  obtain ⟨_, -, h⟩ := Tx.bind_eq_ok.mp h
  obtain ⟨_, hrepo, h⟩ := Tx.bind_eq_ok.mp h
  refine ⟨child, parent, hchild, hparent, not_not.mp (refuseIf_eq_ok.mp hrepo), ?_⟩
  split at h
  · obtain ⟨_, -, he⟩ := Tx.bind_eq_ok.mp h
    cases he
    exact Or.inl rfl
  · obtain ⟨_, hmoved, h⟩ := Tx.bind_eq_ok.mp h
    obtain ⟨before, hbefore, h⟩ := Tx.bind_eq_ok.mp h
    obtain ⟨position, -, h⟩ := Tx.bind_eq_ok.mp h
    obtain ⟨t, ht, h⟩ := Tx.bind_eq_ok.mp h
    obtain ⟨after, hafter, h⟩ := Tx.bind_eq_ok.mp h
    obtain ⟨_, hlost, h⟩ := Tx.bind_eq_ok.mp h
    obtain ⟨_, -, he⟩ := Tx.bind_eq_ok.mp h
    cases he
    have hnone := refuseIf_eq_ok.mp (Tx.forM_eq_ok.mp hmoved (child, uid) List.mem_cons_self)
    exact Or.inr ⟨Option.not_isSome_iff_eq_none.mp hnone, position, before, after, ht, hbefore, hafter,
      not_not.mp (refuseIf_eq_ok.mp hlost)⟩

/-- `nest` keeps every item and every item's repo. -/
theorem kept_nest {uid under : Text} {r : DesignRow} (hs : Stored x s) (hsound : Sound s)
    (h : nest x s uid under = .ok (s', r)) : Kept x s s' := by
  obtain ⟨child, parent, hchild, hparent, hrepo, rfl | ⟨hnone, position, -, -, hcontain, -⟩⟩ := nest_eq_ok h
  · exact .refl hs hsound
  · exact kept_contain hs hcontain
      (hsound.nest hcontain (isDesign_of_designId hchild) (isDesign_of_designId hparent) hrepo hnone)
      (isSome_of_designId hchild) (isSome_of_designId hparent)

/-- `create_under` keeps every item and every item's repo. -/
theorem kept_createUnder {now stamp repo title body : Text} {under : Option Text} {made : DesignRow}
    (hx : Composition x.nfc) (hs : Stored x s) (hsound : Sound s)
    (h : createUnder x s now stamp repo title body under = .ok (s', made)) : Kept x s s' := by
  cases under with
  | none => exact kept_create hx hs hsound h
  | some parent =>
      obtain ⟨⟨t, row⟩, ht, h⟩ := Tx.bind_eq_ok.mp h
      have hkept := kept_create hx hs hsound ht
      exact hkept.trans (kept_nest hkept.stored hkept.sound h)

/-! ### doc targets -/

/-- A design that has a document is there. -/
theorem item?_of_docTarget (hs : Stored x s) {d : Int} {path : Text} (h : docTarget s d = some path) :
    ∃ i, s.item? d = some i ∧ i.id = d := by
  obtain ⟨i, hi⟩ := Option.isSome_iff_exists.mp (hs.target d (by simp [h]))
  exact ⟨i, hi, id_of_item? hi⟩

/-- Where no other design is found that shares it, no other has it. -/
theorem eq_of_sharer (hs : Stored x s) {id d : Int} {repo path : Text} (h : sharer s id (some repo) path = none)
    (hrepo : repoOf s d = some repo) (hd : docTarget s d = some path) : d = id := by
  by_contra hne
  obtain ⟨i, hi, hid⟩ := item?_of_docTarget hs hd
  obtain ⟨t, ht, hpath⟩ := Option.map_eq_some_iff.mp hd
  have hkey : t.designId = d := Table.key_of_find? ht
  rw [sharer, Option.map_eq_none_iff, List.find?_eq_none] at h
  refine h i (List.mem_filterMap.mpr ⟨t, List.mem_filter.mpr ⟨Table.mem_of_find? ht, ?_⟩, ?_⟩) ?_
  · simp [hpath, hkey, hne]
  · rw [hkey, hi]
  · simp [hid, hrepo]

/-- A path that is accepted is stored as it was given. -/
theorem repoPath_eq_ok {path path' : Text} {what : String} (h : repoPath path what = .ok path') : path = path' := by
  obtain ⟨_, -, h⟩ := Tx.bind_eq_ok.mp h
  obtain ⟨_, -, h⟩ := Tx.bind_eq_ok.mp h
  obtain ⟨_, -, h⟩ := Tx.bind_eq_ok.mp h
  exact Except.ok.inj h

/-- **What setting a doc target does**: nothing, of the target it has; else a design that is nested in none, and whose
path no other of its repo has, gets it. -/
theorem setDocTarget_eq_ok {uid path : Text} (h : setDocTarget s uid path = .ok s') :
    ∃ id repo, designId s uid = .ok id ∧ parentOf s id = none ∧ repoOf s id = some repo ∧
      sharer s id (some repo) path = none ∧ (s' = s ∨ s' = { s with
        targets := s.targets.upsert ⟨id, path⟩ (fun _ => true) (fun r => { r with path }) fun _ => rfl }) := by
  obtain ⟨id, hid, h⟩ := Tx.bind_eq_ok.mp h
  obtain ⟨_, hparent, h⟩ := Tx.bind_eq_ok.mp h
  obtain ⟨path', hpath, h⟩ := Tx.bind_eq_ok.mp h
  obtain rfl := repoPath_eq_ok hpath
  obtain ⟨_, -, h⟩ := Tx.bind_eq_ok.mp h
  obtain ⟨id', hid', h⟩ := Tx.bind_eq_ok.mp h
  obtain rfl := Except.ok.inj (hid.symm.trans hid')
  obtain ⟨_, -, h⟩ := Tx.bind_eq_ok.mp h
  split at h
  case h_1 => cases h
  case h_2 repo hrepo =>
    split at h
    case h_1 => cases h
    case h_2 hshare =>
      refine ⟨id, repo, hid, Option.not_isSome_iff_eq_none.mp (refuseIf_eq_ok.mp hparent), hrepo, hshare, ?_⟩
      split at h
      · exact Or.inl (Except.ok.inj h).symm
      · exact Or.inr (Except.ok.inj h).symm

/-- A target stays its design's when its path changes. -/
theorem designId_setPath (path : Text) (r : TargetRow) : ({ r with path } : TargetRow).designId = r.designId := rfl

/-- A store with a design's doc target set. -/
def targeted (s : Store Doc Queue) (id : Int) (path : Text) : Store Doc Queue :=
  { s with targets := s.targets.upsert ⟨id, path⟩ (fun _ => true) (fun r => { r with path }) (designId_setPath path) }

/-- A design gets the document that it is given, and no other design gets another. -/
theorem docTarget_targeted (s : Store Doc Queue) (id : Int) (path : Text) (d : Int) :
    docTarget (targeted s id path) d = if d = id then some path else docTarget s d := by
  rw [docTarget, targeted]
  split
  · next hd =>
      rw [hd, Table.find?_upsert_self]
      cases s.targets.find? id <;> rfl
  · next hd => rw [Table.find?_upsert_of_ne _ _ _ _ _ (Ne.symm hd), docTarget]

/-- `set_doc_target` keeps every item and every item's repo. -/
theorem kept_setDocTarget {uid path : Text} (hs : Stored x s) (hsound : Sound s)
    (h : setDocTarget s uid path = .ok s') : Kept x s s' := by
  obtain ⟨id, repo, hid, hparent, hrepo, hshare, rfl | rfl⟩ := setDocTarget_eq_ok h
  · exact .refl hs hsound
  · show Kept x s (targeted s id path)
    have htarget := docTarget_targeted s id path
    refine ⟨⟨hs.uids, hs.inside, hs.placed, fun d hd => ?_, hs.agrees, hs.normal⟩,
      ⟨hsound.forest, hsound.oneRepo, fun d hd hup => ?_, fun a b r p ha hb hpa hpb => ?_⟩,
      fun _ _ hi => hi, fun _ _ => rfl⟩
    · rw [htarget] at hd
      split at hd
      · next hdi =>
          have hitem := isSome_of_designId hid
          exact hdi ▸ hitem
      · exact hs.target d hd
    · rw [htarget]
      split
      · next hdi =>
          subst hdi
          have hnone : parentOf (targeted s d path) d = none := hparent
          rw [hnone] at hup
          cases hup
      · exact hsound.nested d hd hup
    · have heq : ∀ d, repoOf s d = some repo → docTarget s d = some path → d = id := fun d => eq_of_sharer hs hshare
      rw [htarget] at hpa hpb
      split at hpa <;> split at hpb
      · next hai hbi => rw [hai, hbi]
      · next hai hbi =>
          subst hai
          obtain rfl := Option.some.inj hpa
          obtain rfl := Option.some.inj (ha.symm.trans hrepo)
          exact (heq b hb hpb).symm
      · next hai hbi =>
          subst hbi
          obtain rfl := Option.some.inj hpb
          obtain rfl := Option.some.inj (hb.symm.trans hrepo)
          exact heq a ha hpa
      · exact hsound.alone a b r p ha hb hpa hpb

/-! ### splitting -/

/-- The repository of a path is the segment after the root. -/
theorem repoIn_eq_some {path repo : Text} :
    repoIn path = some repo ↔
      ∃ rest, path = ROOT ++ '/' :: rest ∧ (rest.splitOn '/').head? = some repo ∧ repo ≠ [] := by
  simp only [repoIn, Option.bind_eq_bind, Option.bind_eq_some_iff, stripPrefix_eq_some]
  constructor
  · rintro ⟨_, rfl, rest, rfl, first, hfirst, h⟩
    split at h
    · cases h
    · next hne =>
        obtain rfl := Option.some.inj h
        exact ⟨rest, rfl, hfirst, hne⟩
  · rintro ⟨rest, rfl, hfirst, hne⟩
    exact ⟨_, rfl, rest, rfl, repo, hfirst, by rw [if_neg hne]⟩

/-- The repo that a normal path names is one of its segments, so a design made for it is in it. -/
theorem repoIn_made {nfc : Text → Text} {path repo made : Text} (hpath : Normal nfc path)
    (h : repoIn path = some repo) (hmade : normalize nfc (ROOT ++ '/' :: repo) = .ok made) :
    repoIn made = some repo := by
  obtain ⟨rest, rfl, hfirst, hne⟩ := repoIn_eq_some.mp h
  have hmem : repo ∈ rest.splitOn '/' := List.mem_of_head? hfirst
  have hslash : repo.splitOn '/' = [repo] := List.splitOn_eq_singleton (notMem_of_mem_splitOn hmem)
  have hsegments : ∀ t, segments (ROOT ++ '/' :: t) = ROOT :: t.splitOn '/' := by
    intro t
    rw [segments, List.splitOn_append_cons_self]
    rfl
  have hnormal : Normal nfc (ROOT ++ '/' :: repo) := by
    intro t ht
    refine hpath t ?_
    rw [hsegments, hslash] at ht
    rw [hsegments]
    rcases List.mem_cons.mp ht with rfl | ht
    · exact List.mem_cons_self
    · exact List.mem_cons_of_mem _ (List.mem_singleton.mp ht ▸ hmem)
  obtain rfl := hnormal.eq hmade
  exact repoIn_eq_some.mpr ⟨repo, rfl, by rw [hslash]; rfl, hne⟩

/-- The namespace of a design is stored normalized. -/
theorem normal_primaryNamespace (hs : Stored x s) {d : Int} {path : Text} (h : primaryNamespace s d = some path) :
    Normal x.nfc path := by
  rw [primaryNamespace_eq, List.findSome?_eq_some_iff] at h
  obtain ⟨-, r, -, -, hr, -⟩ := h
  obtain ⟨g, hg⟩ := pathOf_eq_some.mp hr
  exact hs.normal _ _ _ hg

/-- A design made for the repo of another is in it. -/
theorem repoOf_created (hs : Stored x s) {t t' : Store Doc Queue} {d id : Int} {repo uid path : Text}
    (hrepo : repoOf s d = some repo) (hpath : normalize x.nfc (ROOT ++ '/' :: repo) = .ok path)
    (h : Created t t' id uid path) : repoOf t' id = some repo := by
  obtain ⟨home, hhome, hin⟩ := Option.bind_eq_some_iff.mp hrepo
  rw [h.repo]
  exact repoIn_made (normal_primaryNamespace hs hhome) hin hpath

/-- What a split reads of the store before it: its design, the design's repo, and items that are not designs. -/
structure Splitting.Of (p : Splitting) (s : Store Doc Queue) : Prop where
  design : isDesign s p.id = true
  repo : repoOf s p.id = some p.repo
  items : ∀ i ∈ p.items, (s.item? i.id).isSome = true ∧ isDesign s i.id = false

/-- A design is there. -/
theorem isSome_of_isDesign {d : Int} (h : isDesign s d = true) : (s.item? d).isSome = true := by
  obtain ⟨i, hi, -⟩ := isDesign_eq_true.mp h
  rw [hi]
  rfl

/-- A span that is moved is contained in its child, or stays where it is. -/
theorem carrySpan_eq_ok {c : Carrying Doc} {items : List SpanItem} {n n' : Nat} {moved : Moved × Nat}
    (h : carrySpan x c items (s, n) moved = .ok (s', n')) :
    s' = s ∨ ∃ i ∈ items, ∃ t, contain s i.id c.child moved.2 = .ok t ∧ s'.toStore = t.toStore ∧
      s'.targets = t.targets := by
  obtain ⟨⟨v, start, stop⟩, position⟩ := moved
  unfold carrySpan at h
  dsimp only at h
  split at h
  · cases h
    exact Or.inl rfl
  · next span hspan =>
      obtain ⟨t, ht, h⟩ := Tx.bind_eq_ok.mp h
      refine Or.inr ⟨span, List.mem_of_find?_eq_some hspan, t, ht, ?_⟩
      split at h
      · obtain ⟨attested, -, h⟩ := Tx.bind_eq_ok.mp h
        split at h
        · cases h
        · obtain ⟨now, -, h⟩ := Tx.bind_eq_ok.mp h
          obtain ⟨_, -, h⟩ := Tx.bind_eq_ok.mp h
          cases h
          exact ⟨rfl, rfl⟩
      · split at h
        · cases h
        · cases h
          exact ⟨rfl, rfl⟩

/-- Carrying spans to a child moves no design. -/
theorem kept_carry {p : Splitting} {t : Store Doc Queue} {parentUid childUid : Text} {base : Version} {child : Int}
    {held : List Text} {spans : List Moved} {n n' : Nat} (hp : p.Of s) (ht : Kept x s t)
    (hchild : (t.item? child).isSome = true)
    (h : carry x t parentUid base child childUid held p.items spans n = .ok (s', n')) : Kept x s s' := by
  unfold carry at h
  split at h
  · cases h
    exact ht
  · obtain ⟨changed, -, h⟩ := Tx.bind_eq_ok.mp h
    cases changed with
    | none => cases h
    | some doc =>
        obtain ⟨⟨t₁, seq⟩, hrow, h⟩ := Tx.bind_eq_ok.mp h
        obtain ⟨⟨t₂, carried⟩, hfold, h⟩ := Tx.bind_eq_ok.mp h
        obtain ⟨_, -, h⟩ := Tx.bind_eq_ok.mp h
        cases h
        obtain ⟨hstore, htargets⟩ := appendRow_eq_ok hrow
        have hkept : Kept x s t₁ ∧ (t₁.item? child).isSome = true :=
          ⟨ht.congr hstore htargets, by rw [hstore]; exact hchild⟩
        refine (Tx.foldlM_invariant (P := fun st : Store Doc Queue × Nat =>
          Kept x s st.1 ∧ (st.1.item? child).isSome = true) ?_ hkept hfold).1
        rintro moved - ⟨u, m⟩ ⟨u', m'⟩ ⟨hu, hchild⟩ hstep
        rcases carrySpan_eq_ok hstep with rfl | ⟨i, hi, v, hv, hvs, hvt⟩
        · exact ⟨hu, hchild⟩
        · obtain ⟨hitem, hnot⟩ := hp.items i hi
          have hnot' : isDesign u i.id = false := (hu.isDesign_eq hitem).trans hnot
          have hkv := kept_contain hu.stored hv (hu.sound.contain hv hnot') (hu.isSome hitem) hchild
          have hku' := hkv.congr hvs hvt
          exact ⟨hu.trans hku', hku'.isSome hchild⟩

/-- **A section becomes a design under the one that is split, in its repo.** -/
theorem kept_splitSection {p : Splitting} {t : Store Doc Queue} {children children' : List DesignRow} {n n' : Nat}
    {sec : (Section × List Moved) × Nat} (hx : Composition x.nfc) (hs : Stored x s) (hp : p.Of s) (ht : Kept x s t)
    (h : splitSection x p (t, children, n) sec = .ok (s', children', n')) : Kept x s s' := by
  obtain ⟨⟨sect, spans⟩, i⟩ := sec
  obtain ⟨body, -, h⟩ := Tx.bind_eq_ok.mp h
  obtain ⟨⟨t₁, made⟩, hmade, h⟩ := Tx.bind_eq_ok.mp h
  obtain ⟨child, hchild, h⟩ := Tx.bind_eq_ok.mp h
  obtain ⟨t₂, ht₂, h⟩ := Tx.bind_eq_ok.mp h
  obtain ⟨⟨t₃, carried⟩, ht₃, h⟩ := Tx.bind_eq_ok.mp h
  obtain ⟨_, -, h⟩ := Tx.bind_eq_ok.mp h
  cases h
  obtain ⟨id, path, hpath, hcreated, hstored⟩ := create_eq_ok hx ht.stored hmade
  have hkept₁ : Kept x s t₁ := ht.trans (hcreated.kept ht.stored hstored ht.sound)
  obtain ⟨item, hitem, -, huid⟩ := hcreated.item
  obtain rfl := id_of_designId hstored hchild hitem huid
  have hpid := isSome_of_isDesign hp.design
  have hdesign : isDesign t₁ p.id = true := (hkept₁.isDesign_eq hpid).trans hp.design
  have hrepo : repoOf t₁ child = repoOf t₁ p.id := by
    rw [repoOf_created hs hp.repo hpath hcreated, hkept₁.repos p.id hpid, hp.repo]
  have hnone : docTarget t₁ child = none := by
    rw [docTarget, hcreated.targets]
    cases htarget : t.targets.find? child with
    | none => rfl
    | some r =>
        have hthere := ht.stored.target child (by rw [docTarget, htarget]; rfl)
        exact absurd rfl (hcreated.ne_of_isSome hthere)
  have hsound₂ := hkept₁.sound.nest ht₂ hcreated.isDesign_self hdesign hrepo hnone
  have hkept₂ := kept_contain hstored ht₂ hsound₂ (isSome_of_designId hchild) (hkept₁.isSome hpid)
  exact kept_carry hp (hkept₁.trans hkept₂) (hkept₂.isSome (isSome_of_designId hchild)) ht₃

/-- The span items of a design: those that it contains. -/
theorem mem_spanItems {d : Int} {items : List SpanItem} (h : spanItems x s d = .ok items) {i : SpanItem} :
    i ∈ items → i.design = d ∧ Containment.Inside (contained s) i.id d ∧
      ∃ r, s.item? i.id = some r ∧ r.kind = SPAN_KIND ∧ r.uid = i.uid := by
  intro hi
  obtain ⟨r, hr, hi⟩ := Tx.mem_of_mapM h i hi
  obtain ⟨hr, hkind⟩ := List.mem_filter.mp hr
  obtain ⟨c, hc, hr⟩ := List.mem_filterMap.mp hr
  split at hi
  case h_1 => cases hi
  case h_2 =>
    cases hi
    obtain rfl := id_of_item? hr
    exact ⟨rfl, mem_children.mp hc, r, hr, of_decide_eq_true hkind, rfl⟩

/-- **A split keeps what holds.** -/
theorem kept_split {now : Text} {stamp : Nat → Text} {uid base : Text} {level : Nat} {made : SplitMade}
    (hx : Composition x.nfc) (hs : Stored x s) (hsound : Sound s)
    (h : split x s now stamp uid base level = .ok (s', made)) : Kept x s s' := by
  obtain ⟨_, -, h⟩ := Tx.bind_eq_ok.mp h
  obtain ⟨id, hid, h⟩ := Tx.bind_eq_ok.mp h
  obtain ⟨version, -, h⟩ := Tx.bind_eq_ok.mp h
  obtain ⟨_, -, h⟩ := Tx.bind_eq_ok.mp h
  split at h
  case h_1 => cases h
  case h_2 repo hrepo =>
    obtain ⟨sections, -, h⟩ := Tx.bind_eq_ok.mp h
    obtain ⟨_, -, h⟩ := Tx.bind_eq_ok.mp h
    obtain ⟨_, -, h⟩ := Tx.bind_eq_ok.mp h
    obtain ⟨before, -, h⟩ := Tx.bind_eq_ok.mp h
    obtain ⟨items, hitems, h⟩ := Tx.bind_eq_ok.mp h
    obtain ⟨⟨bounds, moving⟩, -, h⟩ := Tx.bind_eq_ok.mp h
    obtain ⟨threads, -, h⟩ := Tx.bind_eq_ok.mp h
    obtain ⟨_, -, h⟩ := Tx.bind_eq_ok.mp h
    obtain ⟨rest, -, h⟩ := Tx.bind_eq_ok.mp h
    cases rest with
    | none => cases h
    | some rest =>
        obtain ⟨⟨t, seq⟩, hrow, h⟩ := Tx.bind_eq_ok.mp h
        obtain ⟨first, -, h⟩ := Tx.bind_eq_ok.mp h
        obtain ⟨⟨u, children, carried⟩, hfold, h⟩ := Tx.bind_eq_ok.mp h
        obtain ⟨_, -, h⟩ := Tx.bind_eq_ok.mp h
        obtain ⟨_, -, h⟩ := Tx.bind_eq_ok.mp h
        cases h
        obtain ⟨hstore, htargets⟩ := appendRow_eq_ok hrow
        refine Tx.foldlM_invariant (P := fun st : Store Doc Queue × List DesignRow × Nat => Kept x s st.1) ?_
          ((Kept.refl hs hsound).congr hstore htargets) hfold
        rintro sec - ⟨v, cs, n⟩ ⟨v', cs', n'⟩ hv hstep
        refine kept_splitSection hx hs ⟨isDesign_of_designId hid, hrepo, fun i hi => ?_⟩ hv hstep
        obtain ⟨-, -, r, hr, hkind, -⟩ := mem_spanItems hitems hi
        refine ⟨by rw [hr]; rfl, ?_⟩
        rw [isDesign, hr, Option.any_some, hkind]
        rfl

/-- **Every call keeps what holds.** -/
theorem kept_next (hx : Composition x.nfc) (hs : Stored x s) (hsound : Sound s) (o : Op) : Kept x s (next x s o) := by
  refine Tx.commit_rel (R := Kept x) (.refl hs hsound) fun t ht => ?_
  cases o with
  | create now stamp repo title body under =>
      obtain ⟨⟨t, made⟩, hmade, rfl⟩ := Tx.map_eq_ok.mp ht
      exact kept_createUnder hx hs hsound hmade
  | nest uid under =>
      obtain ⟨⟨t, made⟩, hmade, rfl⟩ := Tx.map_eq_ok.mp ht
      exact kept_nest hs hsound hmade
  | split now stamp uid base level =>
      obtain ⟨⟨t, made⟩, hmade, rfl⟩ := Tx.map_eq_ok.mp ht
      exact kept_split hx hs hsound hmade
  | setDocTarget uid path => exact kept_setDocTarget hs hsound ht
  | «export» uid repo =>
      cases uid with
      | some uid =>
          obtain ⟨_, -, rfl⟩ := Tx.map_eq_ok.mp ht
          exact .refl hs hsound
      | none =>
          obtain ⟨_, -, rfl⟩ := Tx.map_eq_ok.mp ht
          exact .refl hs hsound

end

end Jkb.Design.Tree
