import Jkb.Graph
import Jkb.Sync.Tasks.Needed

/-!
# Jkb.Sync.ThreeWay.Importable

When a merged document can be imported: its dependencies have no cycle and its nesting is a forest. And when its file
can be read: what its lines write as needs, those that are parked among them, has no cycle.

Each side of a merge is importable, and what it says of an item stands or falls as a whole, so the only cycles that
importing can meet run through an item that only the disk edited and one that only the knowledge base did.
`importable_iff` says that these are exactly the ones that break it, and that the file of the merge breaks on any cycle
of the needs that stand.
-/

namespace Jkb.Sync

open Jkb.Graph Relation

/-- Importing a document is not refused for a cycle: dependencies are acyclic and nesting is a
forest. -/
structure Importable (doc : SyncDoc) : Prop where
  needs : Acyclic (doc.edge .dependsOn)
  nesting : Acyclic (doc.edge .parentOf)
  oneParent : ∀ a a' b, doc.edge .parentOf a b → doc.edge .parentOf a' b → a = a'

/-! ## what stands of two sides -/

/-- A side edited an item: it says something else of it than the base. -/
def Edited (base side : SyncDoc) (id : Text) : Prop := sig base id ≠ sig side id

/-- What is said of an item stands: the knowledge base has the item and says so, where it edited the item, and else the
disk. -/
def Stands (base disk kb : SyncDoc) (id : Text) (said : SyncDoc → Prop) : Prop :=
  Edited base kb id ∧ id ∈ kb.ids ∧ said kb ∨ ¬ Edited base kb id ∧ id ∈ disk.ids ∧ said disk

/-- The item that an edge is a statement of. -/
def ownerOf (kind : EdgeType) (src dst : Text) : Text := (edgeOwner ⟨src, dst, kind⟩).1

/-- An edge stands, as a statement of its owner. -/
def EdgeStands (base disk kb : SyncDoc) (kind : EdgeType) (src dst : Text) : Prop :=
  Stands base disk kb (ownerOf kind src dst) fun doc => doc.edge kind src dst

/-- A need stands, be it a dependency or parked. -/
def NeedStands (base disk kb : SyncDoc) (a b : Text) : Prop := Stands base disk kb a fun doc => doc.needs a b

/-- A cycle of edges that stand, with an edge of an item that only the disk edited and an edge of an item that only the
knowledge base edited. -/
def CrossEdit (base disk kb : SyncDoc) (kind : EdgeType) : Prop :=
  ∃ a b c d,
    (EdgeStands base disk kb kind a b ∧ Edited base disk (ownerOf kind a b) ∧ ¬ Edited base kb (ownerOf kind a b)) ∧
      (EdgeStands base disk kb kind c d ∧ Edited base kb (ownerOf kind c d) ∧ ¬ Edited base disk (ownerOf kind c d)) ∧
      ReflTransGen (EdgeStands base disk kb kind) b c ∧ ReflTransGen (EdgeStands base disk kb kind) d a

/-! ## what a signature says -/

/-- An edge is read off what its owner owns. -/
theorem mem_edges_iff {doc : SyncDoc} {e : SyncEdge} :
    e ∈ doc.edges ↔ (e.edgeType.asStr, (edgeOwner e).2) ∈ ownedEdges doc (edgeOwner e).1 := by
  simp only [ownedEdges, List.mem_map, List.mem_filter, decide_eq_true_eq, Prod.mk.injEq]
  constructor
  · intro h
    exact ⟨e, ⟨h, rfl⟩, rfl, rfl⟩
  · rintro ⟨e', ⟨he', howner⟩, htype, hother⟩
    obtain ⟨src, dst, kind⟩ := e
    obtain ⟨src', dst', kind'⟩ := e'
    obtain rfl : kind' = kind := EdgeType.asStr_injective htype
    have hsame : src' = src ∧ dst' = dst := by
      cases kind' <;> simp_all [edgeOwner]
    rwa [hsame.1, hsame.2] at he'

/-- What is said of an item is part of its signature: two documents that have the item under one signature say it
alike. -/
def Signed (id : Text) (said : SyncDoc → Prop) : Prop :=
  ∀ x y : SyncDoc, x.ids.Nodup → y.ids.Nodup → id ∈ x.ids → sig x id = sig y id → (said x ↔ said y)

/-- Two documents with one signature of an item have the same item, as far as it is signed. -/
theorem sigOf_eq_of_sig {x y : SyncDoc} (hx : x.ids.Nodup) (hy : y.ids.Nodup) {id : Text} (hid : id ∈ x.ids)
    (hsig : sig x id = sig y id) : ∃ i j, x.item? id = some i ∧ y.item? id = some j ∧
      sigOf i (ownedEdges x id) = sigOf j (ownedEdges y id) := by
  rw [sig_eq hx, sig_eq hy] at hsig
  obtain ⟨i, hi⟩ := Option.isSome_iff_exists.mp (SyncDoc.item?_isSome.mpr hid)
  rw [hi, Option.map_some, eq_comm, Option.map_eq_some_iff] at hsig
  obtain ⟨j, hj, hij⟩ := hsig
  exact ⟨i, j, hi, hj, hij.symm⟩

/-- An edge is part of its owner's signature. -/
theorem signed_edge (kind : EdgeType) (src dst : Text) :
    Signed (ownerOf kind src dst) fun doc => doc.edge kind src dst := by
  intro x y hx hy hid hsig
  obtain ⟨i, j, -, -, hij⟩ := sigOf_eq_of_sig hx hy hid hsig
  have hedges : sortPairs (ownedEdges x (ownerOf kind src dst)) = sortPairs (ownedEdges y (ownerOf kind src dst)) :=
    congrArg Sig.edges hij
  have hmem : ∀ (doc : SyncDoc) (e : String × Text),
      e ∈ ownedEdges doc (ownerOf kind src dst) ↔ toLex e ∈ sortPairs (ownedEdges doc (ownerOf kind src dst)) := by
    simp [sortPairs, List.mem_insertionSort]
  change (⟨src, dst, kind⟩ : SyncEdge) ∈ x.edges ↔ (⟨src, dst, kind⟩ : SyncEdge) ∈ y.edges
  rw [mem_edges_iff, mem_edges_iff]
  change _ ∈ ownedEdges x (ownerOf kind src dst) ↔ _ ∈ ownedEdges y (ownerOf kind src dst)
  rw [hmem x, hmem y, hedges]

/-- What a task needs is part of its signature, be it a dependency or parked. -/
theorem signed_needs (a b : Text) : Signed a fun doc => doc.needs a b := by
  intro x y hx hy hid hsig
  obtain ⟨i, j, hi, hj, hij⟩ := sigOf_eq_of_sig hx hy hid hsig
  have hparked : i.unresolvedNeeds = j.unresolvedNeeds := congrArg Sig.unresolvedNeeds hij
  have hedge : x.edge .dependsOn a b ↔ y.edge .dependsOn a b := signed_edge .dependsOn a b x y hx hy hid hsig
  simp only [SyncDoc.needs, hedge, hi, hj, Option.some.injEq, exists_eq_left', hparked]

/-! ## what stands is what the merge keeps -/

section

variable {base disk kb : SyncDoc} (hb : base.ids.Nodup) (hd : disk.ids.Nodup) (hk : kb.ids.Nodup)
  (hagree : ∀ id, Edited base disk id → Edited base kb id → sig disk id = sig kb id)

include hb hd hk

/-- A merge that is no conflict is of sides that agree where both edited. -/
theorem agree_of_merged {m : SyncDoc} (hm : threeWay base disk kb = .merged m) :
    mergedDoc base disk kb = m ∧ ∀ id, Edited base disk id → Edited base kb id → sig disk id = sig kb id := by
  unfold threeWay at hm
  split at hm
  · cases hm
  · next hclash =>
      refine ⟨ThreeWay.merged.inj hm, fun id hdisk hkb => ?_⟩
      by_contra hne
      exact hclash ((clashes_iff hb hd hk).mpr ⟨id, hdisk.symm, hkb.symm, hne⟩)

include hagree

/-- **What stands of an item is what the side that it is taken from says.** -/
theorem stands_iff {id : Text} {said : SyncDoc → Prop} (hsaid : Signed id said) :
    Stands base disk kb id said ↔ id ∈ (chosenSide base disk kb id).ids ∧ said (chosenSide base disk kb id) := by
  have hcongr : ∀ {x y : SyncDoc}, x.ids.Nodup → y.ids.Nodup → sig x id = sig y id →
      (id ∈ x.ids ∧ said x ↔ id ∈ y.ids ∧ said y) := by
    intro x y hx hy hsig
    rw [← sig_isSome hy, ← hsig, sig_isSome hx]
    exact and_congr_right fun hid => hsaid x y hx hy hid hsig
  by_cases hkb : Edited base kb id
  · have hstands : Stands base disk kb id said ↔ id ∈ kb.ids ∧ said kb := by simp [Stands, hkb]
    rw [hstands]
    by_cases hdisk : Edited base disk id
    · rw [chosenSide, if_pos ((mem_changed hb hd).mpr hdisk)]
      exact hcongr hk hd (hagree id hdisk hkb).symm
    · rw [chosenSide, if_neg ((mem_changed hb hd).not.mpr hdisk), if_pos ((mem_changed hb hk).mpr hkb)]
  · have hstands : Stands base disk kb id said ↔ id ∈ disk.ids ∧ said disk := by simp [Stands, hkb]
    rw [hstands]
    by_cases hdisk : Edited base disk id
    · rw [chosenSide, if_pos ((mem_changed hb hd).mpr hdisk)]
    · rw [chosenSide, if_neg ((mem_changed hb hd).not.mpr hdisk), if_neg ((mem_changed hb hk).not.mpr hkb)]
      exact hcongr hd hb (not_not.mp hdisk).symm

/-- The merge has the items of which anything stands. -/
theorem mem_ids_of_stands {id : Text} {said : SyncDoc → Prop} (hsaid : Signed id said)
    (h : Stands base disk kb id said) : id ∈ (mergedDoc base disk kb).ids := by
  rw [ids_mergedDoc, mem_presentIds]
  exact ((stands_iff hb hd hk hagree hsaid).mp h).1

/-- **The edges of a merge** are those that stand, between its items. -/
theorem edge_mergedDoc (kind : EdgeType) (a b : Text) :
    (mergedDoc base disk kb).edge kind a b ↔ a ∈ (mergedDoc base disk kb).ids ∧ EdgeStands base disk kb kind a b ∧
      b ∈ (mergedDoc base disk kb).ids := by
  have howner : a ∈ presentIds base disk kb → b ∈ presentIds base disk kb →
      ownerOf kind a b ∈ (chosenSide base disk kb (ownerOf kind a b)).ids := fun ha hb => by
    rw [← mem_presentIds]
    unfold ownerOf edgeOwner
    split
    · exact hb
    · exact ha
  rw [SyncDoc.edge, mem_mergedEdges, ids_mergedDoc, EdgeStands, stands_iff hb hd hk hagree (signed_edge kind a b)]
  constructor
  · rintro ⟨he, ha, hb⟩
    exact ⟨ha, ⟨howner ha hb, he⟩, hb⟩
  · rintro ⟨ha, ⟨-, he⟩, hb⟩
    exact ⟨he, ha, hb⟩

/-- **What a merge writes as needs** are the needs that stand, between its items. -/
theorem written_mergedDoc (a b : Text) :
    Tasks.Written (mergedDoc base disk kb) a b ↔ a ∈ (mergedDoc base disk kb).ids ∧ NeedStands base disk kb a b ∧
      b ∈ (mergedDoc base disk kb).ids := by
  rw [Tasks.Written]
  refine and_congr_right fun ha => and_congr_left fun hb' => ?_
  have hside : a ∈ (chosenSide base disk kb a).ids := by
    rwa [ids_mergedDoc, mem_presentIds] at ha
  have hedge : (mergedDoc base disk kb).edge .dependsOn a b ↔ (chosenSide base disk kb a).edge .dependsOn a b := by
    rw [edge_mergedDoc hb hd hk hagree, EdgeStands, stands_iff hb hd hk hagree (signed_edge .dependsOn a b)]
    simp only [ha, hb', true_and, and_true]
    exact and_iff_right hside
  rw [NeedStands, stands_iff hb hd hk hagree (signed_needs a b), SyncDoc.needs, SyncDoc.needs, hedge,
    item?_mergedDoc, and_iff_right hside]

/-! ## cycles -/

/-- A merge has a cycle of edges exactly when there is one of edges that stand. -/
theorem acyclic_edge_mergedDoc (kind : EdgeType) :
    Acyclic ((mergedDoc base disk kb).edge kind) ↔ Acyclic (EdgeStands base disk kb kind) := by
  have hsame : (mergedDoc base disk kb).edge kind = fun a b => a ∈ (mergedDoc base disk kb).ids ∧
      EdgeStands base disk kb kind a b ∧ b ∈ (mergedDoc base disk kb).ids := by
    funext a b
    exact propext (edge_mergedDoc hb hd hk hagree kind a b)
  have howner : ∀ a b, EdgeStands base disk kb kind a b → ownerOf kind a b ∈ (mergedDoc base disk kb).ids :=
    fun a b h => mem_ids_of_stands hb hd hk hagree (signed_edge kind a b) h
  rw [hsame]
  refine acyclic_between_iff ?_
  by_cases hkind : kind = .parentOf
  · subst hkind
    exact Or.inr howner
  · refine Or.inl fun a b h => ?_
    have hsrc : ownerOf kind a b = a := by
      cases kind <;> first | rfl | exact absurd rfl hkind
    exact hsrc ▸ howner a b h

/-- A merge is written without a cycle if the needs that stand have none. -/
theorem acyclic_written_mergedDoc :
    Acyclic (Tasks.Written (mergedDoc base disk kb)) ↔ Acyclic (NeedStands base disk kb) := by
  have hsame : Tasks.Written (mergedDoc base disk kb) = fun a b => a ∈ (mergedDoc base disk kb).ids ∧
      NeedStands base disk kb a b ∧ b ∈ (mergedDoc base disk kb).ids := by
    funext a b
    exact propext (written_mergedDoc hb hd hk hagree a b)
  rw [hsame]
  exact acyclic_between_iff (Or.inl fun a b h => mem_ids_of_stands hb hd hk hagree (signed_needs a b) h)

omit hb

/-- **A cycle of edges that stand** is one that both sides had a hand in: an edge that the other side does not have is
of an item that only its own side edited. -/
theorem acyclic_edgeStands_iff {kind : EdgeType} (hdisk : Acyclic (disk.edge kind)) (hkb : Acyclic (kb.edge kind)) :
    Acyclic (EdgeStands base disk kb kind) ↔ ¬ CrossEdit base disk kb kind := by
  have hcross := acyclic_iff (r := EdgeStands base disk kb kind) hdisk hkb
  constructor
  · rintro h ⟨a, b, c, d, ⟨hab, -⟩, ⟨hcd, -⟩, hbc, hda⟩
    exact h a (.head' hab ((hbc.tail hcd).trans hda))
  · refine fun h => hcross.mpr ?_
    rintro ⟨a, b, c, d, ⟨hab, hab_kb⟩, ⟨hcd, hcd_disk⟩, hbc, hda⟩
    refine h ⟨a, b, c, d, ⟨hab, ?_⟩, ⟨hcd, ?_⟩, hbc, hda⟩
    · obtain ⟨-, -, hedge⟩ | ⟨hkeeps, hid, hedge⟩ := hab
      · exact absurd hedge hab_kb
      · refine ⟨fun hsame => hab_kb ?_, hkeeps⟩
        have hsig := hsame.symm.trans (not_not.mp hkeeps)
        exact (signed_edge kind a b disk kb hd hk hid hsig).mp hedge
    · obtain ⟨hedit, hid, hedge⟩ | ⟨-, -, hedge⟩ := hcd
      · refine ⟨hedit, fun hboth => hcd_disk ?_⟩
        exact (signed_edge kind c d kb disk hk hd hid (hagree _ hboth hedit).symm).mp hedge
      · exact absurd hedge hcd_disk

omit hd hk hagree

/-- Of edges that stand, no item has two parents, where it has none on either side. -/
theorem oneParent_of_stands (hdisk : Importable disk) (hkb : Importable kb) {a a' b : Text}
    (h : EdgeStands base disk kb .parentOf a b) (h' : EdgeStands base disk kb .parentOf a' b) : a = a' := by
  obtain ⟨hedit, -, h⟩ | ⟨hkeeps, -, h⟩ := h
  · obtain ⟨-, -, h'⟩ | ⟨hkeeps, -⟩ := h'
    · exact hkb.oneParent a a' b h h'
    · exact absurd hedit hkeeps
  · obtain ⟨hedit, -⟩ | ⟨-, -, h'⟩ := h'
    · exact absurd hedit hkeeps
    · exact hdisk.oneParent a a' b h h'

end

/-- **When a merge is importable, and when its file is read.** A merge of two importable sides is importable exactly
when no cycle of dependencies that stand, and none of nestings, runs through an item that only the disk edited and one
that only the knowledge base did. Its file, where its lines are legible, is read exactly when the needs that stand,
parked ones among them, have no cycle at all. -/
theorem importable_iff {base disk kb m : SyncDoc} (hb : base.ids.Nodup) (hd : disk.ids.Nodup) (hk : kb.ids.Nodup)
    (hdisk : Importable disk) (hkb : Importable kb) (hm : threeWay base disk kb = .merged m) :
    (Importable m ↔ ¬ CrossEdit base disk kb .dependsOn ∧ ¬ CrossEdit base disk kb .parentOf) ∧
      ∀ lib, Tasks.Legible lib m →
        ((∃ back, Tasks.parse lib (Tasks.renderDoc m) = .ok back) ↔ Acyclic (NeedStands base disk kb)) := by
  obtain ⟨rfl, hagree⟩ := agree_of_merged hb hd hk hm
  have hneeds := (acyclic_edge_mergedDoc hb hd hk hagree .dependsOn).trans
    (acyclic_edgeStands_iff hd hk hagree hdisk.needs hkb.needs)
  have hnesting := (acyclic_edge_mergedDoc hb hd hk hagree .parentOf).trans
    (acyclic_edgeStands_iff hd hk hagree hdisk.nesting hkb.nesting)
  have hedge := edge_mergedDoc hb hd hk hagree
  refine ⟨⟨fun h => ⟨hneeds.mp h.needs, hnesting.mp h.nesting⟩, fun h => ?_⟩, fun lib hlegible => ?_⟩
  · refine ⟨hneeds.mpr h.1, hnesting.mpr h.2, fun a a' b hab hab' => ?_⟩
    exact oneParent_of_stands hdisk hkb ((hedge _ a b).mp hab).2.1 ((hedge _ a' b).mp hab').2.1
  · rw [← acyclic_written_mergedDoc hb hd hk hagree]
    refine hlegible.parse_renderDoc (fun a b hab => ((hedge _ a b).mp hab).2.2) fun a haa => ?_
    -- a task that depends on itself does so on the side that it stands on
    obtain ⟨-, -, hself⟩ | ⟨-, -, hself⟩ := ((hedge _ a a).mp haa).2.1
    · exact hkb.needs a (.single hself)
    · exact hdisk.needs a (.single hself)

/-! ## two edits that close a cycle -/

/-- The second task nested under the first. -/
def secondNested : SyncDoc := { twoTasks with edges := [⟨['a'], ['b'], .parentOf⟩] }

/-- The first task nested under the second. -/
def firstNested : SyncDoc := { twoTasks with edges := [⟨['b'], ['a'], .parentOf⟩] }

/-- An open task with nothing but a title. -/
def openTask (id : Text) : SyncItem := { plainTask id with status := some "open" }

/-- One open task. -/
def onlyFirst : SyncDoc := { items := [openTask ['a']] }

/-- It needs a second one, which is not there. -/
def needsSecond : SyncDoc := { items := [{ openTask ['a'] with unresolvedNeeds := [['b']] }] }

/-- The second one is there, and depends on the first. -/
def secondDepends : SyncDoc :=
  { items := [openTask ['a'], openTask ['b']], edges := [⟨['b'], ['a'], .dependsOn⟩] }

/-- A document whose every edge goes from one id to another one is importable. -/
theorem importable_of_edges {doc : SyncDoc} {a b : Text} (hab : a ≠ b)
    (h : ∀ e ∈ doc.edges, e.src = a ∧ e.dst = b) : Importable doc := by
  have hrank : ∀ kind, Acyclic (doc.edge kind) := by
    intro kind
    refine acyclic_of_rank (fun x => if x = a then 0 else 1) fun x y hxy => ?_
    obtain ⟨rfl, rfl⟩ := h _ hxy
    simp [hab.symm]
  exact ⟨hrank _, hrank _, fun x x' y hx hx' => (h _ hx).1.trans (h _ hx').1.symm⟩

/-- **Two disjoint edits can merge into a cycle**: each side nests one task under the other. Or the disk parks a need of
a task, and the knowledge base adds that task, which depends on the first: the merge is importable, and its file is
refused. -/
theorem threeWay_makes_cycle :
    ((Importable twoTasks ∧ Importable secondNested ∧ Importable firstNested) ∧
      ∃ m, threeWay twoTasks secondNested firstNested = .merged m ∧ ¬ Importable m) ∧
    (Importable onlyFirst ∧ Importable needsSecond ∧ Importable secondDepends) ∧
      ∃ m, threeWay onlyFirst needsSecond secondDepends = .merged m ∧ Tasks.Legible Tasks.asciiLib m ∧
        Tasks.parse Tasks.asciiLib (Tasks.renderDoc m) =
          .error (Tasks.bad ["task dependencies (`needs:^…`) form a cycle"]) := by
  refine ⟨⟨⟨importable_of_edges (a := ['a']) (b := ['b']) (by decide) (by decide),
    importable_of_edges (a := ['a']) (b := ['b']) (by decide) (by decide),
    importable_of_edges (a := ['b']) (b := ['a']) (by decide) (by decide)⟩,
    mergedDoc twoTasks secondNested firstNested, by decide, fun h => ?_⟩,
    ⟨importable_of_edges (a := ['b']) (b := ['a']) (by decide) (by decide),
      importable_of_edges (a := ['b']) (b := ['a']) (by decide) (by decide),
      importable_of_edges (a := ['b']) (b := ['a']) (by decide) (by decide)⟩,
    mergedDoc onlyFirst needsSecond secondDepends, by decide, ?_, by decide +kernel⟩
  · have hab : (mergedDoc twoTasks secondNested firstNested).edge .parentOf ['a'] ['b'] := by
      unfold SyncDoc.edge
      decide
    have hba : (mergedDoc twoTasks secondNested firstNested).edge .parentOf ['b'] ['a'] := by
      unfold SyncDoc.edge
      decide
    exact h.nesting ['a'] (.tail (.single hab) hba)
  · exact ⟨by decide, by decide, by decide, fun t ht => (List.not_mem_nil ht).elim, by decide, by decide +kernel⟩

/-- Two open tasks. -/
def openTwo : SyncDoc := { items := [openTask ['a'], openTask ['b']] }

/-- A merge with a new dependency is written and read again. -/
theorem importable_iff_dependent :
    threeWay openTwo openTwo secondDepends = .merged secondDepends ∧ Importable secondDepends ∧
      ∃ back, Tasks.parse Tasks.asciiLib (Tasks.renderDoc secondDepends) = .ok back := by
  have htwo : Importable openTwo := importable_of_edges (a := ['b']) (b := ['a']) (by decide) (by decide)
  have hdep : Importable secondDepends := importable_of_edges (a := ['b']) (b := ['a']) (by decide) (by decide)
  have hmerged : threeWay openTwo openTwo secondDepends = .merged secondDepends := by decide
  have hnodup : openTwo.ids.Nodup ∧ secondDepends.ids.Nodup := by decide
  have hlegible : Tasks.Legible Tasks.asciiLib secondDepends :=
    ⟨by decide, by decide, by decide, fun t ht => (List.not_mem_nil ht).elim, by decide, by decide +kernel⟩
  -- the disk edited nothing
  have hnone : ∀ kind, ¬ CrossEdit openTwo openTwo secondDepends kind := fun kind h => by
    obtain ⟨a, b, c, d, ⟨-, hedit, -⟩, -⟩ := h
    exact hedit rfl
  have hneeds : Acyclic (NeedStands openTwo openTwo secondDepends) := by
    refine acyclic_of_rank (fun x => if x = ['b'] then 0 else 1) fun x y hxy => ?_
    obtain ⟨-, -, hneeds⟩ | ⟨-, -, hneeds⟩ := hxy
    · have hedge := (SyncDoc.needs_of_unparked (by decide)).mp hneeds
      obtain ⟨rfl, rfl⟩ : x = ['b'] ∧ y = ['a'] := by simpa [SyncDoc.edge, secondDepends] using hedge
      decide
    · have hedge := (SyncDoc.needs_of_unparked (by decide)).mp hneeds
      simp [SyncDoc.edge, openTwo] at hedge
  obtain ⟨himport, hread⟩ := importable_iff hnodup.1 hnodup.1 hnodup.2 htwo hdep hmerged
  exact ⟨hmerged, himport.mpr ⟨hnone _, hnone _⟩, (hread _ hlegible).mpr hneeds⟩

end Jkb.Sync
