import Jkb.Core.Design.Nested

/-!
# Jkb.Core.Design.Staged

What a nest leaves of the staging. A span counts a step where the step's plan is of a design with the same root, and a
move changes the roots of the designs that are moved. The engine reads the steps of the tree that is left before and
after; the spans of every other tree keep theirs, for neither their roots nor those of their steps' designs change.
-/

namespace Jkb.Design.Tree

open Jkb.Text Jkb.Ns Jkb.Graph Jkb.Rooted Relation

section

variable {Doc Queue : Type} {x : Outside Doc Queue} {s s' : Store Doc Queue}

/-! ## what a span counts -/

/-- An item is of a kind. -/
def IsKind (s : Store Doc Queue) (kind : Text) (id : Int) : Prop := ∃ i, s.item? id = some i ∧ i.kind = kind

/-- A span is of a design. -/
def SpanOf (s : Store Doc Queue) (span design : Int) : Prop :=
  IsKind s SPAN_KIND span ∧ Containment.Inside (contained s) span design ∧ isDesign s design = true

/-- A step's plan is of a design. -/
def StepOf (s : Store Doc Queue) (step design : Int) : Prop :=
  IsKind s Plan.STEP_KIND step ∧ ∃ plan, Containment.Inside (contained s) step plan ∧ IsKind s PLAN_KIND plan ∧
    Containment.Inside (contained s) plan design ∧ isDesign s design = true

/-- **A span counts a step** that it is staged into: an edge says so, and the designs of the two are of one tree. -/
def Counts (s : Store Doc Queue) (span step : Int) : Prop :=
  ∃ d owner, SpanOf s span d ∧ s.edges.Arc .stages span step ∧ StepOf s step owner ∧ rootOf s owner = rootOf s d

/-- The design of a step is the one whose step it is. -/
theorem designOfStep_eq_ok {step owner : Int} {uid : Text} (hstep : IsKind s Plan.STEP_KIND step) :
    designOfStep s step uid = .ok owner ↔ StepOf s step owner := by
  constructor
  · intro h
    unfold designOfStep at h
    split at h
    case h_1 => cases h
    case h_2 plan hplan =>
      split at h
      case h_1 => cases h
      case h_2 i hi =>
        split at h
        case isTrue => cases h
        case isFalse hkind =>
          unfold designOf at h
          split at h
          case h_1 => cases h
          case h_2 p hp =>
            split at h
            case h_1 => cases h
            case h_2 j hj =>
              split at h
              case isTrue => cases h
              case isFalse hdesign =>
                cases h
                exact ⟨hstep, plan, hplan, ⟨i, hi, not_not.mp hkind⟩, hp,
                  isDesign_eq_true.mpr ⟨j, hj, not_not.mp hdesign⟩⟩
  · rintro ⟨-, plan, hplan, ⟨i, hi, hkind⟩, howner, hdesign⟩
    obtain ⟨j, hj, hjkind⟩ := isDesign_eq_true.mp hdesign
    have hplan : Containment.parent (contained s) step = some plan := hplan
    have howner : Containment.parent (contained s) plan = some owner := howner
    rw [designOfStep, hplan]
    dsimp only
    rw [hi]
    dsimp only
    rw [if_neg (not_not.mpr hkind), designOf, howner]
    dsimp only
    rw [hj]
    dsimp only
    rw [if_neg (not_not.mpr hjkind)]

/-- The stages of a span are the steps that it has an edge to. -/
theorem mem_stagesEdges {span step : Int} {uid : Text} :
    (step, uid) ∈ stagesEdges s span ↔
      s.edges.Arc .stages span step ∧ ∃ i, s.item? step = some i ∧ i.kind = Plan.STEP_KIND ∧ i.uid = uid := by
  rw [stagesEdges, List.mem_mergeSort, List.mem_filterMap]
  constructor
  · rintro ⟨e, he, h⟩
    obtain ⟨he, hsrc⟩ := List.mem_filter.mp he
    obtain ⟨i, hi, hpair⟩ := Option.map_eq_some_iff.mp h
    obtain ⟨rfl, rfl⟩ := Prod.mk.inj hpair
    obtain ⟨hi, hkind⟩ := Option.filter_eq_some_iff.mp hi
    have hid := id_of_item? hi
    obtain ⟨hspan, htype⟩ := of_decide_eq_true hsrc
    exact ⟨⟨e, he, hspan, hid.symm, htype⟩, i, hid ▸ hi, of_decide_eq_true hkind, rfl⟩
  · rintro ⟨⟨e, he, rfl, rfl, htype⟩, i, hi, hkind, rfl⟩
    refine ⟨e, List.mem_filter.mpr ⟨he, decide_eq_true ⟨rfl, htype⟩⟩, ?_⟩
    simp [hi, hkind, id_of_item? hi]

/-- The steps that are read for a span are those it counts. -/
theorem mem_countedSteps {span step d : Int} {uid : Text} (hspan : SpanOf s span d) :
    (step, uid) ∈ countedSteps s span d ↔
      Counts s span step ∧ ∃ i, s.item? step = some i ∧ i.uid = uid := by
  rw [countedSteps, List.mem_filter, mem_stagesEdges]
  constructor
  · rintro ⟨⟨harc, i, hi, hkind, huid⟩, h⟩
    have hne : (stagesEdges s span).isEmpty = false := by
      rw [List.isEmpty_eq_false_iff]
      exact List.ne_nil_of_mem (mem_stagesEdges.mpr ⟨harc, i, hi, hkind, huid⟩)
    rw [hne] at h
    split at h
    case h_1 owner howner =>
      exact ⟨⟨d, owner, hspan, harc, (designOfStep_eq_ok ⟨i, hi, hkind⟩).mp howner, of_decide_eq_true h⟩, i, hi, huid⟩
    case h_2 => cases h
  · rintro ⟨⟨d', owner, hspan', harc, hstep, hroot⟩, i, hi, huid⟩
    obtain rfl : d' = d := Option.some.inj (hspan'.2.1.symm.trans hspan.2.1)
    obtain ⟨i', hi', hkind⟩ := hstep.1
    obtain rfl := Option.some.inj (hi.symm.trans hi')
    have hmem := mem_stagesEdges.mpr ⟨harc, i, hi, hkind, huid⟩
    have hne : (stagesEdges s span).isEmpty = false := List.isEmpty_eq_false_iff.mpr (List.ne_nil_of_mem hmem)
    refine ⟨⟨harc, i, hi, hkind, huid⟩, ?_⟩
    rw [hne, (designOfStep_eq_ok ⟨i, hi, hkind⟩).mpr hstep]
    exact decide_eq_true hroot

/-- The approved state of a span counts its steps. -/
theorem snd_approvedState (span design : Int) :
    (approvedState s span design).2 = (countedSteps s span design).map (·.2) := by
  rw [approvedState]
  split
  · next h => rw [List.isEmpty_iff.mp h]; rfl
  · rfl

/-! ## what is measured -/

/-- A row of what is read: a span's uid, and the uids of the steps it counts. -/
def Measured (s : Store Doc Queue) (r : Text × List Text) : Prop :=
  ∃ span d i, SpanOf s span d ∧ s.item? span = some i ∧ r = (i.uid, (countedSteps s span d).map (·.2))

/-- The view of a span lists the steps that are counted. -/
theorem view_eq_ok {span : SpanItem} {doc : Doc} {v : SpanView × List Text} (h : view x s span doc = .ok v) :
    v.2 = (countedSteps s span.id span.design).map (·.2) := by
  obtain ⟨holds, -, h⟩ := Tx.bind_eq_ok.mp h
  rw [← snd_approvedState]
  cases h
  rfl

/-- What is read of a design counts the steps of its spans. -/
theorem measured_stagedOf {out out' : Staged} {design : Int × Text} (hd : isDesign s design.1 = true)
    (h : stagedOf x s out design = .ok out') (hout : ∀ r ∈ out.rows, Measured s r) :
    ∀ r ∈ out'.rows, Measured s r := by
  obtain ⟨items, hitems, h⟩ := Tx.bind_eq_ok.mp h
  refine Tx.foldlM_invariant (P := fun out : Staged => ∀ r ∈ out.rows, Measured s r) ?_ hout h
  intro span hspan out out' hout hstep
  obtain ⟨v, hv, hstep⟩ := Tx.bind_eq_ok.mp hstep
  obtain ⟨hdesign, hinside, i, hi, hkind, huid⟩ := mem_spanItems hitems hspan
  cases hstep
  split
  · exact hout
  · intro r hr
    rcases Table.mem_put.mp hr with ⟨hr, -⟩ | rfl
    · exact hout r hr
    · rw [view_eq_ok hv, hdesign]
      exact ⟨span.id, design.1, i, ⟨⟨i, hi, hkind⟩, hinside, hd⟩, hi, by rw [huid]⟩

/-- Only what spans count is read. -/
theorem measured_stagedSpans {designs : List (Int × Text)} {out : Staged} (hd : ∀ d ∈ designs, isDesign s d.1 = true)
    (h : stagedSpans x s designs = .ok out) : ∀ r ∈ out.rows, Measured s r := by
  refine Tx.foldlM_invariant (P := fun out : Staged => ∀ r ∈ out.rows, Measured s r) ?_ ?_ h
  · intro d hmem out out' hout hstep
    exact measured_stagedOf (hd d hmem) hstep hout
  · exact fun r hr => absurd hr List.not_mem_nil

/-- A span that is listed stays listed. -/
theorem isSome_put {out : Staged} {uid uid' : Text} {steps steps' : List Text} (h : (out.find? uid).isSome = true) :
    ((if steps' = [] then out else out.put (uid', steps)).find? uid).isSome = true := by
  split
  · exact h
  · rw [Table.find?_put]
    split
    · rfl
    · exact h

/-- The uids that are read stay. -/
theorem isSome_stagedOf {out out' : Staged} {design : Int × Text} {uid : Text}
    (hout : (out.find? uid).isSome = true) (h : stagedOf x s out design = .ok out') :
    (out'.find? uid).isSome = true := by
  obtain ⟨items, -, h⟩ := Tx.bind_eq_ok.mp h
  refine Tx.foldlM_invariant (P := fun out : Staged => (out.find? uid).isSome = true) ?_ hout h
  intro span _ out out' hout hstep
  obtain ⟨v, -, hstep⟩ := Tx.bind_eq_ok.mp hstep
  cases hstep
  exact isSome_put hout

/-- The item of a span is among those of its design. -/
theorem exists_spanItem {d span : Int} {items : List SpanItem} {i : Substrate.ItemRow}
    (h : spanItems x s d = .ok items) (hspan : SpanOf s span d) (hi : s.item? span = some i) :
    ∃ item ∈ items, item.id = span ∧ item.uid = i.uid ∧ item.design = d := by
  obtain ⟨⟨i', hi', hkind⟩, hinside, -⟩ := hspan
  obtain rfl := Option.some.inj (hi.symm.trans hi')
  have hmem : i ∈ itemsOf s d SPAN_KIND :=
    List.mem_filter.mpr ⟨List.mem_filterMap.mpr ⟨span, mem_children.mpr hinside, hi⟩, decide_eq_true hkind⟩
  obtain ⟨item, hitem, hrow⟩ := Tx.exists_mem_of_mapM h i hmem
  split at hrow
  case h_1 => cases hrow
  case h_2 =>
    cases hrow
    exact ⟨_, hitem, id_of_item? hi, rfl, rfl⟩

/-- The step of a count has a uid. -/
theorem Counts.exists_uid {span step : Int} (h : Counts s span step) :
    ∃ i, s.item? step = some i ∧ i.kind = Plan.STEP_KIND := by
  obtain ⟨_, _, _, _, hstep, _⟩ := h
  exact hstep.1

/-- **Every span that counts a step is read**, of the designs that are gone through. -/
theorem isSome_stagedSpans {designs : List (Int × Text)} {out : Staged} {d span step : Int} {i : Substrate.ItemRow}
    (hmem : d ∈ designs.map (·.1)) (h : stagedSpans x s designs = .ok out) (hspan : SpanOf s span d)
    (hi : s.item? span = some i) (hcount : Counts s span step) : (out.find? i.uid).isSome = true := by
  obtain ⟨design, hdesign, rfl⟩ := List.mem_map.mp hmem
  have hkeep : ∀ e ∈ designs, ∀ b b' : Staged, (b.find? i.uid).isSome = true → stagedOf x s b e = .ok b' →
      (b'.find? i.uid).isSome = true := fun _ _ _ _ => isSome_stagedOf
  refine Tx.foldlM_of_mem (Q := fun out : Staged => (out.find? i.uid).isSome = true) hdesign
    (fun out out' hstep => ?_) hkeep h
  obtain ⟨items, hitems, hstep⟩ := Tx.bind_eq_ok.mp hstep
  obtain ⟨item, hitem, rfl, huid, hof⟩ := exists_spanItem hitems hspan hi
  rw [← huid]
  refine Tx.foldlM_of_mem (Q := fun out : Staged => (out.find? item.uid).isSome = true) hitem ?_ ?_ hstep
  · intro out out' hstep
    obtain ⟨v, hv, hstep⟩ := Tx.bind_eq_ok.mp hstep
    obtain ⟨j, hj, -⟩ := hcount.exists_uid
    have hsteps : v.2 ≠ [] := by
      rw [view_eq_ok hv, hof]
      exact List.ne_nil_of_mem (List.mem_map_of_mem ((mem_countedSteps hspan).mpr ⟨hcount, j, hj, rfl⟩))
    cases hstep
    rw [if_neg hsteps, Table.find?_put, if_pos rfl]
    rfl
  · intro other _ out out' hout hstep
    obtain ⟨v, -, hstep⟩ := Tx.bind_eq_ok.mp hstep
    cases hstep
    exact isSome_put hout

/-- **What is read of a span**: the uids of the steps it counts, where it counts any. -/
theorem find?_stagedSpans (hs : Stored x s) {designs : List (Int × Text)} {out : Staged} {d span step : Int}
    {i : Substrate.ItemRow} (hd : ∀ d ∈ designs, isDesign s d.1 = true) (hmem : d ∈ designs.map (·.1))
    (h : stagedSpans x s designs = .ok out) (hspan : SpanOf s span d) (hi : s.item? span = some i)
    (hcount : Counts s span step) :
    out.find? i.uid = some (i.uid, (countedSteps s span d).map (·.2)) := by
  obtain ⟨r, hr⟩ := Option.isSome_iff_exists.mp (isSome_stagedSpans hmem h hspan hi hcount)
  obtain ⟨span', d', i', hspan', hi', rfl⟩ := measured_stagedSpans hd h r (Table.mem_of_find? hr)
  have huid := Table.key_of_find? hr
  obtain rfl := List.inj_on_of_nodup_map hs.uids (Table.mem_of_find? hi') (Table.mem_of_find? hi) huid
  obtain rfl : span' = span := (id_of_item? hi').symm.trans (id_of_item? hi)
  obtain rfl : d' = d := Option.some.inj (hspan'.2.1.symm.trans hspan.2.1)
  exact hr

/-! ## nesting -/

section Nest

variable {c p position : Int} (h : contain s c p position = .ok s') (hc : isDesign s c = true)
include h

/-- A containment changes no item's kind. -/
theorem isKind_contain {kind : Text} {id : Int} : IsKind s' kind id ↔ IsKind s kind id := by
  rw [(contain_eq_ok h).2]
  rfl

/-- It changes no stage. -/
theorem arc_contain {a b : Int} : s'.edges.Arc .stages a b ↔ s.edges.Arc .stages a b := by
  rw [(contain_eq_ok h).2]

/-- **A span of the tree that is left counts what it did**, for what was read before and after says so. -/
theorem Counts.contain_of_measured (hs : Stored x s) {designs : List (Int × Text)} {before after : Staged}
    {span step d : Int} (hd : ∀ d ∈ designs, isDesign s d.1 = true) (hmem : d ∈ designs.map (·.1))
    (hbefore : stagedSpans x s designs = .ok before) (hafter : stagedSpans x s' designs = .ok after)
    (hlost : lostSpans before after = []) (hspan : SpanOf s span d) (hcount : Counts s span step) :
    Counts s' span step := by
  have hsame : ∀ id, s'.item? id = s.item? id := fun id => by
    rw [(contain_eq_ok h).2]
    rfl
  obtain ⟨i, hi, -⟩ := hspan.1
  obtain ⟨j, hj, -⟩ := hcount.exists_uid
  have hfind := find?_stagedSpans hs hd hmem hbefore hspan hi hcount
  have hstep : j.uid ∈ (countedSteps s span d).map (·.2) :=
    List.mem_map_of_mem ((mem_countedSteps hspan).mpr ⟨hcount, j, hj, rfl⟩)
  have hkept : ∃ n, after.find? i.uid = some n ∧ j.uid ∈ n.2 := by
    by_contra hnone
    have hrow : i.uid ∈ lostSpans before after := by
      refine List.mem_mergeSort.mpr (List.mem_map.mpr ⟨_, List.mem_filter.mpr ⟨Table.mem_of_find? hfind, ?_⟩, rfl⟩)
      refine List.any_eq_true.mpr ⟨j.uid, hstep, ?_⟩
      cases hfound : after.find? i.uid with
      | none => rfl
      | some n => exact decide_eq_true fun hin => hnone ⟨n, hfound, hin⟩
    rw [hlost] at hrow
    exact absurd hrow List.not_mem_nil
  obtain ⟨n, hn, hin⟩ := hkept
  have hd' : ∀ d ∈ designs, isDesign s' d.1 = true := fun d hmem => (isDesign_contain h d.1).trans (hd d hmem)
  obtain ⟨span', d', i', hspan', hi', rfl⟩ := measured_stagedSpans hd' hafter n (Table.mem_of_find? hn)
  have huid := Table.key_of_find? hn
  rw [hsame] at hi'
  obtain rfl := List.inj_on_of_nodup_map hs.uids (Table.mem_of_find? hi') (Table.mem_of_find? hi) huid
  obtain rfl : span' = span := (id_of_item? hi').symm.trans (id_of_item? hi)
  obtain ⟨⟨step', uid⟩, hmem', rfl⟩ := List.mem_map.mp hin
  obtain ⟨hcount', j', hj', huid'⟩ := (mem_countedSteps hspan').mp hmem'
  rw [hsame] at hj'
  obtain rfl := List.inj_on_of_nodup_map hs.uids (Table.mem_of_find? hj') (Table.mem_of_find? hj) huid'
  obtain rfl : step' = step := (id_of_item? hj').symm.trans (id_of_item? hj)
  exact hcount'

include hc

/-- What is of another kind than a design is not moved. -/
theorem inside_contain_of_isKind {kind : Text} {a b : Int} (ha : IsKind s kind a) (hkind : kind ≠ KIND) :
    Containment.Inside (contained s') a b ↔ Containment.Inside (contained s) a b := by
  have hne : a ≠ c := by
    rintro rfl
    obtain ⟨i, hi, rfl⟩ := ha
    obtain ⟨j, hj, hdesign⟩ := isDesign_eq_true.mp hc
    obtain rfl := Option.some.inj (hi.symm.trans hj)
    exact hkind hdesign
  rw [Containment.Inside, Containment.Inside, parent_contain h hne]

/-- It changes no span's design. -/
theorem spanOf_contain {span d : Int} : SpanOf s' span d ↔ SpanOf s span d := by
  rw [SpanOf, SpanOf, isKind_contain h, isDesign_contain h]
  exact and_congr_right fun hkind => and_congr_left fun _ => inside_contain_of_isKind h hc hkind (by decide)

/-- It changes no step's design. -/
theorem stepOf_contain {step d : Int} : StepOf s' step d ↔ StepOf s step d := by
  rw [StepOf, StepOf, isKind_contain h, isDesign_contain h]
  refine and_congr_right fun hkind => exists_congr fun plan => ?_
  rw [inside_contain_of_isKind h hc hkind (by decide), isKind_contain h]
  exact and_congr_right fun _ => and_congr_right fun hplan =>
    and_congr_left fun _ => inside_contain_of_isKind h hc hplan (by decide)

/-- **A span of another tree counts what it did**: neither its root nor its steps' change. -/
theorem Counts.contain_of_ne (hf : Containment.Forest (contained s)) {span step d : Int} (hcount : Counts s span step)
    (hspan : SpanOf s span d) (hroot : rootOf s d ≠ rootOf s c) : Counts s' span step := by
  obtain ⟨d', owner, hspan', harc, hstep, hsame⟩ := hcount
  obtain rfl : d' = d := Option.some.inj (hspan'.2.1.symm.trans hspan.2.1)
  have hkeep : ∀ e, rootOf s e = rootOf s d' → rootOf s' e = rootOf s e := fun e he =>
    rootOf_contain_of_not_up h hf fun hup => hroot (he.symm.trans (rootOf_eq_of_up hf hup))
  refine ⟨d', owner, (spanOf_contain h hc).mpr hspan, (arc_contain h).mpr harc, (stepOf_contain h hc).mpr hstep, ?_⟩
  rw [hkeep owner hsame, hkeep d' rfl, hsame]

end Nest

/-- A design is in the tree of its root. -/
theorem mem_tree (hf : Containment.Forest (contained s)) {d top : Int} {uid : Text} (hd : isDesign s d = true)
    (h : rootOf s d = top) : d ∈ ((top, uid) :: descendants s top).map (·.1) := by
  subst h
  rcases reflTransGen_iff_eq_or_transGen.mp (rootOf_spec hf d).1 with heq | hup
  · exact List.mem_cons.mpr (Or.inl heq.symm)
  · exact List.mem_cons_of_mem _ (mem_descendants hf hd hup)

/-- **A nest that succeeds leaves every span the steps it counted.** -/
theorem counts_nest (hs : Stored x s) (hsound : Sound s) {uid under : Text} {made : DesignRow}
    (h : nest x s uid under = .ok (s', made)) {span step : Int} (hcount : Counts s span step) :
    Counts s' span step := by
  obtain ⟨child, parent, hchild, -, -, rfl | ⟨-, position, before, after, hcontain, hbefore, hafter, hlost⟩⟩ :=
    nest_eq_ok h
  · exact hcount
  · have hc := isDesign_of_designId hchild
    obtain ⟨d, owner, hspan, -⟩ := id hcount
    by_cases hroot : rootOf s d = rootOf s child
    · have htop : isDesign s (rootOf s child) = true := isDesign_rootOf hsound.forest hc
      have hdesigns : ∀ d ∈ (rootOf s child, []) :: descendants s (rootOf s child), isDesign s d.1 = true := by
        intro d hd
        rcases List.mem_cons.mp hd with rfl | hd
        · exact htop
        · exact (transGen_of_mem_descendants htop (List.mem_map_of_mem hd)).2
      exact hcount.contain_of_measured hcontain hs hdesigns (mem_tree hsound.forest hspan.2.2 hroot) hbefore hafter
        hlost hspan
    · exact hcount.contain_of_ne hcontain hc hsound.forest hspan hroot

/-! ## runs -/

/-- A design's text is in the export of another: it is the design, or below it. -/
def InlinedIn (s : Store Doc Queue) (d top : Int) : Prop := d = top ∨ d ∈ (descendants s top).map (·.1)

/-- **A design's text is in one export that has a file.** -/
theorem Sound.inlined_once (h : Sound s) {a b d : Int} (ha : isDesign s a = true) (hb : isDesign s b = true)
    (hta : (docTarget s a).isSome = true) (htb : (docTarget s b).isSome = true) (hda : InlinedIn s d a)
    (hdb : InlinedIn s d b) : a = b := by
  -- a design with a doc target is a root, and it is the root of what is below it
  have hroot : ∀ top, isDesign s top = true → (docTarget s top).isSome = true → InlinedIn s d top →
      rootOf s d = top := by
    intro top htop ht hd
    have hnone : parentOf s top = none := by
      by_contra hne
      rw [h.nested top htop (Option.isSome_iff_ne_none.mpr hne)] at ht
      cases ht
    have hup : ReflTransGen (Up (parentOf s)) d top := by
      rcases hd with rfl | hd
      · exact .refl
      · exact (transGen_of_mem_descendants htop hd).1.to_reflTransGen
    exact rootOf_eq h.forest ⟨hup, hnone⟩
  exact (hroot a ha hta hda).symm.trans (hroot b hb htb hdb)

/-- Every run keeps what its writers keep. -/
theorem kept_run (hx : Composition x.nfc) (hs : Stored x s) (hsound : Sound s) (ops : List Op) :
    Kept x s (Run.run (next x) s ops) := by
  have hstep : ∀ t o, Kept x s t → Kept x s (next x t o) := fun _ o ht =>
    ht.trans (kept_next hx ht.stored ht.sound o)
  exact Run.run_invariant hstep (.refl hs hsound) ops

/-- **No approved text is exported to two files.** After every run of calls, designs nest in a forest whose trees each
stay within one repo, no nested design has a doc target and no two designs of a repo have the same, so that no design's
text is in two exports that have a file; and a nest that then succeeds leaves every span the plan steps it counted. -/
theorem run_sound (hx : Composition x.nfc) (hs : Stored x s) (hsound : Sound s) (ops : List Op) :
    Sound (Run.run (next x) s ops) ∧
      (∀ a b d, isDesign (Run.run (next x) s ops) a = true → isDesign (Run.run (next x) s ops) b = true →
        (docTarget (Run.run (next x) s ops) a).isSome = true → (docTarget (Run.run (next x) s ops) b).isSome = true →
        InlinedIn (Run.run (next x) s ops) d a → InlinedIn (Run.run (next x) s ops) d b → a = b) ∧
      ∀ uid under s' made, nest x (Run.run (next x) s ops) uid under = .ok (s', made) →
        ∀ span step, Counts (Run.run (next x) s ops) span step → Counts s' span step := by
  have hkept := kept_run hx hs hsound ops
  exact ⟨hkept.sound, fun _ _ _ => hkept.sound.inlined_once, fun _ _ _ _ hnest _ _ =>
    counts_nest hkept.stored hkept.sound hnest⟩

end

/-! ## a design nested under one that has a doc target -/

/-- The type that a metadata names: what comes after its mark. -/
def markedType : Text → Option Text
  | '@' :: t => some t
  | _ => none

/-- ASCII texts; documents that are their text, with no anchors; metadata that are the name of a type. -/
def plain : Outside Text Unit where
  nfc := id
  typed m := (markedType m).isSome
  setType _ t := '@' :: t
  typeOf := markedType
  tables := Dsl.asciiTables
  new := []
  text := id
  stateVector _ := []
  range _ _ := none
  insert _ t := .ok (if t = [] then none else some t)
  remove _ _ _ := .ok none
  anchor _ _ := .ok none
  attest _ _ _ := .ok []
  unreadable _ := none
  hasApproval _ := false
  approvalHolds _ _ _ := .ok false
  carried m _ _ := some m
  thread _ _ _ := .ok (false, none)
  topicCreate q _ := .ok q
  publish q _ _ := .ok q
  base64 _ := []
  unbase64 _ := some []
  bodyHash _ := []

/-- A design that has a doc target and another, which has a span that is staged into a step of its own plan. -/
def stagedDesigns : Store Text Unit where
  namespaces :=
    { rows := [⟨1, "designs".toList, none, .logical, [], []⟩, ⟨2, "designs/jkb".toList, some 1, .logical, [], []⟩]
      nodup := by decide
      last := 2
      le_last := by decide
      unique := by decide
      linked := by decide }
  mounts := []
  items :=
    { rows := [
        { id := 1, uid := "d:a".toList, kind := "design".toList },
        { id := 2, uid := "d:b".toList, kind := "design".toList },
        { id := 3, uid := "s".toList, kind := "design_span".toList },
        { id := 4, uid := "p".toList, kind := "exec_plan".toList },
        { id := 5, uid := "t".toList, kind := "plan_step".toList }]
      nodup := by decide
      last := 5
      le_last := by decide }
  placements :=
    { rows := [
        { id := 1, itemId := 1, namespaceId := 2, role := .primary, position := 0 },
        { id := 2, itemId := 2, namespaceId := 2, role := .primary, position := 0 }]
      nodup := by decide
      last := 2
      le_last := by decide }
  tags := .empty
  edges :=
    { table :=
        { rows := [{ id := 1, src := 3, dst := 5, type := .stages, weight := none, props := [] }]
          nodup := by decide
          last := 1
          le_last := by decide }
      unique := by decide }
  containment := { rows := [⟨3, 2, 0⟩, ⟨4, 2, 1⟩, ⟨5, 4, 0⟩], nodup := by decide }
  transitions := []
  log := []
  metadata _ := []
  targets := { rows := [⟨1, "docs/a.md".toList⟩], nodup := by decide }
  docs := .empty
  queue := ()

/-- The containments of the store. -/
theorem inside_stagedDesigns {c p : Int} (h : Containment.Inside (contained stagedDesigns) c p) :
    (c, p) ∈ [((3 : Int), (2 : Int)), (4, 2), (5, 4)] := by
  obtain ⟨r, hr, rfl⟩ := Option.map_eq_some_iff.mp h
  have hkey : r.child = c := Table.key_of_find? hr
  subst hkey
  have hrows : ∀ r ∈ (contained stagedDesigns).rows, (r.child, r.parent) ∈ [((3 : Int), (2 : Int)), (4, 2), (5, 4)] :=
    List.forall_iff_forall_mem.mp (by decide)
  exact hrows r (Table.mem_of_find? hr)

/-- Only its first design has a document. -/
theorem docTarget_stagedDesigns {d : Int} {path : Text} (h : docTarget stagedDesigns d = some path) : d = 1 := by
  obtain ⟨r, hr, -⟩ := Option.map_eq_some_iff.mp h
  have hrows : ∀ r ∈ stagedDesigns.targets.rows, r.designId = 1 := List.forall_iff_forall_mem.mp (by decide)
  have hkey : r.designId = d := Table.key_of_find? hr
  exact hkey ▸ hrows r (Table.mem_of_find? hr)

/-- It is as a store has to be. -/
theorem stored_stagedDesigns : Stored plain stagedDesigns where
  uids := by decide
  inside := by
    intro c p h
    have hpairs : ∀ q ∈ [((3 : Int), (2 : Int)), (4, 2), (5, 4)],
        (stagedDesigns.item? q.1).isSome = true ∧ (stagedDesigns.item? q.2).isSome = true :=
      List.forall_iff_forall_mem.mp (by decide)
    exact hpairs (c, p) (inside_stagedDesigns h)
  placed := List.forall_iff_forall_mem.mp (by decide)
  target := by
    intro d h
    obtain ⟨path, hpath⟩ := Option.isSome_iff_exists.mp h
    rw [docTarget_stagedDesigns hpath]
    rfl
  agrees := by decide
  normal := by
    rintro i path parent ⟨r, hr, rfl, rfl, rfl⟩
    have hrows : ∀ r ∈ stagedDesigns.namespaces.rows, ∀ t ∈ segments r.path, t ≠ [] :=
      List.forall_iff_forall_mem.mp (by decide)
    exact fun t ht => ⟨hrows r hr t ht, rfl⟩

/-- Its designs are a forest. -/
theorem sound_stagedDesigns : Sound stagedDesigns where
  forest := by
    refine acyclic_of_rank (fun i => if i = 5 then 0 else if i = 2 then 2 else 1) fun c p h => ?_
    have hpairs : ∀ q ∈ [((3 : Int), (2 : Int)), (4, 2), (5, 4)],
        (if q.1 = 5 then 0 else if q.1 = 2 then 2 else 1) < if q.2 = 5 then 0 else if q.2 = 2 then 2 else 1 :=
      List.forall_iff_forall_mem.mp (by decide)
    exact hpairs (c, p) (inside_stagedDesigns h)
  oneRepo := by
    intro d hd
    obtain ⟨i, hi, hkind⟩ := isDesign_eq_true.mp hd
    have hrows : ∀ i ∈ stagedDesigns.items.rows, i.kind = KIND →
        repoOf stagedDesigns i.id = repoOf stagedDesigns (rootOf stagedDesigns i.id) :=
      List.forall_iff_forall_mem.mp (by decide)
    exact id_of_item? hi ▸ hrows i (Table.mem_of_find? hi) hkind
  nested := by
    intro d hd hp
    obtain ⟨p, hp⟩ := Option.isSome_iff_exists.mp hp
    obtain ⟨hinside, hdesign⟩ := parentOf_eq_some.mp hp
    cases hdoc : docTarget stagedDesigns d with
    | none => rfl
    | some path =>
        obtain rfl := docTarget_stagedDesigns hdoc
        have hnone : ∀ q ∈ [((3 : Int), (2 : Int)), (4, 2), (5, 4)], q.1 ≠ 1 :=
          List.forall_iff_forall_mem.mp (by decide)
        exact absurd rfl (hnone (1, p) (inside_stagedDesigns hinside))
  alone := by
    intro a b _ _ _ _ ha hb
    rw [docTarget_stagedDesigns ha, docTarget_stagedDesigns hb]

/-- The second design is nested under the first, and then given a doc target, which is refused. -/
def nestedRun : Store Text Unit :=
  Run.run (next plain) stagedDesigns [.nest "d:b".toList "d:a".toList, .setDocTarget "d:b".toList "docs/b.md".toList]

/-- So they are after a run that nests them anew. -/
theorem run_sound_stagedDesigns : Sound nestedRun :=
  (run_sound ⟨fun _ => id, fun _ => id, fun _ => rfl⟩ stored_stagedDesigns sound_stagedDesigns _).1

end Jkb.Design.Tree
