import Jkb.Core.Investigation
import Jkb.Settle

/-!
# Jkb.Core.Investigation.RollUp

What a roll-up comes to. It writes resolutions and nothing else, each unit's from that unit's own evidence,
and the evidence is not of resolutions; so a roll-up is one pass over the items, and the passes of two
investigations over one unit meet in that unit's resolution alone.
-/

namespace Jkb.Substrate

/-- The store with other resolutions, and another log. -/
def Store.resolved (s : Store) (g : ItemRow → Option Resolution) (log : List Change) : Store :=
  { s with items := s.items.map (fun i => { i with resolution := g i }) fun _ => rfl, log }

end Jkb.Substrate

namespace Jkb.Investigation

open Jkb.Text Jkb.Nstype Jkb.Nstype.Lifecycle Jkb.Substrate Fsm

variable {x : Outside} {s : Store} {t : NamespaceType}

/-! ## one unit -/

/-- What a type makes of evidence. -/
def concluded (t : NamespaceType) (e : Evidence) (r : Resolution) : Resolution :=
  match t with
  | .debugging => e.concludedDebugging r
  | _ => e.concludedBase r

/-- The machine concludes what the guards say. -/
theorem comesTo (t : NamespaceType) (e : Evidence) (r : Resolution) :
    ComesTo (unitMachine t) e r (concluded t e r) := by
  cases t with
  | debugging => exact debugging_comesTo e r
  | conjecture => exact base_comesTo e r
  | tasks => exact base_comesTo e r
  | views => exact base_comesTo e r
  | journal => exact base_comesTo e r

/-- The resolution column after a roll-up: as it was where the unit is settled. -/
def settle (t : NamespaceType) (e : Evidence) (r : Option Resolution) : Option Resolution :=
  if concluded t e (r.getD .unresolved) = r.getD .unresolved then r
  else some (concluded t e (r.getD .unresolved))

/-- A unit is settled where it is at what is concluded of it. -/
theorem settle_eq_self {e : Evidence} {r : Option Resolution} :
    settle t e r = r ↔ concluded t e (r.getD .unresolved) = r.getD .unresolved := by
  unfold settle
  split
  · next h => exact iff_of_true rfl h
  · next h =>
      refine iff_of_false (fun heq => h ?_) h
      exact congrArg (Option.getD · .unresolved) heq

/-- A roll-up that is made again finds the unit settled. -/
theorem settle_settle (t : NamespaceType) (e : Evidence) (r : Option Resolution) :
    settle t e (settle t e r) = settle t e r := by
  obtain ⟨refuted, superseded, confirmed, stale⟩ := e
  cases t <;> cases refuted <;> cases superseded <;> cases confirmed <;> cases stale <;>
    rcases r with _ | (_ | _ | _ | _ | _) <;> rfl

/-- What the two strategies would not agree about: evidence that confirms a unit, and is stale to the one
that knows of staleness. -/
def Torn (base debugging : Evidence) : Prop :=
  base.refuted = false ∧ base.superseded = false ∧ base.confirmed = true ∧ debugging.stale = true

instance (base debugging : Evidence) : Decidable (Torn base debugging) :=
  inferInstanceAs (Decidable (_ ∧ _))

/-- **Where nothing is torn, the strategies commute.** -/
theorem settle_swap {e d : Evidence} (hrefuted : d.refuted = e.refuted) (hsuperseded : d.superseded = e.superseded)
    (hstale : e.stale = false) (htorn : ¬ Torn e d) (r : Option Resolution) :
    settle .debugging d (settle .conjecture e r) = settle .conjecture e (settle .debugging d r) := by
  obtain ⟨refuted, superseded, confirmed, stale⟩ := e
  obtain ⟨refuted', superseded', confirmed', stale'⟩ := d
  cases hrefuted
  cases hsuperseded
  cases hstale
  revert htorn
  cases refuted <;> cases superseded <;> cases confirmed <;> cases confirmed' <;> cases stale' <;>
    rcases r with _ | (_ | _ | _ | _ | _) <;> decide

/-- Where something is torn, the last of them has its way. -/
theorem settle_torn {e d : Evidence} (hrefuted : d.refuted = e.refuted) (hsuperseded : d.superseded = e.superseded)
    (hstale : e.stale = false) (htorn : Torn e d) (r : Option Resolution) :
    settle .debugging d (settle .conjecture e r) = some .unresolved ∧
      settle .conjecture e (settle .debugging d r) = some .success := by
  obtain ⟨refuted, superseded, confirmed, stale⟩ := e
  obtain ⟨refuted', superseded', confirmed', stale'⟩ := d
  cases hrefuted
  cases hsuperseded
  cases hstale
  obtain ⟨rfl, rfl, rfl, rfl⟩ := htorn
  cases confirmed' <;> rcases r with _ | (_ | _ | _ | _ | _) <;> decide

/-! ## a pass over the items -/

section Resolved

variable {g h : ItemRow → Option Resolution} {log log' : List Change}

/-- An item once the resolutions are written. -/
theorem item?_resolved (item : Int) : (s.resolved g log).item? item =
    (s.item? item).map fun i => { i with resolution := g i } :=
  Table.find?_map _ _ (fun _ => rfl) _

/-- Resolutions change no kind. -/
theorem kind_resolved (item : Int) :
    ((s.resolved g log).item? item).map (·.kind) = (s.item? item).map (·.kind) := by
  rw [item?_resolved, Option.map_map]
  rfl

/-- The evidence is not of resolutions. -/
theorem evidence_resolved (t : NamespaceType) (item : Int) :
    evidence (s.resolved g log) t item = evidence s t item := by
  cases t with
  | debugging =>
      simp only [evidence, debuggingEvidence, kind_resolved]
      rfl
  | conjecture => rfl
  | tasks => rfl
  | views => rfl
  | journal => rfl

/-- Resolutions that are written twice are written once. -/
theorem resolved_resolved : (s.resolved g log).resolved h log' =
    s.resolved (fun i => h { i with resolution := g i }) log' := by
  simp only [Store.resolved, AutoTable.map, Table.map, List.map_map, Function.comp_def]

/-- Resolutions that are as they were leave the items. -/
theorem resolved_eq_self (hsame : ∀ i ∈ s.items.rows, g i = i.resolution) : s.resolved g s.log = s := by
  have hrows : s.items.rows.map (fun i => { i with resolution := g i }) = s.items.rows := by
    refine (List.map_congr_left fun i hi => ?_).trans (List.map_id _)
    rw [hsame i hi]
    rfl
  have hitems : s.items.map (fun i => { i with resolution := g i }) (fun _ => rfl) = s.items :=
    AutoTable.ext hrows rfl
  rw [Store.resolved, hitems]

/-- Only the items of the store matter. -/
theorem resolved_congr (hsame : ∀ i ∈ s.items.rows, g i = h i) : s.resolved g log = s.resolved h log := by
  have hrows : s.items.rows.map (fun i => { i with resolution := g i }) =
      s.items.rows.map (fun i => { i with resolution := h i }) :=
    List.map_congr_left fun i hi => by rw [hsame i hi]
  have hitems : (s.resolved g log).items = (s.resolved h log).items := AutoTable.ext hrows rfl
  exact congrArg (fun items => { s with items, log }) hitems

/-- One item's resolution, set. -/
theorem updateItem_eq_resolved (item : Int) (r : Option Resolution) :
    (updateItem s item { resolution := some r }) =
      s.resolved (fun i => if i.id = item then r else i.resolution) s.log := by
  have hitems : s.items.updateWhere (·.id = item) (·.set { resolution := some r }) (fun _ => rfl) =
      s.items.map (fun i => { i with resolution := if i.id = item then r else i.resolution }) fun _ => rfl := by
    refine AutoTable.ext (List.map_congr_left fun i _ => ?_) rfl
    by_cases hi : i.id = item
    · simp [hi, ItemRow.set]
    · simp [hi]
  rw [updateItem, Store.resolved, ← hitems]

end Resolved

/-! ## a roll-up -/

/-- The resolution that a roll-up over some units leaves an item. -/
def rolled (s : Store) (t : NamespaceType) (ids : List Int) (i : ItemRow) : Option Resolution :=
  if i.id ∈ ids then settle t (evidence s t i.id) i.resolution else i.resolution

/-- A roll-up is refused over a design that it would move. -/
def Blocked (s : Store) (t : NamespaceType) (ids : List Int) : Prop :=
  ∃ i ∈ s.items.rows, i.id ∈ ids ∧ i.kind = KIND_DESIGN ∧
    settle t (evidence s t i.id) i.resolution ≠ i.resolution

instance (s : Store) (t : NamespaceType) (ids : List Int) : Decidable (Blocked s t ids) :=
  inferInstanceAs (Decidable (∃ i ∈ s.items.rows, _))

/-- Without units nothing is rolled up. -/
theorem rolled_nil (i : ItemRow) : rolled s t [] i = i.resolution := if_neg List.not_mem_nil

/-- Two parts of a roll-up, one after the other. -/
theorem rolled_append {ids js : List Int} (log : List Change) (i : ItemRow) :
    rolled (s.resolved (rolled s t ids) log) t js { i with resolution := rolled s t ids i } =
      rolled s t (ids ++ js) i := by
  simp only [rolled, evidence_resolved, List.mem_append]
  by_cases hi : i.id ∈ ids
  · simp only [hi, if_true, true_or, settle_settle, ite_self]
  · simp only [hi, if_false, false_or]

section RollUnit

variable {item : Int} {i : ItemRow} (hi : s.item? item = some i)

include hi

/-- What the machine makes of a unit is what is concluded of its evidence. -/
theorem reconcile_unitFacts : ComesTo (unitMachine t) (evidence s t item) (i.resolution.getD .unresolved)
    (concluded t (evidence s t item) (i.resolution.getD .unresolved)) ∧
      unitFacts s t item = (evidence s t item).facts (i.resolution.getD .unresolved) := by
  refine ⟨comesTo _ _ _, ?_⟩
  rw [unitFacts, resolutionOf, hi]
  rfl

/-- A settled unit is passed over. -/
theorem rollUnit_settled (h : settle t (evidence s t item) i.resolution = i.resolution)
    (changed : List Rolled) : rollUnit t (s, changed) item = .ok (s, changed) := by
  obtain ⟨hcomes, hfacts⟩ := reconcile_unitFacts (t := t) hi
  rw [ComesTo, if_pos (settle_eq_self.mp h)] at hcomes
  rw [rollUnit, hfacts, hcomes]

/-- What a unit's machine asks for is written, unless the unit is a design. -/
theorem performUnit_eq (current dst : Resolution) (changed : List Rolled) :
    if i.kind = KIND_DESIGN then ∃ e, performUnit item current (s, changed) (.setResolution dst) = .error e
    else performUnit item current (s, changed) (.setResolution dst) =
      .ok (s.resolved (fun k => if k.id = item then some dst else k.resolution)
        (s.log ++ [.updateItem item { resolution := some i.resolution }]), changed ++ [⟨i.uid, current, dst⟩]) := by
  simp only [performUnit, setResolution, hi]
  split
  · exact ⟨_, rfl⟩
  · rw [updateItem_eq_resolved]
    have huid : ∀ log, uidOf (s.resolved (fun k => if k.id = item then some dst else k.resolution) log) item =
        .ok i.uid := fun log => by
      rw [uidOf, item?_resolved, hi]
      rfl
    show (uidOf (s.resolved _ (s.log ++ _)) item >>= _) = _
    rw [huid]
    rfl

/-- Any other is written, unless it is a design. -/
theorem rollUnit_moves (h : settle t (evidence s t item) i.resolution ≠ i.resolution)
    (changed : List Rolled) :
    if i.kind = KIND_DESIGN then ∃ e, rollUnit t (s, changed) item = .error e
    else ∃ log changed', rollUnit t (s, changed) item = .ok (s.resolved (rolled s t [item]) log, changed') := by
  obtain ⟨hcomes, hfacts⟩ := reconcile_unitFacts (t := t) hi
  have hmoves := mt settle_eq_self.mpr h
  rw [ComesTo, if_neg hmoves] at hcomes
  obtain ⟨event, hcomes⟩ := hcomes
  have hperform := performUnit_eq hi (i.resolution.getD .unresolved)
    (concluded t (evidence s t item) (i.resolution.getD .unresolved)) changed
  have hunit : rollUnit t (s, changed) item = (performUnit item (i.resolution.getD .unresolved) (s, changed)
      (.setResolution (concluded t (evidence s t item) (i.resolution.getD .unresolved))) >>= pure) := by
    rw [rollUnit, hfacts, hcomes]
    rfl
  rw [hunit]
  split
  · next hdesign =>
      rw [if_pos hdesign] at hperform
      obtain ⟨e, he⟩ := hperform
      rw [he]
      exact ⟨e, rfl⟩
  · next hdesign =>
      rw [if_neg hdesign] at hperform
      rw [hperform]
      refine ⟨_, _, congrArg (fun s => Except.ok (s, _)) (resolved_congr fun k hk => ?_)⟩
      by_cases hid : k.id = item
      · obtain rfl : k = i := Option.some.inj ((Table.find?_eq_some.mpr ⟨hk, hid⟩).symm.trans hi)
        simp only [rolled, settle, hid, List.mem_singleton, if_true, if_neg hmoves]
      · simp only [rolled, hid, List.mem_singleton, if_false]

end RollUnit

/-! ## a roll-up of units -/

/-- Other resolutions block what these did, where the designs keep theirs. -/
theorem blocked_resolved {g : ItemRow → Option Resolution} {ids : List Int}
    (hdesigns : ∀ i ∈ s.items.rows, i.kind = KIND_DESIGN → g i = i.resolution) (log : List Change) :
    Blocked (s.resolved g log) t ids ↔ Blocked s t ids := by
  constructor
  · rintro ⟨k, hk, hids, hdesign, hmoves⟩
    obtain ⟨i, hi, rfl⟩ := List.mem_map.mp hk
    refine ⟨i, hi, hids, hdesign, ?_⟩
    rwa [evidence_resolved, hdesigns i hi hdesign] at hmoves
  · rintro ⟨i, hi, hids, hdesign, hmoves⟩
    refine ⟨_, List.mem_map_of_mem hi, hids, hdesign, ?_⟩
    rwa [evidence_resolved, hdesigns i hi hdesign]

/-- A roll-up is blocked at its first unit, or at one of the others. -/
theorem blocked_cons {item : Int} {ids : List Int} {i : ItemRow} (hi : s.item? item = some i) :
    Blocked s t (item :: ids) ↔
      (i.kind = KIND_DESIGN ∧ settle t (evidence s t item) i.resolution ≠ i.resolution) ∨ Blocked s t ids := by
  obtain ⟨hmem, hid⟩ := Table.find?_eq_some.mp hi
  constructor
  · rintro ⟨k, hk, hids, hdesign, hmoves⟩
    rcases List.mem_cons.mp hids with hki | hids
    · obtain rfl := s.items.toTable.eq_of_key_eq hk hmem (hki.trans hid.symm)
      exact Or.inl ⟨hdesign, hid ▸ hmoves⟩
    · exact Or.inr ⟨k, hk, hids, hdesign, hmoves⟩
  · rintro (⟨hdesign, hmoves⟩ | ⟨k, hk, hids, h⟩)
    · exact ⟨i, hmem, hid ▸ List.mem_cons_self, hdesign, hid ▸ hmoves⟩
    · exact ⟨k, hk, List.mem_cons_of_mem _ hids, h⟩

/-- A unit that is settled is as well left out. -/
theorem rolled_cons_settled {item : Int} {ids : List Int} {i : ItemRow} (hi : s.item? item = some i)
    (h : settle t (evidence s t item) i.resolution = i.resolution) {k : ItemRow} (hk : k ∈ s.items.rows) :
    rolled s t (item :: ids) k = rolled s t ids k := by
  obtain ⟨hmem, hid⟩ := Table.find?_eq_some.mp hi
  by_cases hki : k.id = item
  · obtain rfl := s.items.toTable.eq_of_key_eq hk hmem (hki.trans hid.symm)
    simp only [rolled, hki, h, ite_self]
  · simp only [rolled, List.mem_cons, hki, false_or]

/-- **A roll-up of units is a pass over the items**, or it is blocked. -/
theorem rollUnits {ids : List Int} (hids : ∀ item ∈ ids, ∃ i, s.item? item = some i) (changed : List Rolled) :
    if Blocked s t ids then ∃ e, ids.foldlM (rollUnit t) (s, changed) = .error e
    else ∃ log changed', ids.foldlM (rollUnit t) (s, changed) =
      .ok (s.resolved (rolled s t ids) log, changed') := by
  induction ids generalizing s changed with
  | nil =>
      rw [if_neg fun ⟨_, _, h, _⟩ => List.not_mem_nil h]
      exact ⟨s.log, changed, by rw [resolved_eq_self fun i _ => rolled_nil i]; rfl⟩
  | cons item ids ih =>
      obtain ⟨i, hi⟩ := hids item List.mem_cons_self
      have hids := fun k hk => hids k (List.mem_cons_of_mem _ hk)
      rw [List.foldlM_cons]
      by_cases hsettled : settle t (evidence s t item) i.resolution = i.resolution
      · have hblocked : Blocked s t (item :: ids) ↔ Blocked s t ids := by
          rw [blocked_cons hi]
          exact or_iff_right fun h => h.2 hsettled
        rw [rollUnit_settled hi hsettled]
        simp only [hblocked, resolved_congr fun k hk => rolled_cons_settled hi hsettled hk]
        exact ih hids changed
      · have hmoved := rollUnit_moves hi hsettled changed
        by_cases hdesign : i.kind = KIND_DESIGN
        · rw [if_pos hdesign] at hmoved
          obtain ⟨e, he⟩ := hmoved
          rw [if_pos ((blocked_cons hi).mpr (Or.inl ⟨hdesign, hsettled⟩)), he]
          exact ⟨e, rfl⟩
        · rw [if_neg hdesign] at hmoved
          obtain ⟨log, changed', hok⟩ := hmoved
          have hdesigns : ∀ k ∈ s.items.rows, k.kind = KIND_DESIGN → rolled s t [item] k = k.resolution := by
            refine fun k hk hkind => if_neg fun hki => hdesign ?_
            obtain ⟨hmem, hid⟩ := Table.find?_eq_some.mp hi
            rwa [s.items.toTable.eq_of_key_eq hmem hk (hid.trans (List.mem_singleton.mp hki).symm)]
          have hblocked : Blocked s t (item :: ids) ↔ Blocked (s.resolved (rolled s t [item]) log) t ids := by
            rw [blocked_cons hi, blocked_resolved hdesigns]
            exact or_iff_right fun h => hdesign h.1
          have hrest := ih (s := s.resolved (rolled s t [item]) log)
            (fun k hk => (hids k hk).elim fun _ h => ⟨_, by rw [item?_resolved, h]; rfl⟩) changed'
          simp only [resolved_resolved, rolled_append, List.singleton_append] at hrest
          rw [hok]
          simp only [hblocked]
          exact hrest

/-! ## which units -/

/-- Whether an item is placed in one of some namespaces. -/
def placedIn (s : Store) (spaces : List Int) (item : Int) : Bool :=
  s.placements.rows.any fun p => p.itemId = item && spaces.contains p.namespaceId

/-- A query for kinds in the subtree of a path. -/
theorem evaluate_subtree (s : Store) (kinds excludeKinds : List Text) (path : Text) :
    Query.evaluate x.nfc x.sqlite s.queried { kinds, excludeKinds, scope := .subtree path } =
      (Ns.subtree x.nfc s.spaces path).map fun found =>
        ((s.items.rows.filter fun i => (kinds.isEmpty || kinds.contains i.kind) &&
          (excludeKinds.isEmpty || !excludeKinds.contains i.kind) &&
            placedIn s (found.map (·.1)) i.id).map (·.id)).mergeSort fun a b => a ≤ b := by
  have hcheck : Query.check { kinds, excludeKinds, scope := .subtree path } = .ok () := rfl
  rw [Query.evaluate, hcheck]
  cases hfound : Ns.subtree x.nfc s.spaces path with
  | error e =>
      have hscope : Query.resolveScope x.nfc s.queried.namespaces (.subtree path) = .error e := by
        rw [Query.resolveScope, Store.queried, hfound]
        rfl
      rw [hscope]
      rfl
  | ok found =>
      have hscope : Query.resolveScope x.nfc s.queried.namespaces (.subtree path) =
          .ok (some (found.map (·.1))) := by
        rw [Query.resolveScope, Store.queried, hfound]
        rfl
      have haccepts : ∀ i : ItemRow, Query.accepts s.queried i.toItemRow x.sqlite
          { kinds, excludeKinds, scope := .subtree path } (some (found.map (·.1))) none =
            ((kinds.isEmpty || kinds.contains i.kind) &&
              (excludeKinds.isEmpty || !excludeKinds.contains i.kind) && placedIn s (found.map (·.1)) i.id) := by
        intro i
        simp [Query.accepts, Query.columnClauses, Query.tagClauses, Query.graphClauses, Query.scopeClause,
          placedIn, Store.queried, List.any_map, Function.comp_def]
      have hrows : s.queried.items.rows = s.items.rows.map (·.toItemRow) := rfl
      rw [hscope]
      refine congrArg (fun ids => Except.ok (List.mergeSort ids fun a b => decide (a ≤ b))) ?_
      rw [hrows, List.filter_map, List.map_map]
      simp only [Function.comp_def, haccepts]

/-! ## a roll-up of a path -/

/-- What a roll-up of a path goes by: the strategy that governs the path, and the units below it. -/
def plan (x : Outside) (s : Store) (path : Text) : Except Fmt (NamespaceType × List Int) := do
  let t ← requireStrategy x s path
  return (t, ← units x s path)

/-- What a roll-up of a path makes of one item, going by a store. -/
def pass (x : Outside) (s : Store) (path : Text) (i : ItemRow) : ItemRow :=
  match plan x s path with
  | .ok (t, ids) => if Blocked s t ids then i else { i with resolution := rolled s t ids i }
  | .error _ => i

/-- Roll up, in a transaction of its own. -/
def rolledUp (x : Outside) (s : Store) (path : Text) : Store := Tx.commit ((rollUp x s path).map (·.1)) s

/-- Roll up some paths, one after the other. -/
def rollAll (x : Outside) (s : Store) (paths : List Text) : Store := paths.foldl (rolledUp x) s

/-- The units of a path are items. -/
theorem units_exist {path : Text} {ids : List Int} (h : units x s path = .ok ids) :
    ∀ item ∈ ids, ∃ i, s.item? item = some i := by
  intro item hitem
  rw [units, evaluate_subtree] at h
  obtain ⟨found, -, rfl⟩ := Tx.map_eq_ok.mp h
  obtain ⟨i, hi, rfl⟩ := List.mem_map.mp (List.mem_mergeSort.mp hitem)
  exact ⟨i, Table.find?_of_mem (List.mem_filter.mp hi).1⟩

/-- Resolutions are not read for the plan. -/
theorem plan_resolved (g : ItemRow → Option Resolution) (log : List Change) (path : Text) :
    plan x (s.resolved g log) path = plan x s path := by
  have hunits : units x (s.resolved g log) path = units x s path := by
    simp only [units, evaluate_subtree, Store.resolved, AutoTable.map, Table.map, List.filter_map, List.map_map]
    rfl
  rw [plan, plan, hunits]
  rfl

/-- A roll-up is its plan's. -/
theorem rollUp_eq (x : Outside) (s : Store) (path : Text) :
    rollUp x s path = (plan x s path >>= fun at_ => at_.2.foldlM (rollUnit at_.1) (s, [])) := by
  rw [rollUp, plan]
  cases requireStrategy x s path with
  | error e => rfl
  | ok t => cases units x s path <;> rfl

/-- A roll-up that is planned is a pass over its units, or it is blocked. -/
theorem rollUp_of_plan {path : Text} {ids : List Int} (h : plan x s path = .ok (t, ids)) :
    if Blocked s t ids then ∃ e, rollUp x s path = .error e
    else ∃ log changed, rollUp x s path = .ok (s.resolved (rolled s t ids) log, changed) := by
  obtain ⟨_, -, hids⟩ := Tx.bind_eq_ok.mp h
  obtain ⟨_, hids, heq⟩ := Tx.map_eq_ok.mp hids
  cases heq
  rw [rollUp_eq, h]
  exact rollUnits (units_exist hids) []

/-- **A roll-up is refused, and leaves every item, or is its plan's.** -/
theorem rollUp_cases (x : Outside) (s : Store) (path : Text) :
    (∃ e, rollUp x s path = .error e ∧ ∀ i, pass x s path i = i) ∨
      ∃ t ids log changed, plan x s path = .ok (t, ids) ∧ ¬ Blocked s t ids ∧
        rollUp x s path = .ok (s.resolved (rolled s t ids) log, changed) ∧
        ∀ i, pass x s path i = { i with resolution := rolled s t ids i } := by
  cases hplan : plan x s path with
  | error e => exact Or.inl ⟨e, by rw [rollUp_eq, hplan]; rfl, fun i => by rw [pass, hplan]⟩
  | ok at_ =>
      obtain ⟨t, ids⟩ := at_
      have hrolled := rollUp_of_plan hplan
      by_cases hblocked : Blocked s t ids
      · rw [if_pos hblocked] at hrolled
        obtain ⟨e, he⟩ := hrolled
        exact Or.inl ⟨e, he, fun i => by simp only [pass, hplan, if_pos hblocked]⟩
      · rw [if_neg hblocked] at hrolled
        obtain ⟨log, changed, hok⟩ := hrolled
        exact Or.inr ⟨t, ids, log, changed, rfl, hblocked, hok, fun i => by simp only [pass, hplan, if_neg hblocked]⟩

/-- A roll-up that is not refused. -/
theorem rollUp_eq_ok {path : Text} {s' : Store} {changed : List Rolled} (h : rollUp x s path = .ok (s', changed)) :
    ∃ t ids log, plan x s path = .ok (t, ids) ∧ ¬ Blocked s t ids ∧ s' = s.resolved (rolled s t ids) log := by
  obtain ⟨e, he, -⟩ | ⟨t, ids, log, changed', hplan, hblocked, hok, -⟩ := rollUp_cases x s path
  · cases he.symm.trans h
  · cases hok.symm.trans h
    exact ⟨t, ids, log, hplan, hblocked, rfl⟩

/-- **A roll-up is one pass over the items.** -/
theorem rolledUp_eq (x : Outside) (s : Store) (path : Text) :
    ∃ log, rolledUp x s path = s.resolved (fun i => (pass x s path i).resolution) log := by
  obtain ⟨e, he, hpass⟩ | ⟨t, ids, log, changed, -, -, hok, hpass⟩ := rollUp_cases x s path
  · refine ⟨s.log, ?_⟩
    simp only [rolledUp, he, hpass]
    exact (resolved_eq_self fun _ _ => rfl).symm
  · refine ⟨log, ?_⟩
    simp only [rolledUp, hok, hpass]
    rfl

/-- A pass leaves every item, or is its plan's. -/
theorem pass_cases (x : Outside) (s : Store) (path : Text) :
    (∀ i, pass x s path i = i) ∨ ∃ t ids, plan x s path = .ok (t, ids) ∧ ¬ Blocked s t ids ∧
      ∀ i, pass x s path i = { i with resolution := rolled s t ids i } := by
  obtain ⟨-, -, hpass⟩ | ⟨t, ids, -, -, hplan, hblocked, -, hpass⟩ := rollUp_cases x s path
  · exact Or.inl hpass
  · exact Or.inr ⟨t, ids, hplan, hblocked, hpass⟩

/-- What a pass does to an item where it is planned and not blocked. -/
theorem pass_of_plan {path : Text} {ids : List Int} (hplan : plan x s path = .ok (t, ids))
    (hblocked : ¬ Blocked s t ids) (i : ItemRow) :
    pass x s path i = { i with resolution := rolled s t ids i } := by
  simp only [pass, hplan, if_neg hblocked]

/-- A pass writes resolutions only. -/
theorem pass_eq (path : Text) (i : ItemRow) :
    pass x s path i = { i with resolution := (pass x s path i).resolution } := by
  rcases pass_cases x s path with h | ⟨t, ids, -, -, h⟩ <;> rw [h]

/-- No pass moves a design. -/
theorem pass_design {path : Text} {i : ItemRow} (hi : i ∈ s.items.rows) (hdesign : i.kind = KIND_DESIGN) :
    (pass x s path i).resolution = i.resolution := by
  rcases pass_cases x s path with h | ⟨t, ids, -, hblocked, h⟩
  · rw [h]
  · rw [h]
    show rolled s t ids i = i.resolution
    unfold rolled
    split
    · next hids => exact not_not.mp fun hmoves => hblocked ⟨i, hi, hids, hdesign, hmoves⟩
    · rfl

/-- A pass goes by what no pass writes. -/
theorem pass_resolved {g : ItemRow → Option Resolution}
    (hdesigns : ∀ i ∈ s.items.rows, i.kind = KIND_DESIGN → g i = i.resolution) (log : List Change) (path : Text)
    (i : ItemRow) : pass x (s.resolved g log) path i = pass x s path i := by
  unfold pass
  rw [plan_resolved]
  split
  · simp only [blocked_resolved hdesigns, rolled, evidence_resolved]
  · rfl

/-- Roll-ups of what roll-ups left. -/
theorem rollAll_resolved {g : ItemRow → Option Resolution}
    (hdesigns : ∀ i ∈ s.items.rows, i.kind = KIND_DESIGN → g i = i.resolution) (log : List Change)
    (paths : List Text) : ∃ log', rollAll x (s.resolved g log) paths =
      s.resolved (fun i => (Settles.round (pass x s) paths { i with resolution := g i }).resolution) log' := by
  induction paths generalizing g log with
  | nil => exact ⟨log, rfl⟩
  | cons path paths ih =>
      obtain ⟨log₁, h₁⟩ := rolledUp_eq x (s.resolved g log) path
      simp only [resolved_resolved, pass_resolved hdesigns] at h₁
      have hkeeps : ∀ i ∈ s.items.rows, i.kind = KIND_DESIGN →
          (pass x s path { i with resolution := g i }).resolution = i.resolution := fun i hi hdesign => by
        simp only [hdesigns i hi hdesign]
        exact pass_design hi hdesign
      obtain ⟨log₂, h₂⟩ := ih hkeeps log₁
      refine ⟨log₂, ?_⟩
      rw [rollAll, List.foldl_cons, h₁, ← rollAll, h₂]
      refine resolved_congr fun i _ => ?_
      rw [Settles.round_cons, pass_eq path { i with resolution := g i }]

/-- **Roll-ups are a round of passes over the items.** -/
theorem rollAll_eq (x : Outside) (s : Store) (paths : List Text) :
    ∃ log, rollAll x s paths = s.resolved (fun i => (Settles.round (pass x s) paths i).resolution) log := by
  obtain ⟨log, h⟩ := @rollAll_resolved x s (fun i => i.resolution) (fun _ _ _ => rfl) s.log paths
  rw [resolved_eq_self fun _ _ => rfl] at h
  exact ⟨log, h⟩

/-- A round writes resolutions only, and none of a design. -/
theorem round_eq (paths : List Text) (i : ItemRow) : Settles.round (pass x s) paths i =
    { i with resolution := (Settles.round (pass x s) paths i).resolution } := by
  induction paths generalizing i with
  | nil => rfl
  | cons path paths ih =>
      rw [Settles.round_cons, ih (pass x s path i), pass_eq path i]

/-- A pass over many paths leaves the designs. -/
theorem round_design {i : ItemRow} (hi : i ∈ s.items.rows) (hdesign : i.kind = KIND_DESIGN) (paths : List Text) :
    (Settles.round (pass x s) paths i).resolution = i.resolution := by
  induction paths with
  | nil => rfl
  | cons path paths ih =>
      have hsame : pass x s path i = i := by
        rw [pass_eq path i, pass_design hi hdesign]
      rw [Settles.round_cons, hsame, ih]

end Jkb.Investigation
