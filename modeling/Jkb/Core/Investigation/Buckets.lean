import Jkb.Core.Investigation.Nested

/-!
# Jkb.Core.Investigation.Buckets

The three buckets of an investigation: the frontier of what is left to do, the confirmed core, and the tombstones.
Each is a query over the subtree, by the resolution of a unit or by the edges that killed it. A roll-up makes the
resolution follow the edges, so that after one no unit is in two of them.
-/

namespace Jkb.Investigation

open Jkb.Text Jkb.Nstype Jkb.Nstype.Lifecycle Jkb.Substrate Fsm

/-! ## the buckets -/

/-- The kinds that are no work. -/
def NON_WORK_KINDS : List String := [KIND_REFLECTION]

/-- The frontier every strategy starts from. -/
def baseFrontier (scope : Query.Scope) : Query where
  frontier := true
  claimed := some false
  excludeKinds := NON_WORK_KINDS.map String.toList
  scope := scope

/-- The frontier of a type: `debugging` leaves out what is stale. -/
def frontierOf (t : NamespaceType) (scope : Query.Scope) : Query :=
  match t with
  | .debugging =>
      { baseFrontier scope with excludeTags := [⟨"staleness".toList, .eq, "stale".toList⟩] }
  | _ => baseFrontier scope

section Buckets

variable (x : Outside) (s : Store) (path : Text)

/-- The frontier of an investigation, before it is ranked. -/
def frontier (includeClaimed : Bool) : Except Fmt (List Int) := do
  let t ← requireStrategy x s path
  let query := frontierOf t (.subtree path)
  Query.evaluate x.nfc x.sqlite s.queried (if includeClaimed then { query with claimed := none } else query)

/-- The confirmed core of an investigation. -/
def confirmedCore : Except Fmt (List Int) :=
  Query.evaluate x.nfc x.sqlite s.queried
    { resolution := some Resolution.success.asStr.toList, scope := .subtree path }

/-- The tombstones of an investigation. -/
def tombstones : Except Fmt (List Int) :=
  Query.evaluate x.nfc x.sqlite s.queried { tombstone := true, scope := .subtree path }

end Buckets

variable {x : Outside} {s : Store} {t : NamespaceType} {path : Text}

/-! ## who is in one -/

/-- A path that a strategy governs is a path. -/
theorem normalize_of_requireStrategy (h : requireStrategy x s path = .ok t) :
    ∃ p, Ns.normalize x.nfc path = .ok p := by
  obtain ⟨_, hfor, -⟩ := Tx.bind_eq_ok.mp h
  obtain ⟨_, heff, -⟩ := Tx.bind_eq_ok.mp hfor
  obtain ⟨p, hp, -⟩ := Tx.bind_eq_ok.mp heff
  exact ⟨p, hp⟩

/-- The subtree of such a path. -/
theorem subtree_of_requireStrategy (h : requireStrategy x s path = .ok t) :
    ∃ found, Ns.subtree x.nfc s.spaces path = .ok found ∧
      Query.resolveScope x.nfc s.queried.namespaces (.subtree path) = .ok (some (found.map (·.1))) := by
  obtain ⟨p, hp⟩ := normalize_of_requireStrategy h
  have hfound : ∃ found, Ns.subtree x.nfc s.spaces path = .ok found := by
    rw [Ns.subtree, hp]
    exact ⟨_, rfl⟩
  obtain ⟨found, hfound⟩ := hfound
  refine ⟨found, hfound, ?_⟩
  rw [Query.resolveScope, Store.queried, hfound]
  rfl

/-- A query over the subtree of an investigation is answered, by what it accepts. -/
theorem evaluate_bucket (h : requireStrategy x s path = .ok t) {q : Query} (hcheck : Query.check q = .ok ())
    (hscope : q.scope = .subtree path) (hfts : q.fts = none) (hlimit : q.limit = none) :
    ∃ ids found, Query.evaluate x.nfc x.sqlite s.queried q = .ok ids ∧ Ns.subtree x.nfc s.spaces path = .ok found ∧
      ∀ i ∈ s.items.rows, i.id ∈ ids →
        Query.accepts s.queried i.toItemRow x.sqlite q (some (found.map (·.1))) none = true := by
  obtain ⟨found, hfound, hres⟩ := subtree_of_requireStrategy h
  rw [← hscope] at hres
  obtain ⟨ids, hids⟩ := Query.exists_evaluate hcheck hres hfts
  refine ⟨ids, found, hids, hfound, fun i hi hmem => ?_⟩
  obtain ⟨-, scope, fts, hs, hf, hiff⟩ := Query.mem_evaluate hids hlimit
  obtain rfl := Except.ok.inj (hres.symm.trans hs)
  have hmatch : Query.matchFts x.sqlite q = .ok none := by rw [Query.matchFts, hfts]
  obtain rfl := Except.ok.inj (hmatch.symm.trans hf)
  obtain ⟨row, hrow, haccepts, hid⟩ := (hiff i.id).mp hmem
  obtain ⟨k, hk, rfl⟩ := List.mem_map.mp hrow
  rwa [s.items.toTable.eq_of_key_eq hk hi hid] at haccepts

/-- The units of an investigation are its placed items that are no tasks. -/
theorem mem_units {found : List (Int × Text)} (hfound : Ns.subtree x.nfc s.spaces path = .ok found) {ids : List Int}
    (h : units x s path = .ok ids) {i : ItemRow} (hi : i ∈ s.items.rows) (hkind : i.kind ≠ KIND_TASK.toList)
    (hplaced : placedIn s (found.map (·.1)) i.id = true) : i.id ∈ ids := by
  rw [units, evaluate_subtree, hfound] at h
  obtain rfl := Except.ok.inj h
  refine List.mem_mergeSort.mpr (List.mem_map_of_mem (List.mem_filter.mpr ⟨hi, ?_⟩))
  simp [hkind, hplaced]

/-- The scope of a query, as a placement. -/
theorem placedIn_of_scopeClause {spaces : List Int} {i : ItemRow}
    (h : Query.scopeClause s.queried i.toItemRow (some spaces) = true) : placedIn s spaces i.id = true := by
  simpa [Query.scopeClause, placedIn, Store.queried, List.any_map, Function.comp_def] using h

section Accepts

variable {q : Query} {i : Query.ItemRow} {scope fts : Option (List Int)} {sys : Query.Sqlite} {st : Query.Store}

/-- What a query accepts meets its clauses. -/
theorem clauses_of_accepts (h : Query.accepts st i sys q scope fts = true) :
    Query.columnClauses st i sys q = true ∧ Query.scopeClause st i scope = true ∧
      Query.graphClauses st i q = true := by
  simp only [Query.accepts, Bool.and_eq_true] at h
  exact ⟨h.1.1.1.1, h.1.1.2, h.1.2⟩

/-- What is on a frontier is unresolved. -/
theorem unresolved_of_accepts (hq : q.frontier = true) (h : Query.accepts st i sys q scope fts = true) :
    Query.unresolved i.resolution = true := by
  have hgraph := (clauses_of_accepts h).2.2
  simp only [Query.graphClauses, hq, Bool.not_true, Bool.false_or, Bool.and_eq_true, Query.frontierClause] at hgraph
  exact hgraph.1.1.1.2.1.1.2

/-- What a query for successes accepts is one. -/
theorem resolution_of_accepts (hq : q.resolution = some Resolution.success.asStr.toList)
    (h : Query.accepts st i sys q scope fts = true) : i.resolution = some .success := by
  have hcolumn := (clauses_of_accepts h).1
  simp only [Query.columnClauses, hq, Option.all_some, Bool.and_eq_true] at hcolumn
  have hres := hcolumn.1.1.1.1.2
  rcases hr : i.resolution with _ | (_ | _ | _ | _ | _) <;> rw [hr] at hres <;> first | rfl | cases hres

/-- What a query for tombstones accepts is one. -/
theorem tombstone_of_accepts (hq : q.tombstone = true) (h : Query.accepts st i sys q scope fts = true) :
    Query.tombstoneClause st i = true := by
  have hgraph := (clauses_of_accepts h).2.2
  simp only [Query.graphClauses, hq, Bool.not_true, Bool.false_or, Bool.and_eq_true] at hgraph
  exact hgraph.1.1.2

end Accepts

/-! ## after a roll-up -/

/-- What kills a unit settles it as a dead end. -/
theorem settle_refuted {e : Evidence} (h : e.refuted = true) (r : Option Resolution) :
    settle t e r = some .deadEnd := by
  obtain ⟨refuted, superseded, confirmed, stale⟩ := e
  cases h
  cases t <;> rcases r with _ | (_ | _ | _ | _ | _) <;> rfl

/-- Whether a unit is refuted is read off the edges into it. -/
theorem evidence_refuted (s : Store) (t : NamespaceType) (item : Int) :
    (evidence s t item).refuted = incoming s item [.refutes, .rulesOut] := by
  by_cases h : t = .debugging
  · rw [h]
    exact (debuggingEvidence_refuted s item).1
  · rw [evidence_of_ne h]
    rfl

/-- A roll-up over units that are settled does nothing. -/
theorem rollUnits_settled {ids : List Int} (h : ∀ item ∈ ids, ∃ i, s.item? item = some i ∧
      settle t (evidence s t item) i.resolution = i.resolution) (changed : List Rolled) :
    ids.foldlM (rollUnit t) (s, changed) = .ok (s, changed) := by
  induction ids with
  | nil => rfl
  | cons item ids ih =>
      obtain ⟨⟨i, hi, hsettled⟩, hrest⟩ := List.forall_mem_cons.mp h
      rw [List.foldlM_cons, rollUnit_settled hi hsettled]
      exact ih hrest

/-- After a roll-up the tombstones are those by their resolution: what an edge kills has it. -/
theorem resolution_of_tombstone {found : List (Int × Text)} (hfound : Ns.subtree x.nfc s.spaces path = .ok found)
    {ids : List Int} (hunits : units x s path = .ok ids) {log : List Change} {i : ItemRow}
    (hi : i ∈ (s.resolved (rolled s t ids) log).items.rows) (hkind : i.kind ≠ KIND_TASK.toList)
    (hplaced : placedIn s (found.map (·.1)) i.id = true)
    (h : Query.tombstoneClause (s.resolved (rolled s t ids) log).queried i.toItemRow = true) :
    i.resolution = some .deadEnd ∨ i.resolution = some .superseded := by
  obtain ⟨k, hk, rfl⟩ := List.mem_map.mp hi
  simp only [Query.tombstoneClause, Bool.or_eq_true, decide_eq_true_eq] at h
  rcases h with (hdead | hreplaced) | hkilled
  · exact Or.inl hdead
  · exact Or.inr hreplaced
  · have hincoming : incoming s k.id [.refutes, .rulesOut] = true := by
      simpa [incoming, Store.queried, Store.resolved, List.any_map, Function.comp_def] using hkilled
    have hunit : k.id ∈ ids := mem_units hfound hunits hk hkind hplaced
    refine Or.inl ?_
    show rolled s t ids k = _
    rw [rolled, if_pos hunit]
    exact settle_refuted (by rw [evidence_refuted, hincoming]) _

/-- No type of this build takes designs. -/
theorem not_acceptsKind_design (t : NamespaceType) : t.acceptsKind KIND_DESIGN = false := by
  cases t <;> rfl

/-- A path that a strategy governs has a plan. -/
theorem plan_of_requireStrategy (h : requireStrategy x s path = .ok t) : ∃ ids, plan x s path = .ok (t, ids) ∧
    units x s path = .ok ids := by
  obtain ⟨found, hfound, -⟩ := subtree_of_requireStrategy h
  have hunits : ∃ ids, units x s path = .ok ids := by
    rw [units, evaluate_subtree, hfound]
    exact ⟨_, rfl⟩
  obtain ⟨ids, hids⟩ := hunits
  exact ⟨ids, Tx.bind_eq_ok.mpr ⟨t, h, Tx.bind_eq_ok.mpr ⟨ids, hids, rfl⟩⟩, hids⟩

/-- **A roll-up settles an investigation in one pass.** Where the units are of kinds that the strategy accepts, it is
not refused, for ambiguity or otherwise; made again it changes nothing; and afterwards the frontier, with what is
claimed, the confirmed core and the tombstones have no unit in common that is not a task. -/
theorem rollUp_buckets (hstrategy : requireStrategy x s path = .ok t)
    (hkinds : ∀ ids, units x s path = .ok ids → ∀ i ∈ s.items.rows, i.id ∈ ids → t.acceptsKind i.kind = true) :
    ∃ s' changed, rollUp x s path = .ok (s', changed) ∧ rollUp x s' path = .ok (s', []) ∧
      ∃ live core dead, frontier x s' path true = .ok live ∧ confirmedCore x s' path = .ok core ∧
        tombstones x s' path = .ok dead ∧ ∀ i ∈ s'.items.rows, i.kind ≠ KIND_TASK.toList →
          ¬ (i.id ∈ live ∧ i.id ∈ core) ∧ ¬ (i.id ∈ live ∧ i.id ∈ dead) ∧ ¬ (i.id ∈ core ∧ i.id ∈ dead) := by
  obtain ⟨ids, hplan, hunits⟩ := plan_of_requireStrategy hstrategy
  have hblocked : ¬ Blocked s t ids := by
    rintro ⟨i, hi, hids, hdesign, -⟩
    have haccepts := hkinds ids hunits i hi hids
    rw [hdesign, not_acceptsKind_design] at haccepts
    cases haccepts
  have hrolled := rollUp_of_plan hplan
  rw [if_neg hblocked] at hrolled
  obtain ⟨log, changed, hok⟩ := hrolled
  refine ⟨_, changed, hok, ?_, ?_⟩
  · have hplan' : plan x (s.resolved (rolled s t ids) log) path = .ok (t, ids) := by rw [plan_resolved, hplan]
    rw [rollUp_eq, hplan']
    refine rollUnits_settled (fun item hitem => ?_) []
    obtain ⟨i, hi⟩ := units_exist hunits item hitem
    have hid := (Table.find?_eq_some.mp hi).2
    refine ⟨{ i with resolution := rolled s t ids i }, by rw [item?_resolved, hi]; rfl, ?_⟩
    rw [evidence_resolved]
    simp only [rolled, hid, hitem, if_true, settle_settle]
  · obtain ⟨live, _, hlive, -, hinLive⟩ := evaluate_bucket (s := s.resolved (rolled s t ids) log) hstrategy
      (q := { frontierOf t (.subtree path) with claimed := none }) (by cases t <;> rfl) (by cases t <;> rfl)
      (by cases t <;> rfl) (by cases t <;> rfl)
    obtain ⟨core, _, hcore, -, hinCore⟩ := evaluate_bucket (s := s.resolved (rolled s t ids) log) hstrategy
      (q := { resolution := some Resolution.success.asStr.toList, scope := .subtree path }) rfl rfl rfl rfl
    obtain ⟨dead, found, hdead, hfound, hinDead⟩ := evaluate_bucket (s := s.resolved (rolled s t ids) log) hstrategy
      (q := { tombstone := true, scope := .subtree path }) rfl rfl rfl rfl
    refine ⟨live, core, dead, Tx.bind_eq_ok.mpr ⟨t, hstrategy, hlive⟩, hcore, hdead, fun i hi hkind => ?_⟩
    have hunresolved : i.id ∈ live → Query.unresolved i.resolution = true := fun h =>
      unresolved_of_accepts (by cases t <;> rfl) (hinLive i hi h)
    have hsuccess : i.id ∈ core → i.resolution = some .success := fun h => resolution_of_accepts rfl (hinCore i hi h)
    have hkilled : i.id ∈ dead → i.resolution = some .deadEnd ∨ i.resolution = some .superseded := by
      intro h
      have haccepts := hinDead i hi h
      have hplaced : placedIn s (found.map (·.1)) i.id = true :=
        placedIn_of_scopeClause (clauses_of_accepts haccepts).2.1
      have hfound : Ns.subtree x.nfc s.spaces path = .ok found := hfound
      exact resolution_of_tombstone hfound hunits hi hkind hplaced (tombstone_of_accepts rfl haccepts)
    refine ⟨?_, ?_, ?_⟩
    · rintro ⟨hl, hc⟩
      have hres := hunresolved hl
      rw [hsuccess hc] at hres
      cases hres
    · rintro ⟨hl, hd⟩
      have hres := hunresolved hl
      rcases hkilled hd with hk | hk
      all_goals
        rw [hk] at hres
        cases hres
    · rintro ⟨hc, hd⟩
      rcases hkilled hd with hk | hk
      all_goals
        rw [hsuccess hc] at hk
        cases hk

/-! ## a unit that was resolved by hand -/

/-- The type that a metadata names: what comes after its mark. -/
def markedType : Text → Option Text
  | '@' :: t => some t
  | _ => none

/-- ASCII texts, and metadata that are the name of a type. -/
def plain : Outside where
  nfc := id
  typed m := (markedType m).isSome
  setType _ t := '@' :: t
  typeOf := markedType
  sqlite := ⟨some, [], fun _ => .ok []⟩

/-- A hypothesis that is resolved `success`, and an observation that refutes it. -/
def refutedSuccess : Store where
  namespaces :=
    { rows := [⟨1, "lab".toList, none, .logical, "@debugging".toList, []⟩]
      nodup := by decide
      last := 1
      le_last := by decide
      unique := by decide
      linked := by decide }
  mounts := []
  items :=
    { rows := [
        { id := 1, uid := "h".toList, kind := "hypothesis".toList, resolution := some .success },
        { id := 2, uid := "o".toList, kind := "observation".toList }]
      nodup := by decide
      last := 2
      le_last := by decide }
  placements :=
    { rows := [
        { id := 1, itemId := 1, namespaceId := 1, role := .primary, position := 0 },
        { id := 2, itemId := 2, namespaceId := 1, role := .primary, position := 1 }]
      nodup := by decide
      last := 2
      le_last := by decide }
  tags := .empty
  edges :=
    { table :=
        { rows := [{ id := 1, src := 2, dst := 1, type := .refutes, weight := none, props := [] }]
          nodup := by decide
          last := 1
          le_last := by decide }
      unique := by decide }
  containment := .empty
  transitions := []
  log := []

/-- A success that is refuted is rolled up, and a second pass changes nothing. -/
theorem rollUp_buckets_refuted :
    ∃ s' changed, rollUp plain refutedSuccess "lab".toList = .ok (s', changed) ∧
      rollUp plain s' "lab".toList = .ok (s', []) := by
  have hkinds : ∀ i ∈ refutedSuccess.items.rows, NamespaceType.debugging.acceptsKind i.kind = true :=
    List.forall_iff_forall_mem.mp (by decide)
  obtain ⟨s', changed, hfirst, hagain, -⟩ :=
    rollUp_buckets (rfl : requireStrategy plain refutedSuccess "lab".toList = .ok .debugging)
      fun _ _ i hi _ => hkinds i hi
  exact ⟨s', changed, hfirst, hagain⟩

end Jkb.Investigation
