import Jkb.Core.Investigation.RollUp

/-!
# Jkb.Core.Investigation.Nested

Investigations inside of investigations. A unit is governed by its nearest typed namespace, but a roll-up and
the search for a goal take in the whole subtree of a path, nested investigations included. So a roll-up
reaches into another investigation's units, two investigations that both take in a unit may not agree about
it, and the goal that is found may be a nested investigation's.
-/

namespace Jkb.Investigation

open Jkb.Text Jkb.Nstype Jkb.Nstype.Lifecycle Jkb.Substrate Fsm

variable {x : Outside} {s : Store} {t : NamespaceType}

/-! ## other investigations' units -/

/-- Whether a unit is another investigation's than the one a path is in: its nearest typed namespace is
another, and an investigation. -/
def Foreign (x : Outside) (s : Store) (path : Text) (item : Int) : Prop :=
  ∃ home own t src t', primaryNamespace s item = some home ∧
    forNamespace x.toTyping s.spaces home = .ok (some (own, t)) ∧ t.role = .investigation ∧
    forNamespace x.toTyping s.spaces path = .ok (some (src, t')) ∧ own ≠ src

/-- A roll-up of a path changes no unit of another investigation. -/
def KeepsOut (x : Outside) (s : Store) (path : Text) : Prop :=
  ∀ s' changed, rollUp x s path = .ok (s', changed) →
    ∀ item, Foreign x s path item → s'.item? item = s.item? item

/-- A unit has the resolution that a strategy would give it. -/
def Settled (s : Store) (t : NamespaceType) (i : ItemRow) : Prop :=
  concluded t (evidence s t i.id) (i.resolution.getD .unresolved) = i.resolution.getD .unresolved

instance (s : Store) (t : NamespaceType) (i : ItemRow) : Decidable (Settled s t i) :=
  inferInstanceAs (Decidable (_ = _))

/-- Every unit that a path's roll-up reaches in another investigation is settled already. -/
def SettledApart (x : Outside) (s : Store) (path : Text) : Prop :=
  ∀ t ids, plan x s path = .ok (t, ids) → ¬ Blocked s t ids →
    ∀ i ∈ s.items.rows, i.id ∈ ids → Foreign x s path i.id → Settled s t i

/-- **A roll-up keeps out of other investigations exactly where they have nothing left to settle.** -/
theorem keepsOut_iff (x : Outside) (s : Store) (path : Text) : KeepsOut x s path ↔ SettledApart x s path := by
  constructor
  · intro h t ids hplan hblocked i hi hids hforeign
    have hrolled := rollUp_of_plan hplan
    rw [if_neg hblocked] at hrolled
    obtain ⟨log, changed, hok⟩ := hrolled
    have hsame := h _ _ hok i.id hforeign
    have hfound : s.item? i.id = some i := Table.find?_of_mem hi
    rw [item?_resolved, hfound] at hsame
    have hresolution := congrArg (fun i : ItemRow => i.resolution) (Option.some.inj hsame)
    exact settle_eq_self.mp ((if_pos hids).symm.trans hresolution)
  · intro h s' changed hok item hforeign
    obtain ⟨t, ids, log, hplan, hblocked, rfl⟩ := rollUp_eq_ok hok
    rw [item?_resolved]
    cases hi : s.item? item with
    | none => rfl
    | some i =>
        obtain ⟨hmem, rfl⟩ := Table.find?_eq_some.mp hi
        have hsame : rolled s t ids i = i.resolution := by
          unfold rolled
          split
          · next hids => exact settle_eq_self.mpr (h t ids hplan hblocked i hmem hids hforeign)
          · rfl
        rw [Option.map_some, hsame]

/-! ## the order of roll-ups -/

/-- Roll-ups of some paths come to the same in every order, and once more changes nothing. -/
def Converges (x : Outside) (s : Store) (paths : List Text) : Prop :=
  ∀ order, paths.Perm order →
    (rollAll x s order).items = (rollAll x s paths).items ∧
      (rollAll x (rollAll x s paths) order).items = (rollAll x s paths).items

/-- Both of two paths' roll-ups take in a unit, one by `debugging` and one by another type, that is torn
between them. -/
def TornBetween (x : Outside) (s : Store) (p q : Text) : Prop :=
  ∃ ids js t, plan x s p = .ok (.debugging, ids) ∧ ¬ Blocked s .debugging ids ∧
    plan x s q = .ok (t, js) ∧ t ≠ .debugging ∧ ¬ Blocked s t js ∧
    ∃ item, item ∈ ids ∧ item ∈ js ∧ Torn (baseEvidence s item) (debuggingEvidence s item)

/-- What `debugging` does not say otherwise. -/
theorem debuggingEvidence_refuted (s : Store) (item : Int) :
    (debuggingEvidence s item).refuted = (baseEvidence s item).refuted ∧
      (debuggingEvidence s item).superseded = (baseEvidence s item).superseded := by
  unfold debuggingEvidence
  split <;> exact ⟨rfl, rfl⟩

/-- Every strategy but debugging sees the edges alone. -/
theorem evidence_of_ne (h : t ≠ .debugging) (item : Int) : evidence s t item = baseEvidence s item := by
  cases t with
  | debugging => exact absurd rfl h
  | conjecture => rfl
  | tasks => rfl
  | views => rfl
  | journal => rfl

/-- Every strategy but debugging settles a unit alike. -/
theorem settle_of_ne (h : t ≠ .debugging) (e : Evidence) (r : Option Resolution) :
    settle t e r = settle .conjecture e r := by
  cases t with
  | debugging => exact absurd rfl h
  | conjecture => rfl
  | tasks => rfl
  | views => rfl
  | journal => rfl

/-- The passes of two plans, at one unit that both take in. -/
theorem settle_evidence_swap {u : NamespaceType} {item : Int}
    (h : t = .debugging → u ≠ .debugging → ¬ Torn (baseEvidence s item) (debuggingEvidence s item))
    (h' : u = .debugging → t ≠ .debugging → ¬ Torn (baseEvidence s item) (debuggingEvidence s item))
    (r : Option Resolution) :
    settle t (evidence s t item) (settle u (evidence s u item) r) =
      settle u (evidence s u item) (settle t (evidence s t item) r) := by
  obtain ⟨hrefuted, hsuperseded⟩ := debuggingEvidence_refuted s item
  by_cases ht : t = .debugging
  · by_cases hu : u = .debugging
    · rw [ht, hu]
    · rw [ht, evidence_of_ne hu, settle_of_ne hu, settle_of_ne hu]
      exact settle_swap hrefuted hsuperseded rfl (h ht hu) r
  · by_cases hu : u = .debugging
    · rw [hu, evidence_of_ne ht, settle_of_ne ht, settle_of_ne ht]
      exact (settle_swap hrefuted hsuperseded rfl (h' hu ht) r).symm
    · simp only [evidence_of_ne ht, evidence_of_ne hu, settle_of_ne ht, settle_of_ne hu]

/-- Where nothing is torn between any two paths, their passes settle. -/
theorem settles_pass {paths : List Text} (h : ∀ p ∈ paths, ∀ q ∈ paths, ¬ TornBetween x s p q) :
    Settles (· ∈ paths) (pass x s) := by
  constructor
  · intro p _ i
    rcases pass_cases x s p with hleft | ⟨t, ids, -, -, hpass⟩
    · rw [hleft, hleft]
    · have htwice : rolled s t ids { i with resolution := rolled s t ids i } = rolled s t ids i := by
        unfold rolled
        split
        · exact settle_settle _ _ _
        · rfl
      rw [hpass, hpass, htwice]
  · intro p q hp hq i
    rcases pass_cases x s p with hleft | ⟨t, ids, hplan, hblocked, hpass⟩
    · rw [hleft, hleft]
    rcases pass_cases x s q with hleft | ⟨u, js, hplan', hblocked', hpass'⟩
    · rw [hleft, hleft]
    have hswap : rolled s t ids { i with resolution := rolled s u js i } =
        rolled s u js { i with resolution := rolled s t ids i } := by
      unfold rolled
      by_cases hids : i.id ∈ ids
      · by_cases hjs : i.id ∈ js
        · simp only [if_pos hids, if_pos hjs]
          refine settle_evidence_swap (fun ht hu htorn => ?_) (fun hu ht htorn => ?_) _
          · exact h p hp q hq ⟨ids, js, u, ht ▸ hplan, ht ▸ hblocked, hplan', hu, hblocked', _, hids, hjs, htorn⟩
          · exact h q hq p hp ⟨js, ids, t, hu ▸ hplan', hu ▸ hblocked', hplan, ht, hblocked, _, hjs, hids, htorn⟩
        · simp only [if_neg hjs]
      · simp only [if_neg hids]
    rw [hpass, hpass', hpass', hpass, hswap]

/-- The items are as after others exactly if each has the resolution that it has there. -/
theorem items_resolved_eq {g h : ItemRow → Option Resolution} {log log' : List Change} :
    (s.resolved g log).items = (s.resolved h log').items ↔ ∀ i ∈ s.items.rows, g i = h i := by
  constructor
  · intro heq i hi
    have hrows : s.items.rows.map (fun i => { i with resolution := g i }) =
        s.items.rows.map (fun i => { i with resolution := h i }) :=
      congrArg (fun t : AutoTable fun i : ItemRow => i.id => t.rows) heq
    exact congrArg (fun i : ItemRow => i.resolution) (List.map_inj_left.mp hrows i hi)
  · intro hsame
    have hstore : s.resolved g log = s.resolved h log := resolved_congr hsame
    have hitems := congrArg Store.items hstore
    exact hitems

/-- Two roll-ups of a unit that is torn between them, after any others. -/
theorem round_torn {p q : Text} {ids js : List Int} {u : NamespaceType} {i : ItemRow}
    (hp : plan x s p = .ok (.debugging, ids)) (hpb : ¬ Blocked s .debugging ids)
    (hq : plan x s q = .ok (u, js)) (hu : u ≠ .debugging) (hqb : ¬ Blocked s u js)
    (hids : i.id ∈ ids) (hjs : i.id ∈ js) (htorn : Torn (baseEvidence s i.id) (debuggingEvidence s i.id))
    (rest : List Text) :
    (Settles.round (pass x s) (rest ++ [p, q]) i).resolution = some .success ∧
      (Settles.round (pass x s) (rest ++ [q, p]) i).resolution = some .unresolved := by
  obtain ⟨hrefuted, hsuperseded⟩ := debuggingEvidence_refuted s i.id
  obtain ⟨hlast, hfirst⟩ := settle_torn hrefuted hsuperseded rfl htorn
    (Settles.round (pass x s) rest i).resolution
  rw [Settles.round_append, Settles.round_append, round_eq rest i]
  simp only [Settles.round_cons, Settles.round_nil, pass_of_plan hp hpb, pass_of_plan hq hqb, rolled, if_pos hids,
    if_pos hjs, evidence_of_ne hu, settle_of_ne hu]
  exact ⟨hfirst, hlast⟩

/-- **Roll-ups come to the same in every order exactly where nothing is torn.** -/
theorem converges_iff (x : Outside) (s : Store) (paths : List Text) :
    Converges x s paths ↔ ∀ p ∈ paths, ∀ q ∈ paths, ¬ TornBetween x s p q := by
  constructor
  · rintro h p hp q hq ⟨ids, js, u, hplan, hpb, hplan', hu, hqb, item, hids, hjs, htorn⟩
    have hne : q ≠ p := by
      rintro rfl
      rw [hplan] at hplan'
      cases hplan'
      exact hu rfl
    obtain ⟨i, hi⟩ : ∃ i, s.item? item = some i := by
      obtain ⟨_, -, hunits⟩ := Tx.bind_eq_ok.mp hplan
      obtain ⟨_, hunits, heq⟩ := Tx.map_eq_ok.mp hunits
      cases heq
      exact units_exist hunits item hids
    obtain ⟨hmem, rfl⟩ := Table.find?_eq_some.mp hi
    -- the two in either order, after the others
    have hrest := (List.perm_cons_erase hp).trans
      ((List.perm_cons_erase ((List.mem_erase_of_ne hne).mpr hq)).cons p)
    generalize (paths.erase p).erase q = rest at hrest
    have horder : paths.Perm (rest ++ [p, q]) := hrest.trans (@List.perm_append_comm _ [p, q] rest)
    have horder' : paths.Perm (rest ++ [q, p]) := horder.trans ((List.Perm.swap q p []).append_left rest)
    have hsame := (h _ horder).1.trans (h _ horder').1.symm
    obtain ⟨log, hround⟩ := rollAll_eq x s (rest ++ [p, q])
    obtain ⟨log', hround'⟩ := rollAll_eq x s (rest ++ [q, p])
    rw [hround, hround', items_resolved_eq] at hsame
    obtain ⟨hsuccess, hunresolved⟩ := round_torn hplan hpb hplan' hu hqb hids hjs htorn rest
    cases hsuccess.symm.trans ((hsame i hmem).trans hunresolved)
  · intro h order horder
    have hsettles := settles_pass h
    obtain ⟨log, hround⟩ := rollAll_eq x s paths
    obtain ⟨log', hround'⟩ := rollAll_eq x s order
    constructor
    · rw [hround, hround', items_resolved_eq]
      exact fun i _ => congrArg (fun i : ItemRow => i.resolution)
        (hsettles.round_perm horder.symm (fun p hp => horder.mem_iff.mpr hp) i)
    · rw [hround]
      obtain ⟨log'', hagain⟩ := rollAll_resolved (x := x)
        (fun i hi hdesign => round_design hi hdesign paths) log order
      rw [hagain, items_resolved_eq]
      intro i _
      rw [← round_eq, hsettles.round_round (fun _ hp => hp) fun p hp => horder.mem_iff.mpr hp]

end Jkb.Investigation
