import Jkb.Fsm.Check
import Mathlib.Data.List.Nodup

/-!
# Jkb.Fsm.Order

A table without two rows for one state and event does not depend on the order of its rows, and what
`reconcile` fires is the one row that applies: `apply` finds, by position, the row that `reconcile`
chose by scanning.
-/

namespace Jkb.Fsm

variable {S E C X : Type}

/-- The pair a row declares. -/
def Transition.key (t : Transition S E C X) : S × E := (t.src, t.event)

/-- Two reconciliations that differ at most in the order of the events they cannot choose between. -/
def Reconciliation.Same : Reconciliation S E X → Reconciliation S E X → Prop
  | .settled, .settled => True
  | .fired o, .fired o' => o = o'
  | .ambiguous es, .ambiguous es' => es.Perm es'
  | _, _ => False

/-- A row that applies where the object is: a reconciliation to a state the table names, which its
guard allows. -/
structure Allowed [Event E] [Stateful S C] (m : Machine S E C X) (ctx : C)
    (t : Transition S E C X) (dst : S) : Prop where
  mem : t ∈ m.transitions
  src : t.src = Stateful.state ctx
  kind : Event.kind t.event = .reconciled
  dest : t.dest = .to dst
  guard : ∀ g, t.guard = some g → g ctx = .allow

namespace Machine

/-- Whether a row leaves the object where it is. -/
def stays [DecidableEq S] [Stateful S C] (ctx : C) (t : Transition S E C X) : Bool :=
  resolve t.dest ctx = .to (Stateful.state ctx)

theorem stays_eq [DecidableEq S] [Stateful S C] [Event E] {m : Machine S E C X} {ctx : C}
    {t : Transition S E C X} {dst : S} (h : Allowed m ctx t dst) :
    stays ctx t = decide (dst = Stateful.state ctx) := by
  simp [stays, h.dest, resolve]

variable [DecidableEq S] {m m' : Machine S E C X}

/-! ## the rows that apply -/

section Candidates

variable [Event E] [Stateful S C]

theorem mem_candidates {ctx : C} {t : Transition S E C X} :
    t ∈ m.candidates ctx ↔ ∃ dst, Allowed m ctx t dst := by
  simp only [candidates, List.mem_filter, Bool.and_eq_true, decide_eq_true_eq]
  constructor
  · rintro ⟨hmem, ⟨⟨hsrc, hkind⟩, hto⟩, hallow⟩
    have hguard : ∀ g, t.guard = some g → g ctx = .allow := by
      intro g hg
      rw [hg] at hallow
      cases hv : g ctx with
      | allow => rfl
      | deny d => simp [hv] at hallow
    match hdest : t.dest with
    | .to dst => exact ⟨dst, hmem, hsrc, hkind, hdest, hguard⟩
    | .stated pick among => simp [hdest] at hto
  · rintro ⟨dst, hmem, hsrc, hkind, hdest, hguard⟩
    refine ⟨hmem, ⟨⟨hsrc, hkind⟩, by rw [hdest]⟩, ?_⟩
    cases hg : t.guard with
    | none => rfl
    | some g => simp [hguard g hg]

/-- A list of events that is one event comes of one row. -/
theorem exists_of_events {p : Transition S E C X → Bool} {ctx : C} {e : E}
    (h : ((m.candidates ctx).filter p).map (·.event) = [e]) :
    ∃ t dst, t.event = e ∧ p t = true ∧ Allowed m ctx t dst ∧
      ∀ t' dst', Allowed m ctx t' dst' → p t' = true → t' = t := by
  obtain ⟨t, hfilter, rfl⟩ := List.map_eq_singleton_iff.mp h
  have ht : t ∈ (m.candidates ctx).filter p := by
    rw [hfilter]
    exact List.mem_singleton_self t
  obtain ⟨hcand, hp⟩ := List.mem_filter.mp ht
  obtain ⟨dst, hallowed⟩ := mem_candidates.mp hcand
  refine ⟨t, dst, rfl, hp, hallowed, fun t' dst' h' hp' => ?_⟩
  have hmem : t' ∈ (m.candidates ctx).filter p :=
    List.mem_filter.mpr ⟨mem_candidates.mpr ⟨dst', h'⟩, hp'⟩
  rw [hfilter] at hmem
  exact List.mem_singleton.mp hmem

end Candidates

/-! ## one row for a state and an event -/

variable [DecidableEq E]

section Row

variable (hkeys : (m.transitions.map Transition.key).Nodup)
include hkeys

/-- **The row that is found is the row that is there**, wherever in the table it stands. -/
theorem row_eq_some {s : S} {e : E} {t : Transition S E C X} :
    m.row s e = some t ↔ t ∈ m.transitions ∧ t.src = s ∧ t.event = e := by
  have huniq : ∀ t₁ ∈ m.transitions, ∀ t₂ ∈ m.transitions, t₁.key = t₂.key → t₁ = t₂ :=
    fun t₁ h₁ t₂ h₂ => List.inj_on_of_nodup_map hkeys h₁ h₂
  constructor
  · intro h
    have hkey := List.find?_some h
    simp only [decide_eq_true_eq] at hkey
    exact ⟨List.mem_of_find?_eq_some h, hkey⟩
  · rintro ⟨hmem, rfl, rfl⟩
    cases hrow : m.row t.src t.event with
    | none =>
        have hnone := List.find?_eq_none.mp hrow t hmem
        simp at hnone
    | some t' =>
        have hkey := List.find?_some hrow
        simp only [decide_eq_true_eq] at hkey
        rw [huniq t' (List.mem_of_find?_eq_some hrow) t hmem (Prod.ext hkey.1 hkey.2)]

variable (hperm : m.transitions.Perm m'.transitions)
include hperm

theorem row_perm (s : S) (e : E) : m.row s e = m'.row s e := by
  have hkeys' : (m'.transitions.map Transition.key).Nodup := (hperm.map _).nodup_iff.mp hkeys
  refine Option.ext fun t => ?_
  rw [row_eq_some hkeys, row_eq_some hkeys', hperm.mem_iff]

theorem accepts_perm (s : S) (e : E) : m.accepts s e = m'.accepts s e := by
  have hland : (m.landingHere s e).Perm (m'.landingHere s e) := hperm.filter _
  have hnil : m.landingHere s e ≠ [] ↔ m'.landingHere s e ≠ [] := by
    rw [ne_eq, ne_eq, ← List.length_eq_zero_iff, ← List.length_eq_zero_iff, hland.length_eq]
  unfold accepts
  rw [row_perm hkeys hperm]
  simp only [hnil, hland.all_eq]

end Row

variable [Event E]

theorem keys_of_rowDefects {seen : List (S × E)} {rows : List (Transition S E C X)} :
    (∀ src event, Defect.nondeterministic src event ∉ rowDefects seen rows) ↔
      (rows.map Transition.key).Nodup ∧ ∀ t ∈ rows, t.key ∉ seen := by
  induction rows generalizing seen with
  | nil => simp [rowDefects]
  | cons t rows ih =>
      have hsplit : (∀ src event, Defect.nondeterministic src event ∉ rowDefects seen (t :: rows)) ↔
          t.key ∉ seen ∧ ∀ src event, Defect.nondeterministic src event ∉
            rowDefects (t.key :: seen) rows := by
        have hguard : ∀ src event, (Defect.nondeterministic src event : Defect S E) ∉
            (if Event.kind t.event = .reconciled ∧ t.guard.isNone then
              [.unguardedReconciliation t.src t.event] else []) := by
          intro src event
          split <;> simp
        simp only [rowDefects, List.mem_append, hguard, or_false, not_or, forall_and]
        refine and_congr_left fun _ => ?_
        by_cases hmem : (t.src, t.event) ∈ seen <;> simp [hmem, Transition.key]
      rw [hsplit, ih, List.map_cons, List.nodup_cons]
      grind

/-- **A table without a nondeterministic row declares no pair twice.** -/
theorem keys_nodup_iff [State S] : (∀ src event, Defect.nondeterministic src event ∉ m.check) ↔
    (m.transitions.map Transition.key).Nodup := by
  have hcheck : ∀ src event, Defect.nondeterministic src event ∈ m.check ↔
      .nondeterministic src event ∈ rowDefects ([] : List (S × E)) m.transitions := by
    intro src event
    have hverb : .nondeterministic src event ∉ m.unrepeatable [] m.transitions := fun h => by
      obtain ⟨_, _, h⟩ := mem_unrepeatable h
      cases h
    have hrest : ∀ (p : Prop) [Decidable p] (q : S → Bool),
        .nondeterministic src event ∉ (if p then [.noSettledState]
          else ((State.all : List S).filter q).map (Defect.wedged : S → Defect S E)) := by
      intro p _ q
      split <;> simp
    simp only [check, List.mem_append, hverb, hrest, or_false]
    simp
  simp only [hcheck, keys_of_rowDefects]
  simp

variable [State S] [Stateful S C]

/-! ## asking and reconciling -/

theorem apply_perm (hkeys : (m.transitions.map Transition.key).Nodup)
    (hperm : m.transitions.Perm m'.transitions) (ctx : C) (e : E) : m.apply ctx e = m'.apply ctx e := by
  simp only [apply, row_perm hkeys hperm, accepts_perm hkeys hperm]

/-- Asking for the event of a row that applies takes that row. -/
theorem apply_of_allowed (hkeys : (m.transitions.map Transition.key).Nodup) {ctx : C}
    {t : Transition S E C X} {dst : S} (h : Allowed m ctx t dst) :
    m.apply ctx t.event =
      .moved (Stateful.state ctx) t.event dst ((t.plan.map fun p => p ctx).getD []) := by
  have hrow := (row_eq_some hkeys).mpr ⟨h.mem, h.src, rfl⟩
  have hallow : (t.guard.map fun g => g ctx).getD .allow = .allow := by
    cases hg : t.guard with
    | none => rfl
    | some g => exact h.guard g hg
  simp only [apply, hrow, hallow, h.dest, resolve]

theorem reconcile_eq (m : Machine S E C X) (ctx : C) : m.reconcile ctx =
    match ((m.candidates ctx).filter fun t => !stays ctx t).map (·.event),
      ((m.candidates ctx).filter (stays ctx)).map (·.event) with
    | [], [] => .settled
    | [], [e] => .fired (m.apply ctx e)
    | [e], _ => .fired (m.apply ctx e)
    | [], loops => .ambiguous loops
    | moves, _ => .ambiguous moves := rfl

/-- **What is fired is the one row that applies**: the only one that changes the state, or where none
does, the only one. -/
theorem reconcile_fired (hkeys : (m.transitions.map Transition.key).Nodup) {ctx : C}
    {o : Outcome S E X} (h : m.reconcile ctx = .fired o) :
    ∃ t dst, Allowed m ctx t dst ∧
      o = .moved (Stateful.state ctx) t.event dst ((t.plan.map fun p => p ctx).getD []) ∧
      ((dst ≠ Stateful.state ctx ∧
          ∀ t' dst', Allowed m ctx t' dst' → dst' ≠ Stateful.state ctx → t' = t) ∨
        (dst = Stateful.state ctx ∧ (∀ t' dst', Allowed m ctx t' dst' → dst' = Stateful.state ctx) ∧
          ∀ t' dst', Allowed m ctx t' dst' → t' = t)) := by
  rw [reconcile_eq] at h
  split at h
  · cases h
  · rename_i e hmoves hloops
    obtain rfl := Reconciliation.fired.inj h
    obtain ⟨t, dst, rfl, hstays, hallowed, honly⟩ := exists_of_events hloops
    have hall : ∀ t' dst', Allowed m ctx t' dst' → dst' = Stateful.state ctx := by
      intro t' dst' h'
      by_contra hne
      have hmem : t' ∈ (m.candidates ctx).filter fun t => !stays ctx t :=
        List.mem_filter.mpr ⟨mem_candidates.mpr ⟨dst', h'⟩, by simp [stays_eq h', hne]⟩
      rw [List.map_eq_nil_iff.mp hmoves] at hmem
      cases hmem
    exact ⟨t, dst, hallowed, apply_of_allowed hkeys hallowed, Or.inr ⟨hall t dst hallowed, hall,
      fun t' dst' h' => honly t' dst' h' (by simp [stays_eq h', hall t' dst' h'])⟩⟩
  · rename_i e hmoves
    obtain rfl := Reconciliation.fired.inj h
    obtain ⟨t, dst, rfl, hstays, hallowed, honly⟩ := exists_of_events hmoves
    refine ⟨t, dst, hallowed, apply_of_allowed hkeys hallowed, Or.inl ⟨?_, fun t' dst' h' hne => ?_⟩⟩
    · simpa [stays_eq hallowed] using hstays
    · exact honly t' dst' h' (by simp [stays_eq h', hne])
  · cases h
  · cases h

theorem reconcile_perm (hkeys : (m.transitions.map Transition.key).Nodup)
    (hperm : m.transitions.Perm m'.transitions) (ctx : C) :
    (m.reconcile ctx).Same (m'.reconcile ctx) := by
  have hcand : (m.candidates ctx).Perm (m'.candidates ctx) := hperm.filter _
  have hmoves := (hcand.filter fun t => !stays ctx t).map (·.event)
  have hloops := (hcand.filter (stays ctx)).map (·.event)
  have hfire := apply_perm hkeys hperm ctx
  rw [reconcile_eq, reconcile_eq]
  generalize ((m.candidates ctx).filter fun t => !stays ctx t).map (·.event) = moves at hmoves ⊢
  generalize ((m'.candidates ctx).filter fun t => !stays ctx t).map (·.event) = moves' at hmoves ⊢
  generalize ((m.candidates ctx).filter (stays ctx)).map (·.event) = loops at hloops ⊢
  generalize ((m'.candidates ctx).filter (stays ctx)).map (·.event) = loops' at hloops ⊢
  match moves, loops with
  | [], [] =>
      obtain rfl := hmoves.nil_eq
      obtain rfl := hloops.nil_eq
      trivial
  | [], [e] =>
      obtain rfl := hmoves.nil_eq
      obtain rfl := List.singleton_perm.mp hloops
      exact hfire e
  | [e], _ =>
      obtain rfl := List.singleton_perm.mp hmoves
      exact hfire e
  | [], a :: b :: rest =>
      obtain rfl := hmoves.nil_eq
      match loops', hloops.length_eq with
      | a' :: b' :: rest', _ => exact hloops
  | a :: b :: rest, _ =>
      match moves', hmoves.length_eq with
      | a' :: b' :: rest', _ => exact hmoves

/-- **A table without a nondeterministic row does not depend on its order**, and what its
reconciliation fires is the one row that applies. -/
theorem order_independent (hdet : ∀ src event, Defect.nondeterministic src event ∉ m.check)
    (hperm : m.transitions.Perm m'.transitions) (ctx : C) :
    (∀ s e, m.accepts s e = m'.accepts s e) ∧ (∀ e, m.apply ctx e = m'.apply ctx e) ∧
    (m.reconcile ctx).Same (m'.reconcile ctx) ∧
    ∀ o, m.reconcile ctx = .fired o → ∃ t dst, Allowed m ctx t dst ∧
      o = .moved (Stateful.state ctx) t.event dst ((t.plan.map fun p => p ctx).getD []) ∧
      ((dst ≠ Stateful.state ctx ∧
          ∀ t' dst', Allowed m ctx t' dst' → dst' ≠ Stateful.state ctx → t' = t) ∨
        (dst = Stateful.state ctx ∧ (∀ t' dst', Allowed m ctx t' dst' → dst' = Stateful.state ctx) ∧
          ∀ t' dst', Allowed m ctx t' dst' → t' = t)) :=
  ⟨accepts_perm (keys_nodup_iff.mp hdet) hperm, apply_perm (keys_nodup_iff.mp hdet) hperm ctx,
    reconcile_perm (keys_nodup_iff.mp hdet) hperm ctx, fun _ h => reconcile_fired (keys_nodup_iff.mp hdet) h⟩

end Machine

end Jkb.Fsm
