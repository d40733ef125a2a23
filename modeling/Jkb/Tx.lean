import Jkb.Run
import Mathlib.Data.List.Forall2

/-!
# Jkb.Tx

Write transactions. An operation reads the store and either answers with the store it leaves or
refuses; a refusal rolls back, so the store a caller sees afterwards is the one it started from.

Operations are written in `Except`, so most of what is known about one comes from taking a chain of
binds apart: `bind_eq_ok` and its relatives do that, one step at a time.
-/

namespace Jkb.Tx

universe u

variable {ε : Type*} {α β : Type u} {σ : Type*}

theorem bind_eq_ok {x : Except ε α} {f : α → Except ε β} {b : β} :
    (x >>= f) = .ok b ↔ ∃ a, x = .ok a ∧ f a = .ok b := by
  cases x with
  | error e => simp [bind, Except.bind]
  | ok a => simp [bind, Except.bind]

theorem map_eq_ok {x : Except ε α} {f : α → β} {b : β} :
    x.map f = .ok b ↔ ∃ a, x = .ok a ∧ f a = b := by
  cases x with
  | error e => simp [Except.map]
  | ok a => simp [Except.map]

/-- The store of an answer, where the rest of it is dropped. -/
theorem map_fst_eq_ok {x : Except ε (α × β)} {a : α} (h : Prod.fst <$> x = .ok a) :
    ∃ b, x = .ok (a, b) := by
  cases x with
  | error e => contradiction
  | ok r =>
      cases h
      exact ⟨r.2, rfl⟩

/-- A guard that refuses: what follows it runs only where it does not hold. -/
theorem guard_eq_ok {c : Prop} [Decidable c] {e : ε} {f : α → Except ε β} {x : Except ε β} {b : β} :
    (if c then Except.error e >>= f else x) = .ok b ↔ ¬ c ∧ x = .ok b := by
  by_cases h : c <;> simp [h, bind, Except.bind]

/-- A traversal succeeds with what its steps succeed with, one for one. -/
theorem mapM_eq_ok {γ : Type*} {f : γ → Except ε β} {xs : List γ} {ys : List β} :
    xs.mapM f = .ok ys ↔ List.Forall₂ (fun x y => f x = .ok y) xs ys := by
  induction xs generalizing ys with
  | nil =>
      rw [List.forall₂_nil_left_iff]
      exact ⟨fun h => (Except.ok.inj h).symm, fun h => h ▸ rfl⟩
  | cons x xs ih =>
      rw [List.mapM_cons, bind_eq_ok, List.forall₂_cons_left_iff]
      constructor
      · rintro ⟨y, hy, h⟩
        obtain ⟨rest, hrest, h⟩ := bind_eq_ok.mp h
        exact ⟨y, rest, hy, ih.mp hrest, (Except.ok.inj h).symm⟩
      · rintro ⟨y, rest, hy, hrest, rfl⟩
        exact ⟨y, hy, bind_eq_ok.mpr ⟨rest, ih.mpr hrest, rfl⟩⟩

/-- What stands in the second of two lists that are related one for one is related to something in the
first. -/
theorem exists_of_forall₂ {γ δ : Type*} {R : γ → δ → Prop} {xs : List γ} {ys : List δ}
    (h : List.Forall₂ R xs ys) : ∀ y ∈ ys, ∃ x ∈ xs, R x y := by
  induction h with
  | nil => exact fun y hy => absurd hy List.not_mem_nil
  | cons hxy _ ih =>
      intro y hy
      rcases List.mem_cons.mp hy with rfl | hy
      · exact ⟨_, List.mem_cons_self, hxy⟩
      · obtain ⟨x, hx, hR⟩ := ih y hy
        exact ⟨x, List.mem_cons_of_mem _ hx, hR⟩

/-- Of two lists that are related one for one, what holds of the pairs holds where it does of the first list. -/
theorem forall₂_iff {γ δ : Type*} {R P : γ → δ → Prop} {q : γ → Prop} {xs : List γ} {ys : List δ}
    (h : List.Forall₂ R xs ys) (hq : ∀ x y, R x y → (P x y ↔ q x)) : List.Forall₂ P xs ys ↔ ∀ x ∈ xs, q x := by
  induction h with
  | nil => exact ⟨fun _ _ hx => absurd hx List.not_mem_nil, fun _ => .nil⟩
  | cons hxy _ ih => rw [List.forall₂_cons, List.forall_mem_cons, hq _ _ hxy, ih]

/-- Of two lists that are related one for one, what holds of the one holds of the other. -/
theorem forall_iff_of_forall₂ {γ δ : Type*} {R : γ → δ → Prop} {p : γ → Prop} {q : δ → Prop} {xs : List γ}
    {ys : List δ} (h : List.Forall₂ R xs ys) (hpq : ∀ x y, x ∈ xs → R x y → (p x ↔ q y)) :
    (∀ x ∈ xs, p x) ↔ ∀ y ∈ ys, q y := by
  induction h with
  | nil => simp
  | cons hxy _ ih =>
      rw [List.forall_mem_cons, List.forall_mem_cons, hpq _ _ List.mem_cons_self hxy,
        ih fun x y hx => hpq x y (List.mem_cons_of_mem _ hx)]

/-- What a traversal that succeeds gathers. -/
theorem mem_of_mapM {γ : Type*} {f : γ → Except ε β} {xs : List γ} {ys : List β}
    (h : xs.mapM f = .ok ys) : ∀ y ∈ ys, ∃ x ∈ xs, f x = .ok y :=
  exists_of_forall₂ (mapM_eq_ok.mp h)

/-- A traversal that succeeds gathers something from each element. -/
theorem exists_mem_of_mapM {γ : Type*} {f : γ → Except ε β} {xs : List γ} {ys : List β}
    (h : xs.mapM f = .ok ys) : ∀ x ∈ xs, ∃ y ∈ ys, f x = .ok y :=
  exists_of_forall₂ (R := fun y x => f x = .ok y) (List.Forall₂.flip (mapM_eq_ok.mp h))

/-- A traversal whose steps all succeed succeeds. -/
theorem exists_mapM {γ : Type*} {f : γ → Except ε β} {xs : List γ} (h : ∀ x ∈ xs, ∃ y, f x = .ok y) :
    ∃ ys, xs.mapM f = .ok ys := by
  simp only [mapM_eq_ok]
  induction xs with
  | nil => exact ⟨[], .nil⟩
  | cons x xs ih =>
      obtain ⟨y, hy⟩ := h x List.mem_cons_self
      obtain ⟨ys, hys⟩ := ih fun z hz => h z (List.mem_cons_of_mem _ hz)
      exact ⟨y :: ys, .cons hy hys⟩

/-- A check of every element succeeds if it does of each. -/
theorem forM_eq_ok {γ : Type*} {f : γ → Except ε PUnit} {xs : List γ} :
    xs.forM f = .ok ⟨⟩ ↔ ∀ x ∈ xs, f x = .ok ⟨⟩ := by
  induction xs with
  | nil => exact ⟨fun _ _ hx => absurd hx List.not_mem_nil, fun _ => rfl⟩
  | cons x xs ih =>
      rw [List.forall_mem_cons, ← ih]
      constructor
      · intro h
        obtain ⟨⟨⟩, hx, hxs⟩ := bind_eq_ok.mp h
        exact ⟨hx, hxs⟩
      · rintro ⟨hx, hxs⟩
        exact bind_eq_ok.mpr ⟨⟨⟩, hx, hxs⟩

/-- What every step of a fold keeps, a fold that succeeds keeps. -/
theorem foldlM_invariant {γ : Type*} {f : β → γ → Except ε β} {P : β → Prop} {xs : List γ} {b b' : β}
    (hstep : ∀ x ∈ xs, ∀ b b', P b → f b x = .ok b' → P b') (hb : P b) (h : xs.foldlM f b = .ok b') : P b' := by
  induction xs generalizing b with
  | nil => exact Except.ok.inj h ▸ hb
  | cons x xs ih =>
      rw [List.foldlM_cons] at h
      obtain ⟨c, hc, h⟩ := bind_eq_ok.mp h
      exact ih (fun y hy => hstep y (List.mem_cons_of_mem x hy)) (hstep x List.mem_cons_self b c hb hc) h

/-- What the step at one element brings about, and every step keeps, holds after a fold that succeeds. -/
theorem foldlM_of_mem {γ : Type*} {f : β → γ → Except ε β} {Q : β → Prop} {xs : List γ} {x : γ} {b b' : β}
    (hx : x ∈ xs) (hat : ∀ b b', f b x = .ok b' → Q b') (hstep : ∀ y ∈ xs, ∀ b b', Q b → f b y = .ok b' → Q b')
    (h : xs.foldlM f b = .ok b') : Q b' := by
  induction xs generalizing b with
  | nil => exact absurd hx List.not_mem_nil
  | cons y xs ih =>
      rw [List.foldlM_cons] at h
      obtain ⟨c, hc, hxs⟩ := bind_eq_ok.mp h
      have hrest : ∀ z ∈ xs, ∀ b b', Q b → f b z = .ok b' → Q b' := fun z hz => hstep z (List.mem_cons_of_mem y hz)
      rcases List.mem_cons.mp hx with rfl | hx
      · exact foldlM_invariant hrest (hat b c hc) hxs
      · exact ih hx hrest hxs

/-- Commit an operation's outcome: the store it leaves, or the one it was given when it refused. -/
def commit (x : Except ε σ) (s : σ) : σ :=
  match x with
  | .ok s' => s'
  | .error _ => s

/-- What holds of every success and of doing nothing holds of a commit. -/
theorem commit_rel {R : σ → σ → Prop} {x : Except ε σ} {s : σ} (hrefl : R s s)
    (hok : ∀ s', x = .ok s' → R s s') : R s (commit x s) := by
  cases x with
  | error e => exact hrefl
  | ok s' => exact hok s' rfl

end Jkb.Tx
