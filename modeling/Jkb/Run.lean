import Mathlib.Data.List.Basic
import Mathlib.Logic.Relation

/-!
# Jkb.Run

Runs of a total step function, the shape every component of the store is driven in: one writer, one
operation at a time. A refused operation is an ordinary step that changes nothing, so a run is a
fold and needs no side condition on its operations.

The rules here are the ones a safety argument uses. `run_invariant` carries a property of states,
`run_rel` a relation from the first state to the last, and `run_until` a property that may end, at a
step that the caller names.
-/

namespace Jkb.Run

variable {σ ω : Type*} (next : σ → ω → σ)

/-- The state after a list of operations. -/
def run (s : σ) (ops : List ω) : σ := ops.foldl next s

@[simp] theorem run_nil (s : σ) : run next s [] = s := rfl

@[simp] theorem run_cons (s : σ) (o : ω) (ops : List ω) :
    run next s (o :: ops) = run next (next s o) ops := rfl

@[simp] theorem run_append (s : σ) (xs ys : List ω) :
    run next s (xs ++ ys) = run next (run next s xs) ys := by
  simp [run]

/-- Every state of a run, its first and its last included, satisfies `P`. -/
def Throughout (P : σ → Prop) : σ → List ω → Prop
  | s, [] => P s
  | s, o :: ops => P s ∧ Throughout P (next s o) ops

/-- Every step of a run satisfies `P` at the state it is taken in. -/
def EveryStep (P : σ → ω → Prop) : σ → List ω → Prop
  | _, [] => True
  | s, o :: ops => P s o ∧ EveryStep P (next s o) ops

/-- Whether every step does, where it can be said of one. -/
instance everyStepDecidable {P : σ → ω → Prop} [∀ s o, Decidable (P s o)] : ∀ s ops, Decidable (EveryStep next P s ops)
  | _, [] => .isTrue trivial
  | s, o :: ops => @instDecidableAnd _ _ _ (everyStepDecidable (next s o) ops)

/-- The state in which a run last came to satisfy `p`. -/
def lastEntry (p : σ → Bool) : σ → List ω → Option σ
  | _, [] => none
  | s, o :: ops =>
      (lastEntry p (next s o) ops).or (if !p s && p (next s o) then some (next s o) else none)

variable {next}

/-- One step more is the last entry if it is one. -/
theorem lastEntry_concat (p : σ → Bool) (s : σ) (ops : List ω) (o : ω) :
    lastEntry next p s (ops ++ [o]) =
      (if !p (run next s ops) && p (next (run next s ops) o) then some (next (run next s ops) o)
        else none).or (lastEntry next p s ops) := by
  induction ops generalizing s with
  | nil => simp [lastEntry]
  | cons o' ops ih =>
      rw [List.cons_append, lastEntry, ih, run_cons, lastEntry, Option.or_assoc]

/-- Steps that satisfy the same property make the same runs. -/
theorem everyStep_congr {P Q : σ → ω → Prop} (h : ∀ s o, P s o ↔ Q s o) (s : σ) (ops : List ω) :
    EveryStep next P s ops ↔ EveryStep next Q s ops := by
  induction ops generalizing s with
  | nil => rfl
  | cons o ops ih => simp only [EveryStep, h, ih]

/-- The steps of a run are those of its parts. -/
theorem everyStep_append {P : σ → ω → Prop} (s : σ) (xs ys : List ω) :
    EveryStep next P s (xs ++ ys) ↔ EveryStep next P s xs ∧ EveryStep next P (run next s xs) ys := by
  induction xs generalizing s with
  | nil => simp [EveryStep]
  | cons o xs ih => simp only [List.cons_append, EveryStep, ih, run_cons, and_assoc]

/-- A property that every step keeps is kept by a run. -/
theorem run_invariant {Inv : σ → Prop} (hstep : ∀ s o, Inv s → Inv (next s o))
    {s : σ} (hs : Inv s) (ops : List ω) : Inv (run next s ops) := by
  induction ops generalizing s with
  | nil => exact hs
  | cons o ops ih => exact ih (hstep s o hs)

/-- A property that every step of a run keeps is kept by the run. -/
theorem run_invariant_of_everyStep {Inv : σ → Prop} {P : σ → ω → Prop}
    (hstep : ∀ s o, P s o → Inv s → Inv (next s o)) {s : σ} {ops : List ω}
    (hops : EveryStep next P s ops) (hs : Inv s) : Inv (run next s ops) := by
  induction ops generalizing s with
  | nil => exact hs
  | cons o ops ih => exact ih hops.2 (hstep s o hops.1 hs)

/-- A reflexive, transitive relation that every step stays in relates the ends of a run. -/
theorem run_rel {R : σ → σ → Prop} (hrefl : ∀ s, R s s) (htrans : ∀ a b c, R a b → R b c → R a c)
    (hstep : ∀ s o, R s (next s o)) (s : σ) (ops : List ω) : R s (run next s ops) := by
  induction ops generalizing s with
  | nil => exact hrefl s
  | cons o ops ih => exact htrans _ _ _ (hstep s o) (ih (next s o))

theorem Throughout.first {P : σ → Prop} {s : σ} {ops : List ω}
    (h : Throughout next P s ops) : P s := by
  cases ops with
  | nil => exact h
  | cons o ops => exact h.1

/-- **A property and the steps that keep it.** Where a step leaves a property if and only if it is of a kind,
the property holds throughout the runs of steps of that kind, and of no others. -/
theorem throughout_iff_everyStep {P : σ → Prop} {Q : σ → ω → Prop}
    (hstep : ∀ s o, P s → (P (next s o) ↔ Q s o)) {s : σ} (hs : P s) (ops : List ω) :
    Throughout next P s ops ↔ EveryStep next Q s ops := by
  induction ops generalizing s with
  | nil => exact iff_of_true hs trivial
  | cons o ops ih =>
      constructor
      · rintro ⟨-, h⟩
        exact ⟨(hstep s o hs).mp h.first, (ih h.first).mp h⟩
      · rintro ⟨ho, h⟩
        exact ⟨hs, (ih ((hstep s o hs).mpr ho)).mpr h⟩

/-- **A property kept until a named step.** Along a run whose every state satisfies `P`, a property
`Q` that only a step marked `Ends` may break still holds at the end, unless the run has such a
step: then the run up to it is named, and `Q` held there. -/
theorem run_until {Inv P Q : σ → Prop} {Ends : σ → ω → Prop}
    (hinv : ∀ s o, Inv s → Inv (next s o))
    (hkeep : ∀ s o, Inv s → P s → P (next s o) → Q s → ¬ Ends s o → Q (next s o))
    {s : σ} {ops : List ω} (hs : Inv s) (hP : Throughout next P s ops) (hQ : Q s) :
    Q (run next s ops) ∨
      ∃ before o after, ops = before ++ o :: after ∧
        Q (run next s before) ∧ Ends (run next s before) o := by
  induction ops generalizing s with
  | nil => exact Or.inl hQ
  | cons o ops ih =>
      by_cases hend : Ends s o
      · exact Or.inr ⟨[], o, ops, rfl, hQ, hend⟩
      · have hQ' := hkeep s o hs hP.1 hP.2.first hQ hend
        rcases ih (hinv s o hs) hP.2 hQ' with h | ⟨before, o', after, rfl, h⟩
        · exact Or.inl h
        · exact Or.inr ⟨o :: before, o', after, rfl, h⟩

end Jkb.Run
