import Jkb.Tx

/-!
# Jkb.Twin

Two runs of one program, side by side. `Alike` says that two computations end alike: both refused for
the same reason, or both done with related answers. The rules follow the shape of a program that is
written in `Except`, so a two-run argument is made step by step, as an ordinary one is.
-/

namespace Jkb.Twin

universe u

variable {ε : Type*} {α β γ α' β' : Type u}

/-- Both refused for one reason, or both done with related answers. -/
def Alike (R : α → β → Prop) : Except ε α → Except ε β → Prop
  | .ok a, .ok b => R a b
  | .error e, .error e' => e = e'
  | _, _ => False

variable {R : α → β → Prop} {S : α' → β' → Prop} {x : Except ε α} {y : Except ε β}

theorem Alike.mono {R' : α → β → Prop} (h : Alike R x y) (hR : ∀ a b, R a b → R' a b) :
    Alike R' x y := by
  cases x with
  | error e =>
      cases y with
      | error e' => exact h
      | ok b => exact h.elim
  | ok a =>
      cases y with
      | error e' => exact h.elim
      | ok b => exact hR a b h

/-- What follows alike computations and is alike on related answers is alike. -/
theorem Alike.bind {f : α → Except ε α'} {g : β → Except ε β'} (h : Alike R x y)
    (hfg : ∀ a b, R a b → Alike S (f a) (g b)) : Alike S (x >>= f) (y >>= g) := by
  cases x with
  | error e =>
      cases y with
      | error e' => exact h
      | ok b => exact h.elim
  | ok a =>
      cases y with
      | error e' => exact h.elim
      | ok b => exact hfg a b h

/-- What follows one computation in both runs. -/
theorem Alike.bind_same {z : Except ε γ} {f : γ → Except ε α'} {g : γ → Except ε β'}
    (hfg : ∀ c, z = .ok c → Alike S (f c) (g c)) : Alike S (z >>= f) (z >>= g) := by
  cases z with
  | error e => exact rfl
  | ok c => exact hfg c rfl

/-- A guard on what the runs share. -/
theorem Alike.guard {c : Prop} [Decidable c] {e : ε} {f : γ → Except ε α} {g : γ → Except ε β}
    (h : ¬ c → Alike R x y) :
    Alike R (if c then Except.error e >>= f else x) (if c then Except.error e >>= g else y) := by
  by_cases hc : c
  · rw [if_pos hc, if_pos hc]
    exact rfl
  · rw [if_neg hc, if_neg hc]
    exact h hc

theorem Alike.map {f : α → α'} {g : β → β'} (h : Alike R x y) (hfg : ∀ a b, R a b → S (f a) (g b)) :
    Alike S (f <$> x) (g <$> y) := by
  cases x with
  | error e =>
      cases y with
      | error e' => exact h
      | ok b => exact h.elim
  | ok a =>
      cases y with
      | error e' => exact h.elim
      | ok b => exact hfg a b h

/-- Committed, alike computations leave related states, where they were taken in related states. -/
theorem Alike.commit {R : α → β → Prop} {s : α} {s' : β} (h : Alike R x y) (hs : R s s') :
    R (Tx.commit x s) (Tx.commit y s') := by
  cases x with
  | error e =>
      cases y with
      | error e' => exact hs
      | ok b => exact h.elim
  | ok a =>
      cases y with
      | error e' => exact h.elim
      | ok b => exact h

end Jkb.Twin
