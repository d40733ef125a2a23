import Mathlib.Order.Lattice.Nat

/-!
# Jkb.FirstFree

Counting up to a free name. Names are numbered, and some are taken. `Ends` is the loop that tries one number after
another and stops at the first whose name is free; it ends wherever only finitely many names are taken.

Where all names from one number to another are taken, the loop may start at either (`Ends.resume`): a search that
remembers where the last one stopped finds what a search from the start does, as long as no name is given up.
-/

namespace Jkb.FirstFree

variable {α : Type*} (taken : Set α) (name : Nat → α)

/-- The loop that starts at one number ends at another. -/
inductive Ends : Nat → Nat → Prop
  | stop {n : Nat} (h : name n ∉ taken) : Ends n n
  | again {n m : Nat} (h : name n ∈ taken) (hrest : Ends (n + 1) m) : Ends n m

/-- All names from one number up to another are taken. -/
def Passed (n m : Nat) : Prop := ∀ k, n ≤ k → k < m → name k ∈ taken

variable {taken name} {n m k : Nat}

theorem Passed.refl (n : Nat) : Passed taken name n n := fun _ hn hk => absurd hk (Nat.not_lt.mpr hn)

theorem Passed.mono {taken' : Set α} (h : Passed taken name n m) (hsub : taken ⊆ taken') : Passed taken' name n m :=
  fun k hn hk => hsub (h k hn hk)

theorem Passed.trans (h : Passed taken name n m) (h' : Passed taken name m k) : Passed taken name n k := by
  intro j hn hk
  rcases Nat.lt_or_ge j m with hm | hm
  · exact h j hn hm
  · exact h' j hm hk

/-- One name more is taken. -/
theorem Passed.succ (h : Passed taken name n m) (hm : name m ∈ taken) : Passed taken name n (m + 1) := by
  refine h.trans fun k hmk hk => ?_
  obtain rfl : k = m := by omega
  exact hm

/-- **Where the loop ends**: at a number from its start on whose name is free, past taken ones. -/
theorem ends_iff : Ends taken name n m ↔ n ≤ m ∧ name m ∉ taken ∧ Passed taken name n m := by
  constructor
  · intro h
    induction h with
    | stop h => exact ⟨Nat.le_refl _, h, Passed.refl _⟩
    | @again n m h _ ih =>
        obtain ⟨hle, hfree, hpassed⟩ := ih
        exact ⟨by omega, hfree, ((Passed.refl n).succ h).trans hpassed⟩
  · rintro ⟨hle, hfree, hpassed⟩
    induction hle using Nat.decreasingInduction with
    | self => exact .stop hfree
    | of_succ k hk ih =>
        exact .again (hpassed k (Nat.le_refl k) hk) (ih fun j hj => hpassed j (by omega))

/-- The loop ends at the least free number. -/
theorem Ends.isLeast (h : Ends taken name n m) : IsLeast {k | n ≤ k ∧ name k ∉ taken} m := by
  obtain ⟨hle, hfree, hpassed⟩ := ends_iff.mp h
  refine ⟨⟨hle, hfree⟩, ?_⟩
  rintro k ⟨hk, hkfree⟩
  by_contra hlt
  exact hkfree (hpassed k hk (Nat.lt_of_not_le hlt))

/-- **The loop may start wherever only taken names were passed.** -/
theorem Ends.resume (hle : n ≤ m) (hpassed : Passed taken name n m) (h : Ends taken name m k) :
    Ends taken name n k := by
  obtain ⟨hmk, hfree, hrest⟩ := ends_iff.mp h
  exact ends_iff.mpr ⟨hle.trans hmk, hfree, hpassed.trans hrest⟩

end Jkb.FirstFree
