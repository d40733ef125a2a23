import Jkb.FirstFree
import Jkb.Run
import Jkb.Sync.Tasks.Parse

/-!
# Jkb.Sync.Tasks.Taken

The table of names taken within a file remembers, per base, the suffix to try next, and counts up from there. What it
answers is what a table without that memory does, which counts up from 2 every time (`unique_countsUp`): names are only
ever added, so every suffix that a base has passed stays taken (`Kept`), whatever other bases and claims put in.
-/

namespace Jkb.Sync.Tasks.Taken

open Jkb.Text Jkb.FirstFree

/-! ## calls -/

/-- A call of the table. -/
inductive Call where
  | claim (name : Text)
  | unique (base : Text)
deriving Repr, DecidableEq

/-- What a call answers. -/
inductive Answer where
  | claimed (free : Bool)
  | name (name : Text)
deriving Repr, DecidableEq

/-- Carry out a call. -/
def Call.run (taken : Taken) : Call → Answer × Taken
  | .claim name => (.claimed (taken.claim name).1, (taken.claim name).2)
  | .unique base => (.name (taken.unique base).1, (taken.unique base).2)

/-- The table after a call. -/
def step (taken : Taken) (c : Call) : Taken := (c.run taken).2

/-- The table of a file after a sequence of calls. -/
def after (calls : List Call) : Taken := Run.run step {} calls

/-- What a sequence of calls answers. -/
def answers {σ : Type*} (run : σ → Call → Answer × σ) : σ → List Call → List Answer
  | _, [] => []
  | s, c :: calls => (run s c).1 :: answers run (run s c).2 calls

/-! ## counting up -/

section CountUp

open scoped Classical

/-- The name that counting up from 2 finds for a base. -/
noncomputable def counted (taken : Set Text) (base : Text) : Text :=
  if base ∈ taken then suffixed base (sInf {n | 2 ≤ n ∧ suffixed base n ∉ taken}) else base

/-- Carry out a call on the names alone. -/
noncomputable def count (taken : Set Text) : Call → Answer × Set Text
  | .claim name => (.claimed (decide (name ∉ taken)), insert name taken)
  | .unique base => (.name (counted taken base), insert (counted taken base) taken)

end CountUp

/-! ## what is kept -/

/-- The names that are taken. -/
def taken (t : Taken) : Set Text := {x | x ∈ t.names}

/-- **Every suffix a base has passed is taken.** -/
def Kept (t : Taken) : Prop := ∀ base, 2 ≤ t.nextOf base ∧ Passed t.taken (suffixed base) 2 (t.nextOf base)

variable {t : Taken} {base : Text}

theorem passed_firstFree (names : List Text) (base : Text) (fuel n : Nat) :
    n ≤ firstFree names base fuel n ∧ Passed {x | x ∈ names} (suffixed base) n (firstFree names base fuel n) := by
  induction fuel generalizing n with
  | zero => exact ⟨Nat.le_refl n, Passed.refl n⟩
  | succ fuel ih =>
      rw [firstFree]
      by_cases hn : suffixed base n ∈ names
      · rw [if_pos hn]
        obtain ⟨hle, hpassed⟩ := ih (n + 1)
        exact ⟨by omega, ((Passed.refl n).succ hn).trans hpassed⟩
      · rw [if_neg hn]
        exact ⟨Nat.le_refl n, Passed.refl n⟩

/-- The loop ends, and as many tries as there are names are enough for it. -/
theorem ends_firstFree (names : List Text) (base : Text) (n : Nat) :
    Ends {x | x ∈ names} (suffixed base) n (firstFree names base names.length n) := by
  obtain ⟨hle, hpassed⟩ := passed_firstFree names base names.length n
  exact ends_iff.mpr ⟨hle, suffixed_firstFree_notMem names base n, hpassed⟩

theorem unique_of_notMem (h : base ∉ t.names) :
    t.unique base = (base, { t with names := base :: t.names }) := if_pos h

/-- A base that is taken gets the suffix that the loop ends at, and remembers the next one. -/
theorem unique_of_mem (h : base ∈ t.names) :
    ∃ n, Ends t.taken (suffixed base) (t.nextOf base) n ∧ (t.unique base).1 = suffixed base n ∧
      (t.unique base).2.nextOf base = n + 1 ∧
      ∀ other, other ≠ base → (t.unique base).2.nextOf other = t.nextOf other := by
  refine ⟨firstFree t.names base t.names.length (t.nextOf base), ends_firstFree t.names base (t.nextOf base), ?_⟩
  rw [unique, if_neg (not_not.mpr h)]
  refine ⟨rfl, by simp [nextOf], fun other hother => ?_⟩
  have hfind : (t.next.filter fun p => p.1 ≠ base).find? (fun p => p.1 = other) =
      t.next.find? fun p => p.1 = other := by
    rw [List.find?_filter]
    refine congrArg (fun p => t.next.find? p) (funext fun p => ?_)
    by_cases hp : p.1 = other
    · simp [hp, hother]
    · simp [hp]
  simp only [nextOf, List.find?_cons, hother.symm, decide_false, hfind]

theorem taken_claim (t : Taken) (name : Text) :
    (t.claim name).2.taken = insert name t.taken ∧ (t.claim name).2.next = t.next := by
  unfold claim
  split
  case isTrue h => exact ⟨(Set.insert_eq_of_mem (s := t.taken) h).symm, rfl⟩
  case isFalse => exact ⟨Set.ext fun _ => List.mem_cons, rfl⟩

theorem taken_unique (t : Taken) (base : Text) :
    (t.unique base).2.taken = insert (t.unique base).1 t.taken := by
  rw [taken, (t.unique_spec base).2]
  exact Set.ext fun _ => List.mem_cons

theorem Kept.empty : Kept {} := fun _ => ⟨Nat.le_refl 2, Passed.refl 2⟩

/-- Names are only ever added. -/
theorem Kept.congr {t' : Taken} (h : Kept t) (hsub : t.taken ⊆ t'.taken)
    (hnext : ∀ base, t'.nextOf base = t.nextOf base) : Kept t' := by
  intro base
  rw [hnext base]
  exact ⟨(h base).1, (h base).2.mono hsub⟩

theorem Kept.claim (h : Kept t) (name : Text) : Kept (t.claim name).2 := by
  obtain ⟨htaken, hnext⟩ := taken_claim t name
  refine h.congr (htaken ▸ Set.subset_insert name t.taken) fun base => ?_
  rw [nextOf, nextOf, hnext]

theorem Kept.unique (h : Kept t) (base : Text) : Kept (t.unique base).2 := by
  have hsub : t.taken ⊆ (t.unique base).2.taken := by
    rw [taken_unique]
    exact Set.subset_insert _ _
  by_cases hmem : base ∈ t.names
  · obtain ⟨n, hends, hname, hself, hother⟩ := unique_of_mem hmem
    intro b
    by_cases hb : b = base
    · subst hb
      obtain ⟨hle, -, hpassed⟩ := ends_iff.mp hends
      have hn : suffixed b n ∈ (t.unique b).2.taken := by
        rw [taken_unique, hname]
        exact Set.mem_insert _ _
      have htwo := (h b).1
      rw [hself]
      exact ⟨by omega, ((((h b).2.trans hpassed).mono hsub).succ hn)⟩
    · rw [hother b hb]
      exact ⟨(h b).1, (h b).2.mono hsub⟩
  · refine h.congr hsub fun b => ?_
    rw [unique_of_notMem hmem]
    rfl

theorem Kept.step (h : Kept t) (c : Call) : Kept (t.step c) := by
  cases c with
  | claim name => exact h.claim name
  | unique base => exact h.unique base

theorem kept_after (calls : List Call) : Kept (after calls) :=
  Run.run_invariant (fun _ c h => h.step c) Kept.empty calls

/-! ## the memory agrees with counting up -/

/-- **The search from the remembered suffix ends where the one from 2 does.** -/
theorem Kept.ends (h : Kept t) {n : Nat} (hends : Ends t.taken (suffixed base) (t.nextOf base) n) :
    IsLeast {n | 2 ≤ n ∧ suffixed base n ∉ t.taken} n :=
  (hends.resume (h base).1 (h base).2).isLeast

theorem Kept.unique_eq_counted (h : Kept t) (base : Text) : (t.unique base).1 = counted t.taken base := by
  unfold counted
  by_cases hmem : base ∈ t.names
  · obtain ⟨n, hends, hname, -⟩ := unique_of_mem hmem
    rw [if_pos (show base ∈ t.taken from hmem), (h.ends hends).csInf_eq, hname]
  · rw [if_neg (show base ∉ t.taken from hmem), unique_of_notMem hmem]

/-- A call on the table is one on its names. -/
theorem Kept.run_eq_count (h : Kept t) (c : Call) :
    (c.run t).1 = (count t.taken c).1 ∧ (c.run t).2.taken = (count t.taken c).2 := by
  cases c with
  | claim name =>
      refine ⟨congrArg Answer.claimed ?_, (taken_claim t name).1⟩
      unfold Taken.claim
      split
      case isTrue h =>
        have hmem : name ∈ t.taken := h
        simp [hmem]
      case isFalse h =>
        have hfree : name ∉ t.taken := h
        simp [hfree]
  | unique base =>
      have hname := h.unique_eq_counted base
      exact ⟨congrArg Answer.name hname, (taken_unique t base).trans (by rw [hname]; rfl)⟩

theorem Kept.answers_eq (h : Kept t) (calls : List Call) : answers Call.run t calls = answers count t.taken calls := by
  induction calls generalizing t with
  | nil => rfl
  | cons c calls ih =>
      obtain ⟨hanswer, htaken⟩ := h.run_eq_count c
      rw [answers, answers, hanswer, ← htaken]
      exact congrArg _ (ih (h.step c))

/-- **The remembered suffix agrees with counting up.** Every sequence of calls is answered as by a table that counts up
from 2 each time. After any of them, a base that is free is answered with itself, and for one that is taken the loop
ends, at the least suffix from 2 on whose name is free; so no name is given that was taken. -/
theorem unique_countsUp (calls : List Call) :
    answers Call.run {} calls = answers count ∅ calls ∧
      ∀ base,
        (base ∉ (after calls).names → ((after calls).unique base).1 = base) ∧
        (base ∈ (after calls).names →
          ∃ n, Ends (after calls).taken (suffixed base) ((after calls).nextOf base) n ∧
            IsLeast {n | 2 ≤ n ∧ suffixed base n ∉ (after calls).names} n ∧
            ((after calls).unique base).1 = suffixed base n) ∧
        ((after calls).unique base).1 ∉ (after calls).names := by
  have hempty : taken {} = ∅ := Set.eq_empty_of_forall_notMem fun _ => List.not_mem_nil
  refine ⟨hempty ▸ Kept.empty.answers_eq calls, fun base => ⟨fun hfree => ?_, fun hmem => ?_, ?_⟩⟩
  · rw [unique_of_notMem hfree]
  · obtain ⟨n, hends, hname, -⟩ := unique_of_mem hmem
    exact ⟨n, hends, (kept_after calls).ends hends, hname⟩
  · exact (unique_spec _ base).1

/-- A base that looks like another's suffixed name is in the way of it. -/
example : answers Call.run {} (["a", "a-2", "a", "a"].map fun b => Call.unique b.toList) =
    ["a", "a-2", "a-3", "a-4"].map fun b => Answer.name b.toList := by decide

end Jkb.Sync.Tasks.Taken
