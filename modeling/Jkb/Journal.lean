import Jkb.Prim
import Jkb.Tx
import Mathlib.Data.List.Perm.Basic

/-!
# Jkb.Journal

A journal of changes, grouped by the transaction that made them, and undo: a transaction is reverted whole by
inverting its changes, newest first, or it is refused. What was reverted once is marked, and never reverted
again.

Generic over the state and the changes. `undo_rule` is how an invariant is carried over an undo: the
invariant speaks of the state and of the changes that may still be undone, in any order, and inverting one of
them takes it off.
-/

namespace Jkb

/-- A row of a journal: a change, or the mark that a transaction was undone. -/
inductive JournalRow (ε : Type*) where
  | change (txn : Nat) (e : ε)
  | undone (txn : Nat) (target : Nat)
deriving Repr, DecidableEq

namespace JournalRow

variable {ε : Type*}

/-- The transaction that wrote a row. -/
def txn : JournalRow ε → Nat
  | .change txn _ => txn
  | .undone txn _ => txn

/-- The change that a row of a transaction records. -/
def changeOf (target : Nat) : JournalRow ε → Option ε
  | .change txn e => if txn = target then some e else none
  | .undone _ _ => none

/-- The change that a row records, unless its transaction is among some. -/
def pendingOf (undone : Nat → Bool) : JournalRow ε → Option ε
  | .change txn e => if undone txn then none else some e
  | .undone _ _ => none

end JournalRow

/-- A journal, oldest row first. What is marked was written before the mark. -/
structure Journal (ε : Type*) where
  rows : List (JournalRow ε)
  written : ∀ txn target, .undone txn target ∈ rows → target ∈ rows.map JournalRow.txn

namespace Journal

universe u

variable {ε σ : Type u}

def empty : Journal ε := ⟨[], fun _ _ h => absurd h List.not_mem_nil⟩

/-- The next transaction: above every one in the journal. -/
def nextTxn (j : Journal ε) : Nat := (j.rows.map JournalRow.txn).foldr max 0 + 1

/-- Whether a transaction was undone. -/
def isUndone (j : Journal ε) (txn : Nat) : Bool :=
  j.rows.any fun
    | .undone _ target => target = txn
    | .change _ _ => false

/-- The changes of a transaction, oldest first. -/
def changesOf (j : Journal ε) (txn : Nat) : List ε := j.rows.filterMap (JournalRow.changeOf txn)

/-- Record the changes of one transaction. -/
def append (j : Journal ε) (changes : List ε) : Journal ε where
  rows := j.rows ++ changes.map (.change j.nextTxn)
  written txn target h := by
    rcases List.mem_append.mp h with h | h
    · rw [List.map_append]
      exact List.mem_append_left _ (j.written txn target h)
    · obtain ⟨_, -, h⟩ := List.mem_map.mp h
      cases h

/-- The changes that may still be undone, oldest first. -/
def pending (j : Journal ε) : List ε := j.rows.filterMap (JournalRow.pendingOf j.isUndone)

/-- The newest transaction that may still be undone. -/
def lastTxn (j : Journal ε) : Option Nat :=
  (j.rows.filterMap fun
    | .change txn _ => if j.isUndone txn then none else some txn
    | .undone _ _ => none).max?

/-- Revert a transaction: all of its changes, or none. -/
def undo (invert : σ → ε → Except Fmt σ) (s : σ) (j : Journal ε) (txn : Nat) :
    Except Fmt (σ × Journal ε) :=
  if j.isUndone txn then .error ["it has already been undone"]
  else if h : txn ∉ j.rows.map JournalRow.txn then .error ["it recorded no changes"]
  else
    ((j.changesOf txn).reverse.foldlM invert s).map fun s =>
      (s, { rows := j.rows ++ [.undone j.nextTxn txn]
            written := fun t target ht => by
              rw [List.map_append]
              refine List.mem_append_left _ ?_
              rcases List.mem_append.mp ht with ht | ht
              · exact j.written t target ht
              · cases List.mem_singleton.mp ht
                exact not_not.mp h })

/-! ## what is pending -/

theorem isUndone_eq_true {j : Journal ε} {txn : Nat} :
    j.isUndone txn = true ↔ ∃ t, .undone t txn ∈ j.rows := by
  constructor
  · intro h
    obtain ⟨r, hr, htxn⟩ := List.any_eq_true.mp h
    cases r with
    | change t e => cases htxn
    | undone t target =>
        obtain rfl := of_decide_eq_true htxn
        exact ⟨t, hr⟩
  · rintro ⟨t, ht⟩
    exact List.any_eq_true.mpr ⟨_, ht, decide_eq_true rfl⟩

theorem lt_nextTxn {j : Journal ε} {txn : Nat} (h : txn ∈ j.rows.map JournalRow.txn) : txn < j.nextTxn := by
  have hle : ∀ l : List Nat, txn ∈ l → txn ≤ l.foldr max 0 := by
    intro l hl
    induction l with
    | nil => exact absurd hl List.not_mem_nil
    | cons a l ih =>
        rcases List.mem_cons.mp hl with rfl | hl
        · exact le_max_left _ _
        · exact le_trans (ih hl) (le_max_right _ _)
  exact Nat.lt_succ_of_le (hle _ h)

/-- The next transaction was not undone. -/
theorem isUndone_nextTxn (j : Journal ε) : j.isUndone j.nextTxn = false := by
  refine Bool.eq_false_iff.mpr fun h => ?_
  obtain ⟨t, ht⟩ := isUndone_eq_true.mp h
  exact Nat.lt_irrefl _ (lt_nextTxn (j.written t _ ht))

theorem isUndone_append (j : Journal ε) (changes : List ε) (txn : Nat) :
    (j.append changes).isUndone txn = j.isUndone txn := by
  simp [isUndone, append, Function.comp_def]

/-- What a transaction records is pending beside what was. -/
theorem pending_append (j : Journal ε) (changes : List ε) :
    (j.append changes).pending = j.pending ++ changes := by
  have hsame : (j.append changes).isUndone = j.isUndone := funext (isUndone_append j changes)
  have hnew : (changes.map (JournalRow.change j.nextTxn)).filterMap (JournalRow.pendingOf j.isUndone) =
      changes := by
    simp [List.filterMap_map, Function.comp_def, JournalRow.pendingOf, isUndone_nextTxn]
  rw [pending, hsame, append, List.filterMap_append, hnew, pending]

/-- The changes that may be undone are those of a transaction and those of the others. -/
theorem perm_pendingOf {undone : Nat → Bool} {txn : Nat} (h : undone txn = false)
    (rows : List (JournalRow ε)) :
    (rows.filterMap (JournalRow.pendingOf undone)).Perm
      (rows.filterMap (JournalRow.changeOf txn) ++
        rows.filterMap (JournalRow.pendingOf fun t => undone t || t = txn)) := by
  induction rows with
  | nil => exact .nil
  | cons r rows ih =>
      cases r with
      | undone t target => exact ih
      | change t e =>
          by_cases ht : t = txn
          · subst ht
            simpa [JournalRow.pendingOf, JournalRow.changeOf, h] using ih
          · cases hu : undone t with
            | true => simpa [JournalRow.pendingOf, JournalRow.changeOf, hu, ht] using ih
            | false =>
                simp only [JournalRow.pendingOf, JournalRow.changeOf, hu, ht, List.filterMap_cons,
                  if_false, Bool.false_or, decide_false, Bool.false_eq_true]
                exact (ih.cons e).trans List.perm_middle.symm

theorem undo_eq_ok {invert : σ → ε → Except Fmt σ} {s s' : σ} {j j' : Journal ε} {txn : Nat}
    (h : undo invert s j txn = .ok (s', j')) :
    (j.changesOf txn).reverse.foldlM invert s = .ok s' ∧
      j.pending.Perm (j.changesOf txn ++ j'.pending) := by
  unfold undo at h
  split at h
  · cases h
  · next hnot =>
      split at h
      · cases h
      · obtain ⟨t, ht, h⟩ := Tx.map_eq_ok.mp h
        cases h
        refine ⟨ht, ?_⟩
        have hsame : ∀ w, isUndone ⟨j.rows ++ [.undone j.nextTxn txn], w⟩ = fun t =>
            j.isUndone t || t = txn := fun w => funext fun t => by simp [isUndone, eq_comm]
        have hperm := perm_pendingOf (Bool.eq_false_iff.mpr hnot) j.rows
        have hmark : [JournalRow.undone j.nextTxn txn].filterMap (JournalRow.pendingOf fun t =>
            j.isUndone t || t = txn) = ([] : List ε) := rfl
        rw [pending, pending, hsame, List.filterMap_append, hmark, List.append_nil]
        exact hperm

/-! ## the undo rule -/

/-- **The undo rule.** An invariant of the state and of the changes that may still be undone, whatever their
order, is kept by an undo if inverting one change keeps it, of the others. -/
theorem undo_rule {Inv : σ → List ε → Prop} {invert : σ → ε → Except Fmt σ}
    (hperm : ∀ s l l', l.Perm l' → Inv s l → Inv s l')
    (hinvert : ∀ s s' e l, invert s e = .ok s' → Inv s (e :: l) → Inv s' l)
    {s s' : σ} {j j' : Journal ε} {txn : Nat} (h : undo invert s j txn = .ok (s', j'))
    (hs : Inv s j.pending) : Inv s' j'.pending := by
  obtain ⟨hfold, hpending⟩ := undo_eq_ok h
  replace hs : Inv s ((j.changesOf txn).reverse ++ j'.pending) :=
    hperm _ _ _ (hpending.trans ((List.reverse_perm _).symm.append_right _)) hs
  clear h hpending
  generalize (j.changesOf txn).reverse = changes at hfold hs
  induction changes generalizing s with
  | nil =>
      cases hfold
      exact hs
  | cons e changes ih =>
      rw [List.foldlM_cons] at hfold
      obtain ⟨t, ht, hfold⟩ := Tx.bind_eq_ok.mp hfold
      exact ih hfold (hinvert _ _ _ _ ht hs)

end Journal

end Jkb
