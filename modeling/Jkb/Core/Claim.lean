import Jkb.Core.TaskStatus
import Jkb.Text

/-!
# Jkb.Core.Claim

The claim on a task: who holds it, in columns of its own beside the status. Taking it is a
compare-and-swap that starts the task in the same statement; letting go of it leaves the status alone.
-/

namespace Jkb.Claim

open Jkb.Text

/-- The columns of a task's row in `items` that the lifecycle and the claim write. -/
structure Item where
  id : Int
  status : TaskStatus
  claimantId : Option Text := none
  claimedAt : Option Text := none
deriving Repr, DecidableEq

/-- A claim held on a task, as `claimed` lists it. -/
structure ClaimInfo where
  id : Int
  owner : Text
  claimedAt : Option Text
deriving Repr, DecidableEq

/-- Acquire the claim for `owner`, starting the task in the same statement, and whether it was: not where
a different owner holds it, and never on a terminal task. -/
def claim (item : Item) (owner now : Text) : Except Fmt (Bool × Item) :=
  if item.status.isTerminal then
    .error ["cannot claim task ", item.id, ": it is already ", item.status.asStr]
  else if item.claimantId = none ∨ item.claimantId = some owner then
    .ok (true, { item with claimantId := some owner, claimedAt := some now, status := .inProgress })
  else .ok (false, item)

/-- The one clearing statement, with the owner it is guarded by. -/
def clearInner (item : Item) (expectedOwner : Option Text) : Bool × Item :=
  if expectedOwner.isSome ∧ item.claimantId ≠ expectedOwner then (false, item)
  else if item.claimantId.isSome then (true, { item with claimantId := none, claimedAt := none })
  else (false, item)

/-- Clear the claim, whoever holds it. -/
def clear (item : Item) : Bool × Item := clearInner item none

/-- Clear the claim only if it is still held by `expectedOwner`. -/
def clearIf (item : Item) (expectedOwner : Text) : Bool × Item :=
  if item.claimantId ≠ some expectedOwner then (false, item) else clear item

/-- Take the claim away from an owner judged gone. -/
def reclaim (item : Item) (expectedOwner : Text) : Bool × Item := clearInner item (some expectedOwner)

/-- Release the claim held by `owner`. -/
def release (item : Item) (owner : Text) : Bool × Item :=
  if item.claimantId = some owner then (true, { item with claimantId := none, claimedAt := none })
  else (false, item)

/-- The claim held on a task, if any. -/
def claimed (item : Item) : Option ClaimInfo :=
  item.claimantId.map fun owner => { id := item.id, owner, claimedAt := item.claimedAt }

/-! ## what the statements do -/

/-- A row of a task that is not both finished and held. -/
def Settled (item : Item) : Prop := item.status.isTerminal = true → item.claimantId = none

/-- A claim that stays a claim stays its owner's. -/
def KeepsOwner (item item' : Item) : Prop :=
  ∀ a b, item.claimantId = some a → item'.claimantId = some b → a = b

theorem KeepsOwner.refl (item : Item) : KeepsOwner item item := by
  intro a b ha hb
  rw [ha] at hb
  exact Option.some.inj hb

theorem KeepsOwner.of_none {item item' : Item} (h : item'.claimantId = none) : KeepsOwner item item' := by
  intro a b _ hb
  rw [h] at hb
  cases hb

/-- Taking a claim starts the task, and only a free claim or one's own can be taken. -/
theorem claim_eq_ok {item item' : Item} {owner now : Text} {got : Bool}
    (h : claim item owner now = .ok (got, item')) :
    item.status.isTerminal = false ∧
      ((got = true ∧ (item.claimantId = none ∨ item.claimantId = some owner) ∧
          item' = { item with claimantId := some owner, claimedAt := some now, status := .inProgress }) ∨
        (got = false ∧ item' = item)) := by
  unfold claim at h
  split at h
  · cases h
  · rename_i hopen
    refine ⟨by simpa using hopen, ?_⟩
    split at h
    · rename_i hfree
      obtain ⟨rfl, rfl⟩ := Prod.mk.inj (Except.ok.inj h)
      exact Or.inl ⟨rfl, hfree, rfl⟩
    · obtain ⟨rfl, rfl⟩ := Prod.mk.inj (Except.ok.inj h)
      exact Or.inr ⟨rfl, rfl⟩

theorem claim_keeps {item item' : Item} {owner now : Text} {got : Bool} (hitem : Settled item)
    (h : claim item owner now = .ok (got, item')) : Settled item' ∧ KeepsOwner item item' := by
  obtain ⟨-, ⟨-, hfree, rfl⟩ | ⟨-, rfl⟩⟩ := claim_eq_ok h
  · refine ⟨fun hterminal => (by cases hterminal), fun a b ha hb => ?_⟩
    rw [ha] at hfree
    grind
  · exact ⟨hitem, .refl _⟩

/-- What a statement that lets go of a claim leaves: the row as it was, or without its claim. -/
def Clears (item : Item) (p : Bool × Item) : Prop :=
  p.2 = item ∨ p.2 = { item with claimantId := none, claimedAt := none }

theorem clears_clearInner (item : Item) (expected : Option Text) :
    Clears item (clearInner item expected) := by
  unfold clearInner
  split
  · exact Or.inl rfl
  · split
    · exact Or.inr rfl
    · exact Or.inl rfl

theorem clears_clearIf (item : Item) (expected : Text) : Clears item (clearIf item expected) := by
  unfold clearIf
  split
  · exact Or.inl rfl
  · exact clears_clearInner item none

theorem clears_release (item : Item) (owner : Text) : Clears item (release item owner) := by
  unfold release
  split
  · exact Or.inr rfl
  · exact Or.inl rfl

theorem Clears.status {item : Item} {p : Bool × Item} (h : Clears item p) : p.2.status = item.status := by
  rcases h with h | h <;> rw [h]

theorem Clears.keeps {item : Item} {p : Bool × Item} (h : Clears item p) (hitem : Settled item) :
    Settled p.2 ∧ KeepsOwner item p.2 := by
  rcases h with h | h
  · rw [h]
    exact ⟨hitem, .refl item⟩
  · rw [h]
    exact ⟨fun _ => rfl, .of_none rfl⟩

/-- Letting go twice is letting go once. -/
theorem clearInner_twice (item : Item) (expected : Option Text) :
    (clearInner (clearInner item expected).2 expected).2.claimantId =
      (clearInner item expected).2.claimantId := by
  rcases clears_clearInner item expected with h | h
  · rw [h, h]
  · have hclears := clears_clearInner (clearInner item expected).2 expected
    rw [h] at hclears ⊢
    rcases hclears with h' | h' <;> rw [h']

theorem claimantId_clear (item : Item) : (clear item).2.claimantId = none := by
  unfold clear clearInner
  cases hclaim : item.claimantId with
  | none => simp [hclaim]
  | some owner => simp

end Jkb.Claim
