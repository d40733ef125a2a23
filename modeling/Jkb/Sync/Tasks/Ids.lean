import Jkb.Sync.Tasks.Parse
import Jkb.Sync.Tasks.Reread

/-!
# Jkb.Sync.Tasks.Ids

The ids a file's tasks get, claimed or minted, can all be written as anchors.
-/

namespace Jkb.Sync.Tasks

open Jkb.Text Jkb.Dsl

variable (lib : Lib)

/-! ## claimed ids -/

theorem isUriSafe_iff {id : Text} :
    isUriSafe lib id = true ↔ id ≠ [] ∧ ∀ c ∈ id, c = '-' ∨ lib.isSlugChar c = true := by
  simp [isUriSafe]

theorem foldl_ownId {tokens : List Text} {out : TaskTokens} {id : Text}
    (h : (tokens.foldl (fun (out : TaskTokens) t => out.add (classify lib t)) out).ownId = some id) :
    out.ownId = some id ∨ isUriSafe lib id = true := by
  induction tokens generalizing out with
  | nil => exact Or.inl h
  | cons t tokens ih =>
      rw [List.foldl_cons] at h
      rcases ih h with h | h
      · cases hclass : classify lib t with
        | none => exact Or.inl (by rwa [hclass] at h)
        | some m =>
            rw [hclass] at h
            cases m with
            | own id' =>
                obtain rfl := Option.some.inj h
                exact Or.inr (classify_eq_some lib hclass).1
            | priority p => exact Or.inl h
            | due d => exact Or.inl h
            | tag f v => exact Or.inl h
            | mirror m => exact Or.inl h
            | dep d => exact Or.inl h
      · exact Or.inr h

theorem peelAnchors_safe {fuel : Nat} {head : Text} {anchor : Option Text} {id : Text}
    (h : (peelAnchors lib fuel head anchor).2 = some id) (ha : ∀ a, anchor = some a → isUriSafe lib a = true) :
    isUriSafe lib id = true := by
  induction fuel generalizing head anchor with
  | zero => exact ha id h
  | succ fuel ih =>
      rw [peelAnchors] at h
      split at h
      · rename_i a hanchor
        refine ih h fun b hb => ?_
        obtain rfl := Option.some.inj hb
        exact ((anchorId_eq_some lib).mp hanchor).2
      · exact ha id h

/-- The id a task line claims can be written as an anchor. -/
theorem isUriSafe_ownId {rest id : Text} (h : (parseTaskTokens lib rest).ownId = some id) :
    isUriSafe lib id = true := by
  have hanchor : ∀ a, (splitTrailingAnchor lib rest).2 = some a → isUriSafe lib a = true := by
    intro a ha
    unfold splitTrailingAnchor at ha
    split at ha
    case h_1 head a' hpeel =>
      obtain rfl := Option.some.inj ha
      exact peelAnchors_safe lib (congrArg Prod.snd hpeel) fun b hb => by cases hb
    case h_2 => cases ha
  unfold parseTaskTokens at h
  simp only [] at h
  split at h
  · exact hanchor id h
  · rcases foldl_ownId lib h with h | h
    · cases h
    · exact h

/-! ## minted ids -/

theorem showNat_safe (n : Nat) : ∀ c ∈ showNat n, lib.isSlugChar c = true := by
  intro c hc
  have hdigit : ∀ c ∈ ['0', '1', '2', '3', '4', '5', '6', '7', '8', '9'],
      (c.isLower || c.isDigit) ∧ c.toNat < 128 :=
    List.forall_iff_forall_mem.mp (by decide)
  have hmem := hdigit c (showNat_chars n c hc)
  exact lib.isSlugChar_ascii hmem.1 hmem.2

theorem isUriSafe_append_dash {base sfx : Text} (hbase : ∀ c ∈ base, c = '-' ∨ lib.isSlugChar c = true)
    (hsfx : ∀ c ∈ sfx, lib.isSlugChar c = true) : isUriSafe lib (base ++ '-' :: sfx) = true := by
  rw [isUriSafe_iff]
  refine ⟨by simp, fun c hc => ?_⟩
  rcases List.mem_append.mp hc with hc | hc
  · exact hbase c hc
  · rcases List.mem_cons.mp hc with hc | hc
    · exact Or.inl hc
    · exact Or.inr (hsfx c hc)

theorem isUriSafe_mintBase (title : Text) : isUriSafe lib (mintBase lib title) = true := by
  refine isUriSafe_append_dash lib ?_ fun c hc => ?_
  · split
    · have htask : ∀ c ∈ ['t', 'a', 's', 'k'], (c.isLower || c.isDigit) ∧ c.toNat < 128 :=
        List.forall_iff_forall_mem.mp (by decide)
      exact fun c hc => Or.inr (lib.isSlugChar_ascii (htask c hc).1 (htask c hc).2)
    · intro c hc
      exact lib.slug_chars title c (List.mem_of_mem_take (Tables.trimDashes_subset _ c hc))
  · have hmem := List.mem_of_mem_take hc
    exact lib.isSlugChar_ascii (lib.hash_digits title c hmem) (lib.hash_ascii title c hmem)

theorem isUriSafe_unique {used : Taken} {base : Text} (h : isUriSafe lib base = true) :
    isUriSafe lib (used.unique base).1 = true := by
  unfold Taken.unique
  split
  · exact h
  · exact isUriSafe_append_dash lib ((isUriSafe_iff lib).mp h).2 (showNat_safe lib _)

/-- **The id a task gets** is free, and can be written as an anchor. -/
theorem takeId_eq_ok {used used' : Taken} {rest id : Text}
    (h : ParseState.takeId lib used (parseTaskTokens lib rest) = .ok (id, used')) :
    id ∉ used.names ∧ used'.names = id :: used.names ∧ isUriSafe lib id = true := by
  unfold ParseState.takeId at h
  cases hown : (parseTaskTokens lib rest).ownId with
  | none =>
      simp only [hown, Except.ok.injEq, mintId] at h
      have hspec := used.unique_spec (mintBase lib (parseTaskTokens lib rest).title)
      have hsafe := @isUriSafe_unique lib used _ (isUriSafe_mintBase lib (parseTaskTokens lib rest).title)
      rw [h] at hspec hsafe
      exact ⟨hspec.1, hspec.2, hsafe⟩
  | some own =>
      simp only [hown] at h
      cases hclaim : used.claim own with
      | mk free used₁ =>
          cases free with
          | false =>
              rw [hclaim] at h
              cases h
          | true =>
              simp only [hclaim, Except.ok.injEq, Prod.mk.injEq] at h
              obtain ⟨rfl, rfl⟩ := h
              obtain ⟨hfree, hnames⟩ := Taken.claim_spec hclaim
              exact ⟨hfree, hnames, isUriSafe_ownId lib hown⟩

end Jkb.Sync.Tasks
