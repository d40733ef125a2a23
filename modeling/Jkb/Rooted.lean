import Jkb.Graph
import Mathlib.Data.List.Basic

/-!
# Jkb.Rooted

Trees given by their parents. Every element has at most one parent, and where no element is above itself the walk up
ends at a root. `climb` walks up and `descend` lists what is below; both count their steps, and as many as there are
elements with a parent are enough.

`RootOf.graft` and its companion say what a move does: the moved tree has the root of its new parent, and every other
element the root it had.
-/

namespace Jkb.Rooted

open Jkb.Graph Relation

variable {α : Type*} (up : α → Option α)

/-- An element's parent is another. -/
def Up (a b : α) : Prop := up a = some b

/-- The top of an element's tree. -/
def RootOf (a r : α) : Prop := ReflTransGen (Up up) a r ∧ up r = none

/-- Walk up, at most so many steps. -/
def climb : Nat → α → α
  | 0, a => a
  | n + 1, a =>
      match up a with
      | some b => climb n b
      | none => a

/-- Everything below an element, depth first, at most so many levels. -/
def descend (down : α → List α) : Nat → α → List α
  | 0, _ => []
  | n + 1, a => (down a).flatMap fun b => b :: descend down n b

variable {up}

theorem RootOf.self {a : α} (h : up a = none) : RootOf up a a := ⟨.refl, h⟩

/-- What is above an element is above whatever is below it. -/
theorem RootOf.below {a b r : α} (h : RootOf up b r) (hab : ReflTransGen (Up up) a b) : RootOf up a r :=
  ⟨hab.trans h.1, h.2⟩

/-- The walk up from an element meets every element above it before its root. -/
theorem RootOf.above {a b r : α} (h : RootOf up a r) (hab : ReflTransGen (Up up) a b) : RootOf up b r := by
  induction hab with
  | refl => exact h
  | tail _ hstep ih =>
      rcases ReflTransGen.cases_head ih.1 with rfl | ⟨c, hc, hrest⟩
      · exact absurd (hstep.symm.trans ih.2) (by simp)
      · obtain rfl := Option.some.inj (hstep.symm.trans hc)
        exact ⟨hrest, ih.2⟩

theorem RootOf.unique {a r r' : α} (h : RootOf up a r) (h' : RootOf up a r') : r = r' := by
  rcases ReflTransGen.cases_head (h'.above h.1).1 with rfl | ⟨c, hc, -⟩
  · rfl
  · exact absurd (hc.symm.trans h.2) (by simp)

/-! ## enough steps -/

section Finite

variable {nodes : List α}

/-- Leaving one element out leaves fewer. -/
theorem length_filter_ne [DecidableEq α] {a : α} (h : a ∈ nodes) : (nodes.filter (· ≠ a)).length < nodes.length :=
  List.length_filter_lt_length_iff_exists.mpr ⟨a, h, by simp⟩

theorem up_climb [DecidableEq α] (hacyclic : Acyclic (Up up)) {n : Nat} {a : α} (hlen : nodes.length ≤ n)
    (hnodes : ∀ x b, ReflTransGen (Up up) a x → up x = some b → x ∈ nodes) : up (climb up n a) = none := by
  induction n generalizing a nodes with
  | zero =>
      cases hup : up a with
      | none => exact hup
      | some b =>
          have hmem := hnodes a b .refl hup
          rw [List.length_eq_zero_iff.mp (Nat.le_zero.mp hlen)] at hmem
          exact absurd hmem List.not_mem_nil
  | succ n ih =>
      rw [climb]
      cases hup : up a with
      | none => exact hup
      | some b =>
          have hmem := hnodes a b .refl hup
          have hfewer : (nodes.filter (· ≠ a)).length ≤ n := by
            have := length_filter_ne hmem
            omega
          refine ih hfewer fun x c hx hc => List.mem_filter.mpr ⟨hnodes x c (.head hup hx) hc, decide_eq_true ?_⟩
          rintro rfl
          exact hacyclic x (.head' hup hx)

theorem reflTransGen_climb (n : Nat) (a : α) : ReflTransGen (Up up) a (climb up n a) := by
  induction n generalizing a with
  | zero => exact .refl
  | succ n ih =>
      rw [climb]
      cases hup : up a with
      | none => exact .refl
      | some b => exact .head hup (ih b)

/-- **The walk up ends at the root.** -/
theorem rootOf_climb [DecidableEq α] (hacyclic : Acyclic (Up up)) (hnodes : ∀ x b, up x = some b → x ∈ nodes) (a : α) :
    RootOf up a (climb up nodes.length a) :=
  ⟨reflTransGen_climb _ a, up_climb hacyclic (Nat.le_refl _) fun x b _ => hnodes x b⟩

variable {down : α → List α}

/-- What a listing has is below, where the elements that it goes down from have only what is below them. -/
theorem transGen_of_mem_descend {P : α → Prop} (hdown : ∀ a b, P a → b ∈ down a → up b = some a ∧ P b) {n : Nat}
    {a x : α} (ha : P a) (h : x ∈ descend down n a) : TransGen (Up up) x a ∧ P x := by
  induction n generalizing a with
  | zero => exact absurd h List.not_mem_nil
  | succ n ih =>
      obtain ⟨b, hb, hx⟩ := List.mem_flatMap.mp h
      obtain ⟨hup, hb⟩ := hdown a b ha hb
      rcases List.mem_cons.mp hx with rfl | hx
      · exact ⟨.single hup, hb⟩
      · obtain ⟨hpath, hP⟩ := ih hb hx
        exact ⟨hpath.tail hup, hP⟩

theorem mem_descend_of_length_le [DecidableEq α] (hdown : ∀ a b, up b = some a → b ∈ down a)
    (hacyclic : Acyclic (Up up)) {n : Nat} {a x : α} (hlen : nodes.length ≤ n)
    (hnodes : ∀ y, TransGen (Up up) y a → y ∈ nodes) (h : TransGen (Up up) x a) : x ∈ descend down n a := by
  induction n generalizing a nodes with
  | zero =>
      have hmem := hnodes x h
      rw [List.length_eq_zero_iff.mp (Nat.le_zero.mp hlen)] at hmem
      exact absurd hmem List.not_mem_nil
  | succ n ih =>
      obtain ⟨b, hxb, hup⟩ := TransGen.tail'_iff.mp h
      refine List.mem_flatMap.mpr ⟨b, hdown a b hup, ?_⟩
      rcases reflTransGen_iff_eq_or_transGen.mp hxb with rfl | hxb
      · exact List.mem_cons_self
      · have hfewer : (nodes.filter (· ≠ b)).length ≤ n := by
          have := length_filter_ne (hnodes b (.single hup))
          omega
        refine List.mem_cons_of_mem _ (ih hfewer (fun y hy => ?_) hxb)
        refine List.mem_filter.mpr ⟨hnodes y (hy.tail hup), decide_eq_true ?_⟩
        rintro rfl
        exact hacyclic y hy

/-- **The listing misses nothing that is below.** -/
theorem mem_descend [DecidableEq α] (hdown : ∀ a b, up b = some a → b ∈ down a) (hacyclic : Acyclic (Up up))
    (hnodes : ∀ x b, up x = some b → x ∈ nodes) {a x : α} (h : TransGen (Up up) x a) :
    x ∈ descend down nodes.length a := by
  refine mem_descend_of_length_le hdown hacyclic (Nat.le_refl _) (fun y hy => ?_) h
  obtain ⟨b, hb, -⟩ := TransGen.head'_iff.mp hy
  exact hnodes y b hb

end Finite

/-! ## a move -/

section Move

variable {up' : α → Option α} {c p : α}

/-- An element that the moved one is not above keeps its root. -/
theorem RootOf.keep (hsame : ∀ x, x ≠ c → up' x = up x) {a r : α} (hout : ¬ ReflTransGen (Up up) a c)
    (h : RootOf up a r) : RootOf up' a r := by
  have hne : r ≠ c := fun hr => hout (hr ▸ h.1)
  refine ⟨?_, (hsame r hne).trans h.2⟩
  obtain ⟨hpath, -⟩ := h
  induction hpath using ReflTransGen.head_induction_on with
  | refl => exact .refl
  | @head x y hstep _ ih =>
      have hx : x ≠ c := fun hx => hout (hx ▸ .refl)
      exact .head ((hsame x hx).trans hstep) (ih fun hy => hout (.head hstep hy))

/-- **What is moved has the root of the new parent**, which is not inside it. -/
theorem RootOf.graft (hsame : ∀ x, x ≠ c → up' x = up x) (hc : up' c = some p)
    (hback : ¬ ReflTransGen (Up up) p c) {a r : α} (hin : ReflTransGen (Up up) a c) (h : RootOf up p r) :
    RootOf up' a r := by
  refine RootOf.below (b := p) (h.keep hsame hback) ?_
  induction hin using ReflTransGen.head_induction_on with
  | refl => exact .single hc
  | @head x y hstep _ ih =>
      by_cases hx : x = c
      · exact hx ▸ .single hc
      · exact .head ((hsame x hx).trans hstep) ih

end Move

end Jkb.Rooted
