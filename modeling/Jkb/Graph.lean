import Mathlib.Logic.Relation
import Mathlib.Data.List.Basic

/-!
# Jkb.Graph

Cycles of a relation. A graph that is put together from pieces of two acyclic graphs can only have
a cycle that runs through both: `acyclic_iff` says which.
-/

namespace Jkb.Graph

open Relation

variable {α : Type*}

/-- No element reaches itself. -/
def Acyclic (r : α → α → Prop) : Prop := ∀ a, ¬ TransGen r a a

/-- A cycle of `r` with an edge outside `q` and an edge outside `p`. -/
def CrossCycle (r p q : α → α → Prop) : Prop :=
  ∃ a b c d, (r a b ∧ ¬ q a b) ∧ (r c d ∧ ¬ p c d) ∧ ReflTransGen r b c ∧ ReflTransGen r d a

/-- A relation along which a rank increases has no cycle. -/
theorem acyclic_of_rank {r : α → α → Prop} (f : α → Nat) (h : ∀ a b, r a b → f a < f b) :
    Acyclic r := by
  have hlt : ∀ {a b}, TransGen r a b → f a < f b := by
    intro a b hab
    induction hab with
    | single h1 => exact h _ _ h1
    | tail _ h1 ih => exact Nat.lt_trans ih (h _ _ h1)
  exact fun a ha => Nat.lt_irrefl _ (hlt ha)

/-- Fewer edges, fewer cycles. -/
theorem Acyclic.mono {r p : α → α → Prop} (h : Acyclic p) (hle : ∀ a b, r a b → p a b) : Acyclic r :=
  fun a ha => h a (TransGen.mono hle a a ha)

/-- A walk in `r` is a walk in `p`, or it has an edge outside `p`. -/
theorem transGen_or_edge {r : α → α → Prop} (p : α → α → Prop) {a b : α} (h : TransGen r a b) :
    TransGen p a b ∨
      ∃ x y, ReflTransGen r a x ∧ (r x y ∧ ¬ p x y) ∧ ReflTransGen r y b := by
  induction h with
  | @single b hab =>
      by_cases hp : p a b
      · exact Or.inl (.single hp)
      · exact Or.inr ⟨a, b, .refl, ⟨hab, hp⟩, .refl⟩
  | @tail b c hab hbc ih =>
      by_cases hp : p b c
      · rcases ih with ih | ⟨x, y, hax, hxy, hyb⟩
        · exact Or.inl (ih.tail hp)
        · exact Or.inr ⟨x, y, hax, hxy, hyb.tail hbc⟩
      · exact Or.inr ⟨b, c, hab.to_reflTransGen, ⟨hbc, hp⟩, .refl⟩

/-- A cycle of `r`, where `p` has none, has an edge outside `p`, and returns to it. -/
theorem exists_edge_of_cycle {r p : α → α → Prop} (hp : Acyclic p) {a : α} (h : TransGen r a a) :
    ∃ x y, ReflTransGen r a x ∧ (r x y ∧ ¬ p x y) ∧ ReflTransGen r y a :=
  (transGen_or_edge p h).resolve_left (hp a)

/-- **An edge that closes no cycle.** An acyclic graph stays one with an edge from `a` to `b`, where `b` did
not lead to `a`. -/
theorem Acyclic.insert {r : α → α → Prop} (h : Acyclic r) {a b : α} (hback : ¬ ReflTransGen r b a) :
    Acyclic fun x y => r x y ∨ (x = a ∧ y = b) := by
  -- a walk to `a` needs the new edge nowhere: it may stop where it first meets `a`
  have hcut : ∀ {x}, ReflTransGen (fun x y => r x y ∨ (x = a ∧ y = b)) x a → ReflTransGen r x a := by
    intro x hx
    induction hx using ReflTransGen.head_induction_on with
    | refl => exact .refl
    | head hstep _ ih =>
        rcases hstep with hstep | ⟨rfl, -⟩
        · exact .head hstep ih
        · exact .refl
  intro x hx
  obtain ⟨u, v, hxu, ⟨hnew, hold⟩, hvx⟩ := exists_edge_of_cycle h hx
  obtain ⟨rfl, rfl⟩ := hnew.resolve_left hold
  exact hback (hcut (hvx.trans hxu))

/-- **Where two acyclic graphs meet.** A relation has a cycle exactly when it has one with an edge
outside each of two acyclic relations. -/
theorem acyclic_iff {r p q : α → α → Prop} (hp : Acyclic p) (hq : Acyclic q) :
    Acyclic r ↔ ¬ CrossCycle r p q := by
  constructor
  · rintro h ⟨a, b, c, d, ⟨hab, -⟩, ⟨hcd, -⟩, hbc, hda⟩
    exact h a (.head' hab ((hbc.tail hcd).trans hda))
  · intro h a ha
    obtain ⟨c, d, hac, hcd, hda⟩ := exists_edge_of_cycle hp ha
    -- the same cycle, seen from `c`
    have hc : TransGen r c c := .head' hcd.1 (hda.trans hac)
    obtain ⟨x, y, hcx, hxy, hyc⟩ := exists_edge_of_cycle hq hc
    exact h ⟨x, y, c, d, hxy, hcd, hyc, (hda.trans hac).trans hcx⟩

/-- **A cycle runs through one end of its edges as it does through the other.** Where every edge leaves a member of `P`,
or every edge arrives at one, the edges between members of `P` have all the cycles. -/
theorem acyclic_between_iff {r : α → α → Prop} {P : α → Prop} (h : (∀ a b, r a b → P a) ∨ ∀ a b, r a b → P b) :
    Acyclic (fun a b => P a ∧ r a b ∧ P b) ↔ Acyclic r := by
  refine ⟨fun hacyclic a ha => ?_, fun hacyclic => hacyclic.mono fun _ _ hab => hab.2.1⟩
  refine hacyclic a ?_
  obtain hleave | harrive := h
  · have hwalk : ∀ {x}, TransGen r x a → P a → TransGen (fun a b => P a ∧ r a b ∧ P b) x a := by
      intro x hx hPa
      induction hx using TransGen.head_induction_on with
      | single hstep => exact .single ⟨hleave _ _ hstep, hstep, hPa⟩
      | head hstep hrest ih =>
          obtain ⟨z, hz, -⟩ := TransGen.head'_iff.mp hrest
          exact .head ⟨hleave _ _ hstep, hstep, hleave _ _ hz⟩ ih
    obtain ⟨b, hab, -⟩ := TransGen.head'_iff.mp ha
    exact hwalk ha (hleave _ _ hab)
  · have hwalk : ∀ {y}, TransGen r a y → P a → TransGen (fun a b => P a ∧ r a b ∧ P b) a y := by
      intro y hy hPa
      induction hy with
      | single hstep => exact .single ⟨hPa, hstep, harrive _ _ hstep⟩
      | tail hrest hstep ih =>
          obtain ⟨z, -, hz⟩ := TransGen.tail'_iff.mp hrest
          exact .tail ih ⟨harrive _ _ hz, hstep, harrive _ _ hstep⟩
    obtain ⟨b, -, hba⟩ := TransGen.tail'_iff.mp ha
    exact hwalk ha (harrive _ _ hba)

end Jkb.Graph
