import Jkb.Core.Edge

/-!
# Jkb.Core.Containment

Which item an item lives inside. The table is keyed by the child, so an item has one container; `contain`
refuses a container that is already inside the item, so containment is a forest.
-/

namespace Jkb.Containment

open Jkb.Edge Jkb.Graph Jkb.Text Relation

/-- A row of `containment`. -/
structure Contained where
  child : Int
  parent : Int
  position : Int
deriving Repr, DecidableEq

/-- The table `containment`, keyed by the child. -/
abbrev ContainmentTable := Table fun c : Contained => c.child

/-- The container of an item, if it has one. -/
def parent (t : ContainmentTable) (child : Int) : Option Int := (t.find? child).map (·.parent)

/-- An item is directly inside another. -/
def Inside (t : ContainmentTable) (child parent : Int) : Prop := Containment.parent t child = some parent

/-- The container of an item, as a list to walk up along. -/
def above (t : ContainmentTable) (child : Int) : List Int := (parent t child).toList

theorem mem_above {t : ContainmentTable} {c p : Int} : p ∈ above t c ↔ Inside t c p := by
  simp [above, Inside]

theorem parent_mem {t : ContainmentTable} (c p : Int) (h : p ∈ above t c) : p ∈ t.rows.map (·.parent) := by
  obtain ⟨r, hr, rfl⟩ := Option.map_eq_some_iff.mp (mem_above.mp h)
  exact List.mem_map_of_mem (Table.mem_of_find? hr)

/-- Whether `item` is `parent` or one of the items that contain it. -/
def isInside (t : ContainmentTable) (item parent : Int) : Bool :=
  item ∈ Worklist.closure (above t) (t.rows.map (·.parent)) parent_mem [parent]

/-- Record that `child` is contained by `parent`, at a position among its siblings. -/
def contain (items : Items) (t : ContainmentTable) (child parent position : Int) : Except Fmt ContainmentTable :=
  if child = parent then .error ["item ", child, " cannot contain itself"]
  else if isInside t child parent then
    .error ["item ", parent, " is inside item ", child, ", so ", child, " cannot be contained by it"]
  else if t.find? child = some { child, parent, position } then .ok t
  else if (items.find? child).isNone ∨ (items.find? parent).isNone then
    .error ["FOREIGN KEY constraint failed"]
  else .ok (t.upsert { child, parent, position } (fun _ => true)
    (fun r => { r with parent, position }) fun _ => rfl)

/-- Remove an item's containment row, and answer with the container it left. -/
def uncontain (t : ContainmentTable) (child : Int) : ContainmentTable × Option Int :=
  (t.deleteWhere fun r => r.child = child, parent t child)

/-! ## the forest -/

/-- Containment is a forest: no item is inside itself. That an item has one container is the table's
key. -/
def Forest (t : ContainmentTable) : Prop := Acyclic (Inside t)

/-- The walk of `contain` is exact. -/
theorem isInside_eq_true {t : ContainmentTable} {item p : Int} :
    isInside t item p = true ↔ ReflTransGen (Inside t) p item := by
  have hrel : (fun x y => y ∈ above t x) = Inside t := by
    funext x y
    exact propext mem_above
  rw [isInside, decide_eq_true_eq, Worklist.mem_closure, Worklist.Reached, hrel]
  simp

/-- **What containing leaves**: the item in its container, and every other item where it was. The
container was not inside the item. -/
theorem contain_eq_ok {items : Items} {t t' : ContainmentTable} {child p position : Int}
    (h : contain items t child p position = .ok t') :
    ¬ ReflTransGen (Inside t) p child ∧ parent t' child = some p ∧
      ∀ c, c ≠ child → parent t' c = parent t c := by
  unfold contain at h
  split at h
  · cases h
  · split at h
    · cases h
    · rename_i hinside
      refine ⟨fun hpath => hinside (isInside_eq_true.mpr hpath), ?_⟩
      split at h
      · rename_i hsame
        obtain rfl := Except.ok.inj h
        exact ⟨by rw [parent, hsame]; rfl, fun _ _ => rfl⟩
      · split at h
        · cases h
        · obtain rfl := Except.ok.inj h
          constructor
          · rw [parent, Table.find?_upsert_self]
            cases t.find? child <;> rfl
          · intro c hc
            rw [parent, Table.find?_upsert_of_ne _ _ _ _ _ (Ne.symm hc)]
            rfl

/-- **What is not inside an item can contain it.** -/
theorem exists_contain {items : Items} {t : ContainmentTable} {child p : Int} (position : Int)
    (hback : ¬ ReflTransGen (Inside t) p child) (hchild : (items.find? child).isSome = true)
    (hp : (items.find? p).isSome = true) :
    ∃ t', contain items t child p position = .ok t' ∧ t'.find? child = some ⟨child, p, position⟩ ∧
      ∀ c, c ≠ child → t'.find? c = t.find? c := by
  have hne : child ≠ p := fun heq => hback (heq ▸ .refl)
  have hinside : ¬ isInside t child p = true := fun h => hback (isInside_eq_true.mp h)
  have hitems : ¬ ((items.find? child).isNone = true ∨ (items.find? p).isNone = true) := by
    simp [Option.isSome_iff_ne_none.mp hchild, Option.isSome_iff_ne_none.mp hp]
  rw [contain, if_neg hne, if_neg hinside]
  by_cases hsame : t.find? child = some ⟨child, p, position⟩
  · rw [if_pos hsame]
    exact ⟨t, rfl, hsame, fun _ _ => rfl⟩
  · rw [if_neg hsame, if_neg hitems]
    refine ⟨_, rfl, ?_, fun c hc => Table.find?_upsert_of_ne _ _ _ _ _ (Ne.symm hc)⟩
    refine (Table.find?_upsert_self _ _ _ _ _).trans ?_
    cases hrow : t.find? child with
    | none => rfl
    | some r => simp [← Table.key_of_find? hrow]

/-- **Containing keeps the forest.** -/
theorem Forest.contain {items : Items} {t t' : ContainmentTable} {child p position : Int} (hf : Forest t)
    (h : contain items t child p position = .ok t') : Forest t' := by
  obtain ⟨hback, hself, hothers⟩ := contain_eq_ok h
  refine (hf.insert hback).mono fun a b hab => ?_
  by_cases ha : a = child
  · subst ha
    exact Or.inr ⟨rfl, Option.some.inj (hab.symm.trans hself)⟩
  · exact Or.inl ((hothers a ha).symm.trans hab)

theorem find?_uncontain {t : ContainmentTable} {child c : Int} :
    (uncontain t child).1.find? c = if c = child then none else t.find? c := by
  rw [uncontain, Table.find?_deleteWhere]
  by_cases hc : c = child
  · rw [if_pos hc, Option.filter_eq_none_iff]
    intro r hr
    simp [Table.key_of_find? hr, hc]
  · rw [if_neg hc]
    cases hrow : t.find? c with
    | none => rfl
    | some r => simp [show r.child ≠ child from fun h => hc (Table.key_of_find? hrow ▸ h)]

theorem parent_uncontain {t : ContainmentTable} {child c p : Int}
    (h : parent (uncontain t child).1 c = some p) : parent t c = some p := by
  simp only [parent, uncontain, Table.find?_deleteWhere] at h ⊢
  obtain ⟨r, hr, rfl⟩ := Option.map_eq_some_iff.mp h
  obtain ⟨hr, -⟩ := Option.filter_eq_some_iff.mp hr
  rw [hr]
  rfl

theorem Forest.uncontain {t : ContainmentTable} (hf : Forest t) (child : Int) : Forest (uncontain t child).1 :=
  hf.mono fun _ _ hab => parent_uncontain hab

end Jkb.Containment
