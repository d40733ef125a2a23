import Mathlib.Logic.Relation

/-!
# Jkb.Outline

Trees that are listed level by level. Every place has a listing, of children; a child that expands names a place of its
own. A walk lists the top level and, below each child that expands, the level it names, unless a child above names the
same; it stops so many levels down.

`Whole` says that nothing is missing down to the last level, `Fits` that nothing is left to list at it. In a whole
outline that fits, every level that can be reached is listed (`lists_of_level`).
-/

namespace Jkb.Outline

/-- A listed child, and what is listed below it. -/
inductive Node (C : Type*) where
  | mk (child : C) (children : List (Node C))

namespace Node

variable {C : Type*}

def child : Node C → C
  | .mk child _ => child

def children : Node C → List (Node C)
  | .mk _ children => children

end Node

/-- A child is listed in an outline, directly below another or at its top. -/
inductive Lists {C : Type*} : Option C → List (Node C) → Option C → C → Prop
  | here {under : Option C} {nodes : List (Node C)} {t : Node C} (h : t ∈ nodes) : Lists under nodes under t.child
  | inside {under above : Option C} {nodes : List (Node C)} {t : Node C} {c : C} (h : t ∈ nodes)
      (hc : Lists (some t.child) t.children above c) : Lists under nodes above c

section

variable {C K : Type*} (listing : Option K → List C → Prop) (key : C → K) (expands : C → Prop)

/-- An outline is whole for so many levels below its own. -/
def Whole : Nat → Option K → List K → List (Node C) → Prop
  | 0, place, _, nodes => listing place (nodes.map Node.child)
  | n + 1, place, above, nodes =>
      listing place (nodes.map Node.child) ∧ ∀ t ∈ nodes, expands t.child → key t.child ∉ above →
        Whole n (some (key t.child)) (key t.child :: above) t.children

/-- No branch of an outline goes on below so many levels, but by what is named above it. -/
def Fits : Nat → List K → List (Node C) → Prop
  | 0, above, nodes => ∀ t ∈ nodes, expands t.child → key t.child ∈ above
  | n + 1, above, nodes => ∀ t ∈ nodes, Fits n (key t.child :: above) t.children

/-- A level that can be reached: its place, what is named above it, and the child it is below. -/
inductive Level : Option K → List K → Option C → Prop
  | top : Level none [] none
  | down {place : Option K} {above : List K} {under : Option C} {kids : List C} {c : C} (h : Level place above under)
      (hkids : listing place kids) (hc : c ∈ kids) (hexpands : expands c) (hkey : key c ∉ above) :
      Level (some (key c)) (key c :: above) (some c)

variable {listing key expands}

theorem Whole.listed {n : Nat} {place : Option K} {above : List K} {nodes : List (Node C)}
    (h : Whole listing key expands n place above nodes) : listing place (nodes.map Node.child) := by
  cases n with
  | zero => exact h
  | succ n => exact h.1

@[simp] theorem fits_nil (n : Nat) (above : List K) : Fits key expands n above [] := by
  cases n with
  | zero => exact fun t ht => absurd ht List.not_mem_nil
  | succ n => exact fun t ht => absurd ht List.not_mem_nil

/-- What can be reached of a whole outline that fits is whole, and fits. -/
theorem Level.whole (hfun : ∀ place a b, listing place a → listing place b → a = b) {n : Nat} {nodes : List (Node C)}
    (hwhole : Whole listing key expands n none [] nodes) (hfits : Fits key expands n [] nodes) {place : Option K}
    {above : List K} {under : Option C} (h : Level listing key expands place above under) :
    ∃ m sub, Whole listing key expands m place above sub ∧ Fits key expands m above sub ∧
      ∀ a c, Lists under sub a c → Lists none nodes a c := by
  induction h with
  | top => exact ⟨n, nodes, hwhole, hfits, fun _ _ hc => hc⟩
  | @down place above under kids c _ hkids hc hexpands hkey ih =>
      obtain ⟨m, sub, hsub, hsubFits, hsubLists⟩ := ih
      rw [hfun _ _ _ hkids hsub.listed] at hc
      obtain ⟨t, ht, rfl⟩ := List.mem_map.mp hc
      cases m with
      | zero => exact absurd (hsubFits t ht hexpands) hkey
      | succ m =>
          exact ⟨m, t.children, hsub.2 t ht hexpands hkey, hsubFits t ht, fun a c hc => hsubLists a c (.inside ht hc)⟩

/-- **A whole outline that fits lists every level that can be reached.** -/
theorem lists_of_level (hfun : ∀ place a b, listing place a → listing place b → a = b) {n : Nat} {nodes : List (Node C)}
    (hwhole : Whole listing key expands n none [] nodes) (hfits : Fits key expands n [] nodes) {place : Option K}
    {above : List K} {under : Option C} (h : Level listing key expands place above under) :
    ∃ kids, listing place kids ∧ ∀ c ∈ kids, Lists none nodes under c := by
  obtain ⟨m, sub, hsub, -, hsubLists⟩ := h.whole hfun hwhole hfits
  refine ⟨sub.map Node.child, hsub.listed, fun c hc => ?_⟩
  obtain ⟨t, ht, rfl⟩ := List.mem_map.mp hc
  exact hsubLists _ _ (.here ht)

end

end Jkb.Outline
