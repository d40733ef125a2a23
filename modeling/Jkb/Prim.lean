import Mathlib.Algebra.Ring.Int.Defs
import Mathlib.Data.List.Basic
import Mathlib.Data.Rat.Defs
import Mathlib.Data.String.Basic
import Mathlib.Order.Basic

/-!
# Jkb.Prim

The language's own integers, strings and formatted texts, as far as the models use them.
-/

namespace Jkb

def i64Max : Int := 2 ^ 63 - 1
def i64Min : Int := -2 ^ 63

/-- `i64::saturating_add`. -/
def satAdd (a b : Int) : Int := max i64Min (min i64Max (a + b))

/-- `i64::saturating_sub`. -/
def satSub (a b : Int) : Int := max i64Min (min i64Max (a - b))

/-- `str::starts_with`. -/
def startsWith (s pfx : String) : Bool := pfx.toList.isPrefixOf s.toList

/-- `char::is_control`: the general category Cc. -/
def isControl (c : Char) : Bool := c.toNat < 0x20 || (0x7f ≤ c.toNat && c.toNat < 0xa0)

/-- `Vec::dedup`: of each run of equal elements, the first. -/
def dedup {α : Type} [DecidableEq α] : List α → List α
  | [] => []
  | [a] => [a]
  | a :: b :: l => if a = b then dedup (b :: l) else a :: dedup (b :: l)

theorem mem_dedup {α : Type} [DecidableEq α] {l : List α} {x : α} : x ∈ dedup l ↔ x ∈ l := by
  fun_induction dedup l with
  | case1 => rfl
  | case2 a => rfl
  | case3 a l ih => rw [ih]; simp
  | case4 a b l hab ih => simp only [List.mem_cons, ih]

/-- Sorted and then deduplicated, a list has no element twice. -/
theorem nodup_dedup {α : Type} [DecidableEq α] [PartialOrder α] {l : List α}
    (h : l.Pairwise (· ≤ ·)) : (dedup l).Nodup := by
  fun_induction dedup l with
  | case1 => exact List.nodup_nil
  | case2 a => simp
  | case3 a l ih => exact ih h.of_cons
  | case4 a b l hab ih =>
      refine List.nodup_cons.mpr ⟨?_, ih h.of_cons⟩
      rw [mem_dedup]
      intro ha
      have hab' : a ≤ b := List.rel_of_pairwise_cons h List.mem_cons_self
      have hba : b ≤ a := by
        rcases List.mem_cons.mp ha with rfl | ha
        · exact le_refl a
        · exact List.rel_of_pairwise_cons h.of_cons ha
      exact hab (le_antisymm hab' hba)

/-- `HashSet::insert` as a filter: of the elements with one key, the first that is not `seen`. -/
def firstOfKey {α κ : Type} [DecidableEq κ] (key : α → κ) : List κ → List α → List α
  | _, [] => []
  | seen, a :: l =>
      if key a ∈ seen then firstOfKey key seen l else a :: firstOfKey key (key a :: seen) l

/-- A piece of a formatted text: literal text, a number, or a value in its debug form, which is left
as the value. -/
inductive Piece where
  | text (s : String)
  | number (n : Int)
  | debug (s : String)
  | debugChar (c : Char)
deriving Repr, DecidableEq

/-- A formatted text. -/
abbrev Fmt := List Piece

instance : Coe String Piece := ⟨.text⟩
instance : Coe Int Piece := ⟨.number⟩
instance : Coe Nat Piece := ⟨fun n => .number n⟩

/-- A JSON value. -/
inductive Json where
  | null
  | bool (b : Bool)
  | num (n : Int)
  | real (q : Rat)
  | str (s : String)
  | arr (xs : List Json)
  | obj (fields : List (String × Json))

/-- The JSON printer and parser for a type of values, which are not the repository's own. -/
structure Serde (Value : Type) where
  toString : Value → Except String String
  fromStr : String → Except String Value

end Jkb
