import Mathlib.Data.List.Basic

/-!
# Jkb.Slices

A list cut into chunks of at most so many elements, for calls that take no more at a time.
-/

namespace Jkb.Slices

variable {α : Type}

/-- `[T]::chunks`. -/
def chunks (n : Nat) (l : List α) : List (List α) :=
  (List.range ((l.length + n - 1) / n)).map fun i => (l.drop (i * n)).take n

/-- **The chunks of a list**, one after the other, are the list. -/
theorem flatten_chunks {n : Nat} (hn : 0 < n) (l : List α) : (chunks n l).flatten = l := by
  have htake : ∀ k, ((List.range k).map fun i => (l.drop (i * n)).take n).flatten = l.take (k * n) := by
    intro k
    induction k with
    | zero => simp
    | succ k ih =>
        rw [List.range_succ, List.map_append, List.flatten_append, ih, Nat.succ_mul, List.take_add]
        simp
  rw [chunks, htake]
  refine List.take_of_length_le ?_
  have := Nat.lt_mul_div_succ (l.length + n - 1) hn
  rw [Nat.mul_comm, Nat.add_mul] at this
  omega

/-- A chunk is not empty and not too long. -/
theorem length_of_mem_chunks {n : Nat} {l c : List α} (h : c ∈ chunks n l) :
    c ≠ [] ∧ c.length ≤ n := by
  obtain ⟨i, hi, rfl⟩ := List.mem_map.mp h
  refine ⟨fun hnil => ?_, List.length_take_le _ _⟩
  have hlt := List.mem_range.mp hi
  have hlen := congrArg List.length hnil
  rw [List.length_take, List.length_drop, List.length_nil] at hlen
  rcases Nat.eq_zero_or_pos n with rfl | hn
  · simp at hlt
  · have := (Nat.le_div_iff_mul_le hn).mp hlt
    rw [Nat.succ_mul] at this
    omega

/-- What is in a list is in a chunk of it. -/
theorem mem_chunks {n : Nat} (hn : 0 < n) {l : List α} {a : α} :
    a ∈ l ↔ ∃ c ∈ chunks n l, a ∈ c := by
  rw [← List.mem_flatten, flatten_chunks hn]

end Jkb.Slices
