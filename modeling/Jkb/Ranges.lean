import Mathlib.Data.List.Basic

/-!
# Jkb.Ranges

Half-open ranges of positions over a list, and what of the list they cover.

A list is written from sorted ranges by going over them once with a cursor, each range from the cursor on.
`Swept` is what the cursor says of the ranges gone over: what of the next one comes before it was covered
already.
-/

namespace Jkb.Ranges

variable {α : Type}

/-! ## the elements at some positions -/

/-- The elements of a list at the positions that `p` holds of, in order; the list begins at position `k`. -/
def pick (p : Nat → Bool) : Nat → List α → List α
  | _, [] => []
  | k, x :: xs => if p k then x :: pick p (k + 1) xs else pick p (k + 1) xs

theorem pick_append (p : Nat → Bool) (k : Nat) (xs ys : List α) :
    pick p k (xs ++ ys) = pick p k xs ++ pick p (k + xs.length) ys := by
  induction xs generalizing k with
  | nil => rfl
  | cons x xs ih =>
      rw [List.cons_append, pick, pick, ih, List.length_cons, Nat.add_right_comm k 1, Nat.add_assoc]
      split <;> rfl

theorem pick_sublist (p : Nat → Bool) (k : Nat) (xs : List α) : (pick p k xs).Sublist xs := by
  induction xs generalizing k with
  | nil => exact List.Sublist.refl []
  | cons x xs ih =>
      rw [pick]
      split
      · exact (ih (k + 1)).cons_cons x
      · exact (ih (k + 1)).cons x

theorem pick_congr {p q : Nat → Bool} {k : Nat} {xs : List α}
    (h : ∀ i, k ≤ i → i < k + xs.length → p i = q i) : pick p k xs = pick q k xs := by
  induction xs generalizing k with
  | nil => rfl
  | cons x xs ih =>
      have hrest : pick p (k + 1) xs = pick q (k + 1) xs := by
        refine ih fun i hi hlt => h i (by omega) ?_
        rw [List.length_cons]
        omega
      rw [pick, pick, h k (Nat.le_refl k) (by simp), hrest]

/-- Positions counted from further on. -/
theorem pick_shift (p : Nat → Bool) (m k : Nat) (xs : List α) :
    pick p (k + m) xs = pick (fun i => p (i + m)) k xs := by
  induction xs generalizing k with
  | nil => rfl
  | cons x xs ih => rw [pick, pick, Nat.add_right_comm k m, ih]

theorem pick_eq_nil {p : Nat → Bool} {k : Nat} {xs : List α}
    (h : ∀ i, k ≤ i → i < k + xs.length → p i = false) : pick p k xs = [] := by
  induction xs generalizing k with
  | nil => rfl
  | cons x xs ih =>
      rw [pick, h k (Nat.le_refl k) (by simp), if_neg Bool.false_ne_true]
      refine ih fun i hi hlt => h i (by omega) ?_
      rw [List.length_cons]
      omega

theorem pick_eq_self {p : Nat → Bool} {k : Nat} {xs : List α}
    (h : ∀ i, k ≤ i → i < k + xs.length → p i = true) : pick p k xs = xs := by
  induction xs generalizing k with
  | nil => rfl
  | cons x xs ih =>
      rw [pick, h k (Nat.le_refl k) (by simp), if_pos rfl, ih]
      intro i hi hlt
      refine h i (by omega) ?_
      rw [List.length_cons]
      omega

/-- **What is picked is what is picked before a position, and from it on.** -/
theorem pick_split (p : Nat → Bool) (m k : Nat) (xs : List α) :
    pick p k xs = pick (fun i => p i && i < m) k xs ++ pick (fun i => p i && m ≤ i) k xs := by
  induction xs generalizing k with
  | nil => rfl
  | cons x xs ih =>
      by_cases hk : k < m
      · rw [pick, pick, pick, ih]
        cases p k <;> simp [hk]
      · have hnone : pick (fun i => p i && i < m) k (x :: xs) = [] := by
          refine pick_eq_nil fun i hi _ => ?_
          have him : ¬ i < m := by omega
          simp [him]
        rw [hnone, List.nil_append]
        refine pick_congr fun i hi _ => ?_
        have him : m ≤ i := by omega
        simp [him]

/-! ## what ranges cover -/

/-- A position is in one of some ranges. -/
def covered (rs : List (Nat × Nat)) (i : Nat) : Bool := rs.any fun r => r.1 ≤ i && i < r.2

theorem covered_iff {rs : List (Nat × Nat)} {i : Nat} : covered rs i = true ↔ ∃ r ∈ rs, r.1 ≤ i ∧ i < r.2 := by
  simp [covered]

theorem covered_concat (rs : List (Nat × Nat)) (r : Nat × Nat) (i : Nat) :
    covered (rs ++ [r]) i = (covered rs i || (r.1 ≤ i && i < r.2)) := by
  simp [covered]

theorem covered_perm {rs rs' : List (Nat × Nat)} (h : rs.Perm rs') (i : Nat) : covered rs i = covered rs' i := by
  rw [Bool.eq_iff_iff, covered_iff, covered_iff]
  simp only [h.mem_iff]

/-- **The cursor behind some ranges**: it is where one of them ends, and none of them goes on. -/
structure Swept (rs : List (Nat × Nat)) (cursor : Nat) : Prop where
  stop : ∀ r ∈ rs, r.1 < r.2 → r.2 ≤ cursor
  reached : cursor = 0 ∨ ∃ r ∈ rs, r.2 = cursor

theorem swept_nil : Swept [] 0 := ⟨fun _ hr => absurd hr List.not_mem_nil, Or.inl rfl⟩

/-- Nothing is covered from the cursor on. -/
theorem Swept.covered_eq_false {rs : List (Nat × Nat)} {cursor i : Nat} (h : Swept rs cursor) (hi : cursor ≤ i) :
    covered rs i = false := by
  rw [Bool.eq_false_iff]
  intro hcov
  obtain ⟨r, hr, hle, hlt⟩ := covered_iff.mp hcov
  have := h.stop r hr (by omega)
  omega

/-- A range that begins no earlier than those gone over covers nothing new before the cursor. -/
theorem Swept.covered_concat_of_lt {rs : List (Nat × Nat)} {r : Nat × Nat} {cursor i : Nat}
    (h : Swept rs cursor) (hsort : ∀ q ∈ rs, q.1 ≤ r.1) (hi : i < cursor) :
    covered (rs ++ [r]) i = covered rs i := by
  rw [covered_concat, Bool.or_eq_left_iff_imp, Bool.and_eq_true, decide_eq_true_eq, decide_eq_true_eq]
  rintro ⟨hle, -⟩
  rcases h.reached with hzero | ⟨q, hq, hstop⟩
  · omega
  · have := hsort q hq
    exact covered_iff.mpr ⟨q, hq, by omega, by omega⟩

theorem Swept.covered_concat_of_le {rs : List (Nat × Nat)} {r : Nat × Nat} {cursor i : Nat}
    (h : Swept rs cursor) (hi : cursor ≤ i) : covered (rs ++ [r]) i = (r.1 ≤ i && i < r.2 : Bool) := by
  rw [covered_concat, h.covered_eq_false hi, Bool.false_or]

/-- The cursor stays before a range that ends at it or is empty. -/
theorem Swept.concat_of_le {rs : List (Nat × Nat)} {r : Nat × Nat} {cursor : Nat} (h : Swept rs cursor)
    (hr : r.2 ≤ max r.1 cursor) : Swept (rs ++ [r]) cursor := by
  constructor
  · intro q hq hlt
    rcases List.mem_append.mp hq with hq | hq
    · exact h.stop q hq hlt
    · obtain rfl := List.mem_singleton.mp hq
      omega
  · exact h.reached.imp_right fun ⟨q, hq, hstop⟩ => ⟨q, List.mem_append_left _ hq, hstop⟩

/-- The cursor goes on to the end of a range. -/
theorem Swept.concat_of_lt {rs : List (Nat × Nat)} {r : Nat × Nat} {cursor : Nat} (h : Swept rs cursor)
    (hr : max r.1 cursor < r.2) : Swept (rs ++ [r]) r.2 := by
  constructor
  · intro q hq hlt
    rcases List.mem_append.mp hq with hq | hq
    · have := h.stop q hq hlt
      omega
    · obtain rfl := List.mem_singleton.mp hq
      exact Nat.le_refl _
  · exact Or.inr ⟨r, List.mem_append_right _ List.mem_cons_self, rfl⟩

/-! ## slices -/

/-- The elements from position `start` up to `stop`. -/
def slice (xs : List α) (start stop : Nat) : List α := (xs.take stop).drop start

theorem length_slice {xs : List α} {start stop : Nat} (h : stop ≤ xs.length) :
    (slice xs start stop).length = stop - start := by
  rw [slice, List.length_drop, List.length_take, Nat.min_eq_left h]

/-- **A slice is what is picked between its bounds.** -/
theorem pick_slice (xs : List α) (start stop : Nat) :
    pick (fun i => start ≤ i && i < stop) 0 xs = slice xs start stop := by
  have hlen : (xs.take stop).length ≤ stop := by
    rw [List.length_take]
    exact Nat.min_le_left _ _
  have hafter : pick (fun i => start ≤ i && i < stop) (0 + (xs.take stop).length) (xs.drop stop) = [] := by
    refine pick_eq_nil fun i hi hlt => ?_
    rw [List.length_take, List.length_drop] at hlt
    rw [List.length_take] at hi
    have hstop : ¬ i < stop := by omega
    simp [hstop]
  have hbefore : pick (fun i => start ≤ i && i < stop) 0 ((xs.take stop).take start) = [] := by
    refine pick_eq_nil fun i _ hlt => ?_
    rw [List.length_take] at hlt
    have hstart : ¬ start ≤ i := by omega
    simp [hstart]
  have hin : pick (fun i => start ≤ i && i < stop) (0 + ((xs.take stop).take start).length)
      ((xs.take stop).drop start) = (xs.take stop).drop start := by
    refine pick_eq_self fun i hi hlt => ?_
    rw [List.length_drop] at hlt
    rw [List.length_take] at hi hlt
    have hstart : start ≤ i := by omega
    have hstop : i < stop := by omega
    simp [hstart, hstop]
  calc pick (fun i => start ≤ i && i < stop) 0 xs
      = pick (fun i => start ≤ i && i < stop) 0 (xs.take stop) := by
        conv_lhs => rw [← List.take_append_drop stop xs, pick_append, hafter, List.append_nil]
    _ = slice xs start stop := by
        conv_lhs => rw [← List.take_append_drop start (xs.take stop), pick_append, hbefore, List.nil_append, hin]
        rfl

end Jkb.Ranges
