import Mathlib.Data.List.Perm.Basic

/-!
# Jkb.Settle

Passes that settle. Some passes over one state settle it if each made twice is the pass made once, and any two
of them come to the same in either order. Then all of them come to the same in every order, and a round of
them made twice is the round made once.
-/

namespace Jkb

/-- Idempotent passes that commute, among the passes of a family. -/
structure Settles {ι α : Type*} (p : ι → Prop) (f : ι → α → α) : Prop where
  once : ∀ i, p i → ∀ a, f i (f i a) = f i a
  swap : ∀ i j, p i → p j → ∀ a, f i (f j a) = f j (f i a)

namespace Settles

variable {ι α : Type*} {p : ι → Prop} {f : ι → α → α}

/-- The passes of a list, one after the other. -/
def round (f : ι → α → α) (is : List ι) (a : α) : α := is.foldl (fun a i => f i a) a

@[simp] theorem round_nil (a : α) : round f [] a = a := rfl

@[simp] theorem round_cons (i : ι) (is : List ι) (a : α) : round f (i :: is) a = round f is (f i a) := rfl

theorem round_append (is js : List ι) (a : α) : round f (is ++ js) a = round f js (round f is a) :=
  List.foldl_append

/-- **The order does not matter.** -/
theorem round_perm (h : Settles p f) {is js : List ι} (hperm : is.Perm js) (his : ∀ i ∈ is, p i) (a : α) :
    round f is a = round f js a := by
  induction hperm generalizing a with
  | nil => rfl
  | cons i _ ih => exact ih (fun j hj => his j (List.mem_cons_of_mem _ hj)) (f i a)
  | swap i j is =>
      rw [round_cons, round_cons, round_cons, round_cons, h.swap i j]
      · exact his i (List.mem_cons_of_mem _ List.mem_cons_self)
      · exact his j List.mem_cons_self
  | trans hperm _ ih₁ ih₂ =>
      exact (ih₁ his a).trans (ih₂ (fun i hi => his i (hperm.mem_iff.mpr hi)) a)

theorem round_swap (h : Settles p f) {i : ι} (hi : p i) {is : List ι} (his : ∀ j ∈ is, p j) (a : α) :
    round f is (f i a) = f i (round f is a) := by
  induction is generalizing a with
  | nil => rfl
  | cons j is ih =>
      rw [round_cons, round_cons, h.swap j i (his j List.mem_cons_self) hi,
        ih fun k hk => his k (List.mem_cons_of_mem _ hk)]

/-- A pass of a round, made again after it, changes nothing. -/
theorem pass_round (h : Settles p f) {is : List ι} (his : ∀ j ∈ is, p j) {i : ι} (hi : i ∈ is) (a : α) :
    f i (round f is a) = round f is a := by
  induction is generalizing a with
  | nil => exact absurd hi List.not_mem_nil
  | cons j is ih =>
      have hrest := fun k hk => his k (List.mem_cons_of_mem j hk)
      rcases List.mem_cons.mp hi with rfl | hi
      · rw [round_cons, h.round_swap (his i List.mem_cons_self) hrest, h.once i (his i List.mem_cons_self)]
      · exact ih hrest hi (f j a)

/-- **A further round changes nothing**, whatever its order. -/
theorem round_round (h : Settles p f) {is : List ι} (his : ∀ j ∈ is, p j) {js : List ι}
    (hjs : ∀ j ∈ js, j ∈ is) (a : α) : round f js (round f is a) = round f is a := by
  induction js with
  | nil => rfl
  | cons j js ih =>
      rw [round_cons, h.pass_round his (hjs j List.mem_cons_self)]
      exact ih fun k hk => hjs k (List.mem_cons_of_mem _ hk)

end Settles

end Jkb
