import Mathlib.Data.List.Basic
import Mathlib.Logic.Relation

/-!
# Jkb.Worklist

Everything that a list of seeds leads to, computed with a worklist: what has been seen, and the stack
of what is still to be looked at. The closure is exact (`mem_closure`), and it ends on every finite
graph, cyclic or not, because a turn of the loop takes one element off the stack and puts on only
elements that had not been seen (`weight_turn`).

Generic over the elements and the successor function; the graph is finite in that all successors are
in one list.
-/

namespace Jkb.Worklist

open Relation

variable {α : Type*} [DecidableEq α]

/-- A closure under way: what has been seen, and what of it is still to be looked at. -/
structure Work (α : Type*) where
  seen : List α
  stack : List α

/-- See an element: it is stacked when it is new. -/
def Work.push (w : Work α) (a : α) : Work α :=
  if a ∈ w.seen then w else ⟨a :: w.seen, a :: w.stack⟩

/-- The work a list of seeds starts with. -/
def start (seeds : List α) : Work α := seeds.foldl Work.push ⟨[], []⟩

/-- One turn of the loop: look at the top of the stack. There is none when the stack is empty. -/
def turn (next : α → List α) (w : Work α) : Option (Work α) :=
  match w.stack with
  | [] => none
  | a :: stack => some ((next a).foldl Work.push { w with stack })

/-! ## what pushing does -/

theorem mem_seen_push {w : Work α} {a b : α} : b ∈ (w.push a).seen ↔ b ∈ w.seen ∨ b = a := by
  unfold Work.push
  split
  · constructor
    · exact Or.inl
    · grind
  · simp [or_comm]

theorem mem_stack_push {w : Work α} {a b : α} :
    b ∈ (w.push a).stack ↔ b ∈ w.stack ∨ (b = a ∧ a ∉ w.seen) := by
  unfold Work.push
  split <;> grind

theorem mem_seen_foldl {xs : List α} {w : Work α} {b : α} :
    b ∈ (xs.foldl Work.push w).seen ↔ b ∈ w.seen ∨ b ∈ xs := by
  induction xs generalizing w with
  | nil => simp
  | cons x xs ih =>
      rw [List.foldl_cons, ih, mem_seen_push, List.mem_cons]
      grind

theorem mem_stack_foldl {xs : List α} {w : Work α} {b : α} :
    b ∈ (xs.foldl Work.push w).stack ↔ b ∈ w.stack ∨ (b ∈ xs ∧ b ∉ w.seen) := by
  induction xs generalizing w with
  | nil => simp
  | cons x xs ih =>
      rw [List.foldl_cons, ih, mem_stack_push, mem_seen_push, List.mem_cons]
      grind

/-! ## the loop ends -/

theorem countP_lt_of_mem {univ seen : List α} {a : α} (ha : a ∈ univ) (hnew : a ∉ seen) :
    univ.countP (· ∉ a :: seen) < univ.countP (· ∉ seen) := by
  induction univ with
  | nil => cases ha
  | cons x xs ih =>
      have hle : xs.countP (· ∉ a :: seen) ≤ xs.countP (· ∉ seen) :=
        List.countP_mono_left fun b _ hb => by simp at hb ⊢; exact hb.2
      rw [List.countP_cons, List.countP_cons]
      by_cases hx : x = a
      · subst hx
        rw [if_neg (by simp), if_pos (by simpa using hnew)]
        omega
      · have hlt := ih ((List.mem_cons.mp ha).resolve_left fun h => hx h.symm)
        simp only [List.mem_cons, hx, false_or] at hlt ⊢
        omega

/-- What is left to do at most: the elements not seen yet, and those on the stack. -/
def weight (univ : List α) (w : Work α) : Nat :=
  univ.countP (· ∉ w.seen) + w.stack.length

theorem weight_push {univ : List α} {w : Work α} {a : α} (ha : a ∈ univ) :
    weight univ (w.push a) ≤ weight univ w := by
  unfold Work.push
  split
  · exact Nat.le_refl _
  · rename_i hnew
    have hlt := @countP_lt_of_mem _ _ univ w.seen a ha hnew
    simp only [weight, List.length_cons]
    omega

theorem weight_foldl {univ xs : List α} {w : Work α} (h : ∀ a ∈ xs, a ∈ univ) :
    weight univ (xs.foldl Work.push w) ≤ weight univ w := by
  induction xs generalizing w with
  | nil => exact Nat.le_refl _
  | cons x xs ih =>
      have htail := @ih (w.push x) fun a ha => h a (List.mem_cons_of_mem _ ha)
      have hhead := @weight_push _ _ univ w x (h x List.mem_cons_self)
      exact Nat.le_trans htail hhead

/-- **A turn leaves less to do.** -/
theorem weight_turn {next : α → List α} {univ : List α} (hnext : ∀ a, ∀ b ∈ next a, b ∈ univ)
    {w w' : Work α} (h : turn next w = some w') : weight univ w' < weight univ w := by
  unfold turn at h
  split at h
  · cases h
  · rename_i a stack hstack
    obtain rfl := Option.some.inj h
    have hle := @weight_foldl _ _ univ (next a) { w with stack } (hnext a)
    have hpop : weight univ { w with stack } < weight univ w := by
      simp [weight, hstack]
    exact Nat.lt_of_le_of_lt hle hpop

/-- **The loop ends**, from any work, on any finite graph. -/
theorem wellFounded_turn {next : α → List α} {univ : List α} (hnext : ∀ a, ∀ b ∈ next a, b ∈ univ) :
    WellFounded fun w' w : Work α => turn next w = some w' :=
  Subrelation.wf (fun h => weight_turn hnext h) (measure (weight univ)).wf

/-- Run the loop until the stack is empty: what has been seen then. -/
def run (next : α → List α) (univ : List α) (hnext : ∀ a, ∀ b ∈ next a, b ∈ univ) (w : Work α) :
    List α :=
  match _h : turn next w with
  | none => w.seen
  | some w' => run next univ hnext w'
termination_by weight univ w
decreasing_by exact weight_turn hnext _h

/-- Everything that the seeds lead to. -/
def closure (next : α → List α) (univ : List α) (hnext : ∀ a, ∀ b ∈ next a, b ∈ univ)
    (seeds : List α) : List α := run next univ hnext (start seeds)

/-! ## the loop is exact -/

/-- Whether an element is led to from a seed. -/
def Reached (next : α → List α) (seeds : List α) (a : α) : Prop :=
  ∃ s ∈ seeds, ReflTransGen (fun x y => y ∈ next x) s a

/-- What holds between turns: the seeds have been seen, only what they lead to has been, and what is
not on the stack any more has had its successors seen. -/
structure Sound (next : α → List α) (seeds : List α) (w : Work α) : Prop where
  seeded : ∀ s ∈ seeds, s ∈ w.seen
  reached : ∀ a ∈ w.seen, Reached next seeds a
  stacked : ∀ a ∈ w.stack, a ∈ w.seen
  closed : ∀ a ∈ w.seen, a ∉ w.stack → ∀ b ∈ next a, b ∈ w.seen

variable {next : α → List α} {seeds : List α}

theorem sound_start : Sound next seeds (start seeds) := by
  constructor
  · intro s hs
    exact mem_seen_foldl.mpr (Or.inr hs)
  · intro a ha
    rcases mem_seen_foldl.mp ha with ha | ha
    · cases ha
    · exact ⟨a, ha, .refl⟩
  · intro a ha
    rcases mem_stack_foldl.mp ha with ha | ⟨ha, -⟩
    · cases ha
    · exact mem_seen_foldl.mpr (Or.inr ha)
  · intro a ha hstack
    rcases mem_seen_foldl.mp ha with ha | ha
    · cases ha
    · exact absurd (mem_stack_foldl.mpr (Or.inr ⟨ha, by simp⟩)) hstack

/-- **One turn** keeps the work sound. -/
theorem Sound.turn {w w' : Work α} (h : Sound next seeds w) (hturn : turn next w = some w') :
    Sound next seeds w' := by
  unfold Worklist.turn at hturn
  split at hturn
  · cases hturn
  · rename_i a stack hstack
    obtain rfl := Option.some.inj hturn
    have ha : a ∈ w.seen := h.stacked a (by rw [hstack]; exact List.mem_cons_self)
    constructor
    · intro s hs
      exact mem_seen_foldl.mpr (Or.inl (h.seeded s hs))
    · intro b hb
      rcases mem_seen_foldl.mp hb with hb | hb
      · exact h.reached b hb
      · obtain ⟨s, hs, hpath⟩ := h.reached a ha
        exact ⟨s, hs, hpath.tail hb⟩
    · intro b hb
      rcases mem_stack_foldl.mp hb with hb | ⟨hb, -⟩
      · exact mem_seen_foldl.mpr (Or.inl (h.stacked b (by rw [hstack]; exact List.mem_cons_of_mem _ hb)))
      · exact mem_seen_foldl.mpr (Or.inr hb)
    · intro b hb hoff c hc
      rw [mem_stack_foldl, not_or] at hoff
      -- an element that is new is on the stack
      have hseen : b ∈ w.seen := by
        rcases mem_seen_foldl.mp hb with hb | hb
        · exact hb
        · by_contra hfresh
          exact hoff.2 ⟨hb, hfresh⟩
      by_cases hba : b = a
      · exact mem_seen_foldl.mpr (Or.inr (hba ▸ hc))
      · have hold : b ∉ w.stack := by
          rw [hstack, List.mem_cons]
          exact not_or.mpr ⟨hba, hoff.1⟩
        exact mem_seen_foldl.mpr (Or.inl (h.closed b hseen hold c hc))

omit [DecidableEq α] in
/-- With nothing left on the stack, what has been seen is what the seeds lead to. -/
theorem Sound.mem_seen {w : Work α} (h : Sound next seeds w) (hdone : w.stack = []) {a : α} :
    a ∈ w.seen ↔ Reached next seeds a := by
  constructor
  · exact h.reached a
  · intro ⟨s, hs, hpath⟩
    induction hpath with
    | refl => exact h.seeded s hs
    | tail _ hstep ih => exact h.closed _ ih (by rw [hdone]; exact List.not_mem_nil) _ hstep

theorem mem_run {univ : List α} {hnext : ∀ a, ∀ b ∈ next a, b ∈ univ} {w : Work α}
    (h : Sound next seeds w) {a : α} : a ∈ run next univ hnext w ↔ Reached next seeds a := by
  induction w using run.induct next univ hnext with
  | case1 w hdone =>
      have hstack : w.stack = [] := by
        unfold Worklist.turn at hdone
        split at hdone
        · assumption
        · cases hdone
      rw [run, hdone]
      exact h.mem_seen hstack
  | case2 w w' hturn ih =>
      rw [run, hturn]
      exact ih (h.turn hturn)

/-- **The closure is exact**: it holds what the seeds lead to, and nothing else. -/
theorem mem_closure {univ : List α} {hnext : ∀ a, ∀ b ∈ next a, b ∈ univ} {a : α} :
    a ∈ closure next univ hnext seeds ↔ Reached next seeds a := mem_run sound_start

end Jkb.Worklist
