import Jkb.Run
import Mathlib.Data.Set.Basic
import Mathlib.Order.Defs.LinearOrder

/-!
# Jkb.Log

A log with consumer groups, in its own terms: a set of held messages, each with a place in a linear
order, and a committed position for every group that exists. This is what a retained stream is for,
with no word about how either is stored: a message may go once every group is past it, and a stream
nobody reads keeps everything.

`Lossless` says that of one step. It allows groups to come and go and positions to advance, several
at once, so one operation of an implementation is one step whatever it touches.
-/

namespace Jkb.Log

open Run

variable {G M P : Type*} [LinearOrder P]

/-- Messages held, and the position each existing group has committed. -/
structure GroupLog (G M P : Type*) where
  held : Set M
  pos : G → Option P

/-- Every group is past `m`, and there is at least one. -/
def Consumed (seq : M → P) (l : GroupLog G M P) (m : M) : Prop :=
  (∃ g p, l.pos g = some p) ∧ ∀ g p, l.pos g = some p → seq m ≤ p

/-- `g` exists and has not reached `m`. -/
def Unread (seq : M → P) (l : GroupLog G M P) (g : G) (m : M) : Prop :=
  ∃ p, l.pos g = some p ∧ p < seq m

/-- A step that loses nothing: what it drops, every group it leaves behind has consumed, and no
position moves back. -/
structure Lossless (seq : M → P) (l l' : GroupLog G M P) : Prop where
  reaped : ∀ m ∈ l.held, m ∉ l'.held → Consumed seq l' m
  forward : ∀ g p p', l.pos g = some p → l'.pos g = some p' → p ≤ p'

variable {seq : M → P} {l l' : GroupLog G M P}

theorem Lossless.refl (seq : M → P) (l : GroupLog G M P) : Lossless seq l l where
  reaped _ hm hm' := absurd hm hm'
  forward _ _ _ hp hp' := by
    rw [hp] at hp'
    exact le_of_eq (Option.some.inj hp')

/-- A step that drops nothing and moves no position back is lossless, whoever joins or leaves. -/
theorem Lossless.of_subset (hheld : ∀ m ∈ l.held, m ∈ l'.held)
    (hpos : ∀ g p p', l.pos g = some p → l'.pos g = some p' → p ≤ p') : Lossless seq l l' where
  reaped m hm hm' := absurd (hheld m hm) hm'
  forward := hpos

/-- Two steps are lossless together when the second leaves every position alone. -/
theorem Lossless.trans_of_pos {l'' : GroupLog G M P} (h : Lossless seq l l')
    (h' : Lossless seq l' l'') (hpos : ∀ g, l''.pos g = l'.pos g) : Lossless seq l l'' where
  reaped m hm hgone := by
    by_cases hm' : m ∈ l'.held
    · exact h'.reaped m hm' hgone
    · obtain ⟨⟨g, p, hp⟩, hle⟩ := h.reaped m hm hm'
      exact ⟨⟨g, p, (hpos g).trans hp⟩, fun g p hp => hle g p ((hpos g).symm.trans hp)⟩
  forward g p p' hp hp' := h.forward g p p' hp ((hpos g).symm.trans hp')

/-- What a group that stays has still to read is not dropped. -/
theorem Lossless.held_of_unread (h : Lossless seq l l') {g : G} {m : M} (hm : m ∈ l.held)
    (hu : Unread seq l' g m) : m ∈ l'.held := by
  obtain ⟨p, hp, hlt⟩ := hu
  by_contra hgone
  exact absurd ((h.reaped m hm hgone).2 g p hp) (not_le.mpr hlt)

/-! ## Runs -/

/-- The step that moves `g` from before `m` to `m` or past it. -/
def Passes {σ ω : Type*} (next : σ → ω → σ) (view : σ → GroupLog G M P) (seq : M → P) (g : G) (m : M)
    (s : σ) (o : ω) : Prop :=
  ∃ p', (view (next s o)).pos g = some p' ∧ seq m ≤ p'

/-- **Nothing is skipped.** In a run of lossless steps, a message that a group has yet to read stays
held as long as the group exists, until a step moves the group's own position past it. -/
theorem held_until {σ ω : Type*} {next : σ → ω → σ} {view : σ → GroupLog G M P} {Inv : σ → Prop}
    (hinv : ∀ s o, Inv s → Inv (next s o))
    (hstep : ∀ s o, Inv s → Lossless seq (view s) (view (next s o)))
    {s : σ} {ops : List ω} {g : G} {m : M} (hs : Inv s)
    (hg : Throughout next (fun s => (view s).pos g ≠ none) s ops)
    (hm : m ∈ (view s).held) (hu : Unread seq (view s) g m) :
    (m ∈ (view (run next s ops)).held ∧ Unread seq (view (run next s ops)) g m) ∨
      ∃ before o after, ops = before ++ o :: after ∧
        (m ∈ (view (run next s before)).held ∧ Unread seq (view (run next s before)) g m) ∧
        Passes next view seq g m (run next s before) o := by
  refine run_until (Q := fun s => m ∈ (view s).held ∧ Unread seq (view s) g m) hinv ?_ hs hg ⟨hm, hu⟩
  rintro s o hs - hg' ⟨hm, -⟩ hends
  obtain ⟨p', hp'⟩ := Option.ne_none_iff_exists'.mp hg'
  have hu' : Unread seq (view (next s o)) g m :=
    ⟨p', hp', not_le.mp fun hle => hends ⟨p', hp', hle⟩⟩
  exact ⟨(hstep s o hs).held_of_unread hm hu', hu'⟩

end Jkb.Log
