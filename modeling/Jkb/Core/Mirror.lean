import Jkb.Core.Reviews

/-!
# Jkb.Core.Mirror

The names of a namespace across the `tasks/` mirror. What a rule about a namespace holds against is the list
of its names, so the rule is as good as the list: `mem_mirrorForms` says that two names are in one list if
they have one mirror, whatever their segments are called, `tasks` and `repos` among them.
-/

namespace Jkb.Reviews

open Jkb.Text

/-! ## sorted lists -/

theorem dedup_sublist {α : Type} [DecidableEq α] (xs : List α) : (dedup xs).Sublist xs := by
  fun_induction dedup xs with
  | case1 => exact List.Sublist.refl []
  | case2 a => exact List.Sublist.refl [a]
  | case3 a xs ih => exact ih.cons a
  | case4 a b xs hab ih => exact ih.cons_cons a

/-- Sorted and deduplicated, two lists of the same elements are one. -/
theorem dedup_eq_dedup {α : Type} [DecidableEq α] [PartialOrder α] {xs ys : List α}
    (hxs : xs.Pairwise (· ≤ ·)) (hys : ys.Pairwise (· ≤ ·)) (h : ∀ a, a ∈ xs ↔ a ∈ ys) : dedup xs = dedup ys := by
  have hperm : (dedup xs).Perm (dedup ys) := by
    rw [List.perm_ext_iff_of_nodup (nodup_dedup hxs) (nodup_dedup hys)]
    intro a
    rw [mem_dedup, mem_dedup, h]
  exact hperm.eq_of_pairwise (fun a b _ _ hab hba => le_antisymm hab hba)
    (hxs.sublist (dedup_sublist xs)) (hys.sublist (dedup_sublist ys))

/-! ## names of one namespace -/

/-- The mirror of a namespace, which is its own where it is under `tasks/`. -/
def mirrorOf (ns : Text) : Text := (tasksMirrorNs ns).getD ns

/-- What has a mirror is not under `tasks/`, and its mirror is. -/
theorem tasksMirrorNs_eq_some {home mirror : Text} (h : tasksMirrorNs home = some mirror) :
    ∃ rest, mirror = DEFAULT_ROOT ++ ['/'] ++ rest ∧ (home = "repos/".toList ++ rest ∨ home = rest) := by
  unfold tasksMirrorNs at h
  split at h
  · cases h
  · obtain rfl := Option.some.inj h
    refine ⟨_, by rw [List.append_assoc]; rfl, ?_⟩
    cases hrest : stripPrefix "repos/".toList home with
    | none => exact Or.inr rfl
    | some rest => exact Or.inl (stripPrefix_eq_some.mp hrest)

/-- What is under `tasks/` is its own mirror. -/
theorem tasksMirrorNs_root (rest : Text) : tasksMirrorNs (DEFAULT_ROOT ++ ['/'] ++ rest) = none :=
  if_pos (Or.inr (List.prefix_append _ _))

theorem mirrorOf_mirrorOf (ns : Text) : mirrorOf (mirrorOf ns) = mirrorOf ns := by
  cases h : tasksMirrorNs ns with
  | none => rw [mirrorOf, mirrorOf, h, Option.getD_none, h, Option.getD_none]
  | some mirror =>
      obtain ⟨rest, rfl, -⟩ := tasksMirrorNs_eq_some h
      rw [mirrorOf, mirrorOf, h, Option.getD_some, tasksMirrorNs_root, Option.getD_none]

/-- **The names of a namespace are those with its mirror.** -/
theorem mem_mirrorForms {x y : Text} : y ∈ mirrorForms x ↔ mirrorOf y = mirrorOf x := by
  rw [mirrorForms, mem_dedup, List.mem_insertionSort, List.mem_cons, List.mem_cons]
  show y = x ∨ y = mirrorOf x ∨ _ ↔ _
  constructor
  · rintro (rfl | rfl | hhome)
    · rfl
    · exact mirrorOf_mirrorOf x
    · split at hhome
      case h_1 rest _ =>
        have hy := of_decide_eq_true (List.mem_filter.mp hhome).2
        rw [mirrorOf, hy]
        rfl
      case h_2 => cases hhome
  · intro h
    cases hy : tasksMirrorNs y with
    | none =>
        refine Or.inr (Or.inl ?_)
        rw [← h, mirrorOf, hy, Option.getD_none]
    | some mirror =>
        have hmirror : mirrorOf x = mirror := by rw [← h, mirrorOf, hy, Option.getD_some]
        obtain ⟨rest, hrest, hhome⟩ := tasksMirrorNs_eq_some hy
        refine Or.inr (Or.inr ?_)
        rw [← mirrorOf, hmirror, stripPrefix_eq_some.mpr hrest]
        refine List.mem_filter.mpr ⟨?_, decide_eq_true hy⟩
        simpa using hhome

/-- Every name of a namespace has the same names. -/
theorem mirrorForms_eq {x y : Text} (h : y ∈ mirrorForms x) : mirrorForms y = mirrorForms x := by
  have hsame := mem_mirrorForms.mp h
  unfold mirrorForms
  refine dedup_eq_dedup (List.pairwise_insertionSort _ _) (List.pairwise_insertionSort _ _) fun a => ?_
  have ha : a ∈ mirrorForms y ↔ a ∈ mirrorForms x := by rw [mem_mirrorForms, mem_mirrorForms, hsame]
  rwa [mirrorForms, mirrorForms, mem_dedup, mem_dedup] at ha

/-! ## what a rule about a namespace reads -/

/-- The namespaces a round was recorded under or findings were filed into, each once. -/
def reviewNamespaces (s : Store) : List Text :=
  dedup ((s.rounds.rows.map (·.ns) ++ s.filings.rows.map (·.ns)).insertionSort (· ≤ ·))

/-- The round a name says a namespace is in: `repos/<repo>/codereviews/<folder>`, or its mirror. -/
def namedRound (form : Text) : Option Text :=
  match (form.splitOn '/').take 4 with
  | [root, repo, reviews, folder] =>
      if (root = "repos".toList ∨ root = DEFAULT_ROOT) ∧ reviews = "codereviews".toList ∧ repo ≠ [] ∧ folder ≠ [] then
        some (['/'].intercalate [root, repo, reviews, folder])
      else none
  | _ => none

/-- The review namespace that a namespace is or lies inside, if any: one filed or recorded, or one by name. -/
def reviewNamespaceContaining (s : Store) (ns : Text) : Option Text :=
  match (mirrorForms ns).findSome? fun candidate => (reviewNamespaces s).find? (isOrInside candidate) with
  | some known => some known
  | none => (mirrorForms ns).findSome? namedRound

/-- **The names of a namespace are one class.** A namespace is one of its names, each of them has the same names,
and so the rules about review namespaces and recorded rounds answer for one name as for another. -/
theorem mirrorForms_class (x : Text) :
    x ∈ mirrorForms x ∧ ∀ y ∈ mirrorForms x, mirrorForms y = mirrorForms x ∧ ∀ s : Store,
      ((reviewNamespaceContaining s y).isSome ↔ (reviewNamespaceContaining s x).isSome) ∧
        ((roundOverlapping s.rounds y).isSome ↔ (roundOverlapping s.rounds x).isSome) := by
  refine ⟨mem_mirrorForms.mpr rfl, fun y hy => ⟨mirrorForms_eq hy, fun s => ?_⟩⟩
  have hforms := mirrorForms_eq hy
  constructor
  · rw [reviewNamespaceContaining, reviewNamespaceContaining, hforms]
  · rw [roundOverlapping, roundOverlapping, hforms]

/-- A repository named `tasks`: its home has a mirror, which the bare name does not share. -/
example : mirrorForms "repos/tasks".toList = ["repos/tasks".toList, "tasks/tasks".toList] := by decide

end Jkb.Reviews
