import Jkb.Rbac
import Mathlib.Data.List.Dedup
import Mathlib.Data.List.Nodup

/-!
# Jkb.Rbac.Runtime

Tables that are built at run time. A grant and a revocation change the first row of their role, the one that
counts, and so what the table permits by one pair. Where no role has two rows, the order of the rows decides
nothing but the order in which a refusal lists roles.
-/

namespace Jkb.Rbac

/-- Two decisions that differ at most in the order in which a refusal lists roles. -/
def Decision.Alike : Decision → Decision → Prop
  | .allow, .allow => True
  | .deny a, .deny b => a.reason = b.reason ∧ a.allowedRoles.Perm b.allowedRoles
  | _, _ => False

namespace RoleTable

variable {R P : Type*} [DecidableEq R]

/-! ## the first row of a role -/

/-- A change of a role's first row is seen under that role only. -/
theorem find?_modify (rows : List (Grant R P)) (f : Grant R P → Grant R P) (hf : ∀ g, (f g).role = g.role)
    (role r : R) :
    (rows.modify (rows.findIdx (·.role = role)) f).find? (·.role = r) =
      if r = role then (rows.find? (·.role = r)).map f else rows.find? (·.role = r) := by
  induction rows with
  | nil => simp
  | cons g rows ih =>
      by_cases hg : g.role = role
      · rw [List.findIdx_cons, decide_eq_true hg, cond_true, List.modify_zero_cons, List.find?_cons, List.find?_cons,
          hf]
        by_cases hr : g.role = r
        · simp [hr, hr.symm.trans hg]
        · have hne : r ≠ role := fun h => hr (hg.trans h.symm)
          simp [hr, hne]
      · rw [List.findIdx_cons, decide_eq_false hg, cond_false, List.modify_succ_cons, List.find?_cons,
          List.find?_cons, ih]
        by_cases hr : g.role = r
        · have hne : r ≠ role := fun h => hg (hr.trans h)
          simp [hr, hne]
        · simp [hr]

theorem any_role_eq {t : RoleTable R P} {role : R} :
    t.grants.any (·.role = role) = (t.grants.find? (·.role = role)).isSome := by
  rw [Bool.eq_iff_iff, List.any_eq_true, List.find?_isSome]

variable [DecidableEq P]

/-- What a grant lets a role do. -/
theorem permissionsOf_grant (t : RoleTable R P) (role : R) (permission : P) (r : R) :
    (t.grant role permission).permissionsOf r =
      if r = role ∧ permission ∉ t.permissionsOf r then t.permissionsOf r ++ [permission]
      else t.permissionsOf r := by
  unfold grant permissionsOf
  rw [any_role_eq]
  cases hrow : t.grants.find? (·.role = role) with
  | none =>
      rw [Option.isSome_none, if_neg Bool.false_ne_true, List.find?_append]
      by_cases hr : r = role
      · subst hr
        simp [hrow]
      · simp [hr, Ne.symm hr]
  | some g =>
      rw [Option.isSome_some, if_pos rfl]
      rw [find?_modify _ _ fun g => by split <;> rfl]
      by_cases hr : r = role
      · subst hr
        by_cases hp : permission ∈ g.permits <;> simp [hrow, hp]
      · simp [hr]

/-- What a revocation leaves a role. -/
theorem permissionsOf_revoke (t : RoleTable R P) (role : R) (permission : P) (r : R) :
    (t.revoke role permission).permissionsOf r =
      if r = role then (t.permissionsOf r).filter (· ≠ permission) else t.permissionsOf r := by
  unfold revoke permissionsOf
  rw [find?_modify t.grants (fun g => { g with permits := g.permits.filter (· ≠ permission) }) fun _ => rfl]
  by_cases hr : r = role
  · subst hr
    cases t.grants.find? (·.role = r) <;> simp
  · simp [hr]

/-- **A grant adds one pair.** -/
theorem permits_grant (t : RoleTable R P) (role : R) (permission : P) (r : R) (p : P) :
    (t.grant role permission).permits r p = true ↔ t.permits r p = true ∨ r = role ∧ p = permission := by
  unfold permits
  rw [permissionsOf_grant]
  split <;> grind

/-- **A revocation takes one pair away.** -/
theorem permits_revoke (t : RoleTable R P) (role : R) (permission : P) (r : R) (p : P) :
    (t.revoke role permission).permits r p = true ↔ t.permits r p = true ∧ ¬ (r = role ∧ p = permission) := by
  unfold permits
  rw [permissionsOf_revoke]
  split <;> grind

/-! ## who would be allowed -/

/-- A role that holds a permission has a row. -/
theorem role_mem_of_permits {t : RoleTable R P} {role : R} {p : P} (h : t.permits role p = true) :
    role ∈ t.grants.map (·.role) := by
  unfold permits permissionsOf at h
  cases hrow : t.grants.find? (·.role = role) with
  | none => simp [hrow] at h
  | some g =>
      have hrole : g.role = role := by simpa using List.find?_some hrow
      exact hrole ▸ List.mem_map_of_mem (List.mem_of_find?_eq_some hrow)

theorem mem_rolesFor {t : RoleTable R P} {role : R} {p : P} :
    role ∈ t.rolesFor p ↔ t.permits role p = true := by
  rw [rolesFor, List.mem_filter, List.mem_eraseDups, and_iff_right_iff_imp]
  exact role_mem_of_permits

theorem nodup_eraseDups : (roles : List R) → roles.eraseDups.Nodup
  | [] => List.nodup_nil
  | r :: roles => by
      rw [List.eraseDups_cons, List.nodup_cons]
      refine ⟨fun hmem => ?_, nodup_eraseDups _⟩
      have hne := (List.mem_filter.mp (List.mem_eraseDups.mp hmem)).2
      simp at hne
termination_by roles => roles.length
decreasing_by exact Nat.lt_succ_of_le (List.length_filter_le _ _)

theorem nodup_rolesFor (t : RoleTable R P) (p : P) : (t.rolesFor p).Nodup :=
  (nodup_eraseDups _).filter _

/-! ## the order of the rows -/

/-- Rows that no role has two of. -/
theorem nodup_of_rowDefects (seen : List R) {rows : List (Grant R P)}
    (h : ∀ role, .duplicateRole role ∉ rowDefects seen rows) :
    (rows.map (·.role)).Nodup ∧ ∀ g ∈ rows, g.role ∉ seen := by
  induction rows generalizing seen with
  | nil => exact ⟨List.nodup_nil, fun _ hg => absurd hg List.not_mem_nil⟩
  | cons g rows ih =>
      have hseen : g.role ∉ seen := by
        intro hmem
        refine h g.role ?_
        rw [rowDefects, if_pos hmem]
        simp
      obtain ⟨hnodup, hrest⟩ := ih (g.role :: seen) fun role hmem => h role (by
        rw [rowDefects]
        exact List.mem_append_right _ hmem)
      rw [List.map_cons, List.nodup_cons]
      refine ⟨⟨fun hmem => ?_, hnodup⟩, ?_⟩
      · obtain ⟨g', hg', hrole⟩ := List.mem_map.mp hmem
        exact hrest g' hg' (hrole ▸ List.mem_cons_self)
      · rintro g' hg'
        rcases List.mem_cons.mp hg' with rfl | hg'
        · exact hseen
        · exact fun hmem => hrest g' hg' (List.mem_cons_of_mem _ hmem)

/-- Where no role has two rows, the order of the rows does not change who may do what. -/
theorem permits_perm {t t' : RoleTable R P} (hnodup : (t.grants.map (·.role)).Nodup)
    (hperm : t.grants.Perm t'.grants) (role : R) (p : P) : t'.permits role p = t.permits role p := by
  have hrow : t'.grants.find? (·.role = role) = t.grants.find? (·.role = role) := by
    cases hfound : t.grants.find? (·.role = role) with
    | none =>
        rw [List.find?_eq_none] at hfound ⊢
        exact fun g hg => hfound g (hperm.mem_iff.mpr hg)
    | some g =>
        have hrole : g.role = role := by simpa using List.find?_some hfound
        have hmem := hperm.mem_iff.mp (List.mem_of_find?_eq_some hfound)
        cases hfound' : t'.grants.find? (·.role = role) with
        | none => exact absurd hrole (by simpa using List.find?_eq_none.mp hfound' g hmem)
        | some g' =>
            have hrole' : g'.role = role := by simpa using List.find?_some hfound'
            rw [List.inj_on_of_nodup_map ((hperm.map _).nodup_iff.mp hnodup)
              (List.mem_of_find?_eq_some hfound') hmem (hrole'.trans hrole.symm)]
  rw [permits, permits, permissionsOf, permissionsOf, hrow]

/-! ## checks and decisions -/

variable [Named R] [Named P]

/-- A table that is checked has one row for a role. -/
theorem nodup_of_check {t : RoleTable R P} (h : ∀ role, .duplicateRole role ∉ t.check) :
    (t.grants.map (·.role)).Nodup := by
  refine (nodup_of_rowDefects [] fun role hmem => h role ?_).1
  exact List.mem_append_left _ (List.mem_append_left _ hmem)

/-- **A refusal lists who would be allowed**: the roles that alone would be, each once. -/
theorem allowed_of_deny {t : RoleTable R P} {roles : List R} {p : P} {refusal : Refusal}
    (h : t.decide roles (.permission p) = .deny refusal) :
    ∃ rs : List R, rs.Nodup ∧ refusal.allowedRoles = rs.map Named.name ∧
      ∀ r, r ∈ rs ↔ t.decide [r] (.permission p) = .allow := by
  refine ⟨t.rolesFor p, nodup_rolesFor t p, ?_, fun r => ?_⟩
  · rw [decide] at h
    split at h
    · cases h
    · cases h
      rfl
  · simp [decide_eq_allow, mem_rolesFor]

/-- Where no role has two rows, the order of the rows changes a decision at most in the order in which a
refusal lists roles. -/
theorem decide_perm {t t' : RoleTable R P} (hnodup : (t.grants.map (·.role)).Nodup)
    (hperm : t.grants.Perm t'.grants) (roles : List R) (requirement : Requirement P) :
    Decision.Alike (t.decide roles requirement) (t'.decide roles requirement) := by
  cases requirement with
  | anyone => exact trivial
  | nobody why => exact ⟨rfl, .refl _⟩
  | permission p =>
      have hroles : (t.rolesFor p).Perm (t'.rolesFor p) := by
        refine (List.perm_ext_iff_of_nodup (nodup_rolesFor t p) (nodup_rolesFor t' p)).mpr fun role => ?_
        rw [mem_rolesFor, mem_rolesFor, permits_perm hnodup hperm]
      simp only [decide, permits_perm hnodup hperm]
      split
      · exact trivial
      · exact ⟨rfl, hroles.map _⟩

/-- **Tables built at run time.** A grant adds exactly one pair and a revocation takes exactly one away,
repeated rows or not; a refusal lists exactly the roles that alone would be allowed, each once; and where the
check finds no role with two rows, the order of the rows changes neither who may do what nor a decision, but
for the order in which a refusal lists roles. -/
theorem runtime_tables (t : RoleTable R P) :
    (∀ role permission r p,
      ((t.grant role permission).permits r p = true ↔ t.permits r p = true ∨ r = role ∧ p = permission) ∧
      ((t.revoke role permission).permits r p = true ↔
        t.permits r p = true ∧ ¬ (r = role ∧ p = permission))) ∧
    (∀ roles p refusal, t.decide roles (.permission p) = .deny refusal →
      ∃ rs : List R, rs.Nodup ∧ refusal.allowedRoles = rs.map Named.name ∧
        ∀ r, r ∈ rs ↔ t.decide [r] (.permission p) = .allow) ∧
    ((∀ role, .duplicateRole role ∉ t.check) → ∀ t' : RoleTable R P, t.grants.Perm t'.grants →
      (∀ r p, t'.permits r p = t.permits r p) ∧
        ∀ roles requirement, Decision.Alike (t.decide roles requirement) (t'.decide roles requirement)) :=
  ⟨fun role permission r p => ⟨permits_grant t role permission r p, permits_revoke t role permission r p⟩,
    fun _ _ _ h => allowed_of_deny h,
    fun hcheck _ hperm => ⟨permits_perm (nodup_of_check hcheck) hperm, decide_perm (nodup_of_check hcheck) hperm⟩⟩

/-- Two roles that both hold a permission are listed in the order of their rows. -/
theorem refusals_differ : ∃ (_ : Named Bool) (_ : Named Unit) (t t' : RoleTable Bool Unit),
    (∀ role, .duplicateRole role ∉ t.check) ∧ t.grants.Perm t'.grants ∧
      t.decide [] (.permission ()) ≠ t'.decide [] (.permission ()) := by
  refine ⟨⟨[false, true], fun b => if b then "author" else "reader"⟩, ⟨[()], fun _ => "write"⟩,
    ⟨[⟨false, [()]⟩, ⟨true, [()]⟩]⟩, ⟨[⟨true, [()]⟩, ⟨false, [()]⟩]⟩, by decide, .swap _ _ _, by decide⟩

end RoleTable

end Jkb.Rbac
