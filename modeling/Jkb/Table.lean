import Mathlib.Data.List.Nodup

/-!
# Jkb.Table

Tables with a primary key. A `Table key` is a list of rows in insertion order whose keys are pairwise
distinct, and the distinctness is part of the value: an insert that would break it cannot be written
down. Reads by key go through `find?`, and each write has one lemma saying what `find?` sees after
it, so later proofs do not look at the rows.

`AutoTable` adds what `AUTOINCREMENT` keeps: the largest key ever issued, never reused.
-/

namespace Jkb

/-- Rows with pairwise distinct keys, in insertion order. -/
structure Table {K R : Type*} (key : R → K) where
  rows : List R
  nodup : (rows.map key).Nodup

namespace Table

variable {K R : Type*} {key : R → K}

def empty : Table key := ⟨[], List.nodup_nil⟩

instance [DecidableEq R] : DecidableEq (Table key) := fun t u =>
  decidable_of_iff (t.rows = u.rows) ⟨fun h => by cases t; cases u; cases h; rfl, fun h => h ▸ rfl⟩

instance [Repr R] : Repr (Table key) := ⟨fun t n => reprPrec t.rows n⟩

/-- Tables with the same rows are equal. -/
@[ext] theorem ext {t u : Table key} (h : t.rows = u.rows) : t = u := by
  cases t
  cases u
  cases h
  rfl

/-- What is read of the rows that are kept is read of the rows. -/
theorem sublist_map_filterMap {S T : Type*} {f : R → Option S} {g : S → T} {h : R → T}
    (hf : ∀ r y, f r = some y → g y = h r) (rows : List R) : ((rows.filterMap f).map g).Sublist (rows.map h) := by
  induction rows with
  | nil => exact .slnil
  | cons r rows ih =>
      rw [List.filterMap_cons, List.map_cons]
      cases hr : f r with
      | none => exact ih.cons _
      | some y =>
          rw [List.map_cons, hf r y hr]
          exact ih.cons_cons _

/-- `DELETE … WHERE p`. -/
def deleteWhere (t : Table key) (p : R → Bool) : Table key where
  rows := t.rows.filter fun r => !p r
  nodup := t.nodup.sublist (List.filter_sublist.map key)

/-- `UPDATE … SET f WHERE p`, for an `f` that leaves the key alone. -/
def updateWhere (t : Table key) (p : R → Bool) (f : R → R) (hf : ∀ r, key (f r) = key r) :
    Table key where
  rows := t.rows.map fun r => if p r then f r else r
  nodup := by
    have hkeys : (t.rows.map fun r => if p r then f r else r).map key = t.rows.map key := by
      rw [List.map_map]
      refine List.map_congr_left fun r _ => ?_
      by_cases hp : p r <;> simp [hp, hf]
    rw [hkeys]
    exact t.nodup

/-- `INSERT` of a row whose key is free. -/
def insert (t : Table key) (r : R) (h : ∀ x ∈ t.rows, key x ≠ key r) : Table key where
  rows := t.rows ++ [r]
  nodup := by
    rw [List.map_append, List.nodup_append]
    refine ⟨t.nodup, List.nodup_singleton _, ?_⟩
    rintro a ha b hb rfl
    obtain ⟨x, hx, rfl⟩ := List.mem_map.mp ha
    exact h x hx (by simpa using hb)

@[simp] theorem mem_deleteWhere {t : Table key} {p : R → Bool} {r : R} :
    r ∈ (t.deleteWhere p).rows ↔ r ∈ t.rows ∧ p r = false := by
  simp [deleteWhere]

@[simp] theorem mem_updateWhere {t : Table key} {p : R → Bool} {f : R → R} {hf} {r : R} :
    r ∈ (t.updateWhere p f hf).rows ↔ ∃ x ∈ t.rows, (if p x then f x else x) = r := by
  simp [updateWhere]

@[simp] theorem mem_insert {t : Table key} {r x : R} {h} :
    x ∈ (t.insert r h).rows ↔ x ∈ t.rows ∨ x = r := by
  simp [insert]

/-- Two rows of one table with one key are one row. -/
theorem eq_of_key_eq (t : Table key) {r x : R} (hr : r ∈ t.rows) (hx : x ∈ t.rows)
    (h : key r = key x) : r = x :=
  List.inj_on_of_nodup_map t.nodup hr hx h

/-- A row, and those with other keys, are all. -/
theorem perm_cons_deleteWhere [DecidableEq K] {t : Table key} {r : R} (hr : r ∈ t.rows) :
    t.rows.Perm (r :: (t.deleteWhere fun x => key x = key r).rows) := by
  obtain ⟨rows, hnodup⟩ := t
  show rows.Perm (r :: rows.filter fun x => !decide (key x = key r))
  induction rows with
  | nil => exact absurd hr List.not_mem_nil
  | cons x rows ih =>
      rw [List.map_cons, List.nodup_cons] at hnodup
      rcases List.mem_cons.mp hr with rfl | hr
      · have hall : ∀ y ∈ rows, key y ≠ key r := fun y hy he =>
          hnodup.1 (he ▸ List.mem_map_of_mem hy)
        rw [List.filter_cons_of_neg (by simp), List.filter_eq_self.mpr (by simpa using hall)]
      · have hne : key x ≠ key r := fun he => hnodup.1 (he ▸ List.mem_map_of_mem hr)
        rw [List.filter_cons_of_pos (by simpa using hne)]
        exact ((ih hnodup.2 hr).cons x).trans (.swap r x _)

variable [DecidableEq K]

/-- The row with key `k`. -/
def find? (t : Table key) (k : K) : Option R := t.rows.find? fun r => key r = k

/-- What is found is the row of the key. -/
theorem find?_eq_some {t : Table key} {k : K} {r : R} :
    t.find? k = some r ↔ r ∈ t.rows ∧ key r = k := by
  constructor
  · intro h
    exact ⟨List.mem_of_find?_eq_some h, by simpa using List.find?_some h⟩
  · rintro ⟨hr, hk⟩
    cases hf : t.find? k with
    | none =>
        have := List.find?_eq_none.mp hf r hr
        simp [hk] at this
    | some x =>
        have hx := List.mem_of_find?_eq_some hf
        have hxk : key x = k := by simpa using List.find?_some hf
        rw [t.eq_of_key_eq hr hx (hk.trans hxk.symm)]

/-- What is not found has no row. -/
theorem find?_eq_none {t : Table key} {k : K} : t.find? k = none ↔ ∀ r ∈ t.rows, key r ≠ k := by
  simp [find?, List.find?_eq_none]

/-- A row that is found has the key. -/
theorem key_of_find? {t : Table key} {k : K} {r : R} (h : t.find? k = some r) : key r = k :=
  (find?_eq_some.mp h).2

/-- A row that is found is there. -/
theorem mem_of_find? {t : Table key} {k : K} {r : R} (h : t.find? k = some r) : r ∈ t.rows :=
  (find?_eq_some.mp h).1

/-- A row that is there is found. -/
theorem find?_of_mem {t : Table key} {r : R} (h : r ∈ t.rows) : t.find? (key r) = some r :=
  find?_eq_some.mpr ⟨h, rfl⟩

/-- What is found after a `DELETE`. -/
theorem find?_deleteWhere (t : Table key) (p : R → Bool) (k : K) :
    (t.deleteWhere p).find? k = (t.find? k).filter fun r => !p r := by
  cases h : t.find? k with
  | none =>
      rw [Option.filter_none, find?_eq_none]
      intro r hr
      exact find?_eq_none.mp h r (mem_deleteWhere.mp hr).1
  | some r =>
      obtain ⟨hr, hk⟩ := find?_eq_some.mp h
      by_cases hp : p r = true
      · rw [Option.filter_some_neg (by simp [hp]), find?_eq_none]
        intro x hx hxk
        obtain ⟨hx, hpx⟩ := mem_deleteWhere.mp hx
        rw [t.eq_of_key_eq hx hr (hxk.trans hk.symm), hp] at hpx
        contradiction
      · rw [Option.filter_some_pos (by simpa using hp), find?_eq_some]
        exact ⟨mem_deleteWhere.mpr ⟨hr, by simpa using hp⟩, hk⟩

/-- What is found after an `UPDATE`. -/
theorem find?_updateWhere (t : Table key) (p : R → Bool) (f : R → R) (hf) (k : K) :
    (t.updateWhere p f hf).find? k = (t.find? k).map fun r => if p r then f r else r := by
  have hkey : ∀ r, key (if p r then f r else r) = key r := by
    intro r
    by_cases hp : p r <;> simp [hp, hf]
  cases h : t.find? k with
  | none =>
      rw [Option.map_none, find?_eq_none]
      intro r hr
      obtain ⟨x, hx, rfl⟩ := mem_updateWhere.mp hr
      rw [hkey]
      exact find?_eq_none.mp h x hx
  | some r =>
      obtain ⟨hr, hk⟩ := find?_eq_some.mp h
      rw [Option.map_some, find?_eq_some, hkey]
      exact ⟨mem_updateWhere.mpr ⟨r, hr, rfl⟩, hk⟩

/-- What is found after an `INSERT`. -/
theorem find?_insert (t : Table key) (r : R) (h) (k : K) :
    (t.insert r h).find? k = if key r = k then some r else t.find? k := by
  by_cases hk : key r = k
  · rw [if_pos hk, find?_eq_some]
    exact ⟨by simp, hk⟩
  · rw [if_neg hk]
    cases hf : t.find? k with
    | none =>
        rw [find?_eq_none]
        intro x hx
        rcases mem_insert.mp hx with hx | rfl
        · exact find?_eq_none.mp hf x hx
        · exact hk
    | some x =>
        rw [find?_eq_some]
        exact ⟨mem_insert.mpr (Or.inl (mem_of_find? hf)), key_of_find? hf⟩

/-- A row that is there stays under its key. -/
theorem find?_insert_of_some {t : Table key} {r x : R} (h : ∀ x ∈ t.rows, key x ≠ key r) {k : K}
    (hx : t.find? k = some x) : (t.insert r h).find? k = some x := by
  have hne : key r ≠ k := fun hk => h x (mem_of_find? hx) ((key_of_find? hx).trans hk.symm)
  rw [find?_insert, if_neg hne, hx]

/-- The row under its key, whatever was there: an insert into a map. -/
def put (t : Table key) (r : R) : Table key :=
  (t.deleteWhere fun x => key x = key r).insert r fun x hx => by
    have hne := (mem_deleteWhere.mp hx).2
    exact of_decide_eq_false hne

/-- The rows after one has been put there. -/
theorem mem_put {t : Table key} {r x : R} :
    x ∈ (t.put r).rows ↔ x ∈ t.rows ∧ key x ≠ key r ∨ x = r := by
  simp [put]

/-- What is found after a row has been put there. -/
theorem find?_put (t : Table key) (r : R) (k : K) :
    (t.put r).find? k = if key r = k then some r else t.find? k := by
  by_cases hk : key r = k
  · rw [put, find?_insert, if_pos hk, if_pos hk]
  · rw [put, find?_insert, if_neg hk, if_neg hk, find?_deleteWhere]
    cases hx : t.find? k with
    | none => rfl
    | some x =>
        have hne : key x ≠ key r := fun h => hk (h.symm.trans (key_of_find? hx))
        simp [hne]

/-- A put leaves the rows of the other keys, and the new one. -/
theorem perm_put (t : Table key) (r : R) :
    (t.put r).rows.Perm (r :: (t.deleteWhere fun x => key x = key r).rows) :=
  (List.perm_append_singleton r _)

/-- Where a key is free, deleting its rows deletes none. -/
theorem deleteWhere_of_find?_eq_none {t : Table key} {k : K} (h : t.find? k = none) :
    t.deleteWhere (fun x => key x = k) = t := by
  refine ext (List.filter_eq_self.mpr fun x hx => ?_)
  simpa using find?_eq_none.mp h x hx

/-- The columns of a view: each row as another, of the same key. -/
def map {S : Type*} {key' : S → K} (t : Table key) (f : R → S) (hf : ∀ r, key' (f r) = key r) :
    Table key' where
  rows := t.rows.map f
  nodup := by
    rw [List.map_map]
    simpa only [Function.comp_def, hf] using t.nodup

/-- What is found in the rows of a mapped table. -/
theorem find?_map {S : Type*} {key' : S → K} (t : Table key) (f : R → S) (hf) (k : K) :
    (t.map f hf : Table key').find? k = (t.find? k).map f := by
  simp only [find?, map, List.find?_map, Function.comp_def, hf]

/-- `INSERT`, which a key that is taken refuses. -/
def tryInsert (t : Table key) (r : R) : Option (Table key) :=
  if h : t.find? (key r) = none then some (t.insert r (find?_eq_none.mp h)) else none

/-- An insertion that goes through adds its row at the end. -/
theorem rows_of_tryInsert {t t' : Table key} {r : R} (h : t.tryInsert r = some t') :
    t'.rows = t.rows ++ [r] := by
  unfold tryInsert at h
  split at h
  · cases h
    rfl
  · cases h

/-- `INSERT … ON CONFLICT DO NOTHING`, and whether it inserted. -/
def insertOrIgnore (t : Table key) (r : R) : Table key × Bool :=
  if h : t.find? (key r) = none then (t.insert r (find?_eq_none.mp h), true) else (t, false)

/-- What is found after an `INSERT OR IGNORE`. -/
theorem find?_insertOrIgnore (t : Table key) (r : R) (k : K) :
    (t.insertOrIgnore r).1.find? k =
      if t.find? (key r) = none ∧ key r = k then some r else t.find? k := by
  unfold insertOrIgnore
  by_cases h : t.find? (key r) = none
  · rw [dif_pos h, find?_insert]
    simp [h]
  · rw [dif_neg h]
    simp [h]

/-- An `INSERT OR IGNORE` adds its row alone. -/
theorem mem_insertOrIgnore {t : Table key} {r x : R} (h : x ∈ (t.insertOrIgnore r).1.rows) :
    x ∈ t.rows ∨ x = r := by
  unfold insertOrIgnore at h
  split at h
  · next hnone =>
      have hrow : x ∈ (t.insert r (find?_eq_none.mp hnone)).rows := h
      exact mem_insert.mp hrow
  · exact Or.inl h

/-- What was there stays. -/
theorem mem_insertOrIgnore_of_mem {t : Table key} {r x : R} (h : x ∈ t.rows) : x ∈ (t.insertOrIgnore r).1.rows := by
  unfold insertOrIgnore
  split
  · next hnone =>
      show x ∈ (t.insert r (find?_eq_none.mp hnone)).rows
      exact mem_insert.mpr (Or.inl h)
  · exact h

/-- Where the key is free the row is there. -/
theorem mem_insertOrIgnore_of_free {t : Table key} {r x : R} (hfree : t.find? (key r) = none) :
    x ∈ (t.insertOrIgnore r).1.rows ↔ x ∈ t.rows ∨ x = r := by
  refine ⟨mem_insertOrIgnore, fun h => h.elim mem_insertOrIgnore_of_mem ?_⟩
  rintro rfl
  unfold insertOrIgnore
  rw [dif_pos hfree]
  show x ∈ (t.insert x (find?_eq_none.mp hfree)).rows
  exact mem_insert.mpr (Or.inr rfl)

/-- `INSERT … ON CONFLICT DO UPDATE SET f WHERE p`, for an `f` that leaves the key alone. -/
def upsert (t : Table key) (r : R) (p : R → Bool) (f : R → R) (hf : ∀ x, key (f x) = key x) :
    Table key :=
  if h : t.find? (key r) = none then t.insert r (find?_eq_none.mp h)
  else t.updateWhere (fun x => key x = key r && p x) f hf

/-- An upsert is seen under its own key only. -/
theorem find?_upsert_of_ne (t : Table key) (r : R) (p : R → Bool) (f : R → R) (hf) {k : K}
    (hk : key r ≠ k) : (t.upsert r p f hf).find? k = t.find? k := by
  unfold upsert
  by_cases h : t.find? (key r) = none
  · rw [dif_pos h, find?_insert, if_neg hk]
  · rw [dif_neg h, find?_updateWhere]
    cases hx : t.find? k with
    | none => rfl
    | some x =>
        have hne : key x ≠ key r := fun hxr => hk (hxr.symm.trans (key_of_find? hx))
        simp [hne]

/-- Under its own key an upsert leaves the new row, or the old one updated. -/
theorem find?_upsert_self (t : Table key) (r : R) (p : R → Bool) (f : R → R) (hf) :
    (t.upsert r p f hf).find? (key r) =
      some (((t.find? (key r)).map fun x => if p x then f x else x).getD r) := by
  unfold upsert
  by_cases h : t.find? (key r) = none
  · rw [dif_pos h, find?_insert, if_pos rfl, h]
    rfl
  · obtain ⟨x, hx⟩ := Option.ne_none_iff_exists'.mp h
    rw [dif_neg h, find?_updateWhere, hx]
    simp [key_of_find? hx]

/-- An upsert that overwrites its row leaves the others, and the new row. -/
theorem mem_upsert_self {t : Table key} {r x : R} {f : R → R} {hf}
    (hover : ∀ y, key y = key r → f y = r) :
    x ∈ (t.upsert r (fun _ => true) f hf).rows ↔ x ∈ t.rows ∧ key x ≠ key r ∨ x = r := by
  unfold upsert
  by_cases h : t.find? (key r) = none
  · rw [dif_pos h, mem_insert]
    have hne := find?_eq_none.mp h
    exact or_congr_left ⟨fun hx => ⟨hx, hne x hx⟩, And.left⟩
  · obtain ⟨y, hy⟩ := Option.ne_none_iff_exists'.mp h
    obtain ⟨hmem, hkey⟩ := find?_eq_some.mp hy
    rw [dif_neg h, mem_updateWhere]
    constructor
    · rintro ⟨z, hz, rfl⟩
      by_cases hzr : key z = key r
      · exact Or.inr (by simp [hzr, hover z hzr])
      · exact Or.inl (by simp [hzr, hz])
    · rintro (⟨hx, hne⟩ | rfl)
      · exact ⟨x, hx, by simp [hne]⟩
      · exact ⟨y, hmem, by simp [hkey, hover y hkey]⟩

end Table

/-- A table keyed by an integer that is issued once: `INTEGER PRIMARY KEY AUTOINCREMENT`. -/
structure AutoTable {R : Type*} (key : R → Int) extends Table key where
  last : Int
  le_last : ∀ r ∈ rows, key r ≤ last

namespace AutoTable

variable {R : Type*} {key : R → Int}

def empty : AutoTable key := { (Table.empty : Table key) with last := 0, le_last := by simp [Table.empty] }

instance [DecidableEq R] : DecidableEq (AutoTable key) := fun t u =>
  decidable_of_iff (t.rows = u.rows ∧ t.last = u.last)
    ⟨fun ⟨h₁, h₂⟩ => by
      obtain ⟨⟨_, _⟩, _, _⟩ := t
      obtain ⟨⟨_, _⟩, _, _⟩ := u
      cases h₁
      cases h₂
      rfl, fun h => h ▸ ⟨rfl, rfl⟩⟩

/-- Tables with the same rows and the same last id are equal. -/
theorem ext {t u : AutoTable key} (hrows : t.rows = u.rows) (hlast : t.last = u.last) : t = u := by
  obtain ⟨⟨_, _⟩, _, _⟩ := t
  obtain ⟨⟨_, _⟩, _, _⟩ := u
  cases hrows
  cases hlast
  rfl

instance [Repr R] : Repr (AutoTable key) := ⟨fun t n => reprPrec (t.rows, t.last) n⟩

def deleteWhere (t : AutoTable key) (p : R → Bool) : AutoTable key where
  toTable := t.toTable.deleteWhere p
  last := t.last
  le_last r hr := t.le_last r (Table.mem_deleteWhere.mp hr).1

def updateWhere (t : AutoTable key) (p : R → Bool) (f : R → R) (hf : ∀ r, key (f r) = key r) :
    AutoTable key where
  toTable := t.toTable.updateWhere p f hf
  last := t.last
  le_last r hr := by
    obtain ⟨x, hx, rfl⟩ := Table.mem_updateWhere.mp hr
    by_cases hp : p x
    · simpa [hp, hf] using t.le_last x hx
    · simpa [hp] using t.le_last x hx

/-- The columns of a view: each row as another, of the same key. -/
def map {S : Type*} {key' : S → Int} (t : AutoTable key) (f : R → S) (hf : ∀ r, key' (f r) = key r) :
    AutoTable key' where
  toTable := t.toTable.map f hf
  last := t.last
  le_last r hr := by
    obtain ⟨x, hx, rfl⟩ := List.mem_map.mp hr
    rw [hf]
    exact t.le_last x hx

/-- The key the next insert is given. -/
def nextKey (t : AutoTable key) : Int := t.last + 1

/-- Insert a row under the next key. -/
def insertNext (t : AutoTable key) (mk : Int → R) (hmk : ∀ i, key (mk i) = i) : AutoTable key where
  toTable := t.toTable.insert (mk t.nextKey) fun x hx h => by
    have := t.le_last x hx
    rw [h, hmk] at this
    simp only [nextKey] at this
    omega
  last := t.nextKey
  le_last r hr := by
    rcases Table.mem_insert.mp hr with hr | rfl
    · have := t.le_last r hr
      simp only [nextKey]
      omega
    · exact Int.le_of_eq (hmk _)

/-- `INSERT` of a row under a key of its own: refused where a row has it. -/
def tryRestore (t : AutoTable key) (r : R) : Option (AutoTable key) :=
  if h : t.toTable.find? (key r) = none then
    some {
      toTable := t.toTable.insert r (Table.find?_eq_none.mp h)
      last := max t.last (key r)
      le_last := fun x hx => by
        rcases Table.mem_insert.mp hx with hx | rfl
        · exact Int.le_trans (t.le_last x hx) (Int.le_max_left _ _)
        · exact Int.le_max_right _ _ }
  else none

/-- A row that is restored was not there, and keeps its id. -/
theorem tryRestore_eq_some {t t' : AutoTable key} {r : R} (h : t.tryRestore r = some t') :
    (∀ x ∈ t.rows, key x ≠ key r) ∧ t'.rows = t.rows ++ [r] ∧ t'.last = max t.last (key r) := by
  unfold tryRestore at h
  split at h
  · next hfree =>
      cases h
      exact ⟨Table.find?_eq_none.mp hfree, rfl, rfl⟩
  · cases h

@[simp] theorem mem_deleteWhere {t : AutoTable key} {p : R → Bool} {r : R} :
    r ∈ (t.deleteWhere p).rows ↔ r ∈ t.rows ∧ p r = false := Table.mem_deleteWhere

@[simp] theorem mem_insertNext {t : AutoTable key} {mk : Int → R} {hmk} {r : R} :
    r ∈ (t.insertNext mk hmk).rows ↔ r ∈ t.rows ∨ r = mk t.nextKey := by
  simp [insertNext]

/-- The row that is inserted is found under the next key. -/
theorem find?_insertNext (t : AutoTable key) (mk : Int → R) (hmk) (k : Int) :
    (t.insertNext mk hmk).find? k = if t.nextKey = k then some (mk t.nextKey) else t.find? k := by
  rw [insertNext, Table.find?_insert, hmk]

@[simp] theorem mem_updateWhere {t : AutoTable key} {p : R → Bool} {f : R → R} {hf} {r : R} :
    r ∈ (t.updateWhere p f hf).rows ↔ ∃ x ∈ t.rows, (if p x then f x else x) = r := by
  simp [updateWhere]

/-- Every key in use is below the next one. -/
theorem key_lt_nextKey (t : AutoTable key) {r : R} (hr : r ∈ t.rows) : key r < t.nextKey := by
  have := t.le_last r hr
  simp only [nextKey]
  omega

/-- A row that is there stays under its key. -/
theorem find?_insertNext_of_some {t : AutoTable key} {mk : Int → R} (hmk : ∀ i, key (mk i) = i) {k : Int} {r : R}
    (h : t.find? k = some r) : (t.insertNext mk hmk).find? k = some r := by
  rw [find?_insertNext, if_neg, h]
  rintro rfl
  have hlt := t.key_lt_nextKey (Table.mem_of_find? h)
  rw [Table.key_of_find? h] at hlt
  exact Int.lt_irrefl _ hlt

end AutoTable

end Jkb
