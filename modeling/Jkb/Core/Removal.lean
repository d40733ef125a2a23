import Jkb.Mq
import Jkb.Pages

/-!
# Jkb.Core.Removal

The worktree-removal records: a session worktree that a verb could not archive where it ran, or one that was archived
and is deleted later. The table stores them and hands them back, a page at a time; which paths one may name, and what is
done with it, is for others to say.

A record is pending until the worktree was moved, and is never pending again: `archived` moves pending ones only, and an
id is given once.
-/

namespace Jkb.Removal

open Mq (QueueError)

/-! ## the table -/

def MAX_PATH_BYTES : Nat := 1024
def MAX_FIELD_BYTES : Nat := 256

/-- The most rows that one listing answers with. -/
def PAGE : Nat := 64

/-- A record's fields: the worktree and its repository, what the verb decided, the commit it was on, and where it was
moved to, once it has been. -/
structure Fields where
  worktree : String
  repoRoot : String
  branch : String := ""
  uid : String := ""
  deleteBranch : Bool := false
  acceptDirty : Bool := false
  recordedAt : Int
  head : Option String := none
  archive : Option String := none
  archivedAt : Option Int := none
deriving Repr, DecidableEq

/-- A record as it is stored: its place in creation order, and the backend that wrote it. -/
structure RemovalRow where
  id : Int
  removal : Fields
  writtenVia : String
deriving Repr, DecidableEq

def RemovalRow.isPending (r : RemovalRow) : Bool := r.removal.archive.isNone

abbrev Removals := AutoTable RemovalRow.id

def checkText (what value : String) (max : Nat) (emptyOk : Bool) : Except QueueError Unit :=
  if (!emptyOk && value = "") || value.utf8ByteSize > max || value.toList.any isControl then
    .error (.invalid what ["at most ", max, " bytes with no control characters"])
  else .ok ()

def Fields.check (r : Fields) : Except QueueError Unit := do
  checkText "worktree" r.worktree MAX_PATH_BYTES false
  checkText "repo_root" r.repoRoot MAX_PATH_BYTES false
  checkText "branch" r.branch MAX_FIELD_BYTES true
  checkText "uid" r.uid MAX_FIELD_BYTES true
  r.head.toList.forM (checkText "head" · MAX_FIELD_BYTES false)
  r.archive.toList.forM (checkText "archive" · MAX_PATH_BYTES false)
  if r.archive.isSome ≠ r.archivedAt.isSome then
    .error (.invalid "archive" ["an archive and the time it was made go together"])
  else .ok ()

section Table

variable (t : Removals)

/-- Record a disposal, always as a new row. -/
def add (removal : Fields) (via : String) : Except QueueError (Removals × Int) := do
  removal.check
  checkText "written_via" via MAX_FIELD_BYTES false
  return (t.insertNext (fun id => ⟨id, removal, via⟩) fun _ => rfl, t.nextKey)

/-- One record. -/
def get (id : Int) : Option RemovalRow := t.find? id

/-- Every record, oldest first. -/
def sorted : List RemovalRow := t.rows.insertionSort fun a b => a.id ≤ b.id

/-- The records after a row, oldest first, and where the next page starts, if this is not the last. -/
def list (after : Option Int) : List RemovalRow × Option Int :=
  let rows := (Pages.rest (· < ·) RemovalRow.id (sorted t) after).take (PAGE + 1)
  if rows.length > PAGE then
    (rows.take PAGE, (rows.take PAGE).getLast?.map (·.id))
  else (rows, none)

/-- Record that a pending record was archived. Whether it was pending. -/
def archived (id : Int) (archive : String) (now : Int) : Except QueueError (Removals × Bool) := do
  checkText "archive" archive MAX_PATH_BYTES false
  let moved (r : RemovalRow) : Bool := r.id = id && r.isPending
  return (t.updateWhere moved
    (fun r => { r with removal := { r.removal with archive := some archive, archivedAt := some now } }) fun _ => rfl,
    t.rows.any moved)

/-- Drop a record if it is still pending. Whether it was. -/
def cancelPending (id : Int) : Removals × Bool :=
  let cancelled (r : RemovalRow) : Bool := r.id = id && r.isPending
  (t.deleteWhere cancelled, t.rows.any cancelled)

/-- Drop a record. Whether it was there. -/
def remove (id : Int) : Removals × Bool := (t.deleteWhere (·.id = id), t.rows.any (·.id = id))

end Table

/-! ## what each leaves -/

section Leaves

variable {t t' : Removals} {r : RemovalRow} {id : Int} {won : Bool}

/-- What a record that is archived becomes. -/
def RemovalRow.movedTo (r : RemovalRow) (archive : String) (now : Int) : RemovalRow :=
  { r with removal := { r.removal with archive := some archive, archivedAt := some now } }

/-- The table has one record more, of an id that no record had. -/
structure Added (t t' : Removals) (removal : Fields) (via : String) : Prop where
  mem : ∀ r, r ∈ t'.rows ↔ r ∈ t.rows ∨ r = ⟨t.nextKey, removal, via⟩
  last : t'.last = t.nextKey

theorem add_eq_ok {removal : Fields} {via : String} (h : add t removal via = .ok (t', id)) :
    Added t t' removal via := by
  obtain ⟨-, -, h⟩ := Tx.bind_eq_ok.mp h
  obtain ⟨-, -, h⟩ := Tx.bind_eq_ok.mp h
  cases h
  exact ⟨fun r => AutoTable.mem_insertNext, rfl⟩

/-- A pending record that is archived changes so, and no other does; one that is not pending is left. -/
theorem archived_eq_ok {archive : String} {now : Int} (h : archived t id archive now = .ok (t', won)) :
    (∀ r, r ∈ t'.rows ↔ (r ∈ t.rows ∧ ¬ (r.id = id ∧ r.isPending)) ∨
      ∃ x ∈ t.rows, x.id = id ∧ x.isPending ∧ r = x.movedTo archive now) ∧ t'.last = t.last := by
  obtain ⟨-, -, h⟩ := Tx.bind_eq_ok.mp h
  cases h
  refine ⟨fun r => ?_, rfl⟩
  rw [AutoTable.mem_updateWhere]
  constructor
  · rintro ⟨x, hx, rfl⟩
    by_cases hm : x.id = id ∧ x.isPending
    · refine Or.inr ⟨x, hx, hm.1, hm.2, ?_⟩
      simp [hm, RemovalRow.movedTo]
    · refine Or.inl ⟨?_, ?_⟩ <;> simp [hm, hx]
  · rintro (⟨hr, hm⟩ | ⟨x, hx, hid, hp, rfl⟩)
    · exact ⟨r, hr, by simp [hm]⟩
    · exact ⟨x, hx, by simp [hid, hp, RemovalRow.movedTo]⟩

theorem mem_cancelPending : r ∈ (cancelPending t id).1.rows ↔ r ∈ t.rows ∧ ¬ (r.id = id ∧ r.isPending) := by
  simp [cancelPending]

theorem mem_remove : r ∈ (remove t id).1.rows ↔ r ∈ t.rows ∧ r.id ≠ id := by
  simp [remove]

theorem mem_sorted : r ∈ sorted t ↔ r ∈ t.rows := List.mem_insertionSort _

theorem sorted_lt (t : Removals) : (sorted t).Pairwise fun a b => a.id < b.id := by
  have hle : (sorted t).Pairwise fun a b => a.id ≤ b.id := List.pairwise_insertionSort _ _
  have hne : (sorted t).Pairwise fun a b => a.id ≠ b.id := by
    have hnodup : ((sorted t).map (·.id)).Nodup :=
      ((List.perm_insertionSort _ t.rows).map _).nodup_iff.mpr t.nodup
    exact List.pairwise_map.mp hnodup
  exact hle.imp₂ (fun _ _ h h' => lt_of_le_of_ne h h') hne

/-- A page is cut where it ends, where more is left. -/
theorem isCut_list (t : Removals) (after : Option Int) :
    Pages.IsCut RemovalRow.id (sorted t) ((sorted t).map (·.id)) after (list t after).1 (list t after).2 := by
  let rows := Pages.rest (· < ·) RemovalRow.id (sorted t) after
  have hall : rows = rows.filter fun r => (none : Option Int).all (r.id ≤ ·) :=
    (List.filter_eq_self.mpr fun _ _ => rfl).symm
  have hcut : Pages.IsCut RemovalRow.id (sorted t) ((sorted t).map (·.id)) after (rows.take PAGE)
      (if (none : Option Int).isSome ∨ PAGE < rows.length then ((rows.take PAGE).getLast?.map (·.id)).or none
        else none) :=
    Pages.isCut_take (by decide) (sorted_lt t) (fun r hr => List.mem_map_of_mem hr) nofun hall
  by_cases hmore : PAGE < rows.length
  · have hlist : list t after = (rows.take PAGE, (rows.take PAGE).getLast?.map (·.id)) := by
      have hlen : (rows.take (PAGE + 1)).length > PAGE := by
        rw [List.length_take]
        omega
      rw [list, if_pos hlen, List.take_take, Nat.min_eq_left (Nat.le_succ PAGE)]
    rw [if_pos (Or.inr hmore), Option.or_none] at hcut
    rw [hlist]
    exact hcut
  · have hlist : list t after = (rows.take PAGE, none) := by
      have hlen : ¬ (rows.take (PAGE + 1)).length > PAGE := by
        rw [List.length_take]
        omega
      rw [list, if_neg hlen, List.take_of_length_le (by omega : rows.length ≤ PAGE + 1),
        List.take_of_length_le (by omega : rows.length ≤ PAGE)]
    rw [if_neg (by simpa using hmore)] at hcut
    rw [hlist]
    exact hcut

/-- **What a page is**: the records after its cursor, and up to the next one. -/
structure IsPage (t : Removals) (after : Option Int) (page : List RemovalRow) (next : Option Int) : Prop where
  mem : ∀ r, r ∈ page ↔ r ∈ t.rows ∧ (∀ a, after = some a → a < r.id) ∧ ∀ k, next = some k → r.id ≤ k
  sorted : page.Pairwise fun a b => a.id < b.id
  next : ∀ k, next = some k → ∀ a, after = some a → a < k

theorem isPage_list (t : Removals) (after : Option Int) : IsPage t after (list t after).1 (list t after).2 := by
  have hcut := isCut_list t after
  have hrest : ∀ r, r ∈ Pages.rest (· < ·) RemovalRow.id (sorted t) after ↔
      r ∈ t.rows ∧ ∀ a, after = some a → a < r.id := by
    intro r
    cases after with
    | none => exact ⟨fun h => ⟨mem_sorted.mp h, fun _ heq => by cases heq⟩, fun h => mem_sorted.mpr h.1⟩
    | some a =>
        rw [Pages.rest, List.mem_filter, mem_sorted, decide_eq_true_eq]
        exact and_congr_right' ⟨fun h _ heq => Option.some.inj heq ▸ h, fun h => h a rfl⟩
  have hsorted : (Pages.rest (· < ·) RemovalRow.id (sorted t) after).Pairwise fun a b => a.id < b.id := by
    cases after with
    | none => exact sorted_lt t
    | some a => exact (sorted_lt t).filter _
  cases hnext : (list t after).2 with
  | none =>
      rw [hnext] at hcut
      rw [show (list t after).1 = _ from hcut]
      exact ⟨fun r => by simp [hrest], hsorted, fun _ heq => by cases heq⟩
  | some k =>
      rw [hnext] at hcut
      obtain ⟨-, hlt, hpage⟩ := hcut
      rw [hpage]
      refine ⟨fun r => ?_, hsorted.filter _, ?_⟩
      · rw [List.mem_filter, hrest, decide_eq_true_eq, and_assoc]
        exact and_congr_right' (and_congr_right' ⟨fun h _ heq => Option.some.inj heq ▸ h, fun h => h k rfl⟩)
      · rintro k' heq
        cases heq
        exact hlt

end Leaves

end Jkb.Removal
