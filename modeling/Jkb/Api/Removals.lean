import Jkb.Core.Lease
import Jkb.Core.Removal
import Jkb.Paths
import Jkb.Run

/-!
# Jkb.Api.Removals

The removal records as `jkb serve` hands them out. A record is acted on by the host, which renames and later deletes
what it names, so a client may name only what lies under the directories that it sees, spelled from the home that both
sides resolve; a record that it may not name is out of its reach.

`cancel` drops the pending records of a checkout that is handed back. It takes no lease, and is refused while somebody
holds the sweep's: a sweep reads the records first, and acts on them then.

`records_run` says what a run of calls makes of the records, and `removals_found` that reading them to the end misses
none of those that are there the whole time, whatever calls come between two pages.
-/

namespace Jkb.Removals

open Mq (QueueError)
open Removal (Removals RemovalRow Fields)
open Lease (Leases)
open Run

/-! ## what a client may name -/

/-- The removal sweep's lease. -/
def SWEEP_LEASE : String := "removal-sweep"

/-- The directories that a client may name, and the home that its paths are spelled from. -/
structure FileRoots where
  roots : List Path
  home : Option Path
  absolute : ∀ p ∈ roots ++ home.toList, p.isAbsolute = true

/-- Whether a path is spelled from the home, of ordinary parts only, and lies under a root. -/
def FileRoots.admitsHomePath (r : FileRoots) (path : String) : Bool :=
  match path.toList, r.home with
  | '~' :: '/' :: rest, some home =>
      (rest.splitOn '/').all (fun seg => seg ≠ [] && seg ≠ ['.'] && seg ≠ ['.', '.']) &&
        r.roots.any fun root => decide ((home.join (Path.ofText rest)).Beneath root)
  | _, _ => false

inductive ApiError where
  | forbidden (why : Fmt)
  | invalid (why : Fmt)
  | queue (e : QueueError)
deriving Repr, DecidableEq

def checkPaths (paths : List String) : Option FileRoots → Except ApiError Unit
  | none => .ok ()
  | some roots =>
      match paths.find? (!roots.admitsHomePath ·) with
      | none => .ok ()
      | some p =>
          .error (.forbidden [p, " is not a `~/` path under the directories this client may name — the host's reap ",
            "service acts on the paths a removal record names"])

def recordPaths (r : Fields) : List String := [r.worktree, r.repoRoot] ++ r.archive.toList

/-! ## the ops -/

section Ops

variable (t : Removals) (roots : Option FileRoots)

def add (ask : Fields) (via : String) : Except ApiError (Removals × Int) := do
  checkPaths (recordPaths ask) roots
  (Removal.add t ask via).mapError .queue

/-- Whether a record is there; and where it is, that the client may name it. -/
def reachable (id : Int) : Except ApiError Bool :=
  match Removal.get t id with
  | none => .ok false
  | some row => do
      checkPaths (recordPaths row.removal) roots
      return true

def archived (id : Int) (archive : String) (now : Int) : Except ApiError (Removals × Bool) := do
  checkPaths [archive] roots
  if !(← reachable t roots id) then return (t, false)
  (Removal.archived t id archive now).mapError .queue

def dropRecord (id : Int) : Except ApiError (Removals × Bool) := do
  if !(← reachable t roots id) then return (t, false)
  return Removal.remove t id

/-- The most records that one cancel names. -/
def MAX_CANCEL : Nat := 256

/-- What a cancel did: how many it dropped, the sweep that it was refused for, and what the client may not name. -/
structure Cancelled where
  cancelled : Nat
  sweepHolder : Option String := none
  skipped : List Int := []
deriving Repr, DecidableEq

/-- The loop of `cancel`. -/
def cancelEach : Removals → List Int → Except ApiError (Removals × Cancelled)
  | t, [] => .ok (t, { cancelled := 0 })
  | t, id :: ids =>
      match reachable t roots id with
      | .ok true => do
          let (t', hit) := Removal.cancelPending t id
          let (t', c) ← cancelEach t' ids
          return (t', { c with cancelled := c.cancelled + hit.toNat })
      | .ok false => cancelEach t ids
      | .error (.forbidden _) => do
          let (t', c) ← cancelEach t ids
          return (t', { c with skipped := id :: c.skipped })
      | .error e => .error e

/-- Drop the pending records of a checkout, unless somebody holds the sweep's lease. -/
def cancel (leases : Leases) (ids : List Int) : Except ApiError (Removals × Cancelled) :=
  if ids.length > MAX_CANCEL then .error (.invalid ["at most ", MAX_CANCEL, " records per cancel"])
  else do
    match ← (Lease.get leases SWEEP_LEASE).mapError .queue with
    | some held => return (t, { cancelled := 0, sweepHolder := some (Lease.ownerOf held.holder) })
    | none => cancelEach roots t ids

end Ops

/-! ## what each leaves -/

section Leaves

variable {t t' : Removals} {roots : Option FileRoots} {id : Int}

/-- An error that is renamed is no result. -/
theorem mapError_eq_ok {α : Type} {x : Except QueueError α} {a : α} (h : x.mapError ApiError.queue = .ok a) :
    x = .ok a := by
  cases x with
  | error e => cases h
  | ok b =>
      cases h
      rfl

/-- An `add` that is let through adds its record. -/
theorem add_eq_ok {ask : Fields} {via : String} (h : add t roots ask via = .ok (t', id)) :
    Removal.Added t t' ask via := by
  obtain ⟨-, -, h⟩ := Tx.bind_eq_ok.mp h
  exact Removal.add_eq_ok (mapError_eq_ok h)

/-- A record that is not there is not reachable. -/
theorem reachable_eq_ok {found : Bool} (h : reachable t roots id = .ok found) :
    found = true ↔ ∃ r ∈ t.rows, r.id = id := by
  unfold reachable Removal.get at h
  cases hfind : t.find? id with
  | none =>
      rw [hfind] at h
      cases h
      refine iff_of_false nofun fun ⟨r, hr, hid⟩ => ?_
      exact Table.find?_eq_none.mp hfind r hr hid
  | some r =>
      rw [hfind] at h
      obtain ⟨-, -, h⟩ := Tx.bind_eq_ok.mp h
      cases h
      exact iff_of_true rfl ⟨r, Table.mem_of_find? hfind, Table.key_of_find? hfind⟩

/-- A record that was archived was pending, and changes so; where none was, the table stays. -/
theorem archived_eq_ok {archive : String} {now : Int} {won : Bool}
    (h : archived t roots id archive now = .ok (t', won)) :
    (∀ r, r ∈ t'.rows ↔ (r ∈ t.rows ∧ ¬ (r.id = id ∧ r.isPending)) ∨
      ∃ x ∈ t.rows, x.id = id ∧ x.isPending ∧ r = x.movedTo archive now) ∧ t'.last = t.last := by
  obtain ⟨-, -, h⟩ := Tx.bind_eq_ok.mp h
  obtain ⟨found, hfound, h⟩ := Tx.bind_eq_ok.mp h
  cases found with
  | true => exact Removal.archived_eq_ok (mapError_eq_ok h)
  | false =>
      cases h
      have hnone : ∀ r ∈ t.rows, r.id ≠ id := fun r hr hid =>
        Bool.false_ne_true ((reachable_eq_ok hfound).mpr ⟨r, hr, hid⟩)
      refine ⟨fun r => ⟨fun hr => Or.inl ⟨hr, fun hm => hnone r hr hm.1⟩, ?_⟩, rfl⟩
      rintro (⟨hr, -⟩ | ⟨x, hx, hid, -⟩)
      · exact hr
      · exact absurd hid (hnone x hx)

/-- A drop takes its record alone. -/
theorem dropRecord_eq_ok {was : Bool} (h : dropRecord t roots id = .ok (t', was)) :
    (∀ r, r ∈ t'.rows ↔ r ∈ t.rows ∧ r.id ≠ id) ∧ t'.last = t.last := by
  obtain ⟨found, hfound, h⟩ := Tx.bind_eq_ok.mp h
  cases found with
  | true =>
      cases h
      exact ⟨fun r => Removal.mem_remove, rfl⟩
  | false =>
      cases h
      refine ⟨fun r => ⟨fun hr => ⟨hr, fun hid => ?_⟩, And.left⟩, rfl⟩
      exact Bool.false_ne_true ((reachable_eq_ok hfound).mpr ⟨r, hr, hid⟩)

/-- What is left of a table when pending records of it are dropped. -/
structure Cut (t t' : Removals) : Prop where
  sub : ∀ r ∈ t'.rows, r ∈ t.rows
  archived : ∀ r ∈ t.rows, r.isPending = false → r ∈ t'.rows
  last : t'.last = t.last

/-- Where nothing is dropped, all is left. -/
theorem Cut.refl (t : Removals) : Cut t t := ⟨fun _ => id, fun _ hr _ => hr, rfl⟩

/-- To cancel a pending record drops it alone. -/
theorem cut_cancelPending (t : Removals) (id : Int) : Cut t (Removal.cancelPending t id).1 where
  sub _ hr := (Removal.mem_cancelPending.mp hr).1
  archived r hr hp := Removal.mem_cancelPending.mpr ⟨hr, fun h => by rw [h.2] at hp; cases hp⟩
  last := rfl

/-- Records are dropped one after another. -/
theorem Cut.trans {t₁ t₂ t₃ : Removals} (h : Cut t₁ t₂) (h' : Cut t₂ t₃) : Cut t₁ t₃ where
  sub r hr := h.sub r (h'.sub r hr)
  archived r hr hp := h'.archived r (h.archived r hr hp) hp
  last := h'.last.trans h.last

/-- **What the loop drops**: of what it names, whatever is pending and it did not skip. -/
theorem cancelEach_eq_ok {ids : List Int} {c : Cancelled} (h : cancelEach roots t ids = .ok (t', c)) :
    Cut t t' ∧ c.sweepHolder = none ∧ (c.skipped = [] → ∀ r ∈ t'.rows, r.isPending = true → r.id ∉ ids) := by
  induction ids generalizing t t' c with
  | nil =>
      cases h
      exact ⟨Cut.refl t, rfl, fun _ _ _ _ => List.not_mem_nil⟩
  | cons id ids ih =>
      rw [cancelEach] at h
      split at h
      · next hreach =>
          obtain ⟨⟨t₂, c₂⟩, hrest, h⟩ := Tx.bind_eq_ok.mp h
          cases h
          obtain ⟨hcut, hholder, hnone⟩ := ih hrest
          refine ⟨(cut_cancelPending t id).trans hcut, hholder, fun hskip r hr hp hmem => ?_⟩
          obtain rfl | hmem := List.mem_cons.mp hmem
          · exact (Removal.mem_cancelPending.mp (hcut.sub r hr)).2 ⟨rfl, hp⟩
          · exact hnone hskip r hr hp hmem
      · next hreach =>
          obtain ⟨hcut, hholder, hnone⟩ := ih h
          refine ⟨hcut, hholder, fun hskip r hr hp hmem => ?_⟩
          obtain rfl | hmem := List.mem_cons.mp hmem
          · exact Bool.false_ne_true ((reachable_eq_ok hreach).mpr ⟨r, hcut.sub r hr, rfl⟩)
          · exact hnone hskip r hr hp hmem
      · obtain ⟨⟨t₂, c₂⟩, hrest, h⟩ := Tx.bind_eq_ok.mp h
        cases h
        obtain ⟨hcut, hholder, -⟩ := ih hrest
        exact ⟨hcut, hholder, nofun⟩
      · cases h

/-- **What a cancel does.** While somebody holds the sweep's lease, nothing; else it drops pending records only, and all
of those it names that it does not say it skipped. -/
theorem cancel_eq_ok {leases : Leases} {ids : List Int} {c : Cancelled} (h : cancel t roots leases ids = .ok (t', c)) :
    (c.sweepHolder ≠ none ∧ t' = t) ∨
      (leases.find? SWEEP_LEASE = none ∧ c.sweepHolder = none ∧ Cut t t' ∧
        (c.skipped = [] → ∀ r ∈ t'.rows, r.isPending = true → r.id ∉ ids)) := by
  unfold cancel at h
  split at h
  · cases h
  · obtain ⟨held, hget, h⟩ := Tx.bind_eq_ok.mp h
    have hheld := Lease.get_eq_ok (mapError_eq_ok hget)
    cases held with
    | some l =>
        cases h
        exact Or.inl ⟨nofun, rfl⟩
    | none => exact Or.inr ⟨hheld.symm, (cancelEach_eq_ok h).2.1, (cancelEach_eq_ok h).1, (cancelEach_eq_ok h).2.2⟩

end Leaves

/-! ## runs -/

inductive Op where
  | add (ask : Fields) (via : String)
  | archived (id : Int) (archive : String) (now : Int)
  | dropRecord (id : Int)
  | cancel (leases : Leases) (ids : List Int)

/-- A call: what its caller may name, and what it asks. A `cancel` finds the leases as they are then. -/
structure Call where
  roots : Option FileRoots
  op : Op

/-- The records that a call leaves, if it is not refused. -/
def perform (t : Removals) (c : Call) : Except ApiError Removals :=
  match c.op with
  | .add ask via => (add t c.roots ask via).map (·.1)
  | .archived id archive now => (archived t c.roots id archive now).map (·.1)
  | .dropRecord id => (dropRecord t c.roots id).map (·.1)
  | .cancel leases ids => (cancel t c.roots leases ids).map (·.1)

/-- A refused call changes nothing. -/
def next (t : Removals) (c : Call) : Removals := Tx.commit (perform t c) t

/-- What becomes of a record that is kept: it stays, or was pending and is archived. -/
def Becomes (r r' : RemovalRow) : Prop :=
  r' = r ∨ r.isPending = true ∧ ∃ archive now, r' = r.movedTo archive now

/-- A record keeps its id. -/
theorem Becomes.id_eq {r r' : RemovalRow} (h : Becomes r r') : r'.id = r.id := by
  obtain rfl | ⟨-, archive, now, rfl⟩ := h <;> rfl

/-- A record is archived once. -/
theorem Becomes.trans {r r' r'' : RemovalRow} (h : Becomes r r') (h' : Becomes r' r'') : Becomes r r'' := by
  obtain rfl | ⟨hp, archive, now, rfl⟩ := h
  · exact h'
  · obtain rfl | ⟨hp', -⟩ := h'
    · exact Or.inr ⟨hp, archive, now, rfl⟩
    · cases hp'

/-- **What calls keep**: no id is given twice, and a record that is left is what became of the one of its id. -/
structure Kept (t t' : Removals) : Prop where
  last : t.last ≤ t'.last
  same : ∀ r' ∈ t'.rows, r'.id ≤ t.last → ∃ r ∈ t.rows, Becomes r r'

/-- Where nothing is called, all is kept. -/
theorem Kept.refl (t : Removals) : Kept t t := ⟨Int.le_refl _, fun r hr _ => ⟨r, hr, Or.inl rfl⟩⟩

/-- Calls are made one after another. -/
theorem Kept.trans {a b c : Removals} (h : Kept a b) (h' : Kept b c) : Kept a c where
  last := h.last.trans h'.last
  same r'' hr'' hid := by
    obtain ⟨r', hr', hbecomes'⟩ := h'.same r'' hr'' (hid.trans h.last)
    obtain ⟨r, hr, hbecomes⟩ := h.same r' hr' (hbecomes'.id_eq ▸ hid)
    exact ⟨r, hr, hbecomes.trans hbecomes'⟩

/-- A client may name every path of a record. -/
def Admitted (roots : Option FileRoots) (r : Fields) : Prop :=
  ∀ x ∈ roots, ∀ p ∈ recordPaths r, x.admitsHomePath p = true

/-- **What one call may do.** It adds, changes and drops records only that its caller may name. An archived one goes
with its own drop and in no other way. While somebody holds the sweep's lease nothing is cancelled; and a cancel that
was not refused for it and skipped nothing leaves none of the records it names pending. -/
structure Permitted (t : Removals) (c : Call) : Prop where
  admitted : ∀ r, ¬ (r ∈ t.rows ↔ r ∈ (next t c).rows) → Admitted c.roots r.removal
  archived : ∀ r ∈ t.rows, r.isPending = false → c.op ≠ .dropRecord r.id → r ∈ (next t c).rows
  swept : ∀ leases ids, c.op = .cancel leases ids → leases.find? SWEEP_LEASE ≠ none → next t c = t
  cancelled : ∀ leases ids left done, c.op = .cancel leases ids → cancel t c.roots leases ids = .ok (left, done) →
    done.sweepHolder = none → done.skipped = [] → ∀ r ∈ left.rows, r.isPending = true → r.id ∉ ids

section Step

variable {t t' : Removals} {roots : Option FileRoots} {id : Int}

/-- What is checked is that every path may be named. -/
theorem checkPaths_eq_ok {paths : List String} :
    checkPaths paths roots = .ok () ↔ ∀ x ∈ roots, ∀ p ∈ paths, x.admitsHomePath p = true := by
  cases roots with
  | none => exact iff_of_true rfl nofun
  | some x =>
      cases hfind : paths.find? (!x.admitsHomePath ·) with
      | none =>
          have hall : ∀ p ∈ paths, x.admitsHomePath p = true := by simpa using List.find?_eq_none.mp hfind
          simpa [checkPaths, hfind] using hall
      | some p =>
          have hp := List.find?_some (p := fun p => !x.admitsHomePath p) hfind
          refine iff_of_false (by simp [checkPaths, hfind]) fun h => ?_
          rw [h x rfl p (List.mem_of_find?_eq_some hfind)] at hp
          cases hp

/-- A record that is reachable may be named. -/
theorem admitted_of_reachable {found : Bool} (h : reachable t roots id = .ok found) {r : RemovalRow} (hr : r ∈ t.rows)
    (hid : r.id = id) : Admitted roots r.removal := by
  have hget : Removal.get t id = some r := hid ▸ Table.find?_of_mem hr
  unfold reachable at h
  rw [hget] at h
  obtain ⟨_, hcheck, -⟩ := Tx.bind_eq_ok.mp h
  exact checkPaths_eq_ok.mp hcheck

/-- What the loop of `cancel` drops may be named. -/
theorem admitted_of_cancelEach {ids : List Int} {c : Cancelled} (h : cancelEach roots t ids = .ok (t', c))
    {r : RemovalRow} (hr : r ∈ t.rows) (hgone : r ∉ t'.rows) : Admitted roots r.removal := by
  induction ids generalizing t t' c with
  | nil =>
      cases h
      exact absurd hr hgone
  | cons id ids ih =>
      rw [cancelEach] at h
      split at h
      · next hreach =>
          obtain ⟨⟨t₂, c₂⟩, hrest, h⟩ := Tx.bind_eq_ok.mp h
          cases h
          by_cases hleft : r ∈ (Removal.cancelPending t id).1.rows
          · exact ih hrest hleft hgone
          · have hcut : r.id = id ∧ r.isPending = true := by
              by_contra hne
              exact hleft (Removal.mem_cancelPending.mpr ⟨hr, hne⟩)
            exact admitted_of_reachable hreach hr hcut.1
      · exact ih h hr hgone
      · obtain ⟨⟨t₂, c₂⟩, hrest, h⟩ := Tx.bind_eq_ok.mp h
        cases h
        exact ih hrest hr hgone
      · cases h

/-- A record that a cancel drops is one whose paths its caller may name. -/
theorem admitted_of_cancel {leases : Leases} {ids : List Int} {c : Cancelled}
    (h : cancel t roots leases ids = .ok (t', c)) {r : RemovalRow} (hr : r ∈ t.rows) (hgone : r ∉ t'.rows) :
    Admitted roots r.removal := by
  unfold cancel at h
  split at h
  · cases h
  · obtain ⟨held, -, h⟩ := Tx.bind_eq_ok.mp h
    cases held with
    | some l =>
        cases h
        exact absurd hr hgone
    | none => exact admitted_of_cancelEach h hr hgone

/-- Where pending records are dropped, the others are kept. -/
theorem kept_of_cut (h : Cut t t') : Kept t t' :=
  ⟨Int.le_of_eq h.last.symm, fun r hr _ => ⟨r, h.sub r hr, Or.inl rfl⟩⟩

/-- What a call that is not refused leaves. -/
theorem kept_perform {c : Call} (h : perform t c = .ok t') : Kept t t' := by
  obtain ⟨roots, op⟩ := c
  cases op with
  | add ask via =>
      obtain ⟨⟨_, id⟩, hadd, rfl⟩ := Tx.map_eq_ok.mp h
      obtain ⟨hmem, hlast⟩ := add_eq_ok hadd
      refine ⟨by rw [hlast, AutoTable.nextKey]; omega, fun r hr hid => ?_⟩
      obtain hr | rfl := (hmem r).mp hr
      · exact ⟨r, hr, Or.inl rfl⟩
      · simp only [AutoTable.nextKey] at hid
        omega
  | archived id archive now =>
      obtain ⟨⟨_, won⟩, harchived, rfl⟩ := Tx.map_eq_ok.mp h
      obtain ⟨hmem, hlast⟩ := archived_eq_ok harchived
      refine ⟨Int.le_of_eq hlast.symm, fun r hr _ => ?_⟩
      obtain ⟨hr, -⟩ | ⟨x, hx, -, hp, rfl⟩ := (hmem r).mp hr
      · exact ⟨r, hr, Or.inl rfl⟩
      · exact ⟨x, hx, Or.inr ⟨hp, archive, now, rfl⟩⟩
  | dropRecord id =>
      obtain ⟨⟨_, was⟩, hdrop, rfl⟩ := Tx.map_eq_ok.mp h
      obtain ⟨hmem, hlast⟩ := dropRecord_eq_ok hdrop
      exact ⟨Int.le_of_eq hlast.symm, fun r hr _ => ⟨r, ((hmem r).mp hr).1, Or.inl rfl⟩⟩
  | cancel leases ids =>
      obtain ⟨⟨_, done⟩, hcancel, rfl⟩ := Tx.map_eq_ok.mp h
      obtain ⟨-, rfl⟩ | ⟨-, -, hcut, -⟩ := cancel_eq_ok hcancel
      · exact Kept.refl _
      · exact kept_of_cut hcut

/-- Every call keeps the records that it does not drop. -/
theorem kept_next (t : Removals) (c : Call) : Kept t (next t c) :=
  Tx.commit_rel (Kept.refl t) fun _ => kept_perform

/-- So does every run of calls. -/
theorem kept_run (t : Removals) (calls : List Call) : Kept t (run next t calls) :=
  run_rel Kept.refl (fun _ _ _ => Kept.trans) kept_next t calls

/-- A cancel that was let through and skipped nothing leaves none of those it names. -/
theorem not_pending_of_cancel {leases : Leases} {ids : List Int} {c : Cancelled}
    (h : cancel t roots leases ids = .ok (t', c)) (hholder : c.sweepHolder = none) (hskipped : c.skipped = []) :
    ∀ r ∈ t'.rows, r.isPending = true → r.id ∉ ids := by
  obtain ⟨hheld, -⟩ | ⟨-, -, -, hnone⟩ := cancel_eq_ok h
  · exact absurd hholder hheld
  · exact hnone hskipped

/-- A refused call does nothing, so it is enough to look at the others. -/
theorem permitted_of_perform {c : Call}
    (h : ∀ t', perform t c = .ok t' → (∀ r, ¬ (r ∈ t.rows ↔ r ∈ t'.rows) → Admitted c.roots r.removal) ∧
      (∀ r ∈ t.rows, r.isPending = false → c.op ≠ .dropRecord r.id → r ∈ t'.rows) ∧
      ∀ leases ids, c.op = .cancel leases ids → leases.find? SWEEP_LEASE ≠ none → t' = t) : Permitted t c := by
  cases hperform : perform t c with
  | error e =>
      have hnext : next t c = t := by rw [next, hperform]; rfl
      exact ⟨fun r hr => absurd (by rw [hnext]) hr, fun r hr _ _ => hnext.symm ▸ hr, fun _ _ _ _ => hnext,
        fun _ _ _ _ _ => not_pending_of_cancel⟩
  | ok t' =>
      have hnext : next t c = t' := by rw [next, hperform]; rfl
      obtain ⟨hadmitted, harchived, hswept⟩ := h t' hperform
      exact ⟨by rwa [hnext], by rwa [hnext], by rwa [hnext], fun _ _ _ _ _ => not_pending_of_cancel⟩

/-- No call changes more than its caller may. -/
theorem permitted (t : Removals) (c : Call) : Permitted t c := by
  obtain ⟨roots, op⟩ := c
  refine permitted_of_perform fun t' h => ?_
  cases op with
  | add ask via =>
      obtain ⟨⟨_, id⟩, hadd, rfl⟩ := Tx.map_eq_ok.mp h
      obtain ⟨hmem, -⟩ := add_eq_ok hadd
      refine ⟨fun r hr => ?_, fun r hr _ _ => (hmem r).mpr (Or.inl hr), fun _ _ hop => by cases hop⟩
      obtain ⟨_, hcheck, -⟩ := Tx.bind_eq_ok.mp hadd
      have hnew : r = ⟨t.nextKey, ask, via⟩ := by
        by_contra hne
        exact hr ⟨fun h => (hmem r).mpr (Or.inl h), fun h => ((hmem r).mp h).resolve_right hne⟩
      rw [hnew]
      exact checkPaths_eq_ok.mp hcheck
  | archived id archive now =>
      obtain ⟨⟨_, won⟩, harchived, rfl⟩ := Tx.map_eq_ok.mp h
      obtain ⟨hmem, -⟩ := archived_eq_ok harchived
      obtain ⟨_, hcheck, hrest⟩ := Tx.bind_eq_ok.mp harchived
      obtain ⟨found, hfound, -⟩ := Tx.bind_eq_ok.mp hrest
      refine ⟨fun r hr => ?_, fun r hr hp _ => (hmem r).mpr (Or.inl ⟨hr, fun h => ?_⟩), fun _ _ hop => by cases hop⟩
      · by_cases hin : r ∈ t.rows
        · have hmoved : r.id = id ∧ r.isPending = true := by
            by_contra hne
            exact hr (iff_of_true hin ((hmem r).mpr (Or.inl ⟨hin, hne⟩)))
          exact admitted_of_reachable hfound hin hmoved.1
        · obtain ⟨hold, -⟩ | ⟨x, hx, hid, -, rfl⟩ := (hmem r).mp (by_contra fun hout => hr (iff_of_false hin hout))
          · exact absurd hold hin
          · -- its worktree and its repository are those of the record, and its archive is what was asked
            intro y hy p hp
            obtain hp | hp := List.mem_append.mp hp
            · exact admitted_of_reachable hfound hx hid y hy p (List.mem_append_left _ hp)
            · exact checkPaths_eq_ok.mp hcheck y hy p hp
      · rw [h.2] at hp
        cases hp
  | dropRecord id =>
      obtain ⟨⟨_, was⟩, hdrop, rfl⟩ := Tx.map_eq_ok.mp h
      obtain ⟨hmem, -⟩ := dropRecord_eq_ok hdrop
      obtain ⟨found, hfound, -⟩ := Tx.bind_eq_ok.mp hdrop
      refine ⟨fun r hr => ?_, fun r hr _ hne => (hmem r).mpr ⟨hr, fun hid => hne (congrArg _ hid.symm)⟩,
        fun _ _ hop => by cases hop⟩
      have hgone : r ∈ t.rows ∧ r.id = id := by
        by_contra hne
        exact hr ⟨fun h => (hmem r).mpr ⟨h, fun hid => hne ⟨h, hid⟩⟩, fun h => ((hmem r).mp h).1⟩
      exact admitted_of_reachable hfound hgone.1 hgone.2
  | cancel leases ids =>
      obtain ⟨⟨left, done⟩, hcancel, rfl⟩ := Tx.map_eq_ok.mp h
      obtain ⟨-, rfl⟩ | ⟨hfree, -, hcut, -⟩ := cancel_eq_ok hcancel
      · exact ⟨fun r hr => absurd Iff.rfl hr, fun r hr _ _ => hr, fun _ _ _ _ => rfl⟩
      · refine ⟨fun r hr => ?_, fun r hr hp _ => hcut.archived r hr hp, fun leases' ids' hop hheld => ?_⟩
        · have hgone : r ∈ t.rows ∧ r ∉ left.rows := by
            by_contra hne
            exact hr ⟨fun h => by_contra fun hout => hne ⟨h, hout⟩, hcut.sub r⟩
          exact admitted_of_cancel hcancel hgone.1 hgone.2
        · cases hop
          exact absurd hfree hheld

/-- **The removal records over a run of calls**, whatever their callers may name and whoever holds the sweep's lease:
no id is given twice and what is left of a record is the record, archived once at most; and every call does only what it
may. -/
theorem records_run (t : Removals) (calls : List Call) :
    Kept t (run next t calls) ∧ EveryStep next Permitted t calls := by
  refine ⟨kept_run t calls, ?_⟩
  induction calls generalizing t with
  | nil => trivial
  | cons c calls ih => exact ⟨permitted t c, ih (next t c)⟩

end Step

/-! ## reading them all -/

/-- `removals`: read the records a page at a time, with other calls between two pages, until there is no next page or
the turns are over. What was read, the records as they are then, and whether it came to the end. -/
def removals (t : Removals) (after : Option Int) : List (List Call) → Except Fmt (List RemovalRow × Removals × Bool)
  | [] => .ok ([], t, false)
  | calls :: turns =>
      match Removal.list t after with
      | (page, none) => .ok (page, t, true)
      | (page, some n) =>
          -- a page must move forward
          if after.all (· < n) then do
            let (rows, t', ended) ← removals (run next t calls) (some n) turns
            return (page ++ rows, t', ended)
          else .error ["removal.list did not advance past ", n]

/-- **What a reading has found** after a cursor: records in the order of their ids, none twice; and at its end, of the
records that were there when it began and are there still, all, each as it is or as it was before it was archived. -/
structure Found (t : Removals) (after : Option Int) (rows : List RemovalRow) (t' : Removals) (ended : Bool) : Prop where
  kept : Kept t t'
  sorted : rows.Pairwise fun a b => a.id < b.id
  later : ∀ r ∈ rows, after.all (· < r.id) = true
  all : ended = true → ∀ r ∈ t'.rows, r.id ≤ t.last → after.all (· < r.id) = true → ∃ x ∈ rows, Becomes x r

/-- A key comes after the cursor, if there is one. -/
theorem all_lt_iff {after : Option Int} {k : Int} : after.all (· < k) = true ↔ ∀ a, after = some a → a < k := by
  cases after <;> simp

/-- A page, other calls, and what is found after it. -/
theorem Found.cons {t u t' : Removals} {after : Option Int} {page rows : List RemovalRow} {n : Int} {ended : Bool}
    (hpage : Removal.IsPage t after page (some n)) (hkept : Kept t u) (h : Found u (some n) rows t' ended) :
    Found t after (page ++ rows) t' ended := by
  have hpast : ∀ r ∈ rows, n < r.id := fun r hr => by simpa using h.later r hr
  have hupto : ∀ r ∈ page, r.id ≤ n := fun r hr => ((hpage.mem r).mp hr).2.2 n rfl
  refine ⟨hkept.trans h.kept, ?_, fun r hr => all_lt_iff.mpr ?_, fun hended r hr hid hlater => ?_⟩
  · exact List.pairwise_append.mpr
      ⟨hpage.sorted, h.sorted, fun a ha b hb => Int.lt_of_le_of_lt (hupto a ha) (hpast b hb)⟩
  · obtain hr | hr := List.mem_append.mp hr
    · exact ((hpage.mem r).mp hr).2.1
    · exact fun a ha => Int.lt_trans (hpage.next n rfl a ha) (hpast r hr)
  · obtain hle | hlt := le_or_gt r.id n
    · -- the page had it
      obtain ⟨x, hx, hbecomes⟩ := (hkept.trans h.kept).same r hr hid
      refine ⟨x, List.mem_append_left _ ((hpage.mem x).mpr ⟨hx, ?_, ?_⟩), hbecomes⟩
      · rw [← hbecomes.id_eq]
        exact all_lt_iff.mp hlater
      · intro k hk
        cases hk
        rwa [← hbecomes.id_eq]
    · obtain ⟨x, hx, hbecomes⟩ := h.all hended r hr (hid.trans hkept.last) (by simpa using hlt)
      exact ⟨x, List.mem_append_right _ hx, hbecomes⟩

/-- What a reader that goes on has found, whatever is called between its pages. -/
theorem found_removals (t : Removals) (after : Option Int) (turns : List (List Call)) :
    ∃ rows t' ended, removals t after turns = .ok (rows, t', ended) ∧ Found t after rows t' ended := by
  induction turns generalizing t after with
  | nil => exact ⟨[], t, false, rfl, Kept.refl t, .nil, by simp, by simp⟩
  | cons calls turns ih =>
      have hpage := Removal.isPage_list t after
      rw [removals]
      obtain ⟨page, n, hlist⟩ : ∃ page n, Removal.list t after = (page, n) := ⟨_, _, rfl⟩
      rw [hlist] at hpage ⊢
      cases n with
      | none =>
          refine ⟨page, t, true, rfl, Kept.refl t, hpage.sorted, fun r hr => ?_, fun _ r hr _ hlater => ?_⟩
          · exact all_lt_iff.mpr ((hpage.mem r).mp hr).2.1
          · exact ⟨r, (hpage.mem r).mpr ⟨hr, all_lt_iff.mp hlater, fun _ hnone => by cases hnone⟩, Or.inl rfl⟩
      | some n =>
          obtain ⟨rows, t', ended, hrest, hfound⟩ := ih (run next t calls) (some n)
          refine ⟨page ++ rows, t', ended, ?_, hfound.cons hpage (kept_run t calls)⟩
          have hadvances : after.all (· < n) = true := all_lt_iff.mpr (hpage.next n rfl)
          simp only [hadvances, if_true, hrest]
          rfl

/-- **Reading the records to the end misses none**, whatever other calls come between two pages: it is never refused for
a page that did not move forward, and what it has found at its end is all that was there the whole time. -/
theorem removals_found (t : Removals) (turns : List (List Call)) :
    ∃ rows t' ended, removals t none turns = .ok (rows, t', ended) ∧ Found t none rows t' ended :=
  found_removals t none turns

end Jkb.Removals
