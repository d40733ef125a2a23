import Jkb.Core.Undo
import Jkb.Run
import Mathlib.Order.Bounds.Basic

/-!
# Jkb.Core.Undo.Target

Which transaction an undo acts on. A bare `undo` asks one question of the log, which transaction is the
user's last change, and does not ask whether that one can be inverted: where it cannot, the undo is
refused. So nothing older is ever reverted in its place, and what was reverted once is marked and never
reverted again. `undo_never_retargets` says so of every run.
-/

namespace Jkb.Undo

open Jkb.Changelog Jkb.Text

/-! ## the selection -/

/-- Whether a transaction has an `undo` marker against it. -/
def alreadyUndone (log : List Entry) (txnId : Int) : Bool :=
  log.any fun u => u.op = Op.undo.asStr && u.entityId = idText txnId

/-- The entries that the selection asks about: neither bookkeeping nor on a table reached past. -/
def selects (e : Entry) : Bool :=
  bookkeeping.all (fun b => !(e.op = b.1.asStr && e.entityType = b.2.asStr)) &&
    passedOver.all fun table => e.entityType ≠ table.asStr

/-- The transactions containing work, between two bounds and not already undone. -/
def workTxns (log : List Entry) (below after : Int) : List Int :=
  (log.filter fun e => selects e && e.txnId < below && after < e.txnId &&
    !alreadyUndone log e.txnId).map (·.txnId)

/-- The newest of them. -/
def workTxnAfter (log : List Entry) (below after : Int) : Option Int :=
  (workTxns log below after).max?

section

variable {σ : Type} (x : Outside σ)

def selectWorkTxn (s : Store σ) (below : Int) : Option Int := workTxnAfter s.log below s.watermark

/-- A refusal that a reader can act on. -/
def refusal (s : Store σ) (txnId : Int) (why : String) : Error :=
  let escape := match selectWorkTxn s txnId with
    | some older => " The next older change is transaction " ++ idText older ++ " — `jkb undo " ++
        idText older ++ "` reverts that one instead."
    | none => " There is no older change to revert instead."
  .validation ("transaction " ++ idText txnId ++ " cannot be undone: " ++ why ++
    ". Nothing was changed." ++ escape)

/-! ## reverting a transaction -/

/-- The entries of a transaction, newest first. -/
def entriesOf (s : Store σ) (txnId : Int) : List Entry := (s.log.filter (·.txnId = txnId)).reverse

/-- Why a transaction's entries could not be inverted, each reason once and in order. -/
def blocked (s : Store σ) (txnId : Int) : List String :=
  dedup (((entriesOf s txnId).filter fun e => isWork e.op e.entityType).filterMap (fun e =>
    (blocker x s txnId e).map fun why => "`" ++ e.op ++ "` on `" ++ e.entityType ++ "` (" ++ why ++ ")")
      |>.insertionSort (· ≤ ·))

/-- Invert one entry in the transaction `own`. A failure is a refusal of `txnId`. -/
def invertOne (own txnId : Int) (acc : Store σ × Nat) (e : Entry) : Except Error (Store σ × Nat) :=
  match invertEntry x acc.1 e with
  | .ok (content, logged, rows) =>
      .ok ({ acc.1 with content, log := acc.1.log ++ logged.map (·.entry own) }, acc.2 + rows)
  | .error err => .error (refusal acc.1 txnId ("reversing `" ++ e.op ++ "` on `" ++ e.entityType ++
      "` failed: " ++ err.display))

/-- Invert entries one after the other. -/
def invertAll (own txnId : Int) (acc : Store σ × Nat) (entries : List Entry) :
    Except Error (Store σ × Nat) :=
  entries.foldlM (invertOne x own txnId) acc

/-- One item's status, or none if the row is gone. -/
def taskStatus (db : σ) (id : Int) : Except Error (Option String) :=
  (x.select db "status" Entity.items.asStr ("id", .int id)).map fun
    | some (.text status) => some status
    | _ => none

/-- The current status of every task that a transaction's entries name. -/
def taskStatuses (db : σ) (entries : List Entry) : Except Error (List (Int × Option String)) := do
  let ids := (entries.filter (·.entityType = Entity.items.asStr)).filterMap (rowidOf ·.entityId)
  let named ← (firstOfKey id [] ids).mapM fun id => do
    let kind ← x.select db "kind" Entity.items.asStr ("id", .int id)
    if kind = some (.text "task") then
      let status ← taskStatus x db id
      return some (id, status)
    else return none
  return named.reduceOption

/-- Record a transition for every task whose status moved, where the task is still there. -/
def recordStatusRestores (own : Int) (db : σ) (before : List (Int × Option String)) :
    Except Error σ :=
  before.foldlM (fun db (id, was) => do
    let now ← taskStatus x db id
    if now.isSome ∧ was ≠ now then
      let (db, _) ← x.insert db "task_transitions" [("txn_id", .int own), ("item_id", .int id),
        ("event", .text "undo"), ("from_status", .text (was.getD "")), ("to_status", .text (now.getD ""))]
      return db
    else return db) db

/-- Revert a transaction, in the transaction `own`: all of it, or none of it. -/
def undo (s : Store σ) (own txnId : Int) : Except Error (Store σ × Nat) := do
  if txnId ≤ s.watermark then
    .error (refusal s txnId ("it predates undo history, which begins after transaction " ++
      idText s.watermark ++ ". Entries older than that were written before `jkb undo` required a " ++
      "before-state that could restore anything, so reversing one would restore some of it and " ++
      "silently drop the rest"))
  if alreadyUndone s.log txnId then
    .error (refusal s txnId ("it has already been undone; reversing it a second time would address " ++
      "row ids that belong to other rows now"))
  let entries := entriesOf s txnId
  if entries.isEmpty then
    .error (refusal s txnId ("it recorded no changes — either nothing has that id yet, or whatever " ++
      "made it logged nothing, and marking an id undone before it exists would make `jkb undo` skip " ++
      "the real transaction later"))
  if !(blocked x s txnId).isEmpty then
    .error (refusal s txnId ("`jkb undo` cannot reverse " ++ ", ".intercalate (blocked x s txnId) ++
      ", and reversing the rest would leave the change half undone"))
  let statusesBefore ← taskStatuses x s.content entries
  let spans ← x.spansTouched s.content entries
  let designs ← x.designsTouched s.content entries
  let (s', reverted) ← invertAll x own txnId (s, 0) entries
  let content ← recordStatusRestores x own s'.content statusesBefore
  let content ← x.announceSpans content spans
  let content ← x.announceUndone content designs
  return ({ s' with content, log := s'.log ++ [marker own txnId] }, reverted)

/-- Revert the newest transaction containing work that is not undone. -/
def undoLast (s : Store σ) (own : Int) : Except Error (Store σ × Nat) :=
  match selectWorkTxn s own with
  | some txnId => undo x s own txnId
  | none =>
      if (workTxnAfter s.log own 0).isSome then
        .error (.validation ("nothing to undo: undo history begins after transaction " ++
          idText s.watermark ++ ", and every change on this database that has not already been " ++
          "reverted was recorded before that. Entries written then were not required to carry a " ++
          "before-state that could restore anything, so reversing one would restore some of it and " ++
          "silently drop the rest"))
      else .ok (s, 0)

/-! ## runs -/

/-- A transaction: a writer of content with what it logs, or an undo. -/
inductive Call (σ : Type) where
  | write (f : σ → Except Error (σ × List Logged))
  | undo (txnId : Int)
  | undoLast

/-- A transaction's own id is the next one. -/
def Call.perform (s : Store σ) : Call σ → Except Error (Store σ × Nat)
  | .write f => do
      let (content, logged) ← f s.content
      return ({ s with content, log := s.log ++ logged.map (·.entry (nextTxn s.log)) }, 0)
  | .undo txnId => Undo.undo x s (nextTxn s.log) txnId
  | .undoLast => Undo.undoLast x s (nextTxn s.log)

/-- The transaction that a call is to invert. -/
def Call.target (s : Store σ) : Call σ → Option Int
  | .write _ => none
  | .undo txnId => some txnId
  | .undoLast => selectWorkTxn s (nextTxn s.log)

/-- A store, with the transactions whose inversion was committed. -/
structure History (σ : Type) where
  store : Store σ
  inverted : List Int

/-- One call: a refusal leaves what there was. -/
def next (h : History σ) (call : Call σ) : History σ :=
  match call.perform x h.store with
  | .ok (store, _) => ⟨store, (call.target h.store).toList ++ h.inverted⟩
  | .error _ => h

end

/-! ## what the log says -/

/-- A transaction is marked undone. -/
def Undone (log : List Entry) (txnId : Int) : Prop :=
  ∃ u ∈ log, u.op = Op.undo.asStr ∧ u.entityId = idText txnId

/-- A transaction has an entry. -/
def Recorded (log : List Entry) (txnId : Int) : Prop := ∃ e ∈ log, e.txnId = txnId

/-- The transactions that a bare undo may act on: above the watermark, not undone, and with an entry
that is work and not on a table reached past. -/
def targets {σ : Type} (s : Store σ) : Set Int :=
  {t | s.watermark < t ∧ ¬ Undone s.log t ∧
    ∃ e ∈ s.log, e.txnId = t ∧ isWork e.op e.entityType ∧ e.entityType ≠ Entity.execRequests.asStr}

theorem alreadyUndone_iff {log : List Entry} {t : Int} : alreadyUndone log t ↔ Undone log t := by
  simp [alreadyUndone, Undone]

/-- The selection's query and the predicate agree about which entries are work. -/
theorem isWork_eq (op table : String) :
    isWork op table = bookkeeping.all fun b => !(op = b.1.asStr && table = b.2.asStr) := by
  unfold isWork
  cases hop : Op.parse op with
  | none =>
      refine (List.all_eq_true.mpr fun b _ => ?_).symm
      have hne : op ≠ b.1.asStr := fun h => by simp [Op.parse_eq_some.mpr h] at hop
      simp [hne]
  | some o =>
      obtain rfl := Op.parse_eq_some.mp hop
      cases htable : Entity.parse table with
      | none =>
          refine (List.all_eq_true.mpr fun b _ => ?_).symm
          have hne : table ≠ b.2.asStr := fun h => by simp [Entity.parse_eq_some.mpr h] at htable
          simp [hne]
      | some e =>
          obtain rfl := Entity.parse_eq_some.mp htable
          simp [bookkeeping, Op.asStr_inj, Entity.asStr_inj]

theorem selects_iff {e : Entry} :
    selects e ↔ isWork e.op e.entityType ∧ e.entityType ≠ Entity.execRequests.asStr := by
  rw [selects, isWork_eq, Bool.and_eq_true]
  simp [passedOver]

section

variable {σ : Type} {x : Outside σ} {s s' : Store σ}

theorem mem_workTxns {t : Int} : t ∈ workTxns s.log (nextTxn s.log) s.watermark ↔ t ∈ targets s := by
  simp only [workTxns, List.mem_map, List.mem_filter, Bool.and_eq_true, decide_eq_true_eq,
    Bool.not_eq_true', Bool.eq_false_iff, ne_eq, alreadyUndone_iff, selects_iff]
  constructor
  · rintro ⟨e, ⟨he, ⟨⟨hwork, -⟩, hmark⟩, hundone⟩, rfl⟩
    exact ⟨hmark, hundone, e, he, rfl, hwork⟩
  · rintro ⟨hmark, hundone, e, he, rfl, hwork⟩
    exact ⟨e, ⟨he, ⟨⟨hwork, lt_nextTxn he⟩, hmark⟩, hundone⟩, rfl⟩

/-- **The selection is the newest target.** -/
theorem selectWorkTxn_eq_some {t : Int} :
    selectWorkTxn s (nextTxn s.log) = some t ↔ IsGreatest (targets s) t := by
  rw [selectWorkTxn, workTxnAfter, List.max?_eq_some_iff, mem_workTxns]
  simp only [mem_workTxns]
  rfl

theorem selectWorkTxn_eq_none : selectWorkTxn s (nextTxn s.log) = none ↔ targets s = ∅ := by
  rw [selectWorkTxn, workTxnAfter, List.max?_eq_none_iff, List.eq_nil_iff_forall_not_mem,
    Set.eq_empty_iff_forall_notMem]
  simp only [mem_workTxns]

/-! ## what an undo leaves -/

/-- A transaction can be inverted: nothing blocks an entry of work, and every entry is inverted in
turn. -/
def Invertible (x : Outside σ) (s : Store σ) (t : Int) : Prop :=
  (∀ e ∈ entriesOf s t, isWork e.op e.entityType → blocker x s t e = none) ∧
    ∃ s' n, invertAll x (nextTxn s.log) t (s, 0) (entriesOf s t) = .ok (s', n)

theorem blocked_eq_nil {t : Int} (h : blocked x s t = []) :
    ∀ e ∈ entriesOf s t, isWork e.op e.entityType → blocker x s t e = none := by
  intro e he hwork
  by_contra hne
  obtain ⟨why, hwhy⟩ := Option.ne_none_iff_exists'.mp hne
  have hmem : "`" ++ e.op ++ "` on `" ++ e.entityType ++ "` (" ++ why ++ ")" ∈ blocked x s t := by
    rw [blocked, mem_dedup, List.mem_insertionSort, List.mem_filterMap]
    exact ⟨e, List.mem_filter.mpr ⟨he, hwork⟩, by rw [hwhy]; rfl⟩
  rw [h] at hmem
  exact absurd hmem List.not_mem_nil

/-- Inverting entries appends to the log what the inversions log, and leaves the watermark alone. -/
theorem invertAll_log {own t : Int} {entries : List Entry} {acc acc' : Store σ × Nat}
    (h : invertAll x own t acc entries = .ok acc') :
    acc'.1.watermark = acc.1.watermark ∧
      ∃ logged : List Logged, acc'.1.log = acc.1.log ++ logged.map (·.entry own) := by
  induction entries generalizing acc with
  | nil =>
      obtain rfl := Except.ok.inj h
      exact ⟨rfl, [], by simp⟩
  | cons e entries ih =>
      obtain ⟨acc₁, hfirst, hrest⟩ := Tx.bind_eq_ok.mp h
      obtain ⟨hmark, logged, hlog⟩ := ih hrest
      unfold invertOne at hfirst
      cases hinv : invertEntry x acc.1 e with
      | error err => simp [hinv] at hfirst
      | ok r =>
          rw [hinv] at hfirst
          obtain rfl := Except.ok.inj hfirst
          exact ⟨hmark, r.2.1 ++ logged, by rw [hlog]; simp⟩

/-- **What an undo that succeeds has found, and what it leaves.** -/
theorem undo_ok {own t : Int} {n : Nat} (h : undo x s own t = .ok (s', n)) :
    s.watermark < t ∧ ¬ Undone s.log t ∧ Recorded s.log t ∧
      (∀ e ∈ entriesOf s t, isWork e.op e.entityType → blocker x s t e = none) ∧
      (∃ s' n, invertAll x own t (s, 0) (entriesOf s t) = .ok (s', n)) ∧
      s'.watermark = s.watermark ∧
      ∃ logged : List Logged, s'.log = s.log ++ logged.map (·.entry own) ++ [marker own t] := by
  unfold undo at h
  obtain ⟨hmark, h⟩ := Tx.guard_eq_ok.mp h
  obtain ⟨hundone, h⟩ := Tx.guard_eq_ok.mp h
  obtain ⟨hentries, h⟩ := Tx.guard_eq_ok.mp h
  obtain ⟨hblocked, h⟩ := Tx.guard_eq_ok.mp h
  obtain ⟨statuses, -, h⟩ := Tx.bind_eq_ok.mp h
  obtain ⟨spans, -, h⟩ := Tx.bind_eq_ok.mp h
  obtain ⟨designs, -, h⟩ := Tx.bind_eq_ok.mp h
  obtain ⟨⟨s₁, reverted⟩, hinvert, h⟩ := Tx.bind_eq_ok.mp h
  obtain ⟨content₁, -, h⟩ := Tx.bind_eq_ok.mp h
  obtain ⟨content₂, -, h⟩ := Tx.bind_eq_ok.mp h
  obtain ⟨content₃, -, h⟩ := Tx.bind_eq_ok.mp h
  obtain ⟨rfl, rfl⟩ := Prod.mk.inj (Except.ok.inj h)
  obtain ⟨hwatermark, logged, hlog⟩ := invertAll_log hinvert
  have hrecorded : Recorded s.log t := by
    obtain ⟨e, he⟩ := List.exists_mem_of_ne_nil _ (by simpa using hentries)
    obtain ⟨he, ht⟩ := List.mem_filter.mp (List.mem_reverse.mp he)
    exact ⟨e, he, by simpa using ht⟩
  have hclear : blocked x s t = [] := by simpa using hblocked
  exact ⟨not_le.mp hmark, alreadyUndone_iff.not.mp hundone, hrecorded, blocked_eq_nil hclear,
    ⟨s₁, reverted, hinvert⟩, hwatermark, logged, by rw [hlog]⟩

theorem undone_append {log log' : List Entry} {t : Int} :
    Undone (log ++ log') t ↔ Undone log t ∨ Undone log' t := by
  simp [Undone, or_and_right, exists_or]

/-- What a writer logs marks nothing. -/
theorem not_undone_logged {logged : List Logged} {own t : Int} :
    ¬ Undone (logged.map (·.entry own)) t := by
  rintro ⟨u, hu, hop, -⟩
  obtain ⟨l, -, rfl⟩ := List.mem_map.mp hu
  exact l.not_undo hop

theorem undone_marker {own t u : Int} : Undone [marker own t] u ↔ u = t := by
  simp only [Undone, List.mem_singleton, exists_eq_left, marker, true_and]
  exact ⟨fun h => (idText_injective h).symm, fun h => by rw [h]⟩

/-- An undo that succeeds marks its transaction, and no other. -/
theorem undone_of_undo {own t : Int} {n : Nat} (h : undo x s own t = .ok (s', n)) (u : Int) :
    Undone s'.log u ↔ Undone s.log u ∨ u = t := by
  obtain ⟨-, -, -, -, -, -, logged, hlog⟩ := undo_ok h
  rw [hlog, undone_append, undone_append, undone_marker]
  simp [not_undone_logged]

theorem invertible_of_undo {t : Int} {n : Nat} (h : undo x s (nextTxn s.log) t = .ok (s', n)) :
    Invertible x s t := by
  obtain ⟨-, -, -, hclear, hinvert, -, -⟩ := undo_ok h
  exact ⟨hclear, hinvert⟩

theorem undoLast_eq {t : Int} (h : IsGreatest (targets s) t) :
    undoLast x s (nextTxn s.log) = undo x s (nextTxn s.log) t := by
  rw [undoLast, selectWorkTxn_eq_some.mpr h]

/-- With no target, a bare undo changes nothing. -/
theorem undoLast_of_empty (h : targets s = ∅) {n : Nat}
    (hok : undoLast x s (nextTxn s.log) = .ok (s', n)) : s' = s := by
  rw [undoLast, selectWorkTxn_eq_none.mpr h] at hok
  by_cases hold : (workTxnAfter s.log (nextTxn s.log) 0).isSome = true
  · simp [hold] at hok
  · rw [if_neg hold] at hok
    exact (Prod.mk.inj (Except.ok.inj hok)).1.symm

/-! ## what a run keeps -/

/-- What a call does to the marks: it inverts its target, which was not undone and has an entry, and
marks it alone; or it marks nothing. Entries stay. -/
theorem perform_cases {call : Call σ} {n : Nat} (h : call.perform x s = .ok (s', n)) :
    (∀ t, Recorded s.log t → Recorded s'.log t) ∧
      ((call.target s = none ∧ ∀ u, Undone s'.log u ↔ Undone s.log u) ∨
        ∃ t, call.target s = some t ∧ ¬ Undone s.log t ∧ Recorded s.log t ∧
          ∀ u, Undone s'.log u ↔ Undone s.log u ∨ u = t) := by
  have hundo : ∀ t, call.target s = some t → undo x s (nextTxn s.log) t = .ok (s', n) →
      (∀ t, Recorded s.log t → Recorded s'.log t) ∧
        ((call.target s = none ∧ ∀ u, Undone s'.log u ↔ Undone s.log u) ∨
          ∃ t, call.target s = some t ∧ ¬ Undone s.log t ∧ Recorded s.log t ∧
            ∀ u, Undone s'.log u ↔ Undone s.log u ∨ u = t) := by
    intro t ht h
    obtain ⟨-, hundone, hrecorded, -, -, -, logged, hlog⟩ := undo_ok h
    refine ⟨fun t ⟨e, he, het⟩ => ⟨e, by simp [hlog, he], het⟩,
      Or.inr ⟨t, ht, hundone, hrecorded, undone_of_undo h⟩⟩
  cases call with
  | write f =>
      obtain ⟨⟨content, logged⟩, -, h⟩ := Tx.bind_eq_ok.mp h
      obtain ⟨rfl, -⟩ := Prod.mk.inj (Except.ok.inj h)
      refine ⟨fun t ⟨e, he, het⟩ => ⟨e, List.mem_append_left _ he, het⟩, Or.inl ⟨rfl, fun u => ?_⟩⟩
      rw [undone_append]
      simp [not_undone_logged]
  | undo t => exact hundo t rfl h
  | undoLast =>
      cases hs : selectWorkTxn s (nextTxn s.log) with
      | none =>
          obtain rfl := undoLast_of_empty (selectWorkTxn_eq_none.mp hs) h
          exact ⟨fun t ht => ht, Or.inl ⟨hs, fun u => Iff.rfl⟩⟩
      | some t =>
          refine hundo t hs ?_
          rw [← undoLast_eq (selectWorkTxn_eq_some.mp hs)]
          exact h

/-- What was inverted is marked, each transaction once and none that was marked at the start; and a mark
names a transaction with entries, if every mark of the start did. -/
structure Inv (start : List Entry) (h : History σ) : Prop where
  undone : ∀ t, Undone h.store.log t ↔ Undone start t ∨ t ∈ h.inverted
  nodup : h.inverted.Nodup
  fresh : ∀ t ∈ h.inverted, ¬ Undone start t
  recorded : (∀ t, Undone start t → Recorded start t) →
    ∀ t, Undone h.store.log t → Recorded h.store.log t

theorem inv_next {start : List Entry} {h : History σ} (hi : Inv start h) (call : Call σ) :
    Inv start (next x h call) := by
  unfold next
  cases hp : call.perform x h.store with
  | error e => exact hi
  | ok r =>
      obtain ⟨hkeep, ⟨htarget, hmarks⟩ | ⟨t, htarget, hundone, hrecorded, hmarks⟩⟩ :=
        perform_cases hp
      · simp only [htarget, Option.toList_none, List.nil_append]
        exact {
          undone := fun t => (hmarks t).trans (hi.undone t)
          nodup := hi.nodup
          fresh := hi.fresh
          recorded := fun hstart t ht => hkeep t (hi.recorded hstart t ((hmarks t).mp ht)) }
      · simp only [htarget, Option.toList_some, List.singleton_append]
        rw [hi.undone, not_or] at hundone
        exact {
          undone := by
            intro u
            rw [hmarks, hi.undone, List.mem_cons, or_assoc, or_comm (a := u ∈ h.inverted)]
          nodup := List.nodup_cons.mpr ⟨hundone.2, hi.nodup⟩
          fresh := by
            intro u hu
            rcases List.mem_cons.mp hu with rfl | hu
            · exact hundone.1
            · exact hi.fresh u hu
          recorded := by
            intro hstart u hu
            rcases (hmarks u).mp hu with hu | rfl
            · exact hkeep u (hi.recorded hstart u hu)
            · exact hkeep u hrecorded }

/-- **Undo never retargets and never repeats.** After any calls, a bare undo acts on exactly the newest
transaction that is above the watermark, not undone, and has an entry that is neither bookkeeping nor on
a table reached past; with none it changes nothing. A call that is refused changes nothing, and an undo
of a transaction that cannot be inverted is refused. An undo that is not refused marks its transaction
and no other. Over the run each transaction is inverted at most once, and none that was undone before
it; and no id without entries is ever marked. -/
theorem undo_never_retargets (x : Outside σ) (s : Store σ) (calls : List (Call σ)) :
    let h := Run.run (next x) ⟨s, []⟩ calls
    let own := nextTxn h.store.log
    (∀ t, IsGreatest (targets h.store) t → undoLast x h.store own = undo x h.store own t) ∧
      (targets h.store = ∅ → (next x h .undoLast).store = h.store) ∧
      (∀ call e, call.perform x h.store = .error e → next x h call = h) ∧
      (∀ t, ¬ Invertible x h.store t → ∃ e, undo x h.store own t = .error e) ∧
      (∀ t s' n, undo x h.store own t = .ok (s', n) →
        ∀ u, Undone s'.log u ↔ Undone h.store.log u ∨ u = t) ∧
      h.inverted.Nodup ∧ (∀ t ∈ h.inverted, ¬ Undone s.log t) ∧
      ((∀ t, Undone s.log t → Recorded s.log t) →
        ∀ t, Undone h.store.log t → Recorded h.store.log t) := by
  intro h own
  have hstart : Inv s.log (⟨s, []⟩ : History σ) := {
    undone := by simp
    nodup := List.nodup_nil
    fresh := by simp
    recorded := fun hs => hs }
  have hi : Inv s.log h :=
    @Run.run_invariant _ _ (next x) (Inv s.log) (fun _ call hi => inv_next hi call) _ hstart calls
  refine ⟨fun t ht => undoLast_eq ht, fun hempty => ?_, fun call e he => ?_, fun t hnot => ?_,
    fun t s' n hok => undone_of_undo hok, hi.nodup, hi.fresh, hi.recorded⟩
  · unfold next
    cases hp : Call.perform x h.store .undoLast with
    | error e => rfl
    | ok r => exact undoLast_of_empty hempty hp
  · rw [next, he]
  · cases hp : undo x h.store own t with
    | error e => exact ⟨e, rfl⟩
    | ok r => exact absurd (invertible_of_undo hp) hnot

end

end Jkb.Undo
