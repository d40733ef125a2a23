import Jkb.Exec
import Mathlib.Data.List.Induction

/-!
# Jkb.Exec.Once

An approved command runs at most once, and only as approved. Whatever an operation does to the table
is, row by row, one `RowStep`; the run-level results are inductions over it. Publishing, announcing
and notifying touch the queue only, so they do not show in a row.
-/

namespace Jkb.Exec

open Run Tx

variable {lib : Ext}

/-! ## What touches a row -/

/-- A publication writes the queue alone. -/
theorem publish_queue {db db' : Db} {id kind payload now must seq}
    (h : publish lib db id kind payload now must = .ok (db', seq)) :
    ∃ q, db' = { db with queue := q } := by
  simp only [publish] at h
  split at h <;> try split at h
  all_goals cases h
  all_goals exact ⟨_, rfl⟩

/-- An announcement writes the queue alone. -/
theorem announce_queue {db db' : Db} {row now} (h : announce lib db row now = .ok db') :
    ∃ q, db' = { db with queue := q } := by
  simp only [announce, bind_eq_ok] at h
  obtain ⟨groups, -, h⟩ := h
  split at h <;> try split at h
  all_goals cases h
  all_goals exact ⟨_, rfl⟩

/-- A decision is published to the queue alone. -/
theorem publishDecision_queue {db db' : Db} {row now}
    (h : publishDecision lib db row now = .ok db') : ∃ q, db' = { db with queue := q } := by
  unfold publishDecision at h
  split at h
  · obtain ⟨seq, h⟩ := map_fst_eq_ok h
    exact publish_queue h
  · cases h
    exact ⟨_, rfl⟩

/-- A withdrawal writes the queue alone. -/
theorem withdrawPending_queue {db db' : Db} {before row now}
    (h : withdrawPending lib db before row now = .ok db') : ∃ q, db' = { db with queue := q } := by
  unfold withdrawPending at h
  split at h <;> try split at h
  all_goals cases h
  all_goals exact ⟨_, rfl⟩

/-- An end is published to the queue alone. -/
theorem publishEnd_queue {db db' : Db} {id row now}
    (h : publishEnd lib db id row now = .ok db') : ∃ q, db' = { db with queue := q } := by
  unfold publishEnd at h
  split at h
  · obtain ⟨seq, h⟩ := map_fst_eq_ok h
    exact publish_queue h
  · cases h
    exact ⟨_, rfl⟩

/-- A compare-and-set move that was made, but for what it told the queue. -/
theorem moved_some {db db' : Db} {id guard set hset now row}
    (h : moved lib db id guard set hset now = .ok (db', some row)) :
    ∃ q r, db.requests.find? id = some r ∧ guard r = true ∧
      db' = { db.update id guard set hset with
        queue := q, changelog := db.changelog ++ [⟨some r, set r⟩] } := by
  unfold moved at h
  cases hr : db.requests.find? id with
  | none => simp [hr] at h
  | some r =>
      simp only [hr] at h
      cases hg : guard r with
      | false =>
          simp only [hg, Bool.not_false, if_true] at h
          cases h
      | true =>
          simp only [hg, Bool.not_true, Bool.false_eq_true, if_false, bind_eq_ok] at h
          obtain ⟨x, -, db₁, h₁, db₂, h₂, db₃, h₃, h⟩ := h
          obtain ⟨q₁, rfl⟩ := publishDecision_queue h₁
          obtain ⟨q₂, rfl⟩ := withdrawPending_queue h₂
          obtain ⟨q₃, rfl⟩ := announce_queue h₃
          cases h
          exact ⟨q₃, r, rfl, hg, rfl⟩

/-- A compare-and-set move that fails its compare does nothing. -/
theorem moved_none {db db' : Db} {id guard set hset now}
    (h : moved lib db id guard set hset now = .ok (db', none)) :
    db' = db ∧ ∃ r, db.requests.find? id = some r ∧ guard r = false := by
  unfold moved at h
  cases hr : db.requests.find? id with
  | none => simp [hr] at h
  | some r =>
      simp only [hr] at h
      cases hg : guard r with
      | false =>
          simp only [hg, Bool.not_false, if_true] at h
          cases h
          exact ⟨rfl, r, rfl, hg⟩
      | true =>
          simp only [hg, Bool.not_true, Bool.false_eq_true, if_false, bind_eq_ok] at h
          obtain ⟨x, -, db₁, -, db₂, -, db₃, -, h⟩ := h
          cases h

/-- A compare-and-set move, seen through the rows. -/
theorem moved_requests {db db' : Db} {id guard set hset now res}
    (h : moved lib db id guard set hset now = .ok (db', res)) :
    ∃ r, db.requests.find? id = some r ∧ (res.isSome = true ↔ guard r = true) ∧
      ∀ k, db'.requests.find? k = (db.requests.find? k).map fun x =>
        if x.id = id ∧ guard x = true then set x else x := by
  cases res with
  | some row =>
      obtain ⟨q, r, hr, hg, rfl⟩ := moved_some h
      refine ⟨r, hr, iff_of_true rfl hg, fun k => ?_⟩
      simp only [Db.update, AutoTable.updateWhere]
      rw [Table.find?_updateWhere]
      simp
  | none =>
      obtain ⟨rfl, r, hr, hg⟩ := moved_none h
      refine ⟨r, hr, by simp [hg], fun k => ?_⟩
      cases hk : db'.requests.find? k with
      | none => rfl
      | some x =>
          have hx : ¬ (x.id = id ∧ guard x = true) := by
            rintro ⟨rfl, hgx⟩
            rw [Table.find?_of_mem (Table.mem_of_find? hk)] at hr
            cases hr
            rw [hg] at hgx
            contradiction
          simp [hx]

/-! ## Settling -/

/-- What `settle` does to a row. -/
def settleRow (now : Int) (r : RawRow) : RawRow :=
  if r.due now then expire now expireNote r
  else if r.overdue now then interrupt now r
  else r

@[simp] theorem isPending_expire (now : Int) (note : String) (r : RawRow) :
    isPending (expire now note r) = false := rfl

@[simp] theorem isRunning_expire (now : Int) (note : String) (r : RawRow) :
    isRunning (expire now note r) = false := rfl

@[simp] theorem isRunning_interrupt (now : Int) (r : RawRow) :
    isRunning (interrupt now r) = false := rfl

@[simp] theorem expire_id (now : Int) (note : String) (r : RawRow) : (expire now note r).id = r.id :=
  rfl

@[simp] theorem interrupt_id (now : Int) (r : RawRow) : (interrupt now r).id = r.id := rfl

/-- Of the requests that are named, the pending ones expire, and the others stay as they are. -/
theorem expireAll_requests {now note} {ids : List Int} {db db' : Db} {expired}
    (h : expireAll lib now note db ids = .ok (db', expired)) (k : Int) :
    db'.requests.find? k = (db.requests.find? k).map fun x =>
      if x.id ∈ ids ∧ isPending x = true then expire now note x else x := by
  induction ids generalizing db expired with
  | nil =>
      cases h
      simp
  | cons id ids ih =>
      simp only [expireAll, bind_eq_ok] at h
      obtain ⟨⟨db₁, row⟩, h₁, ⟨db₂, rest⟩, h₂, h⟩ := h
      cases h
      obtain ⟨r, -, -, hmap⟩ := moved_requests h₁
      rw [ih h₂, hmap, Option.map_map]
      congr 1
      funext x
      by_cases hid : x.id = id <;> cases hp : isPending x <;> simp [hid, hp]

/-- Of the requests that are named, the running ones are interrupted, and the others stay as they are. -/
theorem interruptAll_requests {now} {ids : List Int} {db db' : Db}
    (h : interruptAll lib now db ids = .ok db') (k : Int) :
    db'.requests.find? k = (db.requests.find? k).map fun x =>
      if x.id ∈ ids ∧ isRunning x = true then interrupt now x else x := by
  induction ids generalizing db with
  | nil =>
      cases h
      simp
  | cons id ids ih =>
      simp only [interruptAll, bind_eq_ok] at h
      obtain ⟨⟨db₁, row⟩, h₁, db₂, h₂, h⟩ := h
      obtain ⟨r, -, -, hmap⟩ := moved_requests h₁
      obtain ⟨q, rfl⟩ := publishEnd_queue h₂
      rw [ih h, hmap, Option.map_map]
      congr 1
      funext x
      by_cases hid : x.id = id <;> cases hp : isRunning x <;> simp [hid, hp]

/-- The ids a query lists are those of the rows it selects. -/
theorem mem_ids {db : Db} {p : RawRow → Bool} {k : Int} {r : RawRow}
    (h : db.requests.find? k = some r) : r.id ∈ db.ids p ↔ p r = true := by
  have hr := Table.mem_of_find? h
  rw [Db.ids, List.mem_insertionSort, List.mem_map]
  constructor
  · rintro ⟨x, hx, hid⟩
    obtain ⟨hx, hp⟩ := List.mem_filter.mp hx
    rwa [← db.requests.eq_of_key_eq hx hr hid]
  · intro hp
    exact ⟨r, List.mem_filter.mpr ⟨hr, hp⟩, rfl⟩

/-- **Settling, row by row.** -/
theorem settle_requests {db db' : Db} {now expired}
    (h : settle lib db now = .ok (db', expired)) (k : Int) :
    db'.requests.find? k = (db.requests.find? k).map (settleRow now) := by
  simp only [settle, bind_eq_ok] at h
  obtain ⟨⟨db₁, expired⟩, h₁, db₂, h₂, h⟩ := h
  cases h
  have hexpire := expireAll_requests h₁ k
  have hend := interruptAll_requests h₂ k
  cases hk : db.requests.find? k with
  | none => rw [hend, hexpire, hk]; rfl
  | some r =>
      have hdue : (r.id ∈ db.ids (·.due now) ∧ isPending r = true) ↔ r.due now = true := by
        rw [mem_ids hk, and_iff_left_iff_imp]
        exact fun h => (Bool.and_eq_true_iff.mp h).1
      simp only [hk, Option.map_some, hdue] at hexpire
      have hover : ∀ x, db₁.requests.find? k = some x →
          ((x.id ∈ db₁.ids (·.overdue now) ∧ isRunning x = true) ↔ x.overdue now = true) := by
        intro x hx
        rw [mem_ids hx, and_iff_left_iff_imp]
        exact fun h => (Bool.and_eq_true_iff.mp h).1
      rw [hend, hexpire, Option.map_some, Option.map_some]
      simp only [hover _ hexpire, settleRow]
      by_cases hd : r.due now = true
      · rw [if_pos hd, if_neg (by simp [RawRow.overdue])]
        simp [hd]
      · simp [hd]

/-! ## What an operation does to a row -/

/-- The fields a parsed row takes from the stored one. -/
theorem parse_ok {r : RawRow} {row : ExecRow} (h : r.parse lib = .ok row) :
    row.id = r.id ∧ row.state = r.state ∧ row.ask.pin = r.pin ∧ row.runner = r.runner ∧
      row.outcome = r.outcome ∧ row.note = r.note := by
  unfold RawRow.parse at h
  split at h
  · contradiction
  · cases h
    exact ⟨rfl, rfl, rfl, rfl, rfl, rfl⟩

/-- A request that is read is stored, and its row can be parsed. -/
theorem mustGet_ok {db : Db} {id : Int} {row : ExecRow} (h : mustGet lib db id = .ok row) :
    ∃ r, db.requests.find? id = some r ∧ r.parse lib = .ok row := by
  unfold mustGet at h
  split at h
  · rename_i r hr
    exact ⟨r, hr, h⟩
  · contradiction

/-- A move that goes through found its request where the guard holds, and wrote that request only. -/
theorem mustMove_requests {db db' : Db} {id guard set hset now e row}
    (h : mustMove lib db id guard set hset now e = .ok (db', row)) :
    ∃ r, db.requests.find? id = some r ∧ guard r = true ∧
      ∀ k, db'.requests.find? k = (db.requests.find? k).map fun x =>
        if x.id = id ∧ guard x = true then set x else x := by
  simp only [mustMove, bind_eq_ok] at h
  obtain ⟨⟨db₁, res⟩, h₁, h⟩ := h
  obtain ⟨r, hr, hres, hmap⟩ := moved_requests h₁
  cases res with
  | none => contradiction
  | some x =>
      cases h
      exact ⟨r, hr, hres.mp rfl, hmap⟩

/-- The clock an operation is given; the queue's own operations have none here. -/
def Op.now : Op → Option Int
  | .request _ _ now => some now
  | .begin _ _ _ now => some now
  | .decline _ _ now => some now
  | .refuse _ _ now => some now
  | .output _ _ _ now => some now
  | .finish _ _ now => some now
  | .expireSession _ now => some now
  | .status _ now => some now
  | .list _ _ now => some now
  | .queue _ _ => none

/-- What a successful operation may do to a stored row. -/
inductive RowStep : Op → RawRow → RawRow → Prop
  | queue {c op r} : RowStep (.queue c op) r r
  | settled {op now r} (h : op.now = some now) : RowStep op r (settleRow now r)
  | begun {pin runner now r} (hs : r.state = .pending) (hp : r.pin = pin) (he : now < r.expiresAt) :
      RowStep (.begin r.id pin runner now) r
        { r with state := .running, runner := some runner, startedAt := some now }
  | treeChanged {pin runner now r} (hs : r.state = .pending) (hp : r.pin ≠ pin) :
      RowStep (.begin r.id pin runner now) r
        { r with state := .refused, refuseReason := some .treeChanged, endedAt := some now }
  | declined {note now r} (hs : r.state = .pending) :
      RowStep (.decline r.id note now) r
        { r with state := .declined, note := some note, endedAt := some now }
  | refused {reason now r} (hs : r.state = .pending) :
      RowStep (.refuse r.id reason now) r
        { r with state := .refused, refuseReason := some reason, endedAt := some now }
  | sessionEnded {session now note r} (hs : r.state = .pending) :
      RowStep (.expireSession session now) r (expire now note r)
  | finished {done now r} (hs : r.state = .running) (hr : r.runner = some done.runner) :
      RowStep (.finish r.id done now) r
        { r with state := .finished, outcome := some done.outcome, exitStatus := done.exitStatus,
                 endedAt := some now }
  | corrected {done now r} (hs : (settleRow now r).state = .finished)
      (ho : (settleRow now r).outcome = some .interrupted)
      (hn : (settleRow now r).note = some settledInterrupt)
      (hr : (settleRow now r).runner = some done.runner) :
      RowStep (.finish r.id done now) r
        { settleRow now r with outcome := some done.outcome, exitStatus := done.exitStatus,
                               endedAt := some now, note := none }

@[simp] theorem settleRow_id (now : Int) (r : RawRow) : (settleRow now r).id = r.id := by
  unfold settleRow
  split
  · rfl
  · split <;> rfl

/-- A row still pending after a settle was not touched by it, and is not due. -/
theorem settleRow_pending {now : Int} {r : RawRow} (h : (settleRow now r).state = .pending) :
    settleRow now r = r ∧ r.state = .pending ∧ now < r.expiresAt := by
  unfold settleRow at h ⊢
  by_cases hd : r.due now = true
  · rw [if_pos hd] at h
    contradiction
  · rw [if_neg hd] at h ⊢
    by_cases ho : r.overdue now = true
    · rw [if_pos ho] at h
      contradiction
    · rw [if_neg ho] at h ⊢
      refine ⟨rfl, h, ?_⟩
      simpa [RawRow.due, isPending, h] using hd

/-- A row still running after a settle was not touched by it. -/
theorem settleRow_running {now : Int} {r : RawRow} (h : (settleRow now r).state = .running) :
    settleRow now r = r ∧ r.state = .running := by
  unfold settleRow at h ⊢
  split at h
  · contradiction
  · rename_i hd
    rw [if_neg hd]
    split at h
    · contradiction
    · rename_i ho
      rw [if_neg ho]
      exact ⟨rfl, h⟩

/-! ## What an operation did where it succeeds -/

/-- The parts of a `decline` that goes through: settle, read, move. -/
theorem decline_ok {db db' : Db} {id note now row} (h : decline lib db id note now = .ok (db', row)) :
    ∃ db₁ expired row₁, settle lib db now = .ok (db₁, expired) ∧ mustGet lib db₁ id = .ok row₁ ∧
      mustMove lib db₁ id isPending
        (fun r => { r with state := .declined, note := some note, endedAt := some now })
        (fun _ => rfl) now (notPending row₁ "decline") = .ok (db', row) := by
  simp only [decline] at h
  split at h
  · contradiction
  · split at h
    · contradiction
    · simp only [bind_eq_ok] at h
      obtain ⟨⟨db₁, expired⟩, hsettle, row₁, hget, hmove⟩ := h
      exact ⟨db₁, expired, row₁, hsettle, hget, hmove⟩

/-- The parts of a `refuse` that goes through: settle, read, move. -/
theorem refuse_ok {db db' : Db} {id reason now row} (h : refuse lib db id reason now = .ok (db', row)) :
    ∃ db₁ expired row₁, settle lib db now = .ok (db₁, expired) ∧ mustGet lib db₁ id = .ok row₁ ∧
      mustMove lib db₁ id isPending
        (fun r => { r with state := .refused, refuseReason := some reason, endedAt := some now })
        (fun _ => rfl) now (notPending row₁ "refuse") = .ok (db', row) := by
  simp only [refuse, bind_eq_ok] at h
  obtain ⟨⟨db₁, expired⟩, hsettle, row₁, hget, hmove⟩ := h
  exact ⟨db₁, expired, row₁, hsettle, hget, hmove⟩

/-- A chunk is counted, whether it is published or not. -/
theorem output_ok {db db' : Db} {id runner chunk now res}
    (h : output lib db id runner chunk now = .ok (db', res)) :
    ∃ db₁ expired q, settle lib db now = .ok (db₁, expired) ∧
      db' = { db₁.setOutput id (fun o => { o with chunks := o.chunks + 1 }) fun _ => rfl with queue := q } := by
  simp only [output] at h
  split at h
  · contradiction
  · simp only [bind_eq_ok] at h
    obtain ⟨⟨db₁, expired⟩, hsettle, row, -, h⟩ := h
    refine ⟨db₁, expired, ?_⟩
    split at h
    · simp only [bind_eq_ok] at h
      obtain ⟨-, -, ⟨db₂, seq⟩, hp, h⟩ := h
      cases h
      obtain ⟨q, rfl⟩ := publish_queue hp
      exact ⟨q, hsettle, rfl⟩
    · simp only [bind_eq_ok] at h
      obtain ⟨⟨db₂, seq⟩, hp, h⟩ := h
      cases h
      obtain ⟨q, rfl⟩ := publish_queue hp
      exact ⟨q, hsettle, rfl⟩

/-- A finish corrects an ending that was assumed from age alone, or repeats the one recorded, or ends the run. -/
theorem finish_ok {db db' : Db} {id done now row} (h : finish lib db id done now = .ok (db', row)) :
    ∃ db₁ expired row₁, done.check = .ok () ∧ settle lib db now = .ok (db₁, expired) ∧
      mustGet lib db₁ id = .ok row₁ ∧
      ((settledByAge row₁ done.runner = true ∧ ∃ db₂ row₂,
          mustMove lib db₁ id
            (fun r => r.state == .finished && r.outcome == some .interrupted &&
              r.note == some settledInterrupt && r.runner == some done.runner)
            (fun r => { r with outcome := some done.outcome, exitStatus := done.exitStatus,
                               endedAt := some now, note := none })
            (fun _ => rfl) now (.stale [wireId id, " changed under its finish"]) = .ok (db₂, row₂) ∧
          recordEnd lib db₂ id done row₂ now = .ok (db', row)) ∨
        (settledByAge row₁ done.runner = false ∧ row₁.state = .finished ∧
          (row₁.runner = some done.runner ∧ row₁.outcome = some done.outcome ∧ row₁.exitStatus = done.exitStatus) ∧
          db' = db₁ ∧ row = row₁) ∨
        (row₁.state ≠ .finished ∧ ∃ db₂ row₂,
          mustMove lib db₁ id (fun r => isRunning r && r.runner == some done.runner)
            (fun r => { r with state := .finished, outcome := some done.outcome,
                               exitStatus := done.exitStatus, endedAt := some now })
            (fun _ => rfl) now (notPending row₁ "finish") = .ok (db₂, row₂) ∧
          recordEnd lib db₂ id done row₂ now = .ok (db', row))) := by
  simp only [finish, bind_eq_ok] at h
  obtain ⟨⟨⟩, hcheck, ⟨db₁, expired⟩, hsettle, row₁, hget, h⟩ := h
  refine ⟨db₁, expired, row₁, hcheck, hsettle, hget, ?_⟩
  split at h
  · next hage =>
      simp only [bind_eq_ok] at h
      obtain ⟨⟨db₂, row₂⟩, hmove, h⟩ := h
      exact Or.inl ⟨hage, db₂, row₂, hmove, h⟩
  · next hage =>
      split at h
      · next hfinished =>
          split at h
          · next hsame =>
              cases h
              exact Or.inr (Or.inl ⟨Bool.eq_false_iff.mpr hage, hfinished, hsame, rfl, rfl⟩)
          · contradiction
      · next hstate =>
          simp only [bind_eq_ok] at h
          obtain ⟨-, -, ⟨db₂, row₂⟩, hmove, h⟩ := h
          exact Or.inr (Or.inr ⟨hstate, db₂, row₂, hmove, h⟩)

/-- The parts of an `expire_session`: settle, and expire what the session has pending. -/
theorem expireSession_ok {db db' : Db} {session now n} (h : expireSession lib db session now = .ok (db', n)) :
    ∃ db₁ expired ended, settle lib db now = .ok (db₁, expired) ∧
      expireAll lib now "expired: the requesting session ended" db₁
        (db₁.ids fun r => isPending r && r.session == session) = .ok (db', ended) ∧ n = ended.length := by
  simp only [expireSession, bind_eq_ok] at h
  obtain ⟨⟨db₁, expired⟩, hsettle, ⟨db₂, ended⟩, hexpire, h⟩ := h
  cases h
  exact ⟨db₁, expired, ended, hsettle, hexpire, rfl⟩

/-- To read is to settle. -/
theorem status_ok {db db' : Db} {id now res} (h : status lib db id now = .ok (db', res)) :
    ∃ expired, settle lib db now = .ok (db', expired) := by
  simp only [status, bind_eq_ok] at h
  obtain ⟨⟨db₁, expired⟩, hsettle, row, -, h⟩ := h
  cases row <;> cases h <;> exact ⟨expired, hsettle⟩

/-- A page is read after the requests have been settled. -/
theorem list_ok {db db' : Db} {filter after now res} (h : list lib db filter after now = .ok (db', res)) :
    ∃ expired, settle lib db now = .ok (db', expired) := by
  simp only [list, bind_eq_ok] at h
  obtain ⟨⟨db₁, expired⟩, hsettle, rows, -, h⟩ := h
  cases h
  exact ⟨expired, hsettle⟩

/-- What an operation leaves of the table: each row stepped, and at most the asked-for row new. -/
def Steps (op : Op) (t t' : Table (fun r : RawRow => r.id)) : Prop :=
  (∀ k r, t.find? k = some r → ∃ r', t'.find? k = some r' ∧ RowStep op r r') ∧
    ∀ k r', t.find? k = none → t'.find? k = some r' →
      ∃ requester ask argv now, op = .request requester ask now ∧
        r' = pendingRow requester ask argv now k

/-- Rows mapped one by one, with none new. -/
theorem Steps.of_map {op : Op} {t t' : Table (fun r : RawRow => r.id)} {f : RawRow → RawRow}
    (hmap : ∀ k, t'.find? k = (t.find? k).map f) (hstep : ∀ r ∈ t.rows, RowStep op r (f r)) :
    Steps op t t' := by
  constructor
  · intro k r hr
    exact ⟨f r, by rw [hmap, hr, Option.map_some], hstep r (Table.mem_of_find? hr)⟩
  · intro k r' hnone hr'
    rw [hmap, hnone] at hr'
    contradiction

/-- To settle is a step of every operation that has a time. -/
theorem Steps.of_settle {op : Op} {db db' : Db} {now expired} (hnow : op.now = some now)
    (h : settle lib db now = .ok (db', expired)) :
    Steps op db.requests.toTable db'.requests.toTable :=
  Steps.of_map (settle_requests h) fun _ _ => .settled hnow

/-- The row behind a settled one. -/
theorem settle_find {db db₁ : Db} {now expired id} {s : RawRow}
    (h : settle lib db now = .ok (db₁, expired)) (hs : db₁.requests.find? id = some s) :
    ∃ r, db.requests.find? id = some r ∧ settleRow now r = s ∧ r.id = id := by
  rw [settle_requests h] at hs
  obtain ⟨r, hr, hsettled⟩ := Option.map_eq_some_iff.mp hs
  exact ⟨r, hr, hsettled, Table.key_of_find? hr⟩

/-- A settle and then one compare-and-set move. -/
theorem Steps.of_settle_move {op : Op} {db db₁ db₂ : Db} {now expired id} {guard : RawRow → Bool}
    {set : RawRow → RawRow} {r : RawRow} (hnow : op.now = some now)
    (hsettle : settle lib db now = .ok (db₁, expired))
    (hmove : ∀ k, db₂.requests.find? k = (db₁.requests.find? k).map fun x =>
      if x.id = id ∧ guard x = true then set x else x)
    (hr : db.requests.find? id = some r)
    (hstep : guard (settleRow now r) = true → RowStep op r (set (settleRow now r))) :
    Steps op db.requests.toTable db₂.requests.toTable := by
  refine Steps.of_map (f := fun r => if r.id = id ∧ guard (settleRow now r) = true then
    set (settleRow now r) else settleRow now r) (fun k => ?_) fun x hx => ?_
  · rw [hmove, settle_requests hsettle, Option.map_map]
    congr 1
    funext r
    simp
  · split
    · rename_i h
      have hsame : x = r := by
        rw [← h.1, Table.find?_of_mem hx] at hr
        exact Option.some.inj hr
      subst hsame
      exact hstep h.2
    · exact .settled hnow

/-- The guard of the pending requests. -/
theorem isPending_iff {r : RawRow} : isPending r = true ↔ r.state = .pending := by
  simp [isPending]

/-- The guard of the running requests. -/
theorem isRunning_iff {r : RawRow} : isRunning r = true ↔ r.state = .running := by
  simp [isRunning]

/-- An answer to a request: a settle, and then a move of the row if it is still pending. -/
theorem Steps.of_answer {op : Op} {db db₁ db₂ : Db} {now expired id row₁ e row} {set : RawRow → RawRow} {hset}
    (hnow : op.now = some now) (hsettle : settle lib db now = .ok (db₁, expired))
    (hget : mustGet lib db₁ id = .ok row₁) (hmove : mustMove lib db₁ id isPending set hset now e = .ok (db₂, row))
    (hstep : ∀ r, db.requests.find? id = some r → r.id = id → settleRow now r = r → r.state = .pending →
      RowStep op r (set r)) :
    Steps op db.requests.toTable db₂.requests.toTable := by
  obtain ⟨s, hs, -⟩ := mustGet_ok hget
  obtain ⟨r, hr, rfl, hid⟩ := settle_find hsettle hs
  obtain ⟨-, -, -, hmap⟩ := mustMove_requests hmove
  refine Steps.of_settle_move hnow hsettle hmap hr fun hg => ?_
  obtain ⟨hsame, hp, -⟩ := settleRow_pending (isPending_iff.mp hg)
  rw [hsame]
  exact hstep r hr hid hsame hp

/-- What a successful `begin` does, by what it answers. -/
theorem begin_ok {db db' : Db} {id pin runner now b}
    (h : begin lib db id pin runner now = .ok (db', b)) :
    Steps (.begin id pin runner now) db.requests.toTable db'.requests.toTable ∧
      ∀ row, b = .running row → ∃ r, db.requests.find? id = some r ∧ r.state = .pending ∧
        r.pin = pin ∧ now < r.expiresAt ∧ db'.requests.find? id =
          some { r with state := .running, runner := some runner, startedAt := some now } := by
  simp only [begin, bind_eq_ok] at h
  obtain ⟨-, -, -, -, ⟨db₁, expired⟩, hsettle, row, hget, h⟩ := h
  obtain ⟨s, hs, hparse⟩ := mustGet_ok hget
  obtain ⟨-, -, hpin, -⟩ := parse_ok hparse
  obtain ⟨r, hr, rfl, rfl⟩ := settle_find hsettle hs
  split at h
  · cases h
    exact ⟨Steps.of_settle rfl hsettle, fun _ hb => by contradiction⟩
  · split at h
    · contradiction
    · split at h
      · rename_i hne
        simp only [bind_eq_ok] at h
        obtain ⟨⟨db₂, refused⟩, hmove, h⟩ := h
        cases h
        refine ⟨Steps.of_answer rfl hsettle hget hmove fun x hx _ hsame hp => ?_, fun _ hb => by contradiction⟩
        obtain rfl : r = x := Option.some.inj (hr.symm.trans hx)
        rw [hsame] at hpin
        exact .treeChanged hp (hpin ▸ hne)
      · rename_i heq
        simp only [bind_eq_ok] at h
        obtain ⟨⟨db₂, running⟩, hmove, h⟩ := h
        cases h
        obtain ⟨x, hx, hg, hmap⟩ := mustMove_requests hmove
        obtain rfl : settleRow now r = x := Option.some.inj (hs.symm.trans hx)
        obtain ⟨hsame, hp, hlive⟩ := settleRow_pending (isPending_iff.mp hg)
        have hpin' : r.pin = pin := by
          rw [← hsame, ← hpin]
          exact not_not.mp heq
        constructor
        · show Steps _ _ db₂.requests.toTable
          refine Steps.of_settle_move rfl hsettle hmap hr fun _ => ?_
          rw [hsame]
          exact .begun hp hpin' hlive
        · intro row _
          refine ⟨r, hr, hp, hpin', hlive, ?_⟩
          rw [hmap, hs, Option.map_some, hsame, if_pos ⟨rfl, isPending_iff.mpr hp⟩]

/-- What `decline` does to the requests, row by row. -/
theorem decline_steps {db db' : Db} {id note now row}
    (h : decline lib db id note now = .ok (db', row)) :
    Steps (.decline id note now) db.requests.toTable db'.requests.toTable := by
  obtain ⟨db₁, expired, row₁, hsettle, hget, hmove⟩ := decline_ok h
  refine Steps.of_answer rfl hsettle hget hmove ?_
  rintro r - rfl - hp
  exact .declined hp

/-- What `refuse` does to the requests, row by row. -/
theorem refuse_steps {db db' : Db} {id reason now row}
    (h : refuse lib db id reason now = .ok (db', row)) :
    Steps (.refuse id reason now) db.requests.toTable db'.requests.toTable := by
  obtain ⟨db₁, expired, row₁, hsettle, hget, hmove⟩ := refuse_ok h
  refine Steps.of_answer rfl hsettle hget hmove ?_
  rintro r - rfl - hp
  exact .refused hp

/-- What `output` does to the requests, row by row. -/
theorem output_steps {db db' : Db} {id runner chunk now r}
    (h : output lib db id runner chunk now = .ok (db', r)) :
    Steps (.output id runner chunk now) db.requests.toTable db'.requests.toTable := by
  obtain ⟨db₁, expired, q, hsettle, rfl⟩ := output_ok h
  have hrows : Steps (.output id runner chunk now) db.requests.toTable db₁.requests.toTable :=
    Steps.of_settle rfl hsettle
  exact hrows

/-- The end of a run stores its output, and tells the queue. -/
theorem recordEnd_queue {db db' : Db} {id done row now row'}
    (h : recordEnd lib db id done row now = .ok (db', row')) :
    ∃ q, db' = { storeOutput db id done with queue := q } := by
  simp only [recordEnd, bind_eq_ok] at h
  obtain ⟨⟨db₁, seq⟩, hp, h⟩ := h
  cases h
  exact publish_queue hp

/-- What `finish` does to the requests, row by row. -/
theorem finish_steps {db db' : Db} {id done now row}
    (h : finish lib db id done now = .ok (db', row)) :
    Steps (.finish id done now) db.requests.toTable db'.requests.toTable := by
  obtain ⟨db₁, expired, row₁, -, hsettle, hget, h⟩ := finish_ok h
  obtain ⟨s, hs, -⟩ := mustGet_ok hget
  obtain ⟨r, hr, rfl, rfl⟩ := settle_find hsettle hs
  rcases h with ⟨-, db₂, row₂, hmove, h⟩ | ⟨-, -, -, rfl, -⟩ | ⟨-, db₂, row₂, hmove, h⟩
  · obtain ⟨-, -, -, hmap⟩ := mustMove_requests hmove
    obtain ⟨q, rfl⟩ := recordEnd_queue h
    refine Steps.of_settle_move rfl hsettle hmap hr fun hg => ?_
    simp only [Bool.and_eq_true, beq_iff_eq] at hg
    exact .corrected hg.1.1.1 hg.1.1.2 hg.1.2 hg.2
  · exact Steps.of_settle rfl hsettle
  · obtain ⟨-, -, -, hmap⟩ := mustMove_requests hmove
    obtain ⟨q, rfl⟩ := recordEnd_queue h
    refine Steps.of_settle_move rfl hsettle hmap hr fun hg => ?_
    obtain ⟨hrun, hrunner⟩ := Bool.and_eq_true_iff.mp hg
    obtain ⟨hsame, hstate⟩ := settleRow_running (isRunning_iff.mp hrun)
    rw [hsame] at hrunner ⊢
    exact .finished hstate (beq_iff_eq.mp hrunner)

/-- What `expire_session` does to the requests, row by row. -/
theorem expireSession_steps {db db' : Db} {session now n}
    (h : expireSession lib db session now = .ok (db', n)) :
    Steps (.expireSession session now) db.requests.toTable db'.requests.toTable := by
  obtain ⟨db₁, expired, ended, hsettle, hexpire, -⟩ := expireSession_ok h
  refine Steps.of_map (f := fun r =>
    if (settleRow now r).id ∈ db₁.ids (fun r => isPending r && r.session == session) ∧
        isPending (settleRow now r) = true
    then expire now "expired: the requesting session ended" (settleRow now r)
    else settleRow now r) (fun k => ?_) fun r hr => ?_
  · rw [expireAll_requests hexpire, settle_requests hsettle, Option.map_map]
    rfl
  · split
    · rename_i hg
      obtain ⟨hsame, hp, -⟩ := settleRow_pending (isPending_iff.mp hg.2)
      rw [hsame]
      exact .sessionEnded hp
    · exact .settled rfl

/-- What `request` does to the requests, row by row. -/
theorem request_steps {db db' : Db} {requester ask now res}
    (h : request lib db requester ask now = .ok (db', res)) :
    Steps (.request requester ask now) db.requests.toTable db'.requests.toTable := by
  simp only [request, bind_eq_ok] at h
  obtain ⟨-, -, argv, -, ⟨db₁, expired⟩, hsettle, h⟩ := h
  have hsettled : Steps (.request requester ask now) db.requests.toTable db₁.requests.toTable :=
    Steps.of_settle rfl hsettle
  split at h
  · simp only [bind_eq_ok] at h
    obtain ⟨row, -, h⟩ := h
    cases h
    exact hsettled
  · simp only [bind_eq_ok] at h
    obtain ⟨⟨queue, created⟩, -, row, -, ⟨queue', sent⟩, -, db₂, hannounce, h⟩ := h
    cases h
    obtain ⟨q, rfl⟩ := announce_queue hannounce
    constructor
    · intro k r hr
      obtain ⟨r', hr', hstep⟩ := hsettled.1 k r hr
      exact ⟨r', AutoTable.find?_insertNext_of_some (fun _ => rfl) hr', hstep⟩
    · intro k r' hnone hr'
      have hfound := (AutoTable.find?_insertNext _ (pendingRow requester ask argv now) (fun _ => rfl) k).symm.trans hr'
      split at hfound
      · rename_i hk
        refine ⟨requester, ask, argv, now, rfl, ?_⟩
        rw [← Option.some.inj hfound, ← hk]
      · rw [settle_requests hsettle, hnone] at hfound
        contradiction

/-- What any operation does to the requests, row by row. -/
theorem perform_steps {db db' : Db} {op reply} (h : perform lib db op = .ok (db', reply)) :
    Steps op db.requests.toTable db'.requests.toTable := by
  cases op with
  | request requester ask now =>
      obtain ⟨⟨db₁, r⟩, h₁, h⟩ := bind_eq_ok.mp h
      cases h
      exact request_steps h₁
  | begin id pin runner now =>
      obtain ⟨⟨db₁, r⟩, h₁, h⟩ := bind_eq_ok.mp h
      cases h
      exact (begin_ok h₁).1
  | decline id note now =>
      obtain ⟨⟨db₁, r⟩, h₁, h⟩ := bind_eq_ok.mp h
      cases h
      exact decline_steps h₁
  | refuse id reason now =>
      obtain ⟨⟨db₁, r⟩, h₁, h⟩ := bind_eq_ok.mp h
      cases h
      exact refuse_steps h₁
  | output id runner chunk now =>
      obtain ⟨⟨db₁, r⟩, h₁, h⟩ := bind_eq_ok.mp h
      cases h
      exact output_steps h₁
  | finish id done now =>
      obtain ⟨⟨db₁, r⟩, h₁, h⟩ := bind_eq_ok.mp h
      cases h
      exact finish_steps h₁
  | expireSession session now =>
      obtain ⟨⟨db₁, r⟩, h₁, h⟩ := bind_eq_ok.mp h
      cases h
      exact expireSession_steps h₁
  | status id now =>
      obtain ⟨⟨db₁, r⟩, h₁, h⟩ := bind_eq_ok.mp h
      cases h
      obtain ⟨expired, hsettle⟩ := status_ok h₁
      exact Steps.of_settle rfl hsettle
  | list filter after now =>
      obtain ⟨⟨db₁, r⟩, h₁, h⟩ := bind_eq_ok.mp h
      cases h
      obtain ⟨expired, hsettle⟩ := list_ok h₁
      exact Steps.of_settle rfl hsettle
  | queue caller op =>
      obtain ⟨queue, -, h⟩ := bind_eq_ok.mp h
      cases h
      exact Steps.of_map (f := id) (fun k => by simp) fun r _ => .queue

/-! ## What follows for one row -/

/-- What a request was made with: what the operator approves. -/
structure Asked where
  argv : String
  dir : String
  dirSide : ExecTarget
  target : ExecTarget
  reason : String
  pin : Option TreePin
  timeoutMs : Int
  expiresAt : Int
deriving Repr, DecidableEq

def RawRow.asked (r : RawRow) : Asked :=
  ⟨r.argv, r.dir, r.dirSide, r.target, r.reason, r.pin, r.timeoutMs, r.expiresAt⟩

/-- The edges the module documents. -/
def documented : ExecState → ExecState → Bool
  | .pending, .running | .pending, .declined | .pending, .refused | .pending, .expired => true
  | .running, .finished => true
  | _, _ => false

/-- A row's change in one operation: none, a documented edge, or the recorded runner correcting the
ending that `settle` wrote. -/
def Edge (op : Op) (r r' : RawRow) : Prop :=
  r' = r ∨ documented r.state r'.state = true ∨
    ∃ done now, op = .finish r.id done now ∧ r.state = .finished ∧ r'.state = .finished ∧
      r.outcome = some .interrupted ∧ r.note = some settledInterrupt ∧ r.runner = some done.runner

/-- To settle a row is to expire it, to interrupt it or to leave it. -/
theorem settleRow_cases (now : Int) (r : RawRow) :
    settleRow now r = r ∨ (r.due now = true ∧ settleRow now r = expire now expireNote r) ∨
      (r.overdue now = true ∧ settleRow now r = interrupt now r) := by
  unfold settleRow
  by_cases hd : r.due now = true
  · simp [hd]
  · by_cases ho : r.overdue now = true <;> simp [hd, ho]

/-- What is due is pending. -/
theorem due_state {now : Int} {r : RawRow} (h : r.due now = true) : r.state = .pending :=
  isPending_iff.mp (Bool.and_eq_true_iff.mp h).1

/-- What is overdue is running. -/
theorem overdue_state {now : Int} {r : RawRow} (h : r.overdue now = true) : r.state = .running :=
  isRunning_iff.mp (Bool.and_eq_true_iff.mp h).1

@[simp] theorem settleRow_asked (now : Int) (r : RawRow) : (settleRow now r).asked = r.asked := by
  rcases settleRow_cases now r with h | ⟨-, h⟩ | ⟨-, h⟩ <;> rw [h] <;> rfl

/-- What a request was made with never changes. -/
theorem RowStep.asked {op : Op} {r r' : RawRow} (h : RowStep op r r') : r'.asked = r.asked := by
  cases h with
  | settled => exact settleRow_asked _ _
  | corrected => exact settleRow_asked _ r
  | queue | begun | treeChanged | declined | refused | sessionEnded | finished => rfl

/-- A step of a row goes along an edge. -/
theorem RowStep.edge {op : Op} {r r' : RawRow} (h : RowStep op r r') : Edge op r r' := by
  cases h with
  | queue => exact Or.inl rfl
  | settled hnow =>
      rcases settleRow_cases _ r with h | ⟨hd, h⟩ | ⟨ho, h⟩
      · exact Or.inl h
      · rw [h]
        exact Or.inr (Or.inl (by rw [due_state hd]; rfl))
      · rw [h]
        exact Or.inr (Or.inl (by rw [overdue_state ho]; rfl))
  | begun hs _ _ => exact Or.inr (Or.inl (by rw [hs]; rfl))
  | treeChanged hs _ => exact Or.inr (Or.inl (by rw [hs]; rfl))
  | declined hs => exact Or.inr (Or.inl (by rw [hs]; rfl))
  | refused hs => exact Or.inr (Or.inl (by rw [hs]; rfl))
  | sessionEnded hs => exact Or.inr (Or.inl (by rw [hs]; rfl))
  | finished hs _ => exact Or.inr (Or.inl (by rw [hs]; rfl))
  | @corrected done now _ hs ho hn hr =>
      rcases settleRow_cases now r with h | ⟨hd, h⟩ | ⟨hover, h⟩
      · rw [h] at hs ho hn hr ⊢
        exact Or.inr (Or.inr ⟨done, now, rfl, hs, hs, ho, hn, hr⟩)
      · rw [h] at hs
        contradiction
      · rw [h]
        exact Or.inr (Or.inl (by rw [overdue_state hover]; rfl))

/-- A row that has left `pending` never comes back to it. -/
theorem RowStep.not_pending {op : Op} {r r' : RawRow} (h : RowStep op r r')
    (hr : r.state ≠ .pending) : r'.state ≠ .pending := by
  rcases h.edge with rfl | hdoc | ⟨-, -, -, -, h', -⟩
  · exact hr
  · intro h'
    rw [h'] at hdoc
    cases hs : r.state <;> rw [hs] at hdoc <;> contradiction
  · rw [h']
    exact fun h => by contradiction

/-- Only a finished, declined or expired row has a note. -/
def NoNote (r : RawRow) : Prop := r.state = .pending ∨ r.state = .running → r.note = none

/-- A step leaves no note on what is pending or running. -/
theorem RowStep.noNote {op : Op} {r r' : RawRow} (h : RowStep op r r') (hr : NoNote r) :
    NoNote r' := by
  cases h with
  | queue => exact hr
  | settled hnow =>
      rcases settleRow_cases _ r with h | ⟨-, h⟩ | ⟨-, h⟩ <;> rw [h]
      · exact hr
      · exact fun hs => by rcases hs with hs | hs <;> contradiction
      · exact fun hs => by rcases hs with hs | hs <;> contradiction
  | begun hs _ _ => exact fun _ => hr (Or.inl hs)
  | treeChanged | declined | refused | sessionEnded | finished =>
      exact fun hs => by rcases hs with hs | hs <;> contradiction
  | corrected => exact fun _ => rfl

/-! ## Runs -/

/-- A step, row by row: a refused operation changes none. -/
theorem step_row (lib : Ext) (db : Db) (op : Op) {k : Int} {r : RawRow}
    (hr : db.requests.find? k = some r) :
    ∃ r', (step lib db op).requests.find? k = some r' ∧ (r' = r ∨ RowStep op r r') := by
  unfold step
  cases h : perform lib db op with
  | error e => exact ⟨r, hr, Or.inl rfl⟩
  | ok res =>
      obtain ⟨r', hr', hstep⟩ := (perform_steps h).1 k r hr
      exact ⟨r', hr', Or.inr hstep⟩

/-- A row that a step adds is a new request, pending. -/
theorem step_new (lib : Ext) (db : Db) (op : Op) {k : Int} {r' : RawRow}
    (hnone : db.requests.find? k = none) (hr' : (step lib db op).requests.find? k = some r') :
    ∃ requester ask argv now, op = .request requester ask now ∧
      r' = pendingRow requester ask argv now k := by
  unfold step at hr'
  cases h : perform lib db op with
  | error e =>
      rw [h] at hr'
      exact absurd (hnone.symm.trans hr') (by simp)
  | ok res =>
      rw [h] at hr'
      exact (perform_steps h).2 k r' hnone hr'

/-- Every stored request stays stored, as it was asked, and never becomes pending again. -/
def Kept (db db' : Db) : Prop :=
  ∀ k r, db.requests.find? k = some r → ∃ r', db'.requests.find? k = some r' ∧
    r'.asked = r.asked ∧ (r.state ≠ .pending → r'.state ≠ .pending)

/-- One operation keeps every request, as it was asked. -/
theorem kept_step (lib : Ext) (db : Db) (op : Op) : Kept db (step lib db op) := by
  intro k r hr
  obtain ⟨r', hr', rfl | hstep⟩ := step_row lib db op hr
  · exact ⟨r', hr', rfl, id⟩
  · exact ⟨r', hr', hstep.asked, hstep.not_pending⟩

/-- So does every run. -/
theorem kept_run (lib : Ext) (db : Db) (ops : List Op) : Kept db (run (step lib) db ops) := by
  refine run_rel (R := Kept) (fun db k r hr => ⟨r, hr, rfl, id⟩) ?_ (kept_step lib) db ops
  intro a b c hab hbc k r hr
  obtain ⟨r₁, hr₁, hask₁, hp₁⟩ := hab k r hr
  obtain ⟨r₂, hr₂, hask₂, hp₂⟩ := hbc k r₁ hr₁
  exact ⟨r₂, hr₂, hask₂.trans hask₁, fun h => hp₂ (hp₁ h)⟩

/-- After any run, what is pending or running has no note. -/
theorem run_noNote (lib : Ext) (ops : List Op) {k : Int} {r : RawRow}
    (hr : (run (step lib) Db.empty ops).requests.find? k = some r) : NoNote r := by
  have hinv : ∀ db op, (∀ k r, db.requests.find? k = some r → NoNote r) →
      ∀ k r, (step lib db op).requests.find? k = some r → NoNote r := by
    intro db op hdb k r' hr'
    cases hk : db.requests.find? k with
    | none =>
        obtain ⟨requester, ask, argv, now, -, rfl⟩ := step_new lib db op hk hr'
        exact fun _ => rfl
    | some r =>
        obtain ⟨x, hx, hstep⟩ := step_row lib db op hk
        rw [hr'] at hx
        cases hx
        rcases hstep with rfl | hstep
        · exact hdb k r' hk
        · exact hstep.noNote (hdb k r hk)
  exact run_invariant hinv (fun k r h => by contradiction) ops k r hr

/-- **A note of `settle`'s is `settle`'s**: a finished row that carries it was a running one, past its
timeout and the grace, when an operation came by, and is that row as `settle` leaves it. -/
theorem settled_by_age (lib : Ext) (past : List Op) {k : Int} {r : RawRow}
    (hr : (run (step lib) Db.empty past).requests.find? k = some r) (hs : r.state = .finished)
    (hn : r.note = some settledInterrupt) :
    ∃ before op after now r₀, past = before ++ op :: after ∧ op.now = some now ∧
      (run (step lib) Db.empty before).requests.find? k = some r₀ ∧ r₀.overdue now = true ∧
      r = interrupt now r₀ := by
  induction past using List.reverseRecOn with
  | nil => contradiction
  | append_singleton past op ih =>
      rw [run_append, run_cons, run_nil] at hr
      cases hk : (run (step lib) Db.empty past).requests.find? k with
      | none =>
          obtain ⟨requester, ask, argv, now, -, rfl⟩ := step_new lib _ op hk hr
          contradiction
      | some r₀ =>
          obtain ⟨x, hx, hstep⟩ := step_row lib _ op hk
          rw [hr] at hx
          cases hx
          have hsame : r₀ = r → ∃ before op' after now r₀, past ++ [op] = before ++ op' :: after ∧
              op'.now = some now ∧ (run (step lib) Db.empty before).requests.find? k = some r₀ ∧
              r₀.overdue now = true ∧ r = interrupt now r₀ := by
            rintro rfl
            obtain ⟨before, op', after, now, r₀, rfl, hrest⟩ := ih hk
            exact ⟨before, op', after ++ [op], now, r₀, by simp, hrest⟩
          rcases hstep with rfl | hstep
          · exact hsame rfl
          · cases hstep with
            | queue => exact hsame rfl
            | settled hnow =>
                rcases settleRow_cases _ r₀ with h | ⟨-, h⟩ | ⟨hover, h⟩
                · exact hsame h.symm
                · rw [h] at hs
                  contradiction
                · exact ⟨past, op, [], _, r₀, rfl, hnow, hk, hover, h⟩
            | finished hrun _ =>
                have hnone := run_noNote lib past hk (Or.inr hrun)
                rw [hnone] at hn
                contradiction
            | begun | treeChanged | declined | refused | sessionEnded | corrected => contradiction

/-- The operation is a `begin` of `id` that answers with a run. -/
def Begins (lib : Ext) (db : Db) (op : Op) (id : Int) : Prop :=
  ∃ pin runner now db' row, op = .begin id pin runner now ∧
    perform lib db op = .ok (db', .begun (.running row))

/-- A run starts from a pending row with the approved pin, before it expires, and leaves it
running. -/
theorem Begins.ok {db : Db} {op : Op} {id : Int} (h : Begins lib db op id) :
    ∃ pin runner now r, op = .begin id pin runner now ∧ db.requests.find? id = some r ∧
      r.state = .pending ∧ r.pin = pin ∧ now < r.expiresAt ∧
      (step lib db op).requests.find? id =
        some { r with state := .running, runner := some runner, startedAt := some now } := by
  obtain ⟨pin, runner, now, db', row, rfl, hok⟩ := h
  obtain ⟨⟨db₁, b⟩, hbegin, h⟩ := bind_eq_ok.mp hok
  cases h
  obtain ⟨r, hr, hs, hp, he, hr'⟩ := (begin_ok hbegin).2 row rfl
  refine ⟨pin, runner, now, r, rfl, hr, hs, hp, he, ?_⟩
  rw [← hr', step, hok]
  rfl

/-- **An approved command runs at most once, and only as approved.** In every run, with anything done
to the queue in between: an id starts at most once; it starts from a pending row, with the pin stored
when the request was made and before the stored expiry; what was asked never changes; a row appears
pending and changes along the documented edges only, except that the recorded runner may replace an
ending that `settle` wrote; and such an ending is one that `settle` did write. -/
theorem approved_runs_once (lib : Ext) (past : List Op) :
    (∀ a o₁ b o₂ c id, past = a ++ o₁ :: (b ++ o₂ :: c) →
      Begins lib (run (step lib) Db.empty a) o₁ id →
      ¬ Begins lib (run (step lib) Db.empty (a ++ o₁ :: b)) o₂ id) ∧
    (∀ id pin runner now db' row,
      perform lib (run (step lib) Db.empty past) (.begin id pin runner now) =
        .ok (db', .begun (.running row)) →
      ∃ r, (run (step lib) Db.empty past).requests.find? id = some r ∧ r.state = .pending ∧
        r.asked.pin = pin ∧ now < r.asked.expiresAt) ∧
    (∀ later id r, (run (step lib) Db.empty past).requests.find? id = some r →
      ∃ r', (run (step lib) Db.empty (past ++ later)).requests.find? id = some r' ∧
        r'.asked = r.asked) ∧
    (∀ op id r, (run (step lib) Db.empty past).requests.find? id = some r →
      ∃ r', (run (step lib) Db.empty (past ++ [op])).requests.find? id = some r' ∧ Edge op r r') ∧
    (∀ op id r', (run (step lib) Db.empty past).requests.find? id = none →
      (run (step lib) Db.empty (past ++ [op])).requests.find? id = some r' → r'.state = .pending) ∧
    (∀ id r, (run (step lib) Db.empty past).requests.find? id = some r → r.state = .finished →
      r.note = some settledInterrupt →
      ∃ before op after now r₀, past = before ++ op :: after ∧ op.now = some now ∧
        (run (step lib) Db.empty before).requests.find? id = some r₀ ∧ r₀.overdue now = true ∧
        r = interrupt now r₀) := by
  refine ⟨?_, ?_, ?_, ?_, ?_, fun id r => settled_by_age lib past⟩
  · rintro a o₁ b o₂ c id - hfirst hsecond
    obtain ⟨-, runner, now, r, -, -, -, -, -, hr⟩ := hfirst.ok
    obtain ⟨r', hr', -, hleft⟩ := kept_run lib _ b _ _ hr
    obtain ⟨-, -, -, x, -, hx, hpending, -⟩ := hsecond.ok
    rw [run_append, run_cons, hr'] at hx
    cases hx
    exact hleft (fun h => by contradiction) hpending
  · intro id pin runner now db' row h
    have hbegins : Begins lib (run (step lib) Db.empty past) (.begin id pin runner now) id :=
      ⟨pin, runner, now, db', row, rfl, h⟩
    obtain ⟨pin', runner', now', r, hop, hr, hs, hp, he, -⟩ := hbegins.ok
    cases hop
    exact ⟨r, hr, hs, hp, he⟩
  · intro later id r hr
    obtain ⟨r', hr', hask, -⟩ := kept_run lib _ later _ _ hr
    exact ⟨r', by rw [run_append, hr'], hask⟩
  · intro op id r hr
    rw [run_append]
    obtain ⟨r', hr', rfl | hstep⟩ := step_row lib _ op hr
    · exact ⟨r', hr', Or.inl rfl⟩
    · exact ⟨r', hr', hstep.edge⟩
  · intro op id r' hnone hr'
    rw [run_append] at hr'
    obtain ⟨-, -, -, -, -, rfl⟩ := step_new lib _ op hnone hr'
    rfl

/-- Libraries under which every stored argv reads back as `ls`. -/
def Ext.plain : Ext :=
  ⟨⟨fun _ => .ok "[ls]", fun _ => .ok (.arr [.str "ls"])⟩, fun _ => ""⟩

/-- Asked, begun, begun again by another runner, and left past its timeout. -/
example : (run (step Ext.plain) Db.empty
    [.request ⟨"s", none, "worker", none⟩ ⟨.host, "/tmp", .host, ["ls"], "", none, none⟩ 0,
      .begin 1 none "me" 5, .begin 1 none "you" 6, .status 1 10000000]).requests.rows.map
        (fun r => (r.state, r.runner)) = [(.finished, some "me")] := by decide +kernel

end Jkb.Exec
