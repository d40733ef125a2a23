import Jkb.Exec.Fate
import Jkb.Exec.Rows

/-!
# Jkb.Exec.Report

What a run reported, and what a later report of it does. A run that is finished by its runner's report
has its ending in two rows, and nothing changes either of them again; `stored` reads the report back.
The check a later `finish` makes looks at the first row only.
-/

namespace Jkb.Exec

open Mq Run Tx Twin

variable {lib : Ext} {k : Int} {db db' : Db}

/-! ## Settling goes through -/

/-- A table that can be settled: its topics are exec's own and its rows sized, and each can be read. -/
structure Movable (lib : Ext) (k : Int) (db : Db) : Prop where
  bounded : Bounded k db
  reads : ∀ id r, db.requests.find? id = some r → ∃ row, r.parse lib = .ok row

/-- A database is beside itself. -/
theorem Bounded.beside (h : Bounded k db) : Beside k db db := ⟨h, db.queue, h.specs, rfl⟩

/-- A move of a stored row is made or fails its compare; the queue does not stop it. -/
theorem Movable.moved_ok (hlib : Printer lib) (h : Movable lib k db) {id : Int} {guard : RawRow → Bool}
    {set : RawRow → RawRow} {hset : ∀ r, (set r).id = r.id}
    (hsized : ∀ r, Sized r.id r.note r.exitStatus → Sized (set r).id (set r).note (set r).exitStatus)
    (hasked : ∀ r, (set r).asked = r.asked) (now : Int) {r : RawRow}
    (hr : db.requests.find? id = some r) : ∃ res, moved lib db id guard set hset now = .ok res := by
  unfold moved
  rw [hr]
  cases hguard : guard r with
  | false => exact ⟨(db, none), by simp only [hguard]; rfl⟩
  | true =>
      simp only [hguard, Bool.not_true, Bool.false_eq_true, if_false]
      have hmoved : Bounded k
          { db.update id guard set hset with changelog := db.changelog ++ [⟨some r, set r⟩] } := by
        refine ⟨h.bounded.specs, fun x hx => ?_, h.bounded.chunks⟩
        obtain ⟨y, hy, rfl⟩ := AutoTable.mem_updateWhere.mp hx
        split
        · exact hsized y (h.bounded.sized y hy)
        · exact h.bounded.sized y hy
      have withdrawn : ∀ q, OwnSpecs q → ∀ row, Told { db.update id guard set hset with
          queue := q, changelog := db.changelog ++ [⟨some r, set r⟩] } (withdrawPending lib _ r row now) :=
        fun q hq row => withdrawPending_told hlib hq r row now
      have announced : ∀ q, OwnSpecs q → ∀ row : ExecRow, Sized row.id row.note row.exitStatus →
          Told { db.update id guard set hset with
            queue := q, changelog := db.changelog ++ [⟨some r, set r⟩] } (announce lib _ row now) :=
        fun q hq row hs => announce_told hlib hq hs now
      obtain ⟨row, hrow⟩ := parse_of_asked (hasked r) (h.reads id r hr)
      have hget : mustGet lib
          { db.update id guard set hset with changelog := db.changelog ++ [⟨some r, set r⟩] } id =
            .ok row := by
        have hfind : (db.update id guard set hset).requests.find? id = some (set r) := by
          simp [Db.update, AutoTable.updateWhere, Table.find?_updateWhere, hr, hguard,
            Table.key_of_find? hr]
        simp only [mustGet, hfind, hrow]
      obtain ⟨hid, hs⟩ := hmoved.row hget
      obtain ⟨q₁, hq₁, h₁⟩ := publishDecision_told hlib hmoved.specs hs now
      obtain ⟨q₂, hq₂, h₂⟩ := withdrawn q₁ hq₁ row
      obtain ⟨q₃, hq₃, h₃⟩ := announced q₂ hq₂ row hs
      exact ⟨_, bind_eq_ok.mpr ⟨row, hget, bind_eq_ok.mpr ⟨_, h₁, bind_eq_ok.mpr ⟨_, h₂,
        bind_eq_ok.mpr ⟨_, h₃, rfl⟩⟩⟩⟩⟩

/-- A move leaves the table as it was in what a move needs. -/
theorem Movable.of_moved (hlib : Printer lib) (h : Movable lib k db) {id : Int} {guard : RawRow → Bool}
    {set : RawRow → RawRow} {hset : ∀ r, (set r).id = r.id}
    (hsized : ∀ r, Sized r.id r.note r.exitStatus → Sized (set r).id (set r).note (set r).exitStatus)
    (hasked : ∀ r, (set r).asked = r.asked) {now : Int} {res : Option ExecRow}
    (hmoved : moved lib db id guard set hset now = .ok (db', res)) :
    Movable lib k db' ∧ (∀ row ∈ res, row.id = id ∧ Sized row.id row.note row.exitStatus) ∧
      ∀ k, db.requests.find? k ≠ none → db'.requests.find? k ≠ none := by
  have halike : Alike (SameMove k id) (moved lib db id guard set hset now)
      (moved lib db id guard set hset now) := moved_alike hlib h.bounded.beside hsized now
  rw [hmoved] at halike
  obtain ⟨hbeside, -, hrow⟩ := halike
  obtain ⟨-, -, -, hmap⟩ := moved_requests hmoved
  refine ⟨⟨hbeside.1, fun k r' hr' => ?_⟩, hrow, fun k hk => ?_⟩
  · rw [hmap] at hr'
    obtain ⟨r, hr, rfl⟩ := Option.map_eq_some_iff.mp hr'
    split
    · exact parse_of_asked (hasked r) (h.reads k r hr)
    · exact h.reads k r hr
  · rw [hmap]
    simpa using hk

/-- To expire requests that are there goes through. -/
theorem Movable.expireAll_ok (hlib : Printer lib) {now : Int} {note : String}
    (hnote : note.length ≤ maxNoteChars) {ids : List Int} (h : Movable lib k db)
    (hids : ∀ id ∈ ids, db.requests.find? id ≠ none) :
    ∃ db' expired, expireAll lib now note db ids = .ok (db', expired) ∧ Movable lib k db' := by
  induction ids generalizing db with
  | nil => exact ⟨db, [], rfl, h⟩
  | cons id ids ih =>
      obtain ⟨r, hr⟩ := Option.ne_none_iff_exists'.mp (hids id List.mem_cons_self)
      have hsized : ∀ r, Sized r.id r.note r.exitStatus → Sized (expire now note r).id
          (expire now note r).note (expire now note r).exitStatus := fun r hr => hr.withNote note hnote
      have hok : ∃ res, moved lib db id isPending (expire now note) (fun _ => rfl) now = .ok res :=
        h.moved_ok hlib hsized (fun _ => rfl) now hr
      obtain ⟨⟨db₁, row⟩, hmoved⟩ := hok
      obtain ⟨h₁, -, hkept⟩ := h.of_moved hlib hsized (fun _ => rfl) hmoved
      obtain ⟨db₂, expired, hexpired, h₂⟩ := ih h₁ fun k hk =>
        hkept k (hids k (List.mem_cons_of_mem _ hk))
      exact ⟨db₂, _, bind_eq_ok.mpr ⟨_, hmoved, bind_eq_ok.mpr ⟨_, hexpired, rfl⟩⟩, h₂⟩

/-- So does an interruption. -/
theorem Movable.interruptAll_ok (hlib : Printer lib) {now : Int} {ids : List Int} (h : Movable lib k db)
    (hids : ∀ id ∈ ids, db.requests.find? id ≠ none) :
    ∃ db', interruptAll lib now db ids = .ok db' := by
  induction ids generalizing db with
  | nil => exact ⟨db, rfl⟩
  | cons id ids ih =>
      obtain ⟨r, hr⟩ := Option.ne_none_iff_exists'.mp (hids id List.mem_cons_self)
      have hsized : ∀ r, Sized r.id r.note r.exitStatus → Sized (interrupt now r).id
          (interrupt now r).note (interrupt now r).exitStatus :=
        fun r hr => hr.withNote settledInterrupt (by decide)
      have hok : ∃ res, moved lib db id isRunning (interrupt now) (fun _ => rfl) now = .ok res :=
        h.moved_ok hlib hsized (fun _ => rfl) now hr
      obtain ⟨⟨db₁, row⟩, hmoved⟩ := hok
      obtain ⟨h₁, hrow, hkept⟩ := h.of_moved hlib hsized (fun _ => rfl) hmoved
      obtain ⟨q, hq, hend⟩ := publishEnd_told hlib h₁.bounded.specs hrow now
      have htold : Movable lib k { db₁ with queue := q } :=
        ⟨⟨hq, h₁.bounded.sized, h₁.bounded.chunks⟩, h₁.reads⟩
      obtain ⟨db₂, hdone⟩ := ih htold fun k hk => hkept k (hids k (List.mem_cons_of_mem _ hk))
      exact ⟨db₂, bind_eq_ok.mpr ⟨_, hmoved, bind_eq_ok.mpr ⟨_, hend, hdone⟩⟩⟩

/-- The ids of some requests are of requests. -/
theorem stored_of_ids {p : RawRow → Bool} {id : Int} (h : id ∈ db.ids p) :
    db.requests.find? id ≠ none := by
  rw [Db.ids, List.mem_insertionSort, List.mem_map] at h
  obtain ⟨r, hr, rfl⟩ := h
  rw [Table.find?_of_mem (List.mem_filter.mp hr).1]
  exact Option.some_ne_none r

/-- **A reachable table settles.** -/
theorem Movable.settle_ok (hlib : Printer lib) (h : Movable lib k db) (now : Int) :
    ∃ db' expired, settle lib db now = .ok (db', expired) := by
  have hnote : expireNote.length ≤ maxNoteChars := by decide
  obtain ⟨db₁, expired, hexpired, h₁⟩ := h.expireAll_ok hlib hnote fun id hid => stored_of_ids hid
  obtain ⟨db₂, hdone⟩ := h₁.interruptAll_ok hlib fun id hid => stored_of_ids hid
  exact ⟨db₂, expired, bind_eq_ok.mpr ⟨_, hexpired, bind_eq_ok.mpr ⟨_, hdone, rfl⟩⟩⟩

/-! ## The report of a run -/

/-- The report of `id` that the two tables hold. -/
def stored (db : Db) (id : Int) : Option Finished := do
  let r ← db.requests.find? id
  let o ← db.output.find? id
  let runner ← r.runner
  let outcome ← r.outcome
  pure ⟨runner, outcome, r.exitStatus, o.tail, o.totalBytes, o.logPath⟩

/-- The fields of the stored report, where they stand. -/
theorem stored_eq_some {id : Int} {done : Finished} {r : RawRow} {o : OutputRow}
    (hr : db.requests.find? id = some r) (ho : db.output.find? id = some o) :
    stored db id = some done ↔ r.runner = some done.runner ∧ r.outcome = some done.outcome ∧
      r.exitStatus = done.exitStatus ∧ o.ending = (done.tail, done.totalBytes, done.logPath) := by
  obtain ⟨runner, outcome, exitStatus, tail, totalBytes, logPath⟩ := done
  simp only [stored, hr, ho, OutputRow.ending]
  cases hrunner : r.runner <;> cases houtcome : r.outcome <;> simp [hrunner, houtcome]

/-- Finished by its runner's report: finished, and not by `settle`. -/
def RawRow.Reported (r : RawRow) : Prop := r.state = .finished ∧ r.note ≠ some settledInterrupt

/-- What notes say: only an ended row has one, and `settle`'s is on a run it interrupted. -/
def Noted (r : RawRow) : Prop :=
  NoNote r ∧ (r.state = .finished → r.note = some settledInterrupt → r.outcome = some .interrupted)

/-- A step keeps what notes say. -/
theorem RowStep.noted {op : Op} {r r' : RawRow} (h : RowStep op r r') (hr : Noted r) : Noted r' := by
  refine ⟨h.noNote hr.1, ?_⟩
  cases h with
  | queue => exact hr.2
  | settled hnow =>
      rcases settleRow_cases _ r with h | ⟨-, h⟩ | ⟨-, h⟩ <;> rw [h]
      · exact hr.2
      · exact fun hs => by contradiction
      · exact fun _ _ => rfl
  | finished hs _ =>
      intro _ hn
      rw [hr.1 (Or.inr hs)] at hn
      contradiction
  | begun | treeChanged | declined | refused | sessionEnded => exact fun hs => by contradiction
  | corrected => exact fun _ hn => by contradiction

/-- Settling leaves a finished row alone. -/
theorem settleRow_finished {now : Int} {r : RawRow} (hr : r.state = .finished) : settleRow now r = r := by
  rcases settleRow_cases now r with h | ⟨hd, -⟩ | ⟨ho, -⟩
  · exact h
  · have hs := due_state hd
    rw [hr] at hs
    contradiction
  · have hs := overdue_state ho
    rw [hr] at hs
    contradiction

/-- A reported row is not changed again. -/
theorem RowStep.reported {op : Op} {r r' : RawRow} (h : RowStep op r r') (hr : r.Reported) :
    r' = r := by
  cases h with
  | queue => rfl
  | settled => exact settleRow_finished hr.1
  | corrected _ _ hn _ =>
      rw [settleRow_finished hr.1] at hn
      exact absurd hn hr.2
  | begun hs | treeChanged hs | declined hs | refused hs | sessionEnded hs | finished hs =>
      rw [hr.1] at hs
      contradiction

/-- What has been reported is not written any more. -/
theorem step_reported (lib : Ext) (db : Db) (op : Op) {id : Int} {r : RawRow}
    (hr : db.requests.find? id = some r) (hreported : r.Reported) :
    (step lib db op).requests.find? id = some r := by
  obtain ⟨r', hr', rfl | hstep⟩ := step_row lib db op hr
  · exact hr'
  · rwa [hstep.reported hreported] at hr'

/-- **What a `finish` of a reported run looks at**: the checks, and the runner, the outcome and the exit
status of its row. It stores nothing. -/
theorem finish_reported {id now : Int} {done : Finished} {r : RawRow}
    (hr : db.requests.find? id = some r) (hreported : r.Reported) :
    (∃ row, finish lib db id done now = .ok (db', row)) ↔
      done.check = .ok () ∧ (∃ expired, settle lib db now = .ok (db', expired)) ∧
        (∃ row, r.parse lib = .ok row) ∧
        r.runner = some done.runner ∧ r.outcome = some done.outcome ∧ r.exitStatus = done.exitStatus := by
  have hget : ∀ {db₁ expired}, settle lib db now = .ok (db₁, expired) →
      mustGet lib db₁ id = r.parse lib := by
    intro db₁ expired hsettle
    simp only [mustGet, settle_requests hsettle, hr, Option.map_some, settleRow_finished hreported.1]
  have hrow : ∀ {row}, r.parse lib = .ok row → settledByAge row done.runner = false ∧
      row.state = .finished ∧ row.runner = r.runner ∧ row.outcome = r.outcome ∧
      row.exitStatus = r.exitStatus := by
    intro row hparse
    obtain ⟨-, hstate, -, hrunner, houtcome, hnote⟩ := parse_ok hparse
    obtain ⟨-, -, hexit⟩ := parse_kept hparse
    refine ⟨?_, hstate.trans hreported.1, hrunner, houtcome, hexit⟩
    simp [settledByAge, hnote, hreported.2]
  constructor
  · rintro ⟨row, h⟩
    obtain ⟨db₁, expired, x, hcheck, hsettle, hx, h⟩ := finish_ok h
    rw [hget hsettle] at hx
    obtain ⟨hage, hstate, hrunner, houtcome, hexit⟩ := hrow hx
    rcases h with ⟨hsettled, -⟩ | ⟨-, -, hsame, rfl, -⟩ | ⟨hunfinished, -⟩
    · rw [hage] at hsettled
      contradiction
    · rw [hrunner, houtcome, hexit] at hsame
      exact ⟨hcheck, ⟨expired, hsettle⟩, ⟨_, hx⟩, hsame⟩
    · exact absurd hstate hunfinished
  · rintro ⟨hcheck, ⟨expired, hsettle⟩, ⟨row, hx⟩, hsame⟩
    obtain ⟨hage, hstate, hrunner, houtcome, hexit⟩ := hrow hx
    refine ⟨row, ?_⟩
    simp only [finish, hcheck, hsettle, bind, Except.bind]
    rw [hget hsettle, hx]
    simp only []
    rw [if_neg (by simp [hage]), if_pos hstate, if_pos (by rw [hrunner, houtcome, hexit]; exact hsame)]
    rfl

/-- An ending stored with a row that says the same is the report. -/
theorem recordEnd_stored {id now : Int} {done : Finished} {row row' : ExecRow} {r : RawRow}
    (h : recordEnd lib db id done row now = .ok (db', row')) (hr : db.requests.find? id = some r)
    (hrunner : r.runner = some done.runner) (houtcome : r.outcome = some done.outcome)
    (hexit : r.exitStatus = done.exitStatus) :
    db'.requests.find? id = some r ∧ stored db' id = some done := by
  obtain ⟨q, rfl⟩ := recordEnd_queue h
  refine ⟨hr, ?_⟩
  have hrow : (storeOutput db id done).requests.find? id = some r := hr
  have hend : ∃ o, (storeOutput db id done).output.find? id = some o ∧
      o.ending = (done.tail, done.totalBytes, done.logPath) := by
    rw [storeOutput, find?_setOutput, if_pos rfl]
    exact ⟨_, rfl, rfl⟩
  obtain ⟨o, ho, hending⟩ := hend
  exact (stored_eq_some hrow ho).mpr ⟨hrunner, houtcome, hexit, hending⟩

/-- The row of a move that is made. -/
theorem mustMove_found {db db' : Db} {id guard set hset now e row} {r : RawRow}
    (h : mustMove lib db id guard set hset now e = .ok (db', row)) (hr : db.requests.find? id = some r) :
    guard r = true ∧ db'.requests.find? id = some (set r) := by
  obtain ⟨x, hx, hg, hmap⟩ := mustMove_requests h
  obtain rfl : r = x := Option.some.inj (hr.symm.trans hx)
  refine ⟨hg, ?_⟩
  rw [hmap, hr, Option.map_some, if_pos ⟨Table.key_of_find? hr, hg⟩]

/-- A run that is finished once it is settled, and was not reported, was ended by its age. -/
theorem settleRow_assumed {now : Int} {r : RawRow} (hnoted : Noted r) (hfirst : ¬ r.Reported)
    (h : (settleRow now r).state = .finished) :
    (settleRow now r).note = some settledInterrupt ∧ (settleRow now r).outcome = some .interrupted := by
  rcases settleRow_cases now r with hsame | ⟨-, hsame⟩ | ⟨-, hsame⟩
  · rw [hsame] at h ⊢
    have hn : r.note = some settledInterrupt := by
      by_contra hn
      exact hfirst ⟨h, hn⟩
    exact ⟨hn, hnoted.2 h hn⟩
  · rw [hsame] at h
    contradiction
  · rw [hsame]
    exact ⟨rfl, rfl⟩

/-- What is finished is a request there is. -/
theorem finish_found {id now : Int} {done : Finished} {row : ExecRow}
    (h : finish lib db id done now = .ok (db', row)) : ∃ r, db.requests.find? id = some r := by
  obtain ⟨db₁, expired, x, -, hsettle, hget, -⟩ := finish_ok h
  obtain ⟨s, hs, -⟩ := mustGet_ok hget
  obtain ⟨r, hr, -, -⟩ := settle_find hsettle hs
  exact ⟨r, hr⟩

/-- **A run's first report is stored**: a `finish` that is accepted of a run not reported yet leaves it
reported, with the values it was given. -/
theorem finish_stores {id now : Int} {done : Finished} {row : ExecRow} {r : RawRow}
    (h : finish lib db id done now = .ok (db', row)) (hr : db.requests.find? id = some r)
    (hnoted : Noted r) (hfirst : ¬ r.Reported) :
    done.check = .ok () ∧ stored db' id = some done ∧
      ∃ r', db'.requests.find? id = some r' ∧ r'.Reported := by
  obtain ⟨db₁, expired, x, hcheck, hsettle, hget, h⟩ := finish_ok h
  refine ⟨hcheck, ?_⟩
  obtain ⟨s, hs, hparse⟩ := mustGet_ok hget
  obtain ⟨-, hstate, -, hrunner, houtcome, hnote⟩ := parse_ok hparse
  have hsettled : db₁.requests.find? id = some (settleRow now r) := by rw [settle_requests hsettle, hr]; rfl
  obtain rfl : settleRow now r = s := Option.some.inj (hsettled.symm.trans hs)
  rcases h with ⟨-, db₂, row₂, hmove, h⟩ | ⟨hage, hfinished, hsame, -⟩ | ⟨-, db₂, row₂, hmove, h⟩
  · obtain ⟨hg, hmoved⟩ := mustMove_found hmove hsettled
    simp only [Bool.and_eq_true, beq_iff_eq] at hg
    obtain ⟨hrow, hstored⟩ := recordEnd_stored h hmoved hg.2 rfl rfl
    exact ⟨hstored, _, hrow, hg.1.1.1, by simp⟩
  · -- a finished run that is not reported is one that settle ended, and its runner's to correct
    exfalso
    obtain ⟨hn, ho⟩ := settleRow_assumed hnoted hfirst (hstate.symm.trans hfinished)
    rw [settledByAge, hfinished, houtcome, ho, hnote, hn, hsame.1] at hage
    simp at hage
  · obtain ⟨hg, hmoved⟩ := mustMove_found hmove hsettled
    obtain ⟨hrun, hheld⟩ := Bool.and_eq_true_iff.mp hg
    obtain ⟨hrow, hstored⟩ := recordEnd_stored h hmoved (beq_iff_eq.mp hheld) rfl rfl
    refine ⟨hstored, _, hrow, rfl, ?_⟩
    obtain ⟨hsame, hrunning⟩ := settleRow_running (isRunning_iff.mp hrun)
    show (settleRow now r).note ≠ some settledInterrupt
    rw [hsame, hnoted.1 (Or.inr hrunning)]
    simp

/-- A step leaves the report of a reported run as it is. -/
theorem step_stored (lib : Ext) (db : Db) (op : Op) {id : Int} {r : RawRow} {done : Finished}
    (hr : db.requests.find? id = some r) (hreported : r.Reported) (hstored : stored db id = some done) :
    stored (step lib db op) id = some done := by
  have hrow := step_reported lib db op hr hreported
  cases ho : db.output.find? id with
  | none => simp [stored, hr, ho] at hstored
  | some o =>
      have hkept : ∃ o', (step lib db op).output.find? id = some o' ∧ o'.ending = o.ending := by
        unfold step
        cases hp : perform lib db op with
        | error e => exact ⟨o, ho, rfl⟩
        | ok res =>
            obtain ⟨db', reply⟩ := res
            by_cases hop : ∃ done now, op = .finish id done now
            · obtain ⟨done', now, rfl⟩ := hop
              obtain ⟨⟨db₁, row⟩, hfinish, h⟩ := bind_eq_ok.mp hp
              cases h
              obtain ⟨-, ⟨expired, hsettle⟩, -⟩ := (finish_reported hr hreported).mp ⟨row, hfinish⟩
              exact EndingKept.of_output (settle_leaves hsettle).2 o ho
            · exact (perform_leaves hp).2 id (fun done now h => hop ⟨done, now, h⟩) o ho
      obtain ⟨o', ho', hending⟩ := hkept
      rw [stored_eq_some hr ho, ← hending] at hstored
      exact (stored_eq_some hrow ho').mpr hstored

/-! ## Runs -/

/-- What every state of a run keeps: rows that were issued and can be read, with the notes of their
states. -/
def Reachable (lib : Ext) (k : Int) (n : Nat) (db : Db) : Prop :=
  Bounded k db ∧ Issued lib n db ∧ ∀ id r, db.requests.find? id = some r → Noted r

/-- One operation keeps what notes say. -/
theorem noted_step (lib : Ext) (db : Db) (op : Op)
    (hdb : ∀ id r, db.requests.find? id = some r → Noted r) :
    ∀ id r, (step lib db op).requests.find? id = some r → Noted r := by
  intro id r' hr'
  cases hk : db.requests.find? id with
  | none =>
      obtain ⟨requester, ask, argv, now, -, rfl⟩ := step_new lib db op hk hr'
      exact ⟨fun _ => rfl, fun hs => by contradiction⟩
  | some r =>
      obtain ⟨x, hx, hstep⟩ := step_row lib db op hk
      rw [hr'] at hx
      cases hx
      rcases hstep with rfl | hstep
      · exact hdb id r' hk
      · exact hstep.noted (hdb id r hk)

/-- One operation more is reachable, in any queue with exec's own topics. -/
theorem reachable_step (hlib : Printer lib) {op : Op} {q : Queue} (hop : op.OfExec) (hq : OwnSpecs q)
    {n : Nat} (hk : 0 ≤ k) (hmax : k ≤ i64Max) (h : Reachable lib k n db) :
    Reachable lib (k + 1) (n + 1) (stepIn lib db (op, q)) := by
  obtain ⟨hbounded, hissued, hnoted⟩ := h
  have hissued : Issued lib n (db.finds q) := hissued
  exact ⟨(beside_step hlib hop hq hq hk hmax hbounded.beside).1, issued_step hissued op,
    noted_step lib (db.finds q) op hnoted⟩

/-- So is a run. -/
theorem reachable_run (hlib : Printer lib) {steps : List (Op × Queue)}
    (hsteps : ∀ s ∈ steps, s.1.OfExec ∧ OwnSpecs s.2) {n : Nat} (hk : 0 ≤ k)
    (hmax : k + steps.length ≤ i64Max) (h : Reachable lib k n db) :
    Reachable lib (k + steps.length) (n + steps.length) (run (stepIn lib) db steps) := by
  induction steps generalizing k n db with
  | nil => simpa using h
  | cons s steps ih =>
      simp only [List.length_cons, Nat.cast_add, Nat.cast_one] at hmax ⊢
      obtain ⟨hop, hq⟩ := hsteps s List.mem_cons_self
      have hrest := ih (fun x hx => hsteps x (List.mem_cons_of_mem _ hx)) (by omega) (by omega)
        (reachable_step hlib hop hq hk (by omega) h)
      rw [show k + (steps.length + 1 : Int) = k + 1 + steps.length by omega,
        show n + (steps.length + 1) = n + 1 + steps.length by omega]
      exact hrest

/-- A database with nothing in it is reachable. -/
theorem reachable_empty (lib : Ext) : Reachable lib 0 0 Db.empty :=
  ⟨beside_empty.1, ⟨le_refl _, le_refl _, fun k r h => by contradiction⟩, fun k r h => by contradiction⟩

/-- A reported run stays reported, with its report. -/
theorem run_stored (lib : Ext) (later : List (Op × Queue)) {id : Int} {r : RawRow} {done : Finished}
    (hr : db.requests.find? id = some r) (hreported : r.Reported) (hstored : stored db id = some done) :
    (run (stepIn lib) db later).requests.find? id = some r ∧
      stored (run (stepIn lib) db later) id = some done := by
  induction later generalizing db with
  | nil => exact ⟨hr, hstored⟩
  | cons s later ih =>
      have hrow : (db.finds s.2).requests.find? id = some r := hr
      have hreport : stored (db.finds s.2) id = some done := hstored
      exact ih (step_reported lib _ s.1 hrow hreported)
        (step_stored lib _ s.1 hrow hreported hreport)

/-- What a `finish` does to a database. -/
theorem step_finish (lib : Ext) (db : Db) (id : Int) (done : Finished) (now : Int) :
    step lib db (.finish id done now) = commit (Prod.fst <$> finish lib db id done now) db := by
  cases h : finish lib db id done now with
  | error e => simp only [step, perform, h]; rfl
  | ok res => simp only [step, perform, h]; rfl

/-- A later `finish` of a reported run is accepted for the runner, outcome and exit status stored. -/
theorem finish_again {id now : Int} {done : Finished} (done' : Finished) {r : RawRow}
    (hr : db.requests.find? id = some r) (hreported : r.Reported) (hstored : stored db id = some done)
    (hread : ∃ row, r.parse lib = .ok row)
    (hsettle : ∃ db' expired, settle lib db now = .ok (db', expired)) :
    (∃ res, finish lib db id done' now = .ok res) ↔ done'.check = .ok () ∧
      done'.runner = done.runner ∧ done'.outcome = done.outcome ∧ done'.exitStatus = done.exitStatus := by
  obtain ⟨db', expired, hsettle⟩ := hsettle
  cases ho : db.output.find? id with
  | none => simp [stored, hr, ho] at hstored
  | some o =>
      obtain ⟨hrunner, houtcome, hexit, -⟩ := (stored_eq_some hr ho).mp hstored
      constructor
      · rintro ⟨⟨db₁, row⟩, h⟩
        obtain ⟨hcheck, -, -, hrunner', houtcome', hexit'⟩ := (finish_reported hr hreported).mp ⟨row, h⟩
        refine ⟨hcheck, ?_, ?_, hexit'.symm.trans hexit⟩
        · exact Option.some.inj (hrunner'.symm.trans hrunner)
        · exact Option.some.inj (houtcome'.symm.trans houtcome)
      · rintro ⟨hcheck, hrunner', houtcome', hexit'⟩
        have hok : ∃ row, finish lib db id done' now = .ok (db', row) :=
          (finish_reported hr hreported).mpr ⟨hcheck, ⟨expired, hsettle⟩, hread,
            by rw [hrunner, hrunner'], by rw [houtcome, houtcome'], by rw [hexit, hexit']⟩
        obtain ⟨row, h⟩ := hok
        exact ⟨_, h⟩

/-- A `finish` of a reported run is accepted for the values stored and no others, and a refused one
leaves both tables. -/
def OnlyAsStored (lib : Ext) (db : Db) (id : Int) (done : Finished) (now : Int) : Prop :=
  ((∃ res, finish lib db id done now = .ok res) ↔ stored db id = some done) ∧
    ((¬ ∃ res, finish lib db id done now = .ok res) →
      (step lib db (.finish id done now)).requests = db.requests ∧
        (step lib db (.finish id done now)).output = db.output)

/-- A report agrees with the first one in what the output row keeps, if it passes the checks and agrees in
what the request row keeps. -/
def SameEnding (first later : Finished) : Prop :=
  later.check = .ok () → later.runner = first.runner → later.outcome = first.outcome →
    later.exitStatus = first.exitStatus →
    later.tail = first.tail ∧ later.totalBytes = first.totalBytes ∧ later.logPath = first.logPath

/-- **When a later report is only a retry.** Take any run of exec's operations, over whatever queues they
find, in which a `finish` is accepted of a request that no report had finished, and any operations
after it. Then a later `finish` of that request is accepted for exactly the values stored, and refused
without a trace otherwise, if and only if its tail, total and log path are those of the report wherever
it passes the checks and has the report's runner, outcome and exit status. -/
theorem finish_onlyAsStored (hlib : Printer lib) (past later : List (Op × Queue))
    (hsteps : ∀ s ∈ past ++ later, s.1.OfExec ∧ OwnSpecs s.2)
    {id now : Int} {done : Finished} {q : Queue} (hdone : (Op.finish id done now).OfExec) (hq : OwnSpecs q)
    (hlen : past.length + 1 + later.length ≤ i64Max) {db₁ : Db} {row : ExecRow}
    (hreport : finish lib ((run (stepIn lib) Db.empty past).finds q) id done now = .ok (db₁, row))
    (hfirst : ∀ r, (run (stepIn lib) Db.empty past).requests.find? id = some r → ¬ r.Reported)
    (done' : Finished) (now' : Int) {q' : Queue} (hq' : OwnSpecs q') :
    OnlyAsStored lib ((run (stepIn lib) db₁ later).finds q') id done' now' ↔ SameEnding done done' := by
  have hpast := reachable_run hlib (fun s hs => hsteps s (List.mem_append_left _ hs)) le_rfl (by omega)
    (reachable_empty lib)
  have hstep : stepIn lib (run (stepIn lib) Db.empty past) (.finish id done now, q) = db₁ := by
    rw [stepIn, step_finish, hreport]
    rfl
  have hreported := reachable_step hlib hdone hq (by omega) (by omega) hpast
  rw [hstep] at hreported
  obtain ⟨hbounded, hissued, -⟩ := reachable_run hlib
    (fun s hs => hsteps s (List.mem_append_right _ hs)) (by omega) (by omega) hreported
  -- the report is stored, and stays so
  obtain ⟨r, hr⟩ := finish_found hreport
  obtain ⟨hcheck, hstored, r₁, hr₁, hr₁'⟩ := finish_stores hreport hr (hpast.2.2 id r hr) (hfirst r hr)
  obtain ⟨hrow, hkept⟩ := run_stored lib later hr₁ hr₁' hstored
  have hsettles : Movable lib (0 + past.length + 1 + later.length)
      ((run (stepIn lib) db₁ later).finds q') :=
    ⟨⟨hq', hbounded.sized, hbounded.chunks⟩, fun k r hr => (hissued.2.2 k r hr).2⟩
  have hrow : ((run (stepIn lib) db₁ later).finds q').requests.find? id = some r₁ := hrow
  have hkept : stored ((run (stepIn lib) db₁ later).finds q') id = some done := hkept
  have hagain := finish_again done' hrow hr₁' hkept (hissued.2.2 id r₁ hrow).2
    (hsettles.settle_ok hlib now')
  generalize (run (stepIn lib) db₁ later).finds q' = db at hagain hkept
  rw [OnlyAsStored, hagain, hkept]
  constructor
  · rintro ⟨hiff, -⟩ hcheck' hrunner houtcome hexit
    obtain rfl := Option.some.inj (hiff.mp ⟨hcheck', hrunner, houtcome, hexit⟩)
    exact ⟨rfl, rfl, rfl⟩
  · intro hsame
    refine ⟨⟨?_, ?_⟩, fun hrefused => ?_⟩
    · rintro ⟨hcheck', hrunner, houtcome, hexit⟩
      obtain ⟨htail, htotal, hlog⟩ := hsame hcheck' hrunner houtcome hexit
      obtain ⟨runner, outcome, exitStatus, tail, totalBytes, logPath⟩ := done'
      cases hrunner
      cases houtcome
      cases hexit
      cases htail
      cases htotal
      cases hlog
      rfl
    · intro heq
      cases heq
      exact ⟨hcheck, rfl, rfl, rfl⟩
    · rw [step_finish]
      cases hfinish : finish lib db id done' now' with
      | error e => exact ⟨rfl, rfl⟩
      | ok res => exact absurd (hagain.mp ⟨res, hfinish⟩) hrefused

/-- A run of `true`, asked for and begun. -/
def begunRun : List (Op × Queue) :=
  [(.request ⟨"s", none, "worker", none⟩ ⟨.host, "/tmp", .host, ["true"], "", none, none⟩ 0, Queue.empty),
    (.begin 1 none "me" 5, Queue.empty)]

/-- It exited with the two bytes it printed. -/
def printedTwo : Finished := ⟨"me", .exited, some 0, [104, 105], 2, none⟩

/-- It exited with other bytes, and a log. -/
def printedThree : Finished := ⟨"me", .exited, some 0, [98, 121, 101], 3, some "/log"⟩

/-- The same ending again is accepted, as it is stored. -/
theorem finish_onlyAsStored_begunRun :
    ∃ db₁ row, finish Ext.sample ((run (stepIn Ext.sample) Db.empty begunRun).finds Queue.empty) 1
        printedTwo 6 = .ok (db₁, row) ∧
      (OnlyAsStored Ext.sample (db₁.finds Queue.empty) 1 printedTwo 7 ↔
        SameEnding printedTwo printedTwo) := by
  have hok : (finish Ext.sample ((run (stepIn Ext.sample) Db.empty begunRun).finds Queue.empty) 1
      printedTwo 6).isOk = true := by decide +kernel
  have hpending : ∀ r, (run (stepIn Ext.sample) Db.empty begunRun).requests.find? 1 = some r →
      ¬ r.Reported := by
    have hrow : ((run (stepIn Ext.sample) Db.empty begunRun).requests.find? 1).map (·.state) =
        some .running := by decide +kernel
    intro r hr hreported
    rw [hr, Option.map_some, hreported.1] at hrow
    contradiction
  cases hfinish : finish Ext.sample ((run (stepIn Ext.sample) Db.empty begunRun).finds Queue.empty) 1
      printedTwo 6 with
  | error e =>
      rw [hfinish] at hok
      contradiction
  | ok res =>
      obtain ⟨db₁, row⟩ := res
      exact ⟨db₁, row, rfl, finish_onlyAsStored (Ext.flat_printer _) begunRun []
        (by simp [begunRun, Op.OfExec, ownSpecs_empty])
        (by simp [Op.OfExec, printedTwo, isI64, i64Min, i64Max]) ownSpecs_empty (by decide) hfinish
        hpending printedTwo 7 ownSpecs_empty⟩

/-- The same exit, with another tail, total and log path, is accepted, and not stored. -/
theorem finish_otherTail :
    ¬ OnlyAsStored Ext.sample
      (step Ext.sample (run (stepIn Ext.sample) Db.empty begunRun) (.finish 1 printedTwo 6)) 1
      printedThree 7 := by
  intro h
  have hok : (finish Ext.sample
      (step Ext.sample (run (stepIn Ext.sample) Db.empty begunRun) (.finish 1 printedTwo 6)) 1
      printedThree 7).isOk = true := by decide +kernel
  have hstored : stored
      (step Ext.sample (run (stepIn Ext.sample) Db.empty begunRun) (.finish 1 printedTwo 6)) 1 ≠
        some printedThree := by decide +kernel
  cases hfinish : finish Ext.sample
      (step Ext.sample (run (stepIn Ext.sample) Db.empty begunRun) (.finish 1 printedTwo 6)) 1
      printedThree 7 with
  | error e =>
      rw [hfinish] at hok
      contradiction
  | ok res => exact hstored (h.1.mp ⟨res, hfinish⟩)

end Jkb.Exec
