import Jkb.Exec.Once

/-!
# Jkb.Exec.Rows

What a reachable table holds. `RowStep` says what an operation does to the rows there are; here is what it
leaves alone and what it adds. A move issues no id and stores no output, an operation adds at most one
row, under the next id and with an argv that is read back, and the ending stored with a run's output is
changed by a `finish` of that run only.
-/

namespace Jkb.Exec

open Run Tx

variable {lib : Ext}

/-! ## What a move leaves alone -/

/-- No id is issued, and no output stored. -/
def Leaves (db db' : Db) : Prop := db'.requests.last = db.requests.last ∧ db'.output = db.output

theorem Leaves.trans {a b c : Db} (hab : Leaves a b) (hbc : Leaves b c) : Leaves a c :=
  ⟨hbc.1.trans hab.1, hbc.2.trans hab.2⟩

theorem moved_leaves {db db' : Db} {id guard set hset now res}
    (h : moved lib db id guard set hset now = .ok (db', res)) : Leaves db db' := by
  cases res with
  | some row =>
      obtain ⟨q, r, -, -, rfl⟩ := moved_some h
      exact ⟨rfl, rfl⟩
  | none =>
      obtain ⟨rfl, -⟩ := moved_none h
      exact ⟨rfl, rfl⟩

theorem mustMove_leaves {db db' : Db} {id guard set hset now e row}
    (h : mustMove lib db id guard set hset now e = .ok (db', row)) : Leaves db db' := by
  simp only [mustMove, bind_eq_ok] at h
  obtain ⟨⟨db₁, res⟩, h₁, h⟩ := h
  cases res with
  | none => contradiction
  | some x =>
      cases h
      exact moved_leaves h₁

theorem expireAll_leaves {now note} {ids : List Int} {db db' : Db} {expired}
    (h : expireAll lib now note db ids = .ok (db', expired)) : Leaves db db' := by
  induction ids generalizing db expired with
  | nil =>
      cases h
      exact ⟨rfl, rfl⟩
  | cons id ids ih =>
      simp only [expireAll, bind_eq_ok] at h
      obtain ⟨⟨db₁, row⟩, h₁, ⟨db₂, rest⟩, h₂, h⟩ := h
      cases h
      exact (moved_leaves h₁).trans (ih h₂)

theorem interruptAll_leaves {now} {ids : List Int} {db db' : Db}
    (h : interruptAll lib now db ids = .ok db') : Leaves db db' := by
  induction ids generalizing db with
  | nil =>
      cases h
      exact ⟨rfl, rfl⟩
  | cons id ids ih =>
      simp only [interruptAll, bind_eq_ok] at h
      obtain ⟨⟨db₁, row⟩, h₁, db₂, h₂, h⟩ := h
      obtain ⟨q, rfl⟩ := publishEnd_queue h₂
      have hmoved : Leaves db db₁ := moved_leaves h₁
      have hrest : Leaves { db₁ with queue := q } db' := ih h
      exact ⟨hrest.1.trans hmoved.1, hrest.2.trans hmoved.2⟩

theorem settle_leaves {db db' : Db} {now expired} (h : settle lib db now = .ok (db', expired)) :
    Leaves db db' := by
  simp only [settle, bind_eq_ok] at h
  obtain ⟨⟨db₁, expired⟩, h₁, db₂, h₂, h⟩ := h
  cases h
  exact (expireAll_leaves h₁).trans (interruptAll_leaves h₂)

/-! ## What an operation leaves of the output -/

/-- What a run's ending stores in its output row. -/
def OutputRow.ending (o : OutputRow) : List UInt8 × Int × Option String :=
  (o.tail, o.totalBytes, o.logPath)

/-- The output row of `k` stays, with its ending. -/
def EndingKept (k : Int) (db db' : Db) : Prop :=
  ∀ o, db.output.find? k = some o → ∃ o', db'.output.find? k = some o' ∧ o'.ending = o.ending

theorem EndingKept.of_output {k : Int} {db db' : Db} (h : db'.output = db.output) :
    EndingKept k db db' := fun o ho => ⟨o, by rw [h, ho], rfl⟩

theorem find?_setOutput (db : Db) (id : Int) (f : OutputRow → OutputRow) (hf) (k : Int) :
    (db.setOutput id f hf).output.find? k =
      if k = id then some (f ((db.output.find? id).getD ⟨id, [], 0, false, 0, none⟩))
      else db.output.find? k := by
  simp only [Db.setOutput, Table.find?_updateWhere, Table.find?_insertOrIgnore]
  by_cases hk : k = id
  · subst hk
    cases ho : db.output.find? k with
    | none => simp
    | some o => simp [Table.key_of_find? ho]
  · rw [if_neg hk]
    rw [if_neg fun h => hk h.2.symm]
    cases ho : db.output.find? k with
    | none => rfl
    | some o =>
        have hne : o.requestId ≠ id := by
          rw [Table.key_of_find? ho]
          exact hk
        simp [hne]

/-- An output row changed in place keeps its ending if the change does. -/
theorem EndingKept.setOutput {k : Int} (db : Db) (id : Int) (f : OutputRow → OutputRow) (hf)
    (h : k = id → ∀ o, (f o).ending = o.ending) : EndingKept k db (db.setOutput id f hf) := by
  intro o ho
  rw [find?_setOutput]
  by_cases hk : k = id
  · rw [if_pos hk, ← hk, ho]
    exact ⟨f o, rfl, h hk o⟩
  · exact ⟨o, by rw [if_neg hk, ho], rfl⟩

theorem EndingKept.insertOrIgnore {k : Int} (db : Db) (o : OutputRow) :
    EndingKept k db { db with output := (db.output.insertOrIgnore o).1 } := by
  intro x hx
  refine ⟨x, ?_, rfl⟩
  show (db.output.insertOrIgnore o).1.find? k = some x
  rw [Table.find?_insertOrIgnore, if_neg, hx]
  rintro ⟨hnone, rfl⟩
  rw [hnone] at hx
  contradiction

/-! ## What an operation adds -/

/-- A `begin` issues no id, and keeps the output there is. -/
theorem begin_leaves {db db' : Db} {id pin runner now b}
    (h : begin lib db id pin runner now = .ok (db', b)) :
    db'.requests.last = db.requests.last ∧ ∀ k, EndingKept k db db' := by
  simp only [begin, bind_eq_ok] at h
  obtain ⟨-, -, -, -, ⟨db₁, expired⟩, hsettle, row, -, h⟩ := h
  have hleft := settle_leaves hsettle
  split at h
  · cases h
    exact ⟨hleft.1, fun k => .of_output hleft.2⟩
  · split at h
    · contradiction
    · split at h
      · simp only [bind_eq_ok] at h
        obtain ⟨⟨db₂, row'⟩, hmove, h⟩ := h
        cases h
        have hall := hleft.trans (mustMove_leaves hmove)
        exact ⟨hall.1, fun k => .of_output hall.2⟩
      · simp only [bind_eq_ok] at h
        obtain ⟨⟨db₂, row'⟩, hmove, h⟩ := h
        cases h
        have hall : Leaves db db₂ := hleft.trans (mustMove_leaves hmove)
        refine ⟨hall.1, fun k o ho => ?_⟩
        rw [← hall.2] at ho
        exact EndingKept.insertOrIgnore db₂ ⟨id, [], 0, false, 0, none⟩ o ho

/-- A chunk of output is counted, and nothing else stored. -/
theorem output_leaves {db db' : Db} {id runner chunk now r}
    (h : output lib db id runner chunk now = .ok (db', r)) :
    db'.requests.last = db.requests.last ∧ ∀ k, EndingKept k db db' := by
  obtain ⟨db₁, expired, q, hsettle, rfl⟩ := output_ok h
  have hleft := settle_leaves hsettle
  refine ⟨hleft.1, fun k o ho => ?_⟩
  rw [← hleft.2] at ho
  exact EndingKept.setOutput db₁ id (fun o => { o with chunks := o.chunks + 1 }) (fun _ => rfl)
    (fun _ _ => rfl) o ho

/-- A finishing move, and the output stored after it. -/
theorem finishMove_leaves {db db₁ db₂ db' : Db} {id guard set hset now e row row' done}
    (hleft : Leaves db db₁) (hmove : mustMove lib db₁ id guard set hset now e = .ok (db₂, row))
    (h : recordEnd lib db₂ id done row now = .ok (db', row')) :
    db'.requests.last = db.requests.last ∧ ∀ k, k ≠ id → EndingKept k db db' := by
  obtain ⟨q, rfl⟩ := recordEnd_queue h
  have hall := hleft.trans (mustMove_leaves hmove)
  have hstored : ∀ k, k ≠ id → EndingKept k db₂ (storeOutput db₂ id done) := fun k hk =>
    EndingKept.setOutput db₂ id _ _ fun he => absurd he hk
  refine ⟨hall.1, fun k hk o ho => ?_⟩
  rw [← hall.2] at ho
  exact hstored k hk o ho

theorem finish_leaves {db db' : Db} {id done now row}
    (h : finish lib db id done now = .ok (db', row)) :
    db'.requests.last = db.requests.last ∧ ∀ k, k ≠ id → EndingKept k db db' := by
  obtain ⟨db₁, expired, row₁, -, hsettle, -, h⟩ := finish_ok h
  have hleft := settle_leaves hsettle
  rcases h with ⟨-, db₂, row₂, hmove, h⟩ | ⟨-, -, -, rfl, -⟩ | ⟨-, db₂, row₂, hmove, h⟩
  · exact finishMove_leaves hleft hmove h
  · exact ⟨hleft.1, fun k _ => .of_output hleft.2⟩
  · exact finishMove_leaves hleft hmove h

/-- A request adds at most one row: under the next id, and read back. -/
theorem request_adds {db db' : Db} {requester ask now res}
    (h : request lib db requester ask now = .ok (db', res)) :
    (db'.requests.last = db.requests.last ∨ db'.requests.last = db.requests.last + 1) ∧
      (∀ k r, db.requests.find? k = none → db'.requests.find? k = some r →
        k = db.requests.last + 1 ∧ ∃ row, r.parse lib = .ok row) ∧ db'.output = db.output := by
  simp only [request, bind_eq_ok] at h
  obtain ⟨-, -, argv, -, ⟨db₁, expired⟩, hsettle, h⟩ := h
  obtain ⟨hlast, houtput⟩ := settle_leaves hsettle
  have hold : ∀ k, db.requests.find? k = none → db₁.requests.find? k = none := fun k hk => by
    rw [settle_requests hsettle, hk, Option.map_none]
  split at h
  · simp only [bind_eq_ok] at h
    obtain ⟨row, -, h⟩ := h
    cases h
    refine ⟨Or.inl hlast, fun k r hk hr => ?_, houtput⟩
    rw [hold k hk] at hr
    contradiction
  · simp only [bind_eq_ok] at h
    obtain ⟨⟨queue, created⟩, -, row, hget, ⟨queue', sent⟩, -, db₂, hannounce, h⟩ := h
    cases h
    obtain ⟨q, rfl⟩ := announce_queue hannounce
    rw [← hlast]
    refine ⟨Or.inr rfl, fun k r hk hr => ?_, houtput⟩
    obtain ⟨x, hx, hparse⟩ := mustGet_ok hget
    have hfind := AutoTable.find?_insertNext db₁.requests (pendingRow requester ask argv now) fun _ => rfl
    have hself := (hfind _).symm.trans hx
    have hfound := (hfind k).symm.trans hr
    rw [if_pos rfl] at hself
    split at hfound
    · next hid =>
        cases hself
        cases hfound
        exact ⟨hid.symm, row, hparse⟩
    · rw [hold k hk] at hfound
      contradiction

/-- **What an operation leaves alone**: only a request issues an id, and only a `finish` stores an
ending. -/
theorem perform_leaves {db db' : Db} {op reply} (h : perform lib db op = .ok (db', reply)) :
    ((∀ requester ask now, op ≠ .request requester ask now) →
        db'.requests.last = db.requests.last) ∧
      ∀ k, (∀ done now, op ≠ .finish k done now) → EndingKept k db db' := by
  have hmoved : ∀ {db' : Db}, Leaves db db' →
      ((∀ requester ask now, op ≠ .request requester ask now) →
          db'.requests.last = db.requests.last) ∧
        ∀ k, (∀ done now, op ≠ .finish k done now) → EndingKept k db db' := fun h =>
    ⟨fun _ => h.1, fun _ _ => .of_output h.2⟩
  cases op with
  | request requester ask now =>
      obtain ⟨⟨db₁, r⟩, h₁, h⟩ := bind_eq_ok.mp h
      cases h
      exact ⟨fun hop => absurd rfl (hop requester ask now),
        fun k _ => .of_output (request_adds h₁).2.2⟩
  | begin id pin runner now =>
      obtain ⟨⟨db₁, b⟩, h₁, h⟩ := bind_eq_ok.mp h
      cases h
      exact ⟨fun _ => (begin_leaves h₁).1, fun k _ => (begin_leaves h₁).2 k⟩
  | decline id note now =>
      obtain ⟨⟨db₁, r⟩, h₁, h⟩ := bind_eq_ok.mp h
      cases h
      obtain ⟨db₂, expired, row₁, hsettle, -, hmove⟩ := decline_ok h₁
      exact hmoved ((settle_leaves hsettle).trans (mustMove_leaves hmove))
  | refuse id reason now =>
      obtain ⟨⟨db₁, r⟩, h₁, h⟩ := bind_eq_ok.mp h
      cases h
      obtain ⟨db₂, expired, row₁, hsettle, -, hmove⟩ := refuse_ok h₁
      exact hmoved ((settle_leaves hsettle).trans (mustMove_leaves hmove))
  | output id runner chunk now =>
      obtain ⟨⟨db₁, r⟩, h₁, h⟩ := bind_eq_ok.mp h
      cases h
      exact ⟨fun _ => (output_leaves h₁).1, fun k _ => (output_leaves h₁).2 k⟩
  | finish id done now =>
      obtain ⟨⟨db₁, r⟩, h₁, h⟩ := bind_eq_ok.mp h
      cases h
      exact ⟨fun _ => (finish_leaves h₁).1,
        fun k hop => (finish_leaves h₁).2 k fun he => hop done now (by rw [he])⟩
  | expireSession session now =>
      obtain ⟨⟨db₁, r⟩, h₁, h⟩ := bind_eq_ok.mp h
      cases h
      obtain ⟨db₂, expired, ended, hsettle, hexpire, -⟩ := expireSession_ok h₁
      exact hmoved ((settle_leaves hsettle).trans (expireAll_leaves hexpire))
  | status id now =>
      obtain ⟨⟨db₁, r⟩, h₁, h⟩ := bind_eq_ok.mp h
      cases h
      obtain ⟨expired, hsettle⟩ := status_ok h₁
      exact hmoved (settle_leaves hsettle)
  | list filter after now =>
      obtain ⟨⟨db₁, r⟩, h₁, h⟩ := bind_eq_ok.mp h
      cases h
      obtain ⟨expired, hsettle⟩ := list_ok h₁
      exact hmoved (settle_leaves hsettle)
  | queue caller op =>
      obtain ⟨queue, -, h⟩ := bind_eq_ok.mp h
      cases h
      exact hmoved ⟨rfl, rfl⟩

/-- An operation issues at most one id, to a row it reads back. -/
theorem perform_adds {db db' : Db} {op reply} (h : perform lib db op = .ok (db', reply)) :
    (db'.requests.last = db.requests.last ∨ db'.requests.last = db.requests.last + 1) ∧
      ∀ k r, db.requests.find? k = none → db'.requests.find? k = some r →
        k = db.requests.last + 1 ∧ ∃ row, r.parse lib = .ok row := by
  by_cases hop : ∃ requester ask now, op = .request requester ask now
  · obtain ⟨requester, ask, now, rfl⟩ := hop
    obtain ⟨⟨db₁, r⟩, h₁, h⟩ := bind_eq_ok.mp h
    cases h
    exact ⟨(request_adds h₁).1, (request_adds h₁).2.1⟩
  · refine ⟨Or.inl ((perform_leaves h).1 fun requester ask now hreq =>
      hop ⟨requester, ask, now, hreq⟩), ?_⟩
    intro k r hk hr
    obtain ⟨requester, ask, argv, now, hreq, -⟩ := (perform_steps h).2 k r hk hr
    exact absurd ⟨requester, ask, now, hreq⟩ hop

/-! ## Reachable tables -/

/-- What was asked is what a row is read from. -/
theorem parse_of_asked {r r' : RawRow} (h : r'.asked = r.asked) (hr : ∃ row, r.parse lib = .ok row) :
    ∃ row, r'.parse lib = .ok row := by
  have hargv : r'.argv = r.argv := congrArg Asked.argv h
  obtain ⟨row, hr⟩ := hr
  unfold RawRow.parse at hr ⊢
  rw [hargv]
  split at hr
  · contradiction
  · exact ⟨_, rfl⟩

/-- The ids issued are the first ones there are, and every row has one of them and can be read. -/
def Issued (lib : Ext) (n : Nat) (db : Db) : Prop :=
  0 ≤ db.requests.last ∧ db.requests.last ≤ n ∧
    ∀ k r, db.requests.find? k = some r → 0 < k ∧ ∃ row, r.parse lib = .ok row

theorem issued_step {n : Nat} {db : Db} (h : Issued lib n db) (op : Op) :
    Issued lib (n + 1) (step lib db op) := by
  obtain ⟨hpos, hle, hrows⟩ := h
  have hold : ∀ k r r', db.requests.find? k = some r → (step lib db op).requests.find? k = some r' →
      0 < k ∧ ∃ row, r'.parse lib = .ok row := by
    intro k r r' hr hr'
    obtain ⟨x, hx, hask, -⟩ := kept_step lib db op k r hr
    rw [hr'] at hx
    cases hx
    exact ⟨(hrows k r hr).1, parse_of_asked hask (hrows k r hr).2⟩
  cases hperform : perform lib db op with
  | error e =>
      have hsame : step lib db op = db := by rw [step, hperform]; rfl
      rw [hsame]
      exact ⟨hpos, by omega, hrows⟩
  | ok res =>
      obtain ⟨db', reply⟩ := res
      have hsame : step lib db op = db' := by rw [step, hperform]; rfl
      obtain ⟨hlast, hnew⟩ := perform_adds hperform
      rw [hsame] at hold ⊢
      refine ⟨by omega, by omega, fun k r' hr' => ?_⟩
      cases hk : db.requests.find? k with
      | some r => exact hold k r r' hk hr'
      | none =>
          obtain ⟨rfl, hread⟩ := hnew k r' hk hr'
          exact ⟨by omega, hread⟩

theorem issued_run (lib : Ext) (ops : List Op) : Issued lib ops.length (run (step lib) Db.empty ops) := by
  induction ops using List.reverseRecOn with
  | nil => exact ⟨le_refl _, le_refl _, fun k r h => by contradiction⟩
  | append_singleton ops op ih =>
      rw [run_append, run_cons, run_nil, List.length_append]
      exact issued_step ih op

end Jkb.Exec
