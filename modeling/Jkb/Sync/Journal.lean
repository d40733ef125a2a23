import Jkb.Core.SyncState
import Jkb.Run
import Jkb.Sync.Lifecycle

/-!
# Jkb.Sync.Journal

The engine's writes of one file's journal row: the three flags, `settle`, `mark_ok` and
`populate_document` of `engine.rs`, and the store's own `sync_state::settle`. A write whose
conclusion the machine does not declare is refused, and the row stays as it was.

The state of a file is read back from its row. The main result says exactly along which runs what is
read back is where the machine's transition led: `roundTrips_iff`.
-/

namespace Jkb.Sync.Journal

open Jkb.Fsm Jkb.Run

/-- The journal row of one file, if it has one. -/
abbrev Row := Option SyncState

/-- The row carries the hash of stashed bytes. -/
def stashed (row : Row) : Bool := row.any fun r => r.quarantineBlobHash.isSome

/-- Where the file stands, as every reader of the journal asks. -/
def state (row : Row) : FileState := .fromJournal (row.map (·.status)) (stashed row)

/-- `journal_status`: the one place a status gets a value. -/
def journalStatus (row : Row) (event : FileEvent) : Except String String :=
  statusFor (state row) event

/-! ## the writes -/

/-- Why a file is flagged, and so what goes into the row's two flag columns. -/
inductive Flag where
  | blocked (reason : String)
  | parseFailed (error stash : String)
  | conflicted
deriving Repr, DecidableEq

namespace Flag

def event : Flag → FileEvent
  | .blocked _ => .writeBlocked
  | .parseFailed _ _ => .parseFailed
  | .conflicted => .conflicted

def parseError : Flag → Option String
  | .blocked reason => some reason
  | .parseFailed error _ => some error
  | .conflicted => none

/-- The stash the flag leaves. A refusal keeps the one an earlier quarantine left. -/
def stash (why : Flag) (journal : Row) : Option String :=
  match why with
  | .blocked _ => journal.bind (·.quarantineBlobHash)
  | .parseFailed _ stash => some stash
  | .conflicted => none

def isBlocked : Flag → Bool
  | .blocked _ => true
  | _ => false

end Flag

/-- Flag a file's journal, carrying the last-good fields forward. -/
def flag (row : Row) (now uri serName : String) (journal : Row) (why : Flag) :
    Except String Row := do
  let status ← journalStatus row why.event
  return some (SyncState.upsert row now
    { uri, serializer := serName, status
      lastSyncedHash := journal.bind (·.lastSyncedHash)
      baseBlobHash := journal.bind (·.baseBlobHash)
      parseError := why.parseError
      quarantineBlobHash := why.stash journal
      document := journal.bind (·.document) })

/-- Record a clean sync whose bytes hash to `baseHash`. -/
def settle (row : Row) (now uri serName baseHash : String) (document : Option String) : Row :=
  some (SyncState.upsert row now
    { uri, serializer := serName, status := "ok"
      lastSyncedHash := some baseHash, baseBlobHash := some baseHash
      parseError := none, quarantineBlobHash := none, document })

/-- Re-affirm a file whose flag has cleared with no remaining drift. -/
def markOk (row : Row) (now uri serName hash : String) (document : Option String) :
    Except String Row := do
  let status ← journalStatus row .unchanged
  return some (SyncState.upsert row now
    { uri, serializer := serName, status
      lastSyncedHash := some hash, baseBlobHash := some hash
      parseError := none, quarantineBlobHash := none, document })

/-- Fill in a row's document structure when it has none and one was recovered. -/
def populateDocument (now uri : String) (journal : Row) (recovered : Option String) : Row :=
  match journal with
  | none => none
  | some row =>
      if row.document.isSome then some row
      else
        match recovered with
        | none => some row
        | some document =>
            some (SyncState.upsert (some row) now
              { uri, serializer := row.serializer, status := row.status
                lastSyncedHash := row.lastSyncedHash, baseBlobHash := row.baseBlobHash
                parseError := row.parseError, quarantineBlobHash := row.quarantineBlobHash
                document := some document })

/-- A journal write, with what the pass hands to it. -/
inductive Write where
  | flag (serName : String) (why : Flag)
  | settle (serName baseHash : String) (document : Option String)
  | markOk (serName hash : String) (document : Option String)
  | populateDocument (recovered : Option String)
  | clear
deriving Repr, DecidableEq

/-- A write at a time. -/
structure Op where
  now : String
  write : Write
deriving Repr, DecidableEq

/-- Perform a write on the row of the file at `uri`. The journal a flag carries forward is the row
the pass read, which no other writer changes inside the pass's transaction. -/
def perform (uri : String) (row : Row) (op : Op) : Except String Row :=
  match op.write with
  | .flag serName why => flag row op.now uri serName row why
  | .settle serName baseHash document => .ok (settle row op.now uri serName baseHash document)
  | .markOk serName hash document => markOk row op.now uri serName hash document
  | .populateDocument recovered => .ok (populateDocument op.now uri row recovered)
  | .clear => .ok (SyncState.settle row op.now)

/-- The row after a write: a refused one leaves it as it was. -/
def step (uri : String) (row : Row) (op : Op) : Row :=
  match perform uri row op with
  | .ok row' => row'
  | .error _ => row

/-! ## where the machine leads -/

/-- The conclusion a write records. A settled pass imported, exported, merged or adopted the file;
filling in a structure and clearing a flag conclude nothing. -/
def Write.conclusions : Write → List FileEvent
  | .flag _ why => [why.event]
  | .settle _ _ _ => [.adopted, .imported, .exported, .merged, .resolvedByPolicy, .recovered]
  | .markOk _ _ _ => [.unchanged]
  | .populateDocument _ => []
  | .clear => []

/-- The state the machine's transition for a write's conclusion leads to. A write that concludes
nothing leaves a file where it stood, and a cleared flag leaves it settled. -/
def leadsTo (row : Row) : Write → FileState
  | .flag _ why => Sync.leadsTo why.event
  | .settle _ _ _ => .settled
  | .markOk _ _ _ => Sync.leadsTo .unchanged
  | .populateDocument _ => state row
  | .clear => if row.isSome then .settled else .untracked

/-- **Wherever the machine moves a file on a conclusion of a write, it moves it there.** -/
theorem moved_leadsTo {row : Row} {w : Write} {event e : FileEvent} {facts : FileFacts}
    {src dst : FileState} {effects : List FileEffect} (hevent : event ∈ w.conclusions)
    (h : machine.apply facts event = .moved src e dst effects) : dst = leadsTo row w := by
  have hdst : dst = Sync.leadsTo event := by
    rcases Machine.accepts_of_moved h with h | h <;> rw [accepts_eq] at h <;> split at h
    · exact (Acceptance.moves.inj h).symm
    all_goals cases h
  subst hdst
  cases w with
  | flag serName why => rw [List.mem_singleton.mp hevent, leadsTo]
  | markOk serName hash document => rw [List.mem_singleton.mp hevent, leadsTo]
  | settle serName baseHash document =>
      simp only [Write.conclusions, List.mem_cons, List.not_mem_nil, or_false] at hevent
      rcases hevent with rfl | rfl | rfl | rfl | rfl | rfl <;> rfl
  | populateDocument recovered => cases hevent
  | clear => cases hevent

/-- **The journal round-trips a write**: if it is accepted, the row it leaves reads back as the state
the machine's transition leads to. -/
def RoundTrips (uri : String) (row : Row) (op : Op) : Prop :=
  ∀ row', perform uri row op = .ok row' → state row' = leadsTo row op.write

/-- **The journal follows the machine over a write**: whatever event it concludes, where the machine moves a file on
the event the row that the write leaves reads back as the state moved to. -/
def Follows (uri : String) (row : Row) (op : Op) : Prop :=
  ∀ row', perform uri row op = .ok row' → ∀ event ∈ op.write.conclusions, ∀ facts src e dst effects,
    machine.apply facts event = .moved src e dst effects → state row' = dst

/-- The write is a refusal on a row that holds an earlier quarantine's stash. -/
def BlockedOnStash (row : Row) (op : Op) : Prop :=
  ∃ serName reason, op.write = .flag serName (.blocked reason) ∧ stashed row = true

/-! ## who reads the state back -/

/-- What a database pass concludes about one bound file's knowledge-base side. -/
inductive KbSide where
  | unchanged
  | changed (key : String)
  | flagged (key : String)
deriving Repr, DecidableEq

/-- Judge a file's knowledge-base side from its journal row. `render` is the hash of the document the
store renders for the file; `bindings` and `syncMode` are what else a refusal reads. -/
def judgeKbSide (render : Row → Except String String) (bindings syncMode : String)
    (journal : Except String Row) : KbSide :=
  let key (rendered : Except String String) : String :=
    (match rendered with
      | .ok hash => "render " ++ hash
      | .error e => "error " ++ e) ++ " | " ++ bindings ++ " | " ++ syncMode
  match journal with
  | .error e => .flagged (key (.error e))
  | .ok row =>
      match state row with
      | .untracked => .changed (key (render none))
      | .conflicted | .quarantined => .unchanged
      | .blocked => .flagged (key (render row))
      | .settled =>
          match render row with
          | .ok rendered =>
              if row.bind (·.lastSyncedHash) = some rendered then .unchanged
              else .changed (key (.ok rendered))
          | .error e => .flagged (key (.error e))

/-- **What a write leaves is heeded**: the journal follows the machine, and a refusal is judged anew by every database
pass. `render`, `bindings` and `syncMode` are what the pass reads beside the row. -/
structure Heeded (render : Row → Except String String) (bindings syncMode uri : String) (row : Row) (op : Op) :
    Prop where
  follows : Follows uri row op
  judged : ∀ row' serName reason, perform uri row op = .ok row' → op.write = .flag serName (.blocked reason) →
    ∃ key, judgeKbSide render bindings syncMode (.ok row') = .flagged key

/-! ## one write -/

/-- The state that a written row reads back as. -/
theorem state_upsert (row : Row) (now : String) (w : SyncStateWrite) :
    state (some (SyncState.upsert row now w)) =
      .fromJournal (some w.status) w.quarantineBlobHash.isSome := by
  simp [state, stashed, SyncState.upsert_status, SyncState.upsert_quarantineBlobHash]

/-- What an accepted flag leaves reads back as the machine's state exactly when the stash it leaves
says so. -/
theorem state_flag {row row' journal : Row} {now uri serName : String} {why : Flag}
    (h : flag row now uri serName journal why = .ok row') :
    state row' = Sync.leadsTo why.event ↔
      (why.isBlocked = true → (why.stash journal).isSome = false) := by
  cases hstatus : journalStatus row why.event with
  | error e => simp [flag, hstatus, bind, Except.bind] at h
  | ok status =>
      obtain ⟨-, hstored⟩ := statusFor_eq_ok.mp hstatus
      simp only [flag, hstatus, bind, Except.bind, pure, Except.pure, Except.ok.injEq] at h
      subst h
      rw [state_upsert, fromJournal_stored hstored]
      cases why <;> simp [Flag.event, Flag.isBlocked, Flag.stash, Sync.leadsTo]

/-- **A parse failure reads back as quarantined**, whatever flags the row carried before. -/
theorem state_flag_parseFailed {row row' journal : Row} {now uri serName error stash : String}
    (h : flag row now uri serName journal (.parseFailed error stash) = .ok row') :
    state row' = .quarantined :=
  (state_flag h).mpr (by simp [Flag.isBlocked])

/-- A row that is settled reads back so. -/
theorem state_settle (row : Row) (now uri serName baseHash : String) (document : Option String) :
    state (settle row now uri serName baseHash document) = .settled := by
  rw [settle, state_upsert]
  rfl

/-- A row that is marked reads back as unchanged. -/
theorem state_markOk {row row' : Row} {now uri serName hash : String} {document : Option String}
    (h : markOk row now uri serName hash document = .ok row') :
    state row' = Sync.leadsTo .unchanged := by
  cases hstatus : journalStatus row .unchanged with
  | error e => simp [markOk, hstatus, bind, Except.bind] at h
  | ok status =>
      obtain ⟨-, hstored⟩ := statusFor_eq_ok.mp hstatus
      simp only [markOk, hstatus, bind, Except.bind, pure, Except.pure, Except.ok.injEq] at h
      subst h
      rw [state_upsert, fromJournal_stored hstored]
      simp [Sync.leadsTo]

/-- Filling in a structure leaves the file where it stood. -/
theorem state_populateDocument (now uri : String) (row : Row) (recovered : Option String) :
    state (populateDocument now uri row recovered) = state row := by
  cases row with
  | none => rfl
  | some r =>
      by_cases hdoc : r.document.isSome
      · simp [populateDocument, hdoc]
      · cases recovered with
        | none => simp [populateDocument, hdoc]
        | some document =>
            have hrow : populateDocument now uri (some r) (some document) = _ := if_neg hdoc
            rw [hrow, state_upsert]
            rfl

/-- A row that is cleared reads back as the machine says. -/
theorem state_clear (row : Row) (now : String) :
    state (SyncState.settle row now) = leadsTo row .clear := by
  cases row with
  | none => rfl
  | some r =>
      by_cases hok : r.status = "ok"
      · simp [SyncState.settle, hok, state, leadsTo, FileState.fromJournal]
      · simp only [SyncState.settle, hok, if_false, state_upsert]
        rfl

/-- **A refused write**: it is always accepted, and the stash of the row it is written on decides
whether it reads back as one. -/
theorem flag_blocked (row : Row) (now uri serName reason : String) :
    ∃ row', flag row now uri serName row (.blocked reason) = .ok row' ∧
      state row' = if stashed row then .quarantined else .blocked := by
  have hmoves : machine.accepts (state row) .writeBlocked = .moves .blocked := by
    rw [accepts_eq]
    rfl
  have hstatus : journalStatus row .writeBlocked = .ok "needs_attention" :=
    statusFor_eq_ok.mpr ⟨hmoves, rfl⟩
  have hstash : (row.bind (·.quarantineBlobHash)).isSome = stashed row := by
    cases row <;> rfl
  cases hflag : flag row now uri serName row (.blocked reason) with
  | error e => simp [flag, Flag.event, hstatus, bind, Except.bind, pure, Except.pure] at hflag
  | ok row' =>
      simp only [flag, Flag.event, hstatus, bind, Except.bind, pure, Except.pure,
        Except.ok.injEq] at hflag
      have hstate : state row' = .fromJournal (some "needs_attention") (stashed row) := by
        rw [← hflag, state_upsert, ← hstash]
        rfl
      exact ⟨row', rfl, by rw [hstate]; cases stashed row <;> rfl⟩

/-- **When one write round-trips**: unless it is a refusal on a row that holds a stash. -/
theorem roundTrips_step_iff (uri : String) (row : Row) (op : Op) :
    RoundTrips uri row op ↔ ¬ BlockedOnStash row op := by
  obtain ⟨now, write⟩ := op
  cases write with
  | settle serName baseHash document =>
      simp [RoundTrips, BlockedOnStash, perform, leadsTo, state_settle]
  | markOk serName hash document =>
      simpa [RoundTrips, BlockedOnStash, perform, leadsTo] using fun row' => state_markOk
  | populateDocument recovered =>
      simp [RoundTrips, BlockedOnStash, perform, leadsTo, state_populateDocument]
  | clear => simp [RoundTrips, BlockedOnStash, perform, state_clear]
  | flag serName why =>
      cases why with
      | blocked reason =>
          obtain ⟨row', hrow', hstate⟩ := flag_blocked row now uri serName reason
          cases hstash : stashed row <;>
            simp [RoundTrips, BlockedOnStash, perform, leadsTo, hrow', hstate, hstash, Flag.event,
              Sync.leadsTo]
      | parseFailed error stash =>
          simpa [RoundTrips, BlockedOnStash, perform, leadsTo, Flag.event, Sync.leadsTo] using
            fun row' h => state_flag_parseFailed h
      | conflicted =>
          simpa [RoundTrips, BlockedOnStash, perform, leadsTo] using
            fun row' h => (state_flag h).mpr (by simp [Flag.isBlocked])

/-- A file of which the store has lost what it declares, while its items are still bound to it. -/
def lostButBound : FileFacts :=
  { onDisk := .yes, parses := .yes, storeEmptyOfDeclared := .yes, itemsStillBound := .yes }

/-- **When one write follows the machine**: under the same condition. A refusal on a stash does not, since there are
facts on which the machine moves the file to `blocked`. -/
theorem follows_step_iff (uri : String) (row : Row) (op : Op) :
    Follows uri row op ↔ ¬ BlockedOnStash row op := by
  constructor
  · rintro h ⟨serName, reason, hwrite, hstash⟩
    obtain ⟨row', hrow', hstate⟩ := flag_blocked row op.now uri serName reason
    rw [hstash, if_pos rfl] at hstate
    have hperform : perform uri row op = .ok row' := by simpa only [perform, hwrite] using hrow'
    have hmoved : machine.apply lostButBound .writeBlocked =
        .moved .untracked .writeBlocked .blocked (flagBlocked lostButBound) := rfl
    have hblocked := h row' hperform .writeBlocked (by rw [hwrite]; exact List.mem_singleton.mpr rfl) _ _ _ _ _ hmoved
    rw [hstate] at hblocked
    cases hblocked
  · intro h row' hrow' event hevent facts src e dst effects hmoved
    rw [moved_leadsTo hevent hmoved]
    exact (roundTrips_step_iff uri row op).mpr h row' hrow'

/-- **Which refused writes a database pass looks at again**: those on a row without a stash. The
others read back as a quarantine, which waits for the file to be edited. -/
theorem judgeKbSide_blocked {row row' : Row} {now uri serName reason : String}
    (render : Row → Except String String) (bindings syncMode : String)
    (h : flag row now uri serName row (.blocked reason) = .ok row') :
    (∃ key, judgeKbSide render bindings syncMode (.ok row') = .flagged key) ↔
      stashed row = false := by
  obtain ⟨row'', hrow'', hstate⟩ := flag_blocked row now uri serName reason
  obtain rfl : row'' = row' := Except.ok.inj (hrow''.symm.trans h)
  cases hstash : stashed row <;> simp [judgeKbSide, hstate, hstash]

/-- **When one write is heeded**: unless it is refused on a row that keeps a stash. -/
theorem heeded_step_iff (render : Row → Except String String) (bindings syncMode uri : String) (row : Row) (op : Op) :
    Heeded render bindings syncMode uri row op ↔ ¬ BlockedOnStash row op := by
  refine ⟨fun h => (follows_step_iff uri row op).mp h.follows, fun h => ⟨(follows_step_iff uri row op).mpr h, ?_⟩⟩
  intro row' serName reason hrow' hwrite
  simp only [perform, hwrite] at hrow'
  refine (judgeKbSide_blocked render bindings syncMode hrow').mpr (Bool.eq_false_iff.mpr fun hstash => ?_)
  exact h ⟨serName, reason, hwrite, hstash⟩

/-! ## runs -/

/-- **The journal round-trips the sync machine, except for refusals on a stash.** Along a run of
writes from any row, what is read back after every accepted write is the state the machine's
transition leads to, if and only if no refusal is written on a row that still holds an earlier
quarantine's stash. -/
theorem roundTrips_iff (uri : String) (row : Row) (ops : List Op) :
    EveryStep (step uri) (RoundTrips uri) row ops ↔
      EveryStep (step uri) (fun row op => ¬ BlockedOnStash row op) row ops :=
  everyStep_congr (roundTrips_step_iff uri) row ops

/-- **What the journal records is heeded, except for refusals on a stash.** Along a run of writes, whatever the facts
of the passes are, every accepted write leaves a row that reads back as the state that the machine moves the file to on
each event the write concludes, and every refusal is judged anew by the next database pass, if and only if none is
written on a row that holds an earlier quarantine's stash. -/
theorem heeded_iff (render : Row → Except String String) (bindings syncMode uri : String) (row : Row) (ops : List Op) :
    EveryStep (step uri) (Heeded render bindings syncMode uri) row ops ↔
      EveryStep (step uri) (fun row op => ¬ BlockedOnStash row op) row ops :=
  everyStep_congr (heeded_step_iff render bindings syncMode uri) row ops

/-- A file fails to parse on its first pass, and the next pass is refused. -/
def quarantineThenRefuse : List Op :=
  [⟨"t1", .flag "tasks" (.parseFailed "line 3: unterminated quote" "b1")⟩,
   ⟨"t2", .flag "tasks" (.blocked "writing would remove `- [ ] a`")⟩]

/-- **A refused write may read back as a quarantine.** -/
theorem refusal_reads_quarantined :
    state (run (step "file:///t.md") none quarantineThenRefuse) = .quarantined ∧
      ¬ EveryStep (step "file:///t.md") (RoundTrips "file:///t.md") none quarantineThenRefuse := by
  refine ⟨by decide, ?_⟩
  rw [everyStep_congr (roundTrips_step_iff _)]
  intro h
  exact h.2.1 ⟨_, _, rfl, by decide⟩

end Jkb.Sync.Journal
