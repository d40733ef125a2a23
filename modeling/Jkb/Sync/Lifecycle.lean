import Jkb.Fsm

/-!
# Jkb.Sync.Lifecycle

The sync journal's machine of `lifecycle.rs`: where a synced file stands, what a pass may conclude
about it, and the table of transitions. The engine asks it for the journal status of every
conclusion it reaches, so the status column has one writer.
-/

namespace Jkb.Sync

open Jkb.Fsm

/-! ## states -/

/-- Where one synced file stands. -/
inductive FileState where
  | untracked
  | settled
  | conflicted
  | quarantined
  | blocked
deriving Repr, DecidableEq

namespace FileState

def name : FileState → String
  | .untracked => "untracked"
  | .settled => "settled"
  | .conflicted => "conflicted"
  | .quarantined => "quarantined"
  | .blocked => "blocked"

instance : State FileState where
  all := [.untracked, .settled, .conflicted, .quarantined, .blocked]
  name := name
  noun := "a synced file"
  isSettled
    | .settled | .untracked => true
    | _ => false

/-- The string a state is stored as. A quarantine and a blocked write share one. -/
def stored : FileState → Option String
  | .untracked => none
  | .settled => some "ok"
  | .conflicted => some "conflict"
  | .quarantined | .blocked => some "needs_attention"

/-- Read a journal row back into a state. The stash tells a quarantine from a blocked write; a status
this build does not know reads as blocked. -/
def fromJournal (status : Option String) (stashed : Bool) : FileState :=
  match status with
  | none => .untracked
  | some status =>
      if status = "ok" then .settled
      else if status = "conflict" then .conflicted
      else if status = "needs_attention" ∧ stashed then .quarantined
      else .blocked

end FileState

/-! ## events -/

/-- What a sync pass observed about one file. -/
inductive FileEvent where
  | adopted
  | imported
  | exported
  | merged
  | resolvedByPolicy
  | unchanged
  | recovered
  | conflicted
  | parseFailed
  | writeBlocked
deriving Repr, DecidableEq

namespace FileEvent

def name : FileEvent → String
  | .adopted => "adopted"
  | .imported => "imported"
  | .exported => "exported"
  | .merged => "merged"
  | .resolvedByPolicy => "resolved_by_policy"
  | .unchanged => "unchanged"
  | .recovered => "recovered"
  | .conflicted => "conflicted"
  | .parseFailed => "parse_failed"
  | .writeBlocked => "write_blocked"

instance : Event FileEvent where
  all := [.adopted, .imported, .exported, .merged, .resolvedByPolicy, .unchanged, .recovered,
    .conflicted, .parseFailed, .writeBlocked]
  name := name
  kind _ := .reconciled

end FileEvent

/-- What the journal write must carry beyond the status. -/
inductive FileEffect where
  | settle
  | flag (reason : String)
  | stash
deriving Repr, DecidableEq

/-- What the mount does when both sides changed the same unit. -/
inductive Policy where
  | diskWins
  | kbWins
  | manual
deriving Repr, DecidableEq

/-- Everything a guard may look at, gathered by one sync pass. -/
structure FileFacts where
  state : FileState := .untracked
  onDisk : Fact := .unknown
  parses : Fact := .unknown
  diskChanged : Fact := .unknown
  kbChanged : Fact := .unknown
  disjoint : Fact := .unknown
  storeEmptyOfDeclared : Fact := .unknown
  itemsStillBound : Fact := .unknown
  wouldDropItems : Fact := .unknown
  imports : Fact := .unknown
  exports : Fact := .unknown
  policy : Policy := .manual
deriving Repr, DecidableEq

instance : Stateful FileState FileFacts where
  state := FileFacts.state

/-! ## guards -/

def readable (f : FileFacts) : Fact := f.onDisk.and f.parses

/-- The store's having lost what the file declares owns its observation, so every ordinary guard
requires it proven absent. -/
def ordinary (f : FileFacts) : Fact := (readable f).and f.storeEmptyOfDeclared.not

def recovering (f : FileFacts) : Verdict FileEvent :=
  allOf [
    requireYes (readable f) (.new "the file is not readable."),
    requireYes f.storeEmptyOfDeclared (.new "the store still contributes items to this file."),
    requireNo f.itemsStillBound (.withRemedy
      ("items are still bound to this file, so an empty render is a lost placement " ++
        "rather than lost items.") .writeBlocked
      "Restore the placement with `jkb task place <uid> <ns> --home`."),
    requireYes f.imports (.withRemedy
      "this mount cannot import, so the file cannot be read back." .writeBlocked
      "Nothing is written; re-read the file, or make the mount bidirectional.")]

def adopting (f : FileFacts) : Verdict FileEvent :=
  requireYes (ordinary f) (.new "there is nothing readable here to adopt.")

def importing (f : FileFacts) : Verdict FileEvent :=
  allOf [
    requireYes (ordinary f) (.new "nothing to import."),
    requireYes f.diskChanged (.new "the disk side is unchanged."),
    requireNo f.kbChanged (.new "the store side changed too."),
    requireYes f.imports (.new "this mount cannot import.")]

def exporting (f : FileFacts) : Verdict FileEvent :=
  allOf [
    requireYes (ordinary f) (.new "nothing to export."),
    requireNo f.diskChanged (.new "the disk side changed too."),
    requireYes f.kbChanged (.new "the store side is unchanged."),
    requireYes f.exports (.new "this mount cannot export."),
    requireNo f.wouldDropItems (.withRemedy
      "the write would remove item lines this file still declares." .writeBlocked
      "Restore the missing placements, or delete those lines from the file.")]

def bothChanged (f : FileFacts) : Fact := ((ordinary f).and f.diskChanged).and f.kbChanged

/-- The observation calls for writing the store's rendering over the file. A merge does not: it
writes both sides. -/
def wouldWriteKbRender (f : FileFacts) : Fact :=
  let pureExport := f.diskChanged.not.and f.kbChanged
  let kbWins := ((bothChanged f).and f.disjoint.not).and (.ofBool (f.policy = .kbWins))
  (pureExport.or kbWins).and f.exports

def merging (f : FileFacts) : Verdict FileEvent :=
  allOf [
    requireYes (bothChanged f) (.new "only one side changed."),
    requireYes f.disjoint (.withRemedy "both sides changed the same unit." .conflicted
      "Resolve it in the file, or set the mount's conflict policy.")]

def policyResolving (f : FileFacts) : Verdict FileEvent :=
  allOf [
    requireYes (bothChanged f) (.new "only one side changed."),
    requireNo f.disjoint (.new "the edits are disjoint and merge."),
    requireNo (.ofBool (f.policy = .manual)) (.withRemedy
      "the conflict policy is `manual`, so neither side is overwritten." .conflicted
      "Resolve it in the file, or re-run with `jkb sync --conflict disk_wins`."),
    requireNo ((wouldWriteKbRender f).and f.wouldDropItems) (.withRemedy
      "resolving in favour of the store would remove item lines this file declares." .writeBlocked
      "Restore the missing placements, or resolve in favour of the disk.")]

def conflicting (f : FileFacts) : Verdict FileEvent :=
  allOf [
    requireYes (bothChanged f) (.new "only one side changed."),
    requireNo f.disjoint (.new "the edits are disjoint and merge."),
    requireYes (.ofBool (f.policy = .manual))
      (.new "the policy names a winner, so this is resolved rather than flagged.")]

def unchanged (f : FileFacts) : Verdict FileEvent :=
  allOf [
    requireYes (ordinary f) (.new "the file is not readable."),
    requireNo f.diskChanged (.new "the disk side changed."),
    requireNo f.kbChanged (.new "the store side changed.")]

def parseFailed (f : FileFacts) : Verdict FileEvent :=
  allOf [
    requireYes f.onDisk (.new "there is no file to parse."),
    requireNo f.parses (.new "the file parsed.")]

def writeBlocked (f : FileFacts) : Verdict FileEvent :=
  let dropping := ((wouldWriteKbRender f).and f.wouldDropItems).and f.storeEmptyOfDeclared.not
  -- the loss case on a mount that cannot heal itself
  let unrecoverable := f.storeEmptyOfDeclared.and (f.itemsStillBound.or f.imports.not)
  allOf [
    requireYes (readable f) (.new "the file is not readable."),
    requireYes (dropping.or unrecoverable)
      (.new "no write would remove anything this file declares.")]

/-! ## plans -/

def settlePlan (_ : FileFacts) : List FileEffect := [.settle]

def stashPlan (_ : FileFacts) : List FileEffect := [.stash]

def flagConflict (_ : FileFacts) : List FileEffect := [.flag "both sides changed the same unit"]

def flagBlocked (_ : FileFacts) : List FileEffect :=
  [.flag "writing would remove item lines this file declares"]

/-! ## the table -/

/-- The rows of one event: the states it applies in, and where it goes from each. -/
def rowsOf (srcs : List FileState) (event : FileEvent) (dst : FileState)
    (guard : FileFacts → Verdict FileEvent) (plan : FileFacts → List FileEffect) :
    List (Transition FileState FileEvent FileFacts FileEffect) :=
  srcs.map fun src => { src, event, dest := .to dst, guard := some guard, plan := some plan }

/-- The states with a journal row. -/
def tracked : List FileState := [.settled, .conflicted, .quarantined, .blocked]

/-- The table. With no journal row there is no base, so from `untracked` no event that compares
with one is declared. -/
def rows : List (Transition FileState FileEvent FileFacts FileEffect) :=
  rowsOf [.untracked] .adopted .settled adopting settlePlan ++
  rowsOf tracked .imported .settled importing settlePlan ++
  rowsOf tracked .exported .settled exporting settlePlan ++
  rowsOf tracked .merged .settled merging settlePlan ++
  rowsOf tracked .resolvedByPolicy .settled policyResolving settlePlan ++
  rowsOf tracked .unchanged .settled unchanged settlePlan ++
  rowsOf (.untracked :: tracked) .recovered .settled recovering settlePlan ++
  rowsOf (.untracked :: tracked) .parseFailed .quarantined parseFailed stashPlan ++
  rowsOf tracked .conflicted .conflicted conflicting flagConflict ++
  rowsOf (.untracked :: tracked) .writeBlocked .blocked writeBlocked flagBlocked

/-- The sync journal's machine. -/
def machine : Machine FileState FileEvent FileFacts FileEffect where
  transitions := rows
  initial := .untracked

/-- The journal status a pass's conclusion settles on. The guards are not run again: what is checked
is that the conclusion can happen to a file in this state at all. -/
def statusFor (src : FileState) (event : FileEvent) : Except String String :=
  match machine.accepts src event with
  | .moves dst =>
      match dst.stored with
      | some status => .ok status
      | none => .error ("`" ++ event.name ++ "` in `" ++ src.name ++ "` leads to `" ++ dst.name ++
          "`, which has no stored spelling")
  | .idempotent | .movesAsStated | .undefined =>
      .error ("the sync journal has no `" ++ event.name ++ "` transition out of `" ++ src.name ++
        "` — a reconcile arm reached a conclusion the machine does not declare")

/-! ## what the table says -/

/-- Where an event leads, from any state it applies in. -/
def leadsTo : FileEvent → FileState
  | .parseFailed => .quarantined
  | .conflicted => .conflicted
  | .writeBlocked => .blocked
  | _ => .settled

/-- The states an event applies in. -/
def appliesIn : FileEvent → FileState → Bool
  | .adopted, src => src = .untracked
  | .recovered, _ | .parseFailed, _ | .writeBlocked, _ => true
  | _, src => src ≠ .untracked

/-- **The table, in one line.** An event leads to one state wherever it applies, and nothing is
absorbed. -/
theorem accepts_eq (src : FileState) (event : FileEvent) :
    machine.accepts src event =
      if appliesIn event src then .moves (leadsTo event) else .undefined := by
  cases src <;> cases event <;> rfl

/-- Every state an event leads to has a stored spelling. -/
theorem exists_stored_leadsTo (event : FileEvent) : ∃ status, (leadsTo event).stored = some status := by
  cases event <;> exact ⟨_, rfl⟩

/-- A status is given exactly where the table declares a move, and it is the spelling of the state
the move leads to. -/
theorem statusFor_eq_ok {src : FileState} {event : FileEvent} {status : String} :
    statusFor src event = .ok status ↔
      machine.accepts src event = .moves (leadsTo event) ∧
        (leadsTo event).stored = some status := by
  obtain ⟨stored, hstored⟩ := exists_stored_leadsTo event
  rw [statusFor, accepts_eq]
  by_cases h : appliesIn event src = true <;> simp [h, hstored]

/-- Reading a stored spelling back gives the state, once the stash says which of the two flags a
`needs_attention` is. -/
theorem fromJournal_stored {s : FileState} {status : String} (h : s.stored = some status)
    (stashed : Bool) :
    FileState.fromJournal (some status) stashed = s ↔
      (s = .quarantined → stashed = true) ∧ (s = .blocked → stashed = false) := by
  cases s with
  | untracked => simp [FileState.stored] at h
  | _ =>
      obtain rfl := Option.some.inj h
      cases stashed <;> decide

end Jkb.Sync
