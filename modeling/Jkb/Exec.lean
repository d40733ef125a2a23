import Jkb.Notify

/-!
# Jkb.Exec

Run requests, as `exec.rs` keeps them: one row a request, moved by compare-and-set updates, with the
queue told about each move. Every entry point that writes first settles the table: pending rows past
their expiry expire, and runs whose runner went quiet are ended.

A row is what the table stores: `argv` is its JSON text, and a read parses it back.
-/

namespace Jkb.Exec

open Mq (Queue QueueError TopicSpec Draft)

/-! ## Limits and states -/

def idPrefix : String := "exec-"
def topicPrefix : String := "exec/"
def maxArgvBytes : Nat := 64 * 1024
def maxReasonChars : Nat := 500
def maxNoteChars : Nat := 2000
def maxPathBytes : Nat := 4096
def maxNameBytes : Nat := 256
def maxTailBytes : Nat := 256 * 1024
def maxChunkBytes : Nat := 47 * 1024
def expiresAfterMs : Int := 2 * 60 * 60 * 1000
def defaultTimeoutMs : Int := 15 * 60 * 1000
def maxTimeoutMs : Int := 2 * 60 * 60 * 1000
def runGraceMs : Int := 5 * 60 * 1000
def minTimeoutMs : Int := 1000
def page : Nat := 100
def pageBytes : Nat := 512 * 1024
def topicMaxBytes : Int := 8 * 1024 * 1024
def topicTtlMs : Int := 24 * 60 * 60 * 1000
def indexTopic : String := "exec/requests"
def indexKind : String := "exec.changed"
def indexMaxBytes : Int := 4 * 1024 * 1024

/-- The note of a run that `settle` ended. -/
def settledInterrupt : String :=
  "interrupted: the runner never reported an end, past the timeout and its grace"

inductive ExecTarget where
  | host
  | container
deriving Repr, DecidableEq

inductive ExecState where
  | pending
  | running
  | finished
  | declined
  | refused
  | expired
deriving Repr, DecidableEq

inductive RefuseReason where
  | treeChanged
  | auditRefused
  | dirGone
deriving Repr, DecidableEq

inductive Outcome where
  | exited
  | signalled
  | timedOut
  | interrupted
deriving Repr, DecidableEq

def ExecState.asStr : ExecState → String
  | .pending => "pending"
  | .running => "running"
  | .finished => "finished"
  | .declined => "declined"
  | .refused => "refused"
  | .expired => "expired"

def RefuseReason.asStr : RefuseReason → String
  | .treeChanged => "tree_changed"
  | .auditRefused => "audit_refused"
  | .dirGone => "dir_gone"

def Outcome.asStr : Outcome → String
  | .exited => "exited"
  | .signalled => "signalled"
  | .timedOut => "timed_out"
  | .interrupted => "interrupted"

structure TreePin where
  head : String
  changes : String
deriving Repr, DecidableEq

structure Requester where
  session : String
  agentType : Option String
  role : String
  task : Option Int
deriving Repr, DecidableEq

structure Ask where
  target : ExecTarget
  dir : String
  dirSide : ExecTarget
  argv : List String
  reason : String
  pin : Option TreePin
  timeoutMs : Option Int
deriving Repr, DecidableEq

/-- A row of `exec_requests`. -/
structure RawRow where
  id : Int
  createdAt : Int
  expiresAt : Int
  session : String
  agentType : Option String
  role : String
  taskId : Option Int
  target : ExecTarget
  dir : String
  dirSide : ExecTarget
  argv : String
  reason : String
  pinHead : Option String
  pinChanges : Option String
  timeoutMs : Int
  state : ExecState
  refuseReason : Option RefuseReason
  note : Option String
  runner : Option String
  startedAt : Option Int
  endedAt : Option Int
  exitStatus : Option Int
  outcome : Option Outcome
deriving Repr, DecidableEq

/-- A request as a reader is given it. -/
structure ExecRow where
  id : Int
  createdAt : Int
  expiresAt : Int
  requester : Requester
  ask : Ask
  state : ExecState
  refuseReason : Option RefuseReason
  note : Option String
  runner : Option String
  startedAt : Option Int
  endedAt : Option Int
  exitStatus : Option Int
  outcome : Option Outcome
deriving Repr, DecidableEq

/-- A row of `exec_output`. -/
structure OutputRow where
  requestId : Int
  tail : List UInt8
  totalBytes : Int
  truncated : Bool
  chunks : Int
  logPath : Option String
deriving Repr, DecidableEq

/-- One changelog entry on `exec_requests`: the row before and after. -/
structure LogEntry where
  before : Option RawRow
  after : RawRow
deriving Repr, DecidableEq

/-- What `exec.rs` reads and writes. -/
structure Db where
  queue : Queue
  requests : AutoTable (fun r : RawRow => r.id)
  output : Table (fun o : OutputRow => o.requestId)
  changelog : List LogEntry

def Db.empty : Db := ⟨Queue.empty, AutoTable.empty, Table.empty, []⟩

inductive ExecError where
  | validation (why : Fmt)
  | stale (why : Fmt)
  | notFound (why : Fmt)
  | noRows
  | queue (e : QueueError)
deriving Repr, DecidableEq

/-- The libraries the module calls: JSON text, and base64. -/
structure Ext where
  json : Serde Json
  base64 : List UInt8 → String

/-- What a `begin` answered. -/
inductive Begun where
  | running (row : ExecRow)
  | refused (row : ExecRow)
  | expired (row : ExecRow)
deriving Repr, DecidableEq

structure Requested where
  row : ExecRow
  folded : Bool
deriving Repr, DecidableEq

structure Finished where
  runner : String
  outcome : Outcome
  exitStatus : Option Int
  tail : List UInt8
  totalBytes : Int
  logPath : Option String
deriving Repr, DecidableEq

structure Filter where
  state : Option ExecState
  session : Option String
  newestFirst : Bool
deriving Repr, DecidableEq

def wireId (id : Int) : String := idPrefix ++ toString id
def notificationId (id : Int) : String := wireId id
def topic (id : Int) : String := topicPrefix ++ toString id

/-! ## Checks -/

def checkText (what value : String) (maxBytes : Option Nat) (emptyOk : Bool) :
    Except ExecError Unit := do
  if !emptyOk && value.isEmpty then .error (.validation [what, " is empty"])
  if let some max := maxBytes then
    if value.utf8ByteSize > max then
      .error (.validation [what, " is ", value.utf8ByteSize, " bytes; the limit is ", max])
  if value.toList.any isControl then
    .error (.validation [what, " contains a control character"])

def isLowerHex (c : Char) : Bool := ('0' ≤ c && c ≤ '9') || ('a' ≤ c && c ≤ 'f')

def checkHex (what value : String) (lens : List Nat) : Except ExecError Unit :=
  if value.utf8ByteSize ∈ lens ∧ value.toList.all isLowerHex then .ok ()
  else .error (.validation [what, " must be lower-case hex of length ", toString lens])

def checkPin (pin : Option TreePin) : Except ExecError Unit :=
  match pin with
  | some p => do
      checkHex "pin head" p.head [40, 64]
      checkHex "pin changes" p.changes [64]
  | none => .ok ()

def Requester.check (r : Requester) : Except ExecError Unit := do
  checkText "session" r.session (some maxNameBytes) false
  if let some t := r.agentType then checkText "agent type" t (some maxNameBytes) false
  checkText "role" r.role (some maxNameBytes) false

def Ask.argvJson (lib : Ext) (ask : Ask) : Except ExecError String := do
  match ask.argv with
  | [] => .error (.validation ["argv is empty: name the program to run"])
  | program :: _ =>
      if program.isEmpty then .error (.validation ["argv[0] is empty"])
      -- an option as the program asks for whatever the runner's own launcher makes of it
      if startsWith program "-" then
        .error (.validation ["argv[0] ", .debug program, " is an option, not a program"])
      if ask.argv.any fun a => a.toList.contains '\x00' then
        .error (.validation ["an argument contains a NUL byte"])
      let text ← (lib.json.toString (.arr (ask.argv.map .str))).mapError fun e : String =>
        .validation ["argv does not serialize: ", e]
      if text.utf8ByteSize > maxArgvBytes then
        .error (.validation ["argv is ", text.utf8ByteSize, " bytes of JSON; the limit is ",
          maxArgvBytes])
      pure text

def Ask.check (lib : Ext) (ask : Ask) : Except ExecError String := do
  let argv ← ask.argvJson lib
  checkText "dir" ask.dir (some maxPathBytes) false
  if !startsWith ask.dir "/" then
    .error (.validation ["dir ", .debug ask.dir, " is not absolute"])
  if ask.reason.length > maxReasonChars then
    .error (.validation ["the reason is longer than ", maxReasonChars, " characters"])
  checkText "reason" ask.reason none true
  checkPin ask.pin
  if let some t := ask.timeoutMs then
    if t < minTimeoutMs ∨ maxTimeoutMs < t then
      .error (.validation ["a timeout of ", t, " ms is outside ", minTimeoutMs, "..=", maxTimeoutMs,
        " ms (two hours at most)"])
  pure argv

/-! ## Reading rows -/

/-- `Vec<String>` out of a JSON value. -/
def jsonStrings : Json → Option (List String)
  | .arr xs => xs.mapM fun | .str s => some s | _ => none
  | _ => none

def RawRow.pin (r : RawRow) : Option TreePin :=
  match r.pinHead, r.pinChanges with
  | some head, some changes => some ⟨head, changes⟩
  | _, _ => none

def RawRow.parse (lib : Ext) (r : RawRow) : Except ExecError ExecRow :=
  match (lib.json.fromStr r.argv).toOption.bind jsonStrings with
  | none => .error (.queue (.corrupt ["exec request ", r.id, " has argv ", .debug r.argv,
      ", which this jkb does not know"]))
  | some argv => .ok {
      id := r.id
      createdAt := r.createdAt
      expiresAt := r.expiresAt
      requester := ⟨r.session, r.agentType, r.role, r.taskId⟩
      ask := ⟨r.target, r.dir, r.dirSide, argv, r.reason, r.pin, some r.timeoutMs⟩
      state := r.state
      refuseReason := r.refuseReason
      note := r.note
      runner := r.runner
      startedAt := r.startedAt
      endedAt := r.endedAt
      exitStatus := r.exitStatus
      outcome := r.outcome }

def get (lib : Ext) (db : Db) (id : Int) : Except ExecError (Option ExecRow) :=
  match db.requests.find? id with
  | some r => some <$> r.parse lib
  | none => .ok none

def mustGet (lib : Ext) (db : Db) (id : Int) : Except ExecError ExecRow :=
  match db.requests.find? id with
  | some r => r.parse lib
  | none => .error (.notFound ["no run request ", wireId id])

/-! ## Telling the queue -/

/-- Publish on request `id`'s topic. Unless it must, a topic that is full or gone drops the message:
the move it announces is the fact. -/
def publish (lib : Ext) (db : Db) (id : Int) (kind : String) (payload : Json) (now : Int)
    (must : Bool) : Except ExecError (Db × Option Int) :=
  let draft : Draft Json := ⟨topic id, kind, payload, none, "jkb"⟩
  match Mq.sendReserved lib.json db.queue (topic id) draft now with
  | .ok (queue, seq) => .ok ({ db with queue }, some seq)
  | .error (.queueFull t m b) => if must then .error (.queue (.queueFull t m b)) else .ok (db, none)
  | .error (.noSuchTopic t) => if must then .error (.queue (.noSuchTopic t)) else .ok (db, none)
  | .error e => .error (.queue e)

/-- How many groups read the index topic; a topic not there yet has none. -/
def indexGroups (db : Db) : Except ExecError Nat :=
  match db.queue.groupCountReserved indexTopic with
  | .ok n => .ok n
  | .error (.noSuchTopic _) => .ok 0
  | .error e => .error (.queue e)

/-- Announce a row's state on the index topic, only while a group reads it. -/
def announce (lib : Ext) (db : Db) (row : ExecRow) (now : Int) : Except ExecError Db := do
  let groups ← indexGroups db
  if groups = 0 then return db
  let payload := .obj [("id", .str (wireId row.id)), ("state", .str row.state.asStr)]
  let draft : Draft Json := ⟨indexTopic, indexKind, payload, none, "jkb"⟩
  match Mq.sendReserved lib.json db.queue indexTopic draft now with
  | .ok (queue, _) => .ok { db with queue }
  | .error (.queueFull _ _ _) => .ok db
  | .error e => .error (.queue e)

def notificationBody (row : ExecRow) : String :=
  let kind := match row.requester.agentType with
    | some t => ", " ++ t
    | none => ""
  let why := if row.ask.reason.isEmpty then "." else ": " ++ row.ask.reason
  row.requester.session ++ " (" ++ row.requester.role ++ kind ++ ") asks to run a command" ++ why

def decisionPayload (row : ExecRow) : Json :=
  let note := match row.note with
    | some note => [("note", Json.str note)]
    | none => []
  let reason := match row.refuseReason with
    | some reason => [("refuse_reason", Json.str reason.asStr)]
    | none => []
  .obj ([("id", .str (wireId row.id)), ("state", .str row.state.asStr)] ++ note ++ reason)

def endPayload (row : ExecRow) : Json :=
  let text := fun o : Option String => match o with
    | some s => Json.str s
    | none => .null
  let number := fun o : Option Int => match o with
    | some n => Json.num n
    | none => .null
  .obj [("id", .str (wireId row.id)), ("state", .str row.state.asStr),
    ("outcome", text (row.outcome.map Outcome.asStr)), ("exit_status", number row.exitStatus)]

/-! ## Moves -/

/-- `UPDATE exec_requests SET … WHERE id = ?1 AND …`. -/
def Db.update (db : Db) (id : Int) (guard : RawRow → Bool) (set : RawRow → RawRow)
    (hset : ∀ r, (set r).id = r.id) : Db :=
  { db with requests := db.requests.updateWhere (fun r => r.id == id && guard r) set hset }

/-- The decision a move publishes; an end has its own message. -/
def publishDecision (lib : Ext) (db : Db) (row : ExecRow) (now : Int) : Except ExecError Db :=
  if row.state ≠ .finished then
    Prod.fst <$> publish lib db row.id "exec.decision" (decisionPayload row) now false
  else .ok db

/-- Every way out of pending takes the request's notification down. -/
def withdrawPending (lib : Ext) (db : Db) (before : RawRow) (row : ExecRow) (now : Int) :
    Except ExecError Db :=
  if before.state = .pending then
    match Notify.withdrawDirect lib.json db.queue (notificationId row.id) row.requester.session now with
    | .ok (queue, _) => .ok { db with queue }
    | .error e => .error (.queue e)
  else .ok db

/-- Move `id` with a compare-and-set update, log the move, and publish its decision. `none` when the
compare failed. -/
def moved (lib : Ext) (db : Db) (id : Int) (guard : RawRow → Bool) (set : RawRow → RawRow)
    (hset : ∀ r, (set r).id = r.id) (now : Int) : Except ExecError (Db × Option ExecRow) := do
  match db.requests.find? id with
  | none => .error .noRows
  | some before =>
      if !guard before then return (db, none)
      let db := db.update id guard set hset
      let db := { db with changelog := db.changelog ++ [⟨some before, set before⟩] }
      let row ← mustGet lib db id
      let db ← publishDecision lib db row now
      let db ← withdrawPending lib db before row now
      let db ← announce lib db row now
      pure (db, some row)

def isPending (r : RawRow) : Bool := r.state == .pending

def expire (now : Int) (note : String) (r : RawRow) : RawRow :=
  { r with state := .expired, endedAt := some now, note := some note }

def expireNote : String := "expired: nobody answered it in two hours"

/-- Expire the rows named, one compare-and-set each: the rows that moved. -/
def expireAll (lib : Ext) (now : Int) (note : String) :
    Db → List Int → Except ExecError (Db × List Int)
  | db, [] => .ok (db, [])
  | db, id :: ids => do
      let (db, row) ← moved lib db id isPending (expire now note) (fun _ => rfl) now
      let (db, rest) ← expireAll lib now note db ids
      pure (db, if row.isSome then id :: rest else rest)

def interrupt (now : Int) (r : RawRow) : RawRow :=
  { r with state := .finished, outcome := some .interrupted, endedAt := some now,
           note := some settledInterrupt }

def isRunning (r : RawRow) : Bool := r.state == .running

/-- The end of a row that moved. -/
def publishEnd (lib : Ext) (db : Db) (id : Int) (row : Option ExecRow) (now : Int) :
    Except ExecError Db :=
  match row with
  | some row => Prod.fst <$> publish lib db id "exec.end" (endPayload row) now false
  | none => .ok db

/-- End the runs named, as interrupted. -/
def interruptAll (lib : Ext) (now : Int) : Db → List Int → Except ExecError Db
  | db, [] => .ok db
  | db, id :: ids => do
      let (db, row) ← moved lib db id isRunning (interrupt now) (fun _ => rfl) now
      let db ← publishEnd lib db id row now
      interruptAll lib now db ids

/-- `WHERE state = 'pending' AND expires_at <= ?1`. -/
def RawRow.due (now : Int) (r : RawRow) : Bool := isPending r && r.expiresAt ≤ now

/-- `WHERE state = 'running' AND started_at + timeout_ms + grace <= ?1`. -/
def RawRow.overdue (now : Int) (r : RawRow) : Bool :=
  isRunning r && r.startedAt.any fun s => s + r.timeoutMs + runGraceMs ≤ now

/-- `SELECT id … ORDER BY id`. -/
def Db.ids (db : Db) (p : RawRow → Bool) : List Int :=
  ((db.requests.rows.filter p).map (·.id)).insertionSort (· ≤ ·)

/-- Expire every pending request whose time has passed, and end every run whose runner went quiet:
the ids that expired. -/
def settle (lib : Ext) (db : Db) (now : Int) : Except ExecError (Db × List Int) := do
  let (db, expired) ← expireAll lib now expireNote db (db.ids (·.due now))
  let db ← interruptAll lib now db (db.ids (·.overdue now))
  pure (db, expired)

/-! ## Asking -/

/-- The pending row an insert of `r` would collide with: the partial unique index. -/
def folds (r x : RawRow) : Bool :=
  isPending x && x.session == r.session && x.argv == r.argv && x.dir == r.dir &&
    x.dirSide == r.dirSide && x.target == r.target && x.pinHead.getD "" == r.pinHead.getD "" &&
    x.pinChanges.getD "" == r.pinChanges.getD "" && x.timeoutMs == r.timeoutMs

/-- The row a request inserts. -/
def pendingRow (requester : Requester) (ask : Ask) (argv : String) (now id : Int) : RawRow where
  id := id
  createdAt := now
  expiresAt := satAdd now expiresAfterMs
  session := requester.session
  agentType := requester.agentType
  role := requester.role
  taskId := requester.task
  target := ask.target
  dir := ask.dir
  dirSide := ask.dirSide
  argv := argv
  reason := ask.reason
  pinHead := ask.pin.map (·.head)
  pinChanges := ask.pin.map (·.changes)
  timeoutMs := ask.timeoutMs.getD defaultTimeoutMs
  state := .pending
  refuseReason := none
  note := none
  runner := none
  startedAt := none
  endedAt := none
  exitStatus := none
  outcome := none

def requestSpec : TopicSpec :=
  { TopicSpec.default with maxBytes := topicMaxBytes, defaultTtlMs := some topicTtlMs }

def liftQueue {α : Type} (x : Except QueueError α) : Except ExecError α := x.mapError .queue

/-- Ask for a run. An identical pending request from the same session is returned instead. -/
def request (lib : Ext) (db : Db) (requester : Requester) (ask : Ask) (now : Int) :
    Except ExecError (Db × Requested) := do
  requester.check
  let argv ← ask.check lib
  let (db, _) ← settle lib db now
  let mk := pendingRow requester ask argv now
  match db.requests.rows.find? (folds (mk 0)) with
  | some r =>
      let row ← r.parse lib
      pure (db, ⟨row, true⟩)
  | none =>
      let id := db.requests.nextKey
      let db := { db with
        requests := db.requests.insertNext mk fun _ => rfl
        changelog := db.changelog ++ [(⟨none, mk id⟩ : LogEntry)] }
      let (queue, _) ← liftQueue (Mq.topicCreateReserved db.queue (topic id) requestSpec now)
      let db := { db with queue }
      let row ← mustGet lib db id
      let (queue, _) ← liftQueue (Notify.postDirect lib.json db.queue (notificationId id)
        row.requester.session ("Run request " ++ wireId id) (notificationBody row) now)
      let db ← announce lib { db with queue } row now
      pure (db, ⟨row, false⟩)

/-! ## Answering -/

def notPending (row : ExecRow) (verb : String) : ExecError :=
  .stale ["cannot ", verb, " ", wireId row.id, ": it is ", row.state.asStr, ", not pending"]

/-- `moved`, with its failed compare as an error. -/
def mustMove (lib : Ext) (db : Db) (id : Int) (guard : RawRow → Bool) (set : RawRow → RawRow)
    (hset : ∀ r, (set r).id = r.id) (now : Int) (e : ExecError) : Except ExecError (Db × ExecRow) := do
  let (db, row) ← moved lib db id guard set hset now
  match row with
  | some row => pure (db, row)
  | none => .error e

/-- Start running `id`, if it is still pending and the pin is the one it was made with. A different
pin refuses the request instead; an expiry that came due expires it. -/
def begin (lib : Ext) (db : Db) (id : Int) (pin : Option TreePin) (runner : String) (now : Int) :
    Except ExecError (Db × Begun) := do
  checkText "runner" runner (some maxNameBytes) false
  checkPin pin
  let (db, expired) ← settle lib db now
  let row ← mustGet lib db id
  if id ∈ expired then return (db, .expired row)
  if row.state ≠ .pending then .error (notPending row "begin")
  if row.ask.pin ≠ pin then
    let (db, refused) ← mustMove lib db id isPending
      (fun r => { r with state := .refused, refuseReason := some .treeChanged, endedAt := some now })
      (fun _ => rfl) now (notPending row "refuse")
    return (db, .refused refused)
  let (db, running) ← mustMove lib db id isPending
    (fun r => { r with state := .running, runner := some runner, startedAt := some now })
    (fun _ => rfl) now (notPending row "begin")
  let output := (db.output.insertOrIgnore ⟨id, [], 0, false, 0, none⟩).1
  pure ({ db with output }, .running running)

/-- Decline `id` with a note saying what to ask for instead. -/
def decline (lib : Ext) (db : Db) (id : Int) (note : String) (now : Int) :
    Except ExecError (Db × ExecRow) := do
  if note.length > maxNoteChars then
    .error (.validation ["the note is longer than ", maxNoteChars, " characters"])
  if note.toList.contains '\x00' then .error (.validation ["the note contains a NUL byte"])
  let (db, _) ← settle lib db now
  let row ← mustGet lib db id
  mustMove lib db id isPending
    (fun r => { r with state := .declined, note := some note, endedAt := some now })
    (fun _ => rfl) now (notPending row "decline")

/-- Refuse `id`: it cannot run as approved. -/
def refuse (lib : Ext) (db : Db) (id : Int) (reason : RefuseReason) (now : Int) :
    Except ExecError (Db × ExecRow) := do
  let (db, _) ← settle lib db now
  let row ← mustGet lib db id
  mustMove lib db id isPending
    (fun r => { r with state := .refused, refuseReason := some reason, endedAt := some now })
    (fun _ => rfl) now (notPending row "refuse")

/-! ## Running and ending -/

/-- A run that `settle` ended by age alone, under `runner`, which that runner may still correct. -/
def settledByAge (row : ExecRow) (runner : String) : Bool :=
  row.state == .finished && row.outcome == some .interrupted && row.note == some settledInterrupt &&
    row.runner == some runner

/-- Refuse anyone but the runner of a running request. -/
def heldBy (row : ExecRow) (runner verb : String) : Except ExecError Unit := do
  if row.state ≠ .running then
    .error (.stale ["cannot ", verb, " ", wireId row.id, ": it is ", row.state.asStr,
      ", not running"])
  if row.runner ≠ some runner then
    .error (.stale ["cannot ", verb, " ", wireId row.id, ": it is running under another runner"])

/-- The output row of `id`, changed or inserted. -/
def Db.setOutput (db : Db) (id : Int) (f : OutputRow → OutputRow)
    (hf : ∀ o, (f o).requestId = o.requestId) : Db :=
  let output := (db.output.insertOrIgnore ⟨id, [], 0, false, 0, none⟩).1
  { db with output := output.updateWhere (·.requestId == id) f hf }

/-- Publish one chunk of output, as its runner: its `seq`, if it was published, and its number, which
counts every chunk whether published or not. -/
def output (lib : Ext) (db : Db) (id : Int) (runner : String) (chunk : List UInt8) (now : Int) :
    Except ExecError (Db × Option Int × Int) := do
  if chunk.isEmpty || chunk.length > maxChunkBytes then
    .error (.validation ["an output chunk is 1..=", maxChunkBytes, " bytes; this one is ",
      chunk.length])
  let (db, _) ← settle lib db now
  let row ← mustGet lib db id
  -- a run that settle ended by age is still its runner's to report on
  if !settledByAge row runner then heldBy row runner "publish output for"
  let n := ((db.output.find? id).map (·.chunks)).getD 0
  let db := db.setOutput id (fun o => { o with chunks := o.chunks + 1 }) fun _ => rfl
  let (db, seq) ← publish lib db id "exec.output"
    (.obj [("n", .num n), ("b64", .str (lib.base64 chunk))]) now false
  pure (db, seq, n)

/-- A finished run's tail, total and log path. -/
def storeOutput (db : Db) (id : Int) (done : Finished) : Db :=
  db.setOutput id (fun o => { o with
    tail := done.tail
    totalBytes := done.totalBytes
    truncated := done.totalBytes > done.tail.length
    logPath := done.logPath }) fun _ => rfl

/-- What follows a finishing move: the output is stored and the end published. -/
def recordEnd (lib : Ext) (db : Db) (id : Int) (done : Finished) (row : ExecRow) (now : Int) :
    Except ExecError (Db × ExecRow) := do
  let (db, _) ← publish lib (storeOutput db id done) id "exec.end" (endPayload row) now false
  pure (db, row)

/-- What `finish` checks of the end it is told, before it looks at the row. -/
def Finished.check (done : Finished) : Except ExecError Unit := do
  if done.tail.length > maxTailBytes then
    .error (.validation ["the tail is ", done.tail.length, " bytes; a row keeps at most ",
      maxTailBytes])
  if done.totalBytes < done.tail.length then
    .error (.validation ["total_bytes is less than the tail it ends with"])
  if (done.outcome = .exited ∨ done.outcome = .signalled) ∧ done.exitStatus = none then
    .error (.validation ["an outcome of ", done.outcome.asStr, " needs its exit status"])
  if let some p := done.logPath then checkText "log path" p (some maxPathBytes) false

/-- Record that `id` ended. Idempotent for identical values, and refused to a runner other than the
one `begin` recorded. -/
def finish (lib : Ext) (db : Db) (id : Int) (done : Finished) (now : Int) :
    Except ExecError (Db × ExecRow) := do
  done.check
  let (db, _) ← settle lib db now
  let row ← mustGet lib db id
  if settledByAge row done.runner then
    -- the recorded runner was only late: its own ending replaces the one settle assumed
    let (db, finished) ← mustMove lib db id
      (fun r => r.state == .finished && r.outcome == some .interrupted &&
        r.note == some settledInterrupt && r.runner == some done.runner)
      (fun r => { r with outcome := some done.outcome, exitStatus := done.exitStatus,
                         endedAt := some now, note := none })
      (fun _ => rfl) now (.stale [wireId id, " changed under its finish"])
    recordEnd lib db id done finished now
  else if row.state = .finished then
    if row.runner = some done.runner ∧ row.outcome = some done.outcome ∧
        row.exitStatus = done.exitStatus then
      pure (db, row)
    else
      .error (.stale [wireId id, " already finished with other values, or under another runner"])
  else
    heldBy row done.runner "finish"
    let (db, finished) ← mustMove lib db id (fun r => isRunning r && r.runner == some done.runner)
      (fun r => { r with state := .finished, outcome := some done.outcome,
                         exitStatus := done.exitStatus, endedAt := some now })
      (fun _ => rfl) now (notPending row "finish")
    recordEnd lib db id done finished now

/-! ## Reading, and a session's end -/

def status (lib : Ext) (db : Db) (id : Int) (now : Int) :
    Except ExecError (Db × Option (ExecRow × Option OutputRow)) := do
  let (db, _) ← settle lib db now
  match ← get lib db id with
  | some row => pure (db, some (row, db.output.find? id))
  | none => pure (db, none)

/-- The rows a page of `list` starts from, in its order. -/
def Db.listed (db : Db) (filter : Filter) (after : Option Int) : List RawRow :=
  let rows := db.requests.rows.filter fun r =>
    filter.state.all (r.state == ·) && filter.session.all (r.session == ·)
  if filter.newestFirst then
    (rows.filter (·.id < after.getD i64Max)).insertionSort fun a b => b.id ≤ a.id
  else
    (rows.filter (after.getD 0 < ·.id)).insertionSort fun a b => a.id ≤ b.id

def RawRow.bytes (r : RawRow) : Nat :=
  r.argv.utf8ByteSize + r.dir.utf8ByteSize + r.reason.utf8ByteSize +
    (r.note.map String.utf8ByteSize).getD 0

/-- The rows that fit a page by size, and whether it was cut short. -/
def pageRows (lib : Ext) : List ExecRow → Nat → List RawRow → Except ExecError (List ExecRow × Bool)
  | rows, _, [] => .ok (rows, false)
  | rows, bytes, r :: rs => do
      if !rows.isEmpty && pageBytes ≤ bytes then return (rows, true)
      let row ← r.parse lib
      pageRows lib (rows ++ [row]) (bytes + r.bytes) rs

/-- A page of requests after (or, newest first, below) an id, and the id to continue from. -/
def list (lib : Ext) (db : Db) (filter : Filter) (after : Option Int) (now : Int) :
    Except ExecError (Db × List ExecRow × Option Int) := do
  let (db, _) ← settle lib db now
  let raw := db.listed filter after
  let (rows, cut) ← pageRows lib [] 0 (raw.take page)
  let more := raw.length > page
  pure (db, rows, if more || cut then rows.getLast?.map (·.id) else none)

/-- The requester's session ended: expire its pending requests. -/
def expireSession (lib : Ext) (db : Db) (session : String) (now : Int) :
    Except ExecError (Db × Nat) := do
  let (db, _) ← settle lib db now
  let ids := db.ids fun r => isPending r && r.session == session
  let (db, expired) ← expireAll lib now "expired: the requesting session ended" db ids
  pure (db, expired.length)

/-! ## The module as a step function -/

/-- The writing entry points with their arguments, and what anybody may do to the queue meanwhile. -/
inductive Op where
  | request (requester : Requester) (ask : Ask) (now : Int)
  | begin (id : Int) (pin : Option TreePin) (runner : String) (now : Int)
  | decline (id : Int) (note : String) (now : Int)
  | refuse (id : Int) (reason : RefuseReason) (now : Int)
  | output (id : Int) (runner : String) (chunk : List UInt8) (now : Int)
  | finish (id : Int) (done : Finished) (now : Int)
  | expireSession (session : String) (now : Int)
  | status (id now : Int)
  | list (filter : Filter) (after : Option Int) (now : Int)
  | queue (caller : Mq.Caller) (op : Mq.Op Json)

/-- What an operation answers, as far as the state of a request shows in it. -/
inductive Reply where
  | requested (r : Requested)
  | begun (b : Begun)
  | row (r : ExecRow)
  | chunk (seq : Option Int) (n : Int)
  | expired (n : Nat)
  | status (r : Option (ExecRow × Option OutputRow))
  | page (rows : List ExecRow) (next : Option Int)
  | done
deriving Repr, DecidableEq

def perform (lib : Ext) (db : Db) : Op → Except ExecError (Db × Reply)
  | .request requester ask now => do
      let (db, r) ← request lib db requester ask now
      pure (db, .requested r)
  | .begin id pin runner now => do
      let (db, b) ← begin lib db id pin runner now
      pure (db, .begun b)
  | .decline id note now => do
      let (db, r) ← decline lib db id note now
      pure (db, .row r)
  | .refuse id reason now => do
      let (db, r) ← refuse lib db id reason now
      pure (db, .row r)
  | .output id runner chunk now => do
      let (db, seq, n) ← output lib db id runner chunk now
      pure (db, .chunk seq n)
  | .finish id done now => do
      let (db, r) ← finish lib db id done now
      pure (db, .row r)
  | .expireSession session now => do
      let (db, n) ← expireSession lib db session now
      pure (db, .expired n)
  | .status id now => do
      let (db, r) ← status lib db id now
      pure (db, .status r)
  | .list filter after now => do
      let (db, rows, next) ← list lib db filter after now
      pure (db, .page rows next)
  | .queue caller op => do
      let queue ← liftQueue (Mq.perform lib.json db.queue caller op)
      pure ({ db with queue }, .done)

/-- One transaction: a refusal rolls back. -/
def step (lib : Ext) (db : Db) (op : Op) : Db :=
  Tx.commit (Prod.fst <$> perform lib db op) db

end Jkb.Exec
