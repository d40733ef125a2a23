import Jkb.Prim
import Jkb.Table
import Jkb.Tx
import Mathlib.Data.List.Sort

/-!
# Jkb.Mq

The message queue of `mq.rs`: topics, messages and consumer groups as three tables, and the
operations on them. Every write happens inside one transaction, so an operation is a function of the
tables that answers with the tables it leaves or with the reason it refused.

Times and counters are `i64` in the code. They are integers here, with the saturating addition the
code uses; everything else the code does with them stays in range.
-/

namespace Jkb.Mq

/-! ## Limits and names -/

def maxPayloadBytes : Nat := 64 * 1024
def maxBatch : Nat := 256
def maxKeyBytes : Nat := 512
def maxNameBytes : Nat := 200
def dayMs : Int := 24 * 60 * 60 * 1000
def defaultMaxBytes : Int := 10 * 1024 * 1024
def defaultMaxMessages : Int := 10000
def defaultGroupIdleMs : Int := 7 * dayMs
def defaultCompactEveryMs : Int := 3 * dayMs

/-- Why a queue operation was refused. -/
inductive QueueError where
  | noSuchTopic (topic : String)
  | topicConflict (topic : String)
  | noSuchGroup (topic group : String)
  | queueFull (topic : String) (messages bytes : Int)
  | tooLarge (what : String) (bytes max : Nat)
  | invalid (what : String) (why : Fmt)
  | ackBeyondEnd (topic : String) (seq high : Int)
  | corrupt (text : Fmt)
  | corruptPayload (topic : String) (seq : Int) (why : String)
deriving Repr, DecidableEq

/-- `char` tests of a name's segment. -/
def isNameChar (c : Char) : Bool := c.isAlphanum || c == '.' || c == '_' || c == '-'

/-- One `/`-separated segment of a name. -/
def checkSegment (what name : String) (segment : List Char) : Except QueueError Unit :=
  if segment = [] ∨ segment = ['.'] ∨ segment = ['.', '.'] then
    .error (.invalid what [.debug name, " has an empty, `.` or `..` segment"])
  else
    match segment.find? fun c => !isNameChar c with
    | some c => .error (.invalid what [.debug name, " contains ", .debugChar c])
    | none => .ok ()

def checkName (what name : String) : Except QueueError Unit :=
  if name.utf8ByteSize > maxNameBytes then
    .error (.tooLarge what name.utf8ByteSize maxNameBytes)
  else if name = "" then
    .error (.invalid what ["empty"])
  else
    (name.toList.splitOn '/').forM (checkSegment what name)

def checkPositive (what : String) (v : Int) : Except QueueError Unit :=
  if v > 0 then .ok () else .error (.invalid what [v, " is not positive"])

/-- `if let Some(v) = v { check_positive(what, v)? }`. -/
def checkSome (what : String) : Option Int → Except QueueError Unit
  | some v => checkPositive what v
  | none => .ok ()

def checkBatch (max : Nat) : Except QueueError Unit :=
  if max > maxBatch then .error (.invalid "max" ["at most ", maxBatch, " messages"]) else .ok ()

/-- Topics one module of the crate owns; the public operations refuse them. -/
def reservedPrefixes : List String := ["exec/"]

def isReserved (name : String) : Bool := reservedPrefixes.any (startsWith name)

def checkUnreserved (topic : String) : Except QueueError Unit :=
  match reservedPrefixes.find? (startsWith topic) with
  | some pfx => .error (.invalid "topic" [.debug topic, " is under `", pfx, "`, which only jkb's own ",
      "record uses (a run request's topic): follow it with `exec.follow`, never through the ",
      "queue's own operations"])
  | none => .ok ()

/-! ## Tables -/

inductive QueueType where
  | log
deriving Repr, DecidableEq

structure TopicSpec where
  queueType : QueueType
  maxBytes : Int
  maxMessages : Int
  defaultTtlMs : Option Int
  groupIdleMs : Int
  compactEveryMs : Int
deriving Repr, DecidableEq

/-- `TopicSpec::default`. -/
def TopicSpec.default : TopicSpec where
  queueType := .log
  maxBytes := defaultMaxBytes
  maxMessages := defaultMaxMessages
  defaultTtlMs := none
  groupIdleMs := defaultGroupIdleMs
  compactEveryMs := defaultCompactEveryMs

/-- A row of `mq_topics`. -/
structure Topic where
  id : Nat
  name : String
  spec : TopicSpec
  createdAt : Int
  compactedAt : Option Int
deriving Repr, DecidableEq

/-- A row of `mq_messages`. -/
structure Message where
  seq : Int
  topicId : Nat
  key : String
  kind : String
  payload : String
  size : Int
  producer : String
  enqueuedAt : Int
  expiresAt : Option Int
deriving Repr, DecidableEq

/-- A row of `mq_groups`. -/
structure Group where
  topicId : Nat
  name : String
  position : Int
  createdAt : Int
  lastPollAt : Option Int
  lastAckAt : Option Int
deriving Repr, DecidableEq

/-- The three tables: topics by their unique name, messages by the `seq` that `AUTOINCREMENT` issues,
groups by topic and name. -/
structure Queue where
  topics : Table (fun t : Topic => t.name)
  messages : AutoTable (fun m : Message => m.seq)
  groups : Table (fun g : Group => (g.topicId, g.name))
deriving DecidableEq

def Queue.empty : Queue := ⟨Table.empty, AutoTable.empty, Table.empty⟩

inductive Created where
  | new
  | existing
deriving Repr, DecidableEq

/-- A message to send. -/
structure Draft (Value : Type) where
  key : String
  kind : String
  payload : Value
  ttlMs : Option Int
  producer : String

inductive Start where
  | fromNow
  | fromStart
deriving Repr, DecidableEq

/-- A message handed to a consumer. -/
structure Delivered (Value : Type) where
  seq : Int
  key : String
  kind : String
  payload : Value
  producer : String
  enqueuedAt : Int
  expiresAt : Option Int
  expired : Bool
  unreadable : Bool

structure CompactReport where
  topicsCompacted : Nat := 0
  topicsSkipped : Nat := 0
  messagesReaped : Nat := 0
  groupsRemoved : Nat := 0
deriving Repr, DecidableEq

/-! ## Reads -/

namespace Queue

variable (q : Queue)

/-- `topic_row_any`: a topic's row by name. -/
def topicRowAny (name : String) : Except QueueError Topic :=
  match q.topics.find? name with
  | some t => .ok t
  | none => .error (.noSuchTopic name)

/-- `WHERE topic_id = ?1 ORDER BY seq`. -/
def messagesOf (topicId : Nat) : List Message :=
  (q.messages.rows.filter (·.topicId == topicId)).insertionSort fun a b => a.seq ≤ b.seq

def groupsOf (topicId : Nat) : List Group := q.groups.rows.filter (·.topicId == topicId)

def groupPosition (topic : String) (topicId : Nat) (group : String) : Except QueueError Int :=
  match q.groups.find? (topicId, group) with
  | some g => .ok g.position
  | none => .error (.noSuchGroup topic group)

/-- Messages and bytes a topic holds. -/
def holdings (topicId : Nat) : Int × Int :=
  ((q.messagesOf topicId).length, ((q.messagesOf topicId).map (·.size)).sum)

/-- `MIN(position)`: what every group has consumed, and `none` when the topic has no group. -/
def consumedThrough (topicId : Nat) : Option Int := ((q.groupsOf topicId).map (·.position)).min?

/-- `MAX(seq)`. -/
def newestSeq (topicId : Nat) : Option Int := ((q.messagesOf topicId).map (·.seq)).max?

/-- `group_count_reserved`: how many groups read a topic. -/
def groupCountReserved (topic : String) : Except QueueError Nat := do
  let row ← q.topicRowAny topic
  pure (q.groupsOf row.id).length

def groupCount (topic : String) : Except QueueError Nat := do
  checkUnreserved topic
  q.groupCountReserved topic

end Queue

/-! ## Topics -/

/-- `topic_create_reserved`: `topic_create` without the reserved-prefix refusal. -/
def topicCreateReserved (q : Queue) (name : String) (spec : TopicSpec) (now : Int) :
    Except QueueError (Queue × Created) := do
  checkName "topic name" name
  checkPositive "max_bytes" spec.maxBytes
  checkPositive "max_messages" spec.maxMessages
  checkPositive "group_idle_ms" spec.groupIdleMs
  checkPositive "compact_every_ms" spec.compactEveryMs
  checkSome "default_ttl_ms" spec.defaultTtlMs
  match h : q.topics.find? name with
  | some t => if t.spec = spec then pure (q, .existing) else .error (.topicConflict name)
  | none =>
      let id := ((q.topics.rows.map (·.id)).max?.getD 0) + 1
      let topics := q.topics.insert ⟨id, name, spec, now, none⟩ (Table.find?_eq_none.mp h)
      pure ({ q with topics }, .new)

def topicCreate (q : Queue) (name : String) (spec : TopicSpec) (now : Int) :
    Except QueueError (Queue × Created) := do
  checkUnreserved name
  topicCreateReserved q name spec now

/-! ## Sending -/

variable {Value : Type}

/-- The draft's payload as stored text and its size against the cap, or why it is refused. -/
def validateDraft (json : Serde Value) (draft : Draft Value) (spec : TopicSpec) :
    Except QueueError (String × Int) := do
  if draft.key = "" then .error (.invalid "key" ["empty"])
  if '\x00' ∈ draft.key.toList then .error (.invalid "key" ["contains NUL"])
  if '\x00' ∈ draft.producer.toList then .error (.invalid "producer" ["contains NUL"])
  if draft.key.utf8ByteSize > maxKeyBytes then
    .error (.tooLarge "key" draft.key.utf8ByteSize maxKeyBytes)
  checkName "kind" draft.kind
  if draft.producer.utf8ByteSize > maxNameBytes then
    .error (.tooLarge "producer" draft.producer.utf8ByteSize maxNameBytes)
  checkSome "ttl_ms" draft.ttlMs
  let payload ← (json.toString draft.payload).mapError fun e : String => .invalid "payload" [e]
  if payload.utf8ByteSize > maxPayloadBytes then
    .error (.tooLarge "payload" payload.utf8ByteSize maxPayloadBytes)
  -- serde_json prints any depth but parses 128 levels: what would not come back is refused here
  match json.fromStr payload with
  | .error e => .error (.invalid "payload" ["would not parse back: ", e])
  | .ok _ => pure ()
  let size := draft.key.utf8ByteSize + draft.kind.utf8ByteSize + payload.utf8ByteSize
  if (size : Int) > spec.maxBytes then
    .error (.tooLarge "message" size spec.maxBytes.toNat)
  pure (payload, size)

/-- `fits` of `make_room`. -/
def fits (spec : TopicSpec) (size messages bytes : Int) : Bool :=
  messages < spec.maxMessages ∧ satAdd bytes size ≤ spec.maxBytes

/-- The walk of `make_room`, oldest first, over what every group has consumed: what would be held
after it, and the last `seq` walked. -/
def walk (spec : TopicSpec) (size : Int) :
    Int → Int → Option Int → List Message → Int × Int × Option Int
  | messages, bytes, cutoff, [] => (messages, bytes, cutoff)
  | messages, bytes, cutoff, m :: ms =>
      if fits spec size messages bytes then (messages, bytes, cutoff)
      else walk spec size (messages - 1) (bytes - m.size) (some m.seq) ms

/-- Delete the messages of a topic through `cutoff` that `p` selects. -/
def Queue.reap (q : Queue) (topicId : Nat) (cutoff : Int) (p : Message → Bool) : Queue :=
  { q with messages := q.messages.deleteWhere fun m => m.topicId == topicId && m.seq ≤ cutoff && p m }

/-- At the cap, reap what every group has consumed, oldest first, and refuse when that is not
enough. -/
def makeRoom (q : Queue) (topic : Topic) (size : Int) : Except QueueError Queue :=
  let (heldMessages, heldBytes) := q.holdings topic.id
  if fits topic.spec size heldMessages heldBytes then .ok q
  else
    let consumed := match q.consumedThrough topic.id with
      | some through => (q.messagesOf topic.id).filter (·.seq ≤ through)
      | none => []
    let (messages, bytes, cutoff) := walk topic.spec size heldMessages heldBytes none consumed
    if fits topic.spec size messages bytes then
      match cutoff with
      | some cutoff => .ok (q.reap topic.id cutoff fun _ => true)
      | none => .ok q
    -- nothing is deleted on refusal, so the held totals are the ones reported
    else .error (.queueFull topic.name heldMessages heldBytes)

def sendReserved (json : Serde Value) (q : Queue) (topic : String) (draft : Draft Value)
    (now : Int) : Except QueueError (Queue × Int) := do
  let row ← q.topicRowAny topic
  let (payload, size) ← validateDraft json draft row.spec
  let q ← makeRoom q row size
  let expiresAt := (draft.ttlMs.or row.spec.defaultTtlMs).map (satAdd now)
  let message seq : Message :=
    ⟨seq, row.id, draft.key, draft.kind, payload, size, draft.producer, now, expiresAt⟩
  pure ({ q with messages := q.messages.insertNext message fun _ => rfl }, q.messages.nextKey)

def send (json : Serde Value) (q : Queue) (topic : String) (draft : Draft Value) (now : Int) :
    Except QueueError (Queue × Int) := do
  checkUnreserved topic
  sendReserved json q topic draft now

/-! ## Consumer groups -/

def groupCreateReserved (q : Queue) (topic group : String) (start : Start) (now : Int) :
    Except QueueError (Queue × Created) := do
  checkName "group name" group
  let row ← q.topicRowAny topic
  let position := match start with
    | .fromStart => 0
    | .fromNow => (q.newestSeq row.id).getD 0
  let (groups, inserted) := q.groups.insertOrIgnore ⟨row.id, group, position, now, none, none⟩
  pure ({ q with groups }, if inserted then .new else .existing)

def groupCreate (q : Queue) (topic group : String) (start : Start) (now : Int) :
    Except QueueError (Queue × Created) := do
  checkUnreserved topic
  groupCreateReserved q topic group start now

def groupDeleteReserved (q : Queue) (topic group : String) : Except QueueError (Queue × Bool) := do
  checkName "group name" group
  let row ← q.topicRowAny topic
  let groups := q.groups.deleteWhere fun g => g.topicId == row.id && g.name == group
  pure ({ q with groups }, (q.groups.find? (row.id, group)).isSome)

def groupDelete (q : Queue) (topic group : String) : Except QueueError (Queue × Bool) := do
  checkUnreserved topic
  groupDeleteReserved q topic group

/-- `UPDATE mq_groups SET … WHERE topic_id = ?1 AND name = ?2`. -/
def Queue.updateGroup (q : Queue) (topicId : Nat) (group : String) (f : Group → Group)
    (hf : ∀ g, ((f g).topicId, (f g).name) = (g.topicId, g.name)) : Queue :=
  { q with groups := q.groups.updateWhere (fun g => g.topicId == topicId && g.name == group) f hf }

/-- `message_rows` and `parse_payloads`: a payload that does not parse ends the batch before it, and
is named when it is the first. -/
def parsePayloads (json : Serde Value) (topic : String) (now : Int) :
    List (Delivered Value) → List Message → Except QueueError (List (Delivered Value))
  | out, [] => .ok out
  | out, m :: ms =>
      match json.fromStr m.payload with
      | .ok value =>
          parsePayloads json topic now
            (out ++ [⟨m.seq, m.key, m.kind, value, m.producer, m.enqueuedAt, m.expiresAt,
              m.expiresAt.any (· ≤ now), false⟩]) ms
      | .error why => if out.isEmpty then .error (.corruptPayload topic m.seq why) else .ok out

def pollReserved (json : Serde Value) (q : Queue) (topic group : String) (max : Nat)
    (after : Option Int) (now : Int) : Except QueueError (Queue × List (Delivered Value)) := do
  checkBatch max
  let row ← q.topicRowAny topic
  let position ← q.groupPosition topic row.id group
  let position := Max.max position (after.getD 0)
  let q := q.updateGroup row.id group (fun g => { g with lastPollAt := some now }) fun _ => rfl
  let rows := ((q.messagesOf row.id).filter (position < ·.seq)).take max
  let out ← parsePayloads json topic now [] rows
  pure (q, out)

def poll (json : Serde Value) (q : Queue) (topic group : String) (max : Nat)
    (after : Option Int) (now : Int) : Except QueueError (Queue × List (Delivered Value)) := do
  checkUnreserved topic
  pollReserved json q topic group max after now

/-- Commit the group's position through `seq`: cumulative, and never moving backwards. -/
def ackReserved (q : Queue) (topic group : String) (seq now : Int) :
    Except QueueError (Queue × Int) := do
  let row ← q.topicRowAny topic
  let position ← q.groupPosition topic row.id group
  let high := max ((q.newestSeq row.id).getD 0) position
  if seq > high then .error (.ackBeyondEnd topic seq high)
  let position := max position seq
  let q := q.updateGroup row.id group
    (fun g => { g with position, lastAckAt := some now }) fun _ => rfl
  pure (q, position)

def ack (q : Queue) (topic group : String) (seq now : Int) : Except QueueError (Queue × Int) := do
  checkUnreserved topic
  ackReserved q topic group seq now

/-! ## Compaction -/

/-- Nobody has polled or acked the group for `idleMs`. -/
def Group.idle (idleMs now : Int) (g : Group) : Bool :=
  idleMs ≤ now - max g.createdAt (max (g.lastPollAt.getD 0) (g.lastAckAt.getD 0))

def Message.expired (now : Int) (m : Message) : Bool := m.expiresAt.any (· ≤ now)

/-- Compacted less than `compact_every_ms` ago. -/
def Topic.recent (now : Int) (t : Topic) : Bool :=
  t.compactedAt.any fun at_ => satSub now at_ < t.spec.compactEveryMs

/-- Remove the topic's idle groups. -/
def Queue.dropIdle (q : Queue) (t : Topic) (now : Int) : Queue :=
  { q with groups := q.groups.deleteWhere fun g =>
      g.topicId == t.id && g.idle t.spec.groupIdleMs now }

/-- How far a topic may be reaped. A reserved topic's messages go by age alone. -/
def Queue.reapThrough (q : Queue) (t : Topic) : Option Int :=
  if isReserved t.name then some i64Max else q.consumedThrough t.id

/-- Delete the topic's expired messages, as far as it may be reaped. -/
def Queue.reapExpired (q : Queue) (t : Topic) (now : Int) : Queue :=
  match q.reapThrough t with
  | some through => q.reap t.id through (·.expired now)
  | none => q

/-- One topic of `compact`. Idle groups go first, so a message only an abandoned group held back
goes in the same pass. -/
def compactTopic (now : Int) (force : Bool) (acc : Queue × CompactReport) (t : Topic) :
    Queue × CompactReport :=
  let (q, report) := acc
  if !force && t.recent now then (q, { report with topicsSkipped := report.topicsSkipped + 1 })
  else
    let q₁ := q.dropIdle t now
    let q₂ := q₁.reapExpired t now
    let topics := q₂.topics.updateWhere (·.id == t.id)
      (fun t => { t with compactedAt := some now }) fun _ => rfl
    ({ q₂ with topics },
      { topicsCompacted := report.topicsCompacted + 1
        topicsSkipped := report.topicsSkipped
        groupsRemoved := report.groupsRemoved + (q.groups.rows.length - q₁.groups.rows.length)
        messagesReaped :=
          report.messagesReaped + (q₁.messages.rows.length - q₂.messages.rows.length) })

def compact (q : Queue) (now : Int) (force : Bool) : Queue × CompactReport :=
  q.topics.rows.foldl (compactTopic now force) (q, {})

/-! ## The queue as a step function -/

/-- Who calls: anyone through the public operations, or the module that owns a reserved prefix
through the `_reserved` ones. -/
inductive Caller where
  | anyone
  | owner
deriving Repr, DecidableEq

/-- The writing operations with their arguments. -/
inductive Op (Value : Type) where
  | topicCreate (name : String) (spec : TopicSpec) (now : Int)
  | send (topic : String) (draft : Draft Value) (now : Int)
  | groupCreate (topic group : String) (start : Start) (now : Int)
  | groupDelete (topic group : String)
  | poll (topic group : String) (max : Nat) (after : Option Int) (now : Int)
  | ack (topic group : String) (seq now : Int)
  | compact (now : Int) (force : Bool)

/-- The tables an operation leaves, or its refusal. -/
def perform (json : Serde Value) (q : Queue) : Caller → Op Value → Except QueueError Queue
  | .anyone, .topicCreate name spec now => Prod.fst <$> topicCreate q name spec now
  | .owner, .topicCreate name spec now => Prod.fst <$> topicCreateReserved q name spec now
  | .anyone, .send topic draft now => Prod.fst <$> send json q topic draft now
  | .owner, .send topic draft now => Prod.fst <$> sendReserved json q topic draft now
  | .anyone, .groupCreate topic group start now => Prod.fst <$> groupCreate q topic group start now
  | .owner, .groupCreate topic group start now =>
      Prod.fst <$> groupCreateReserved q topic group start now
  | .anyone, .groupDelete topic group => Prod.fst <$> groupDelete q topic group
  | .owner, .groupDelete topic group => Prod.fst <$> groupDeleteReserved q topic group
  | .anyone, .poll topic group max after now => Prod.fst <$> poll json q topic group max after now
  | .owner, .poll topic group max after now =>
      Prod.fst <$> pollReserved json q topic group max after now
  | .anyone, .ack topic group seq now => Prod.fst <$> ack q topic group seq now
  | .owner, .ack topic group seq now => Prod.fst <$> ackReserved q topic group seq now
  | _, .compact now force => .ok (compact q now force).1

/-- One transaction: a refusal rolls back. -/
def step (json : Serde Value) (q : Queue) (op : Caller × Op Value) : Queue :=
  Tx.commit (perform json q op.1 op.2) q

end Jkb.Mq
