import Jkb.Core.AgentId
import Jkb.Mq

/-!
# Jkb.Notify

The parts of `notify.rs` that others use. The checks of a session and of its owner are shared with the
session registry. Posting and withdrawing a notification directly is for a producer that is not a
session's hook, such as a run request: both are hints, so a topic nobody reads is not written to, and a
topic that cannot take the message is "not sent" rather than an error.
-/

namespace Jkb.Notify

open Mq

/-! ## checks -/

def maxInstanceBytes : Nat := 150
def maxOwnerBytes : Nat := 20

/-- A session id as a hook sends it. -/
def checkSession (session : String) : Except QueueError Unit :=
  if AgentId.isSessionId session.toList then .ok ()
  else .error (.invalid "session" [.debug session, " is not 1..=", AgentId.maxSessionIdBytes,
    " bytes of [A-Za-z0-9_-]"])

/-- A pid, or none, and the instance it belongs to: a pid names a process only together with its
instance. -/
def checkOwnerAndInstance (owner inst : String) : Except QueueError Unit :=
  if owner.utf8ByteSize > maxOwnerBytes ∨ ¬ owner.toList.all Char.isDigit then
    .error (.invalid "owner" [.debug owner, " is not a pid"])
  else if owner ≠ "" ∧ inst = "" then
    .error (.invalid "instance" ["a pid needs the instance it belongs to"])
  else if inst.utf8ByteSize > maxInstanceBytes ∨ inst.toList.any isControl then
    .error (.invalid "instance"
      ["must be at most ", maxInstanceBytes, " bytes with no control characters"])
  else .ok ()

/-! ## direct sends -/

/-- `claude/notify`. -/
def topic : String := "claude/notify"

def postTtlMs : Int := 12 * 60 * 60 * 1000
def kindPost : String := "notify.post"
def kindWithdraw : String := "notify.withdraw"
def maxBodyChars : Nat := 1000
def title : String := "Claude Code"

/-- Whether anything reads the topic: it exists and has a consumer group. -/
def heard (q : Queue) : Except QueueError Bool :=
  match q.groupCount topic with
  | .ok n => .ok (n > 0)
  | .error (.noSuchTopic _) => .ok false
  | .error e => .error e

/-- A direct send's outcome: a topic that is full, or too small for the message, is "not sent". -/
def sentSoftly (q : Queue) : Except QueueError (Queue × Int) → Except QueueError (Queue × Bool)
  | .ok (q', _) => .ok (q', true)
  | .error (.queueFull _ _ _) => .ok (q, false)
  | .error (.tooLarge _ _ _) => .ok (q, false)
  | .error e => .error e

def postDirect (json : Serde Json) (q : Queue) (id session subtitle body : String) (now : Int) :
    Except QueueError (Queue × Bool) := do
  if !(← heard q) then return (q, false)
  sentSoftly q (send json q topic {
    key := "notification/" ++ id
    kind := kindPost
    payload := .obj [("id", .str id), ("session", .str session), ("title", .str title),
      ("subtitle", .str subtitle), ("body", .str (String.ofList (body.toList.take maxBodyChars)))]
    ttlMs := some postTtlMs
    producer := "jkb" } now)

def withdrawDirect (json : Serde Json) (q : Queue) (id session : String) (now : Int) :
    Except QueueError (Queue × Bool) := do
  if !(← heard q) then return (q, false)
  sentSoftly q (send json q topic {
    key := "notification/" ++ id
    kind := kindWithdraw
    payload := .obj [("id", .str id), ("session", .str session)]
    ttlMs := none
    producer := "jkb" } now)

end Jkb.Notify
