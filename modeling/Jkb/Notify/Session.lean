import Jkb.Notify
import Jkb.Notify.Lifecycle
import Jkb.Run

/-!
# Jkb.Notify.Session

The notification lifecycle run against the database. A session's state is derived from its record each
time, the machine is asked, and its plan is carried out in one transaction: the record in the table, and
the screen by messages on the topic. `record_agrees` says that the two never part.
-/

namespace Jkb.Notify

open Fsm Mq

/-- A notification on screen: a row of `notify_sessions`. -/
structure SessionRecord where
  session : String
  tool : String
  owner : String
  «instance» : String
  updatedAt : Int
deriving Repr, DecidableEq

/-- The queue and the records, with at most one for each session. -/
structure Db where
  queue : Queue
  sessions : Table SessionRecord.session

/-- What a producer observed. -/
structure Observation where
  session : String
  event : NotifEvent
  finishedTool : String
  message : String
  cwd : String
  owner : String
  «instance» : String

/-- What applying an event did. -/
structure Applied where
  state : NotifState
  moved : Bool
  effects : List NotifEffect
  refusal : Option String
  sent : Nat

/-- The notification id of a session. -/
def notificationId (session : String) : String := "jkb-claude-" ++ session

/-- The text before the first occurrence of `pat`, and the text after it. -/
def splitText (pat : List Char) : List Char → Option (List Char × List Char)
  | [] => none
  | c :: cs =>
      if pat.isPrefixOf (c :: cs) then some ([], (c :: cs).drop pat.length)
      else (splitText pat cs).map fun p => (c :: p.1, p.2)

/-- The tool that a permission prompt is about: what follows `permission to use `. -/
def toolIn (message : String) : Option String :=
  let pat := "permission to use ".toList
  match splitText pat message.toList with
  | none => none
  | some (_, rest) =>
      -- the second piece ends where the pattern occurs again
      let piece := ((splitText pat rest).map (·.1)).getD rest
      let name := piece.takeWhile fun c => c.isAlphanum || c == '_' || c == '-'
      if name = [] then none else some (String.ofList name)

def stateOf : Option SessionRecord → NotifState
  | none => .absent
  | some r => if r.tool = "" then .awaitingUser else .awaitingTool

/-- What the effects of one plan are about. -/
structure Target where
  session : String
  tool : String
  subtitle : String
  body : String
  owner : String
  «instance» : String

/-- A message about a session. -/
def Target.draft (target : Target) (kind : String) (payload : Json) (ttlMs : Option Int) : Draft Json where
  key := "session/" ++ target.session
  kind := kind
  payload := payload
  ttlMs := ttlMs
  producer := "notify@" ++ target.instance

def Target.post (target : Target) : Draft Json :=
  target.draft kindPost (.obj [("id", .str (notificationId target.session)),
    ("session", .str target.session), ("title", .str title), ("subtitle", .str target.subtitle),
    ("body", .str target.body)]) (some postTtlMs)

def Target.withdraw (target : Target) : Draft Json :=
  target.draft kindWithdraw (.obj [("id", .str (notificationId target.session)),
    ("session", .str target.session)]) none

/-- Record that a notification is on screen. -/
def remember (sessions : Table SessionRecord.session) (target : Target) (now : Int) :
    Table SessionRecord.session :=
  let row : SessionRecord := ⟨target.session, target.tool, target.owner, target.instance, now⟩
  sessions.upsert row (fun _ => true) (fun r => { row with session := r.session }) fun _ => rfl

section

variable (json : Serde Json)

/-- Send a message, unless nothing reads the topic. What was sent is counted by keeping it. -/
def sendIf (heard : Bool) (now : Int) (acc : Db × List (Draft Json)) (draft : Draft Json) :
    Except QueueError (Db × List (Draft Json)) :=
  if heard then
    (Mq.send json acc.1.queue topic draft now).map fun r =>
      ({ acc.1 with queue := r.1 }, acc.2 ++ [draft])
  else .ok acc

/-- Carry out one effect. -/
def performEffect (heard : Bool) (target : Target) (now : Int) (acc : Db × List (Draft Json)) :
    NotifEffect → Except QueueError (Db × List (Draft Json))
  | .post => sendIf json heard now acc target.post
  | .withdraw => sendIf json heard now acc target.withdraw
  | .remember => .ok ({ acc.1 with sessions := remember acc.1.sessions target now }, acc.2)
  | .forget =>
      .ok ({ acc.1 with sessions := acc.1.sessions.deleteWhere (·.session = target.session) }, acc.2)

/-- Carry out a plan: the store it leaves, and the messages sent, in order. Whether anything reads the
topic is asked once, and a missing topic is an error. -/
def perform (db : Db) (target : Target) (effects : List NotifEffect) (now : Int) :
    Except QueueError (Db × List (Draft Json)) := do
  let heard ← (if effects.any (·.touchesScreen) then (db.queue.groupCount topic).map fun n => decide (n > 0)
    else .ok false)
  effects.foldlM (performEffect json heard target now) (db, [])

/-- What an outcome is reported as. -/
def outcomeToApplied (out : Outcome NotifState NotifEvent NotifEffect) (sent : Nat) : Applied where
  state := out.state
  moved := out.isMoved
  effects := out.effects
  refusal := out.refusal
  sent := sent

/-- Apply one observed hook event. -/
def observe (db : Db) (obs : Observation) (now : Int) :
    Except QueueError (Db × Applied × List (Draft Json)) := do
  checkSession obs.session
  checkOwnerAndInstance obs.owner obs.instance
  if obs.event = .sessionGone then
    .error (.invalid "event" ["session_gone is asserted by notify.gone, with the owner it probed"])
  let rec_ := db.sessions.find? obs.session
  let prompted := toolIn obs.message
  let ctx : NotifCtx := {
    state := stateOf rec_
    toolNamed := prompted.isSome
    toolMatches := match rec_ with
      | some r => if r.tool ≠ "" ∧ obs.finishedTool ≠ "" then .ofBool (r.tool = obs.finishedTool)
          else .unknown
      | none => .unknown
    sessionAlive := .unknown }
  let out := machine.apply ctx obs.event
  let target : Target := {
    session := obs.session
    tool := prompted.getD ""
    subtitle := String.ofList (((obs.cwd.toList.splitOn '/').getLast?).getD [])
    body := String.ofList (obs.message.toList.take maxBodyChars)
    owner := obs.owner
    «instance» := obs.instance }
  let (db, sent) ← perform json db target out.effects now
  return (db, outcomeToApplied out sent.length, sent)

/-- A producer has proved a session gone: withdraw its notification and forget it, if the record still
names the owner and the instance that it judged. -/
def gone (db : Db) (session owner inst : String) (now : Int) :
    Except QueueError (Db × Applied × List (Draft Json)) := do
  checkSession session
  checkOwnerAndInstance owner inst
  let rec_ := db.sessions.find? session
  match rec_.filter fun r => r.owner = owner && r.instance = inst with
  | none => return (db, ⟨stateOf rec_, false, [],
      some "the record changed since it was probed, or is gone.", 0⟩, [])
  | some still =>
      let ctx : NotifCtx := {
        state := stateOf (some still)
        toolNamed := still.tool ≠ ""
        toolMatches := .unknown
        sessionAlive := if owner ≠ "" then .no else .unknown }
      let out := machine.apply ctx .sessionGone
      let target : Target :=
        ⟨session, still.tool, "", "", owner, still.instance⟩
      let (db, sent) ← perform json db target out.effects now
      return (db, outcomeToApplied out sent.length, sent)

/-! ## runs -/

/-- A call, or whatever others do to the queue in between. -/
inductive Call where
  | observe (obs : Observation) (now : Int)
  | gone (session owner inst : String) (now : Int)
  | queue (q : Queue)

/-- A call in a transaction of its own, with the messages it sent. -/
def Call.perform (db : Db) : Call → Except QueueError (Db × List (Draft Json))
  | .observe obs now => (Notify.observe json db obs now).map fun r => (r.1, r.2.2)
  | .gone session owner inst now => (Notify.gone json db session owner inst now).map fun r => (r.1, r.2.2)
  | .queue q => .ok ({ db with queue := q }, [])

/-- The database, with the messages that the calls sent, newest first. -/
structure World where
  db : Db
  sent : List (Draft Json)

/-- One call: a refusal leaves what there was. -/
def next (w : World) (call : Call) : World :=
  match call.perform json w.db with
  | .ok (db, sent) => ⟨db, sent.reverse ++ w.sent⟩
  | .error _ => w

end

/-- The notification id that a message is about. -/
def idOf (draft : Draft Json) : Option String :=
  match draft.payload with
  | .obj fields =>
      match fields.find? (·.1 = "id") with
      | some (_, .str id) => some id
      | _ => none
  | _ => none

/-- The kind of the last message sent about a notification. -/
def lastKind (sent : List (Draft Json)) (id : String) : Option String :=
  (sent.find? fun d => idOf d = some id).map (·.kind)

/-- The topic exists and has a consumer group. -/
def IsRead (q : Queue) : Prop := ∃ n, q.groupCount topic = .ok n ∧ 0 < n

/-- A call that reaches the topic finds it read. -/
def Call.IsHeard (w : World) : Call → Prop
  | .queue _ => True
  | _ => IsRead w.db.queue

/-! ## what was last sent -/

theorem notificationId_injective : Function.Injective notificationId := by
  intro a b h
  have hlist := congrArg String.toList h
  rw [notificationId, notificationId, String.toList_append, String.toList_append] at hlist
  exact String.toList_injective (List.append_cancel_left hlist)

theorem idOf_post (target : Target) : idOf target.post = some (notificationId target.session) := by
  simp [idOf, Target.post, Target.draft]

theorem idOf_withdraw (target : Target) :
    idOf target.withdraw = some (notificationId target.session) := by
  simp [idOf, Target.withdraw, Target.draft]

/-- A message about a session is the last one of that session, and of no other. -/
theorem lastKind_cons {draft : Draft Json} {session : String}
    (h : idOf draft = some (notificationId session)) (sent : List (Draft Json)) (other : String) :
    lastKind (draft :: sent) (notificationId other) =
      if session = other then some draft.kind else lastKind sent (notificationId other) := by
  by_cases hs : session = other
  · simp [lastKind, h, hs]
  · have hne : notificationId session ≠ notificationId other := fun hid => hs (notificationId_injective hid)
    simp [lastKind, h, hne, hs]

/-! ## what a plan leaves -/

theorem find?_remember_self {sessions : Table SessionRecord.session} {target : Target} {now : Int} :
    ((remember sessions target now).find? target.session).isSome :=
  Option.isSome_of_eq_some (Table.find?_upsert_self ..)

theorem find?_remember_of_ne {sessions : Table SessionRecord.session} {target : Target} {now : Int}
    {session : String} (h : target.session ≠ session) :
    (remember sessions target now).find? session = sessions.find? session := by
  unfold remember
  exact Table.find?_upsert_of_ne _ _ _ _ _ h

section

variable {json : Serde Json} {db db' : Db} {target : Target} {now : Int} {sent hist : List (Draft Json)}

/-- A message sent where the topic is read leaves the records alone. -/
theorem sendIf_ok {acc acc' : Db × List (Draft Json)} {draft : Draft Json}
    (h : sendIf json true now acc draft = .ok acc') :
    acc'.1.sessions = acc.1.sessions ∧ acc'.2 = acc.2 ++ [draft] := by
  obtain ⟨r, -, rfl⟩ := Tx.map_eq_ok.mp h
  exact ⟨rfl, rfl⟩

/-- Where the topic is read, a plan that changes the screen sends. -/
theorem perform_eq {effects : List NotifEffect} (hread : IsRead db.queue)
    (hscreen : effects.any (·.touchesScreen) = true) :
    perform json db target effects now = effects.foldlM (performEffect json true target now) (db, []) := by
  obtain ⟨n, hn, hpos⟩ := hread
  simp [perform, hscreen, hn, hpos, Except.map, bind, Except.bind]

/-- The records and the messages agree: a session has a record exactly when the last message about its
notification posted it. -/
def Agrees (w : World) : Prop :=
  ∀ session, (w.db.sessions.find? session).isSome ↔
    lastKind w.sent (notificationId session) = some kindPost

theorem agrees_needs (hagree : Agrees ⟨db, hist⟩) (hread : IsRead db.queue)
    (h : perform json db target [.post, .remember] now = .ok (db', sent)) :
    Agrees ⟨db', sent.reverse ++ hist⟩ := by
  rw [perform_eq hread rfl] at h
  obtain ⟨acc, hpost, h⟩ := Tx.bind_eq_ok.mp h
  obtain ⟨hsessions, hsent⟩ := sendIf_ok hpost
  obtain ⟨rfl, rfl⟩ := Prod.mk.inj (Except.ok.inj h)
  intro session
  rw [hsent]
  show _ ↔ lastKind (target.post :: hist) _ = _
  rw [lastKind_cons (idOf_post target)]
  by_cases hs : target.session = session
  · rw [if_pos hs, ← hs]
    exact iff_of_true find?_remember_self rfl
  · rw [if_neg hs, find?_remember_of_ne hs, hsessions]
    exact hagree session

theorem agrees_clears (hagree : Agrees ⟨db, hist⟩) (hread : IsRead db.queue)
    (h : perform json db target [.withdraw, .forget] now = .ok (db', sent)) :
    Agrees ⟨db', sent.reverse ++ hist⟩ := by
  rw [perform_eq hread rfl] at h
  obtain ⟨acc, hwithdraw, h⟩ := Tx.bind_eq_ok.mp h
  obtain ⟨hsessions, hsent⟩ := sendIf_ok hwithdraw
  obtain ⟨rfl, rfl⟩ := Prod.mk.inj (Except.ok.inj h)
  intro session
  rw [hsent]
  show _ ↔ lastKind (target.withdraw :: hist) _ = _
  rw [lastKind_cons (idOf_withdraw target), Table.find?_deleteWhere, hsessions]
  cases hr : db.sessions.find? session with
  | none =>
      by_cases hs : target.session = session
      · simp [hs, Target.withdraw, Target.draft, kindWithdraw, kindPost]
      · rw [if_neg hs, ← hagree session]
        simp [hr]
  | some r =>
      have hkey : r.session = session := Table.key_of_find? hr
      by_cases hs : target.session = session
      · simp [hkey, hs, Target.withdraw, Target.draft, kindWithdraw, kindPost]
      · have hne : session ≠ target.session := fun h => hs h.symm
        rw [if_neg hs, ← hagree session]
        simp [hr, hkey, hne]

theorem agrees_sweeps (hagree : Agrees ⟨db, hist⟩) (hread : IsRead db.queue)
    (habsent : db.sessions.find? target.session = none)
    (h : perform json db target [.withdraw] now = .ok (db', sent)) :
    Agrees ⟨db', sent.reverse ++ hist⟩ := by
  rw [perform_eq hread rfl] at h
  obtain ⟨acc, hwithdraw, h⟩ := Tx.bind_eq_ok.mp h
  obtain ⟨hsessions, hsent⟩ := sendIf_ok hwithdraw
  obtain ⟨rfl, rfl⟩ := Prod.mk.inj (Except.ok.inj h)
  intro session
  rw [hsent, hsessions]
  show _ ↔ lastKind (target.withdraw :: hist) _ = _
  rw [lastKind_cons (idOf_withdraw target)]
  by_cases hs : target.session = session
  · rw [if_pos hs, ← hs, habsent]
    simp [Target.withdraw, Target.draft, kindWithdraw, kindPost]
  · rw [if_neg hs]
    exact hagree session

theorem stateOf_eq_absent {r : Option SessionRecord} (h : stateOf r = .absent) : r = none := by
  cases r with
  | none => rfl
  | some r => by_cases ht : r.tool = "" <;> simp [stateOf, ht] at h

/-- **A plan of the table keeps the agreement**, asked from the state that the record says. -/
theorem agrees_planned {dst : NotifState} {effects : List NotifEffect} (hagree : Agrees ⟨db, hist⟩)
    (hread : IsRead db.queue)
    (hplan : Planned (stateOf (db.sessions.find? target.session)) dst effects)
    (h : perform json db target effects now = .ok (db', sent)) :
    Agrees ⟨db', sent.reverse ++ hist⟩ := by
  generalize hsrc : stateOf (db.sessions.find? target.session) = src at hplan
  cases hplan with
  | needs _ _ _ => exact agrees_needs hagree hread h
  | clears _ => exact agrees_clears hagree hread h
  | sweeps => exact agrees_sweeps hagree hread (stateOf_eq_absent hsrc) h
  | stays =>
      obtain ⟨rfl, rfl⟩ := Prod.mk.inj (Except.ok.inj h)
      exact hagree

/-- Where the machine does not move, nothing is done. -/
theorem agrees_outcome {c : NotifCtx} {e : NotifEvent} (hagree : Agrees ⟨db, hist⟩)
    (hread : IsRead db.queue) (hstate : c.state = stateOf (db.sessions.find? target.session))
    (h : perform json db target (machine.apply c e).effects now = .ok (db', sent)) :
    Agrees ⟨db', sent.reverse ++ hist⟩ := by
  cases hout : machine.apply c e with
  | moved src e' dst effects =>
      rw [hout] at h
      exact agrees_planned hagree hread (hstate ▸ planned_of_moved hout) h
  | idempotent s e' | refused s e' d | undefined s e' =>
      rw [hout] at h
      obtain ⟨rfl, rfl⟩ := Prod.mk.inj (Except.ok.inj h)
      exact hagree

/-! ## the calls -/

theorem agrees_observe {obs : Observation} {r : Db × Applied × List (Draft Json)}
    (hagree : Agrees ⟨db, hist⟩) (hread : IsRead db.queue) (h : observe json db obs now = .ok r) :
    Agrees ⟨r.1, r.2.2.reverse ++ hist⟩ := by
  obtain ⟨-, -, h⟩ := Tx.bind_eq_ok.mp h
  obtain ⟨-, -, h⟩ := Tx.bind_eq_ok.mp h
  obtain ⟨-, h⟩ := Tx.guard_eq_ok.mp h
  obtain ⟨⟨db₁, sent⟩, hperform, h⟩ := Tx.bind_eq_ok.mp h
  obtain rfl := Except.ok.inj h
  exact agrees_outcome hagree hread rfl hperform

/-- A sweep leaves everything as it is, where the record is not the one that was judged, or does what the table says
of that record. -/
theorem gone_ok {session owner inst : String} {r : Db × Applied × List (Draft Json)}
    (h : gone json db session owner inst now = .ok r) :
    (r.1 = db ∧ r.2.2 = []) ∨
      ∃ still, db.sessions.find? session = some still ∧ still.owner = owner ∧ still.instance = inst ∧
        perform json db ⟨session, still.tool, "", "", owner, still.instance⟩
          (machine.apply
            { state := stateOf (some still), toolNamed := still.tool ≠ "", toolMatches := .unknown,
              sessionAlive := if owner ≠ "" then .no else .unknown } .sessionGone).effects now = .ok (r.1, r.2.2) := by
  obtain ⟨-, -, h⟩ := Tx.bind_eq_ok.mp h
  obtain ⟨-, -, h⟩ := Tx.bind_eq_ok.mp h
  cases hstill : (db.sessions.find? session).filter fun r => r.owner = owner && r.instance = inst with
  | none =>
      simp only [hstill] at h
      obtain rfl := Except.ok.inj h
      exact Or.inl ⟨rfl, rfl⟩
  | some still =>
      obtain ⟨hfound, hjudged⟩ := Option.filter_eq_some_iff.mp hstill
      simp only [Bool.and_eq_true, decide_eq_true_eq] at hjudged
      simp only [hstill] at h
      obtain ⟨⟨db₁, sent⟩, hperform, h⟩ := Tx.bind_eq_ok.mp h
      obtain rfl := Except.ok.inj h
      exact Or.inr ⟨still, hfound, hjudged.1, hjudged.2, hperform⟩

/-- **A sweep that judged another record does nothing**: `gone` acts only where the record names the
owner and the instance that were judged, and the owner is a pid. -/
theorem gone_of_mismatch {session owner inst : String} {r : Db × Applied × List (Draft Json)}
    (hno : ∀ rec, db.sessions.find? session = some rec →
      rec.owner ≠ owner ∨ rec.instance ≠ inst ∨ owner = "")
    (h : gone json db session owner inst now = .ok r) : r.1 = db ∧ r.2.2 = [] := by
  obtain hsame | ⟨still, hfound, hown, hinst, hperform⟩ := gone_ok h
  · exact hsame
  · have howner : owner = "" := by
      rcases hno still hfound with hne | hne | hempty
      · exact absurd hown hne
      · exact absurd hinst hne
      · exact hempty
    rw [effects_sessionGone (by simp [howner])] at hperform
    obtain ⟨hdb, hsent⟩ := Prod.mk.inj (Except.ok.inj hperform)
    exact ⟨hdb.symm, hsent.symm⟩

theorem agrees_gone {session owner inst : String} {r : Db × Applied × List (Draft Json)}
    (hagree : Agrees ⟨db, hist⟩) (hread : IsRead db.queue)
    (h : gone json db session owner inst now = .ok r) : Agrees ⟨r.1, r.2.2.reverse ++ hist⟩ := by
  obtain ⟨hdb, hsent⟩ | ⟨still, hfound, -, -, hperform⟩ := gone_ok h
  · rw [hdb, hsent]
    exact hagree
  · exact agrees_outcome hagree hread (by simp [hfound]) hperform

theorem agrees_next {w : World} {call : Call} (hheard : call.IsHeard w) (hagree : Agrees w) :
    Agrees (next json w call) := by
  unfold next
  cases h : call.perform json w.db with
  | error e => exact hagree
  | ok r =>
      cases call with
      | observe obs now =>
          obtain ⟨r', hobserve, rfl⟩ := Tx.map_eq_ok.mp h
          exact agrees_observe hagree hheard hobserve
      | gone session owner inst now =>
          obtain ⟨r', hgone, rfl⟩ := Tx.map_eq_ok.mp h
          exact agrees_gone hagree hheard hgone
      | queue q =>
          obtain rfl := Except.ok.inj h
          exact hagree

end

/-- **The record and the screen agree.** Whatever others do to the queue in between, while every call
finds the topic read, a session has a record exactly when the last message sent with its notification id
posted the notification. And in any state a call of `gone` that judged another owner or instance than
the record's, or an owner with no pid, sends nothing and changes nothing. -/
theorem record_agrees (json : Serde Json) (q : Queue) (calls : List Call)
    (hheard : Run.EveryStep (next json) (fun w call => call.IsHeard w) ⟨⟨q, Table.empty⟩, []⟩ calls) :
    (∀ session,
      (∃ r ∈ (Run.run (next json) ⟨⟨q, Table.empty⟩, []⟩ calls).db.sessions.rows, r.session = session) ↔
        lastKind (Run.run (next json) ⟨⟨q, Table.empty⟩, []⟩ calls).sent (notificationId session) =
          some kindPost) ∧
    ∀ w session owner inst now,
      (∀ r ∈ w.db.sessions.rows, r.session = session →
        r.owner ≠ owner ∨ r.instance ≠ inst ∨ owner = "") →
      next json w (.gone session owner inst now) = w := by
  refine ⟨fun session => ?_, fun w session owner inst now hno => ?_⟩
  · have hstart : Agrees ⟨⟨q, Table.empty⟩, []⟩ := by
      intro session
      simp [lastKind, Table.find?, Table.empty]
    have hagree := @Run.run_invariant_of_everyStep _ _ (next json) Agrees _
      (fun _ _ hheard hagree => agrees_next hheard hagree) _ calls hheard hstart
    rw [← hagree session, Option.isSome_iff_exists]
    simp only [Table.find?_eq_some]
  · unfold next
    cases h : Call.perform json w.db (.gone session owner inst now) with
    | error e => rfl
    | ok r =>
        obtain ⟨r', hgone, rfl⟩ := Tx.map_eq_ok.mp h
        have hno' : ∀ rec, w.db.sessions.find? session = some rec →
            rec.owner ≠ owner ∨ rec.instance ≠ inst ∨ owner = "" := by
          intro rec hrec
          exact hno rec (Table.mem_of_find? hrec) (Table.key_of_find? hrec)
        obtain ⟨hdb, hsent⟩ := gone_of_mismatch hno' hgone
        simp [hdb, hsent]

/-- The topic as setup creates it, with one reader. -/
def readTopic : Queue where
  topics := ⟨[⟨1, topic, .default, 0, none⟩], by decide⟩
  messages := .empty
  groups := ⟨[⟨1, "notifier", 0, 0, none, none⟩], by decide⟩

/-- A prompt that is answered in another process than the one it was posted from. -/
theorem record_agrees_answered :
    let json : Serde Json := ⟨fun _ => .ok "\x7b\x7d", fun _ => .ok .null⟩
    let calls : List Call := [
      .observe ⟨"s1", .needed, "", "Claude needs your permission to use Bash", "/work", "10", "host"⟩ 1,
      .gone "s1" "10" "host#2" 2]
    ∀ session,
      (∃ r ∈ (Run.run (next json) ⟨⟨readTopic, Table.empty⟩, []⟩ calls).db.sessions.rows,
          r.session = session) ↔
        lastKind (Run.run (next json) ⟨⟨readTopic, Table.empty⟩, []⟩ calls).sent
          (notificationId session) = some kindPost := by
  intro json calls
  refine (record_agrees json readTopic calls ⟨⟨1, ?_, by decide⟩, ⟨1, ?_, by decide⟩, trivial⟩).1
  · decide +kernel
  · decide +kernel

end Jkb.Notify
