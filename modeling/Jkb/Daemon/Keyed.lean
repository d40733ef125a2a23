import Jkb.Daemon.Idempotency
import Jkb.Run

/-!
# Jkb.Daemon.Keyed

The keyed route of `jkb serve`, step by step: any number of requests of any keys, the ops that they run, and the
store between them. An op is run apart from the request that asked for it: it starts or is refused, its writes are
committed, it answers or does not finish, and its answer is recorded and then told to those that wait.

Every run is kept, and with it when an answer was dropped for room (`evicted`), for what is said of whole histories.
`once_run` is that a key's op is run again only when the first run was abandoned or its answer is no longer there;
`answers_run` is that a request is told the truth of the run that it joined.
-/

namespace Jkb.Daemon

open Run

/-! ## requests and runs -/

/-- What a request is answered. -/
inductive Answer (V : Type*) where
  | value (v : V)
  | tooLarge
  | busy
  | mismatch
  | refused
  | mayApply
  | failed
deriving Repr, DecidableEq

/-- How far a run of an op is. -/
inductive Progress (V : Type*) where
  | spawned
  | started
  | ran (v : V)
  | recorded (v : V) (since : Nat)
  | abandoned (started : Bool)
deriving Repr, DecidableEq

/-- A run of an op: under which key and for what body, since when, whether its writes are in the database, and
whether those that wait for it have been told. A body is known by its 64-bit hash alone, here as in the daemon, so two
bodies of one `fingerprint` are one body. -/
structure OpRun (K V : Type*) where
  id : Nat
  key : K
  fingerprint : Nat
  begun : Nat
  progress : Progress V := .spawned
  applied : Bool := false
  told : Bool := false
deriving Repr, DecidableEq

/-- Neither recorded nor abandoned. -/
def OpRun.isLive {K V : Type*} (r : OpRun K V) : Bool :=
  match r.progress with
  | .spawned | .started | .ran _ => true
  | .recorded .. | .abandoned _ => false

/-- Its op has begun, whatever came of it. -/
def OpRun.hasStarted {K V : Type*} (r : OpRun K V) : Bool :=
  match r.progress with
  | .spawned | .abandoned false => false
  | .started | .ran _ | .recorded .. | .abandoned true => true

/-- Where a request is, and with it the run that it has joined, if any. -/
inductive Stage (V : Type*) where
  | arrived
  | admitted
  | waiting (run : Nat)
  | owner (run : Nat)
  | answered (run : Option Nat) (answer : Answer V)
deriving Repr, DecidableEq

def Stage.run {V : Type*} : Stage V → Option Nat
  | .arrived | .admitted => none
  | .waiting run | .owner run => some run
  | .answered run _ => run

/-- A request: its key, the hash of its body, and where it is. -/
structure KeyedRequest (K V : Type*) where
  id : Nat
  key : K
  fingerprint : Nat
  stage : Stage V := .arrived
deriving Repr, DecidableEq

def KeyedRequest.isAnswered {K V : Type*} (q : KeyedRequest K V) : Bool :=
  match q.stage with
  | .answered .. => true
  | _ => false

/-! ## the daemon -/

/-- How the store is gone through, how long an answer is, the longest one that is recorded, for how long, and how
many and how many bytes of them. -/
structure Config (K V : Type*) where
  iter : Iter (Entry K (Answer V))
  bytes : Answer V → Nat
  maxAnswer : Nat
  ttl : Nat
  maxEntries : Nat
  maxBytes : Nat

def Config.settings {K V : Type*} (cfg : Config K V) : Nat × Nat × Nat := (cfg.ttl, cfg.maxEntries, cfg.maxBytes)

/-- The daemon, with every run that there has been, and which of their answers were dropped for room, and when. -/
structure Server (K V : Type*) where
  now : Nat := 0
  store : Store K (Answer V)
  runs : Table (OpRun.id : OpRun K V → Nat) := .empty
  requests : Table (KeyedRequest.id : KeyedRequest K V → Nat) := .empty
  evicted : List (Nat × Nat) := []

/-- A step: of a request, of a run, or of the time. What a step meets that is not in the state (a free permit, an
answer, a panic or another failure to finish) is in the step. -/
inductive Step (K V : Type*) where
  | arrive (id : Nat) (key : K) (fingerprint : Nat)
  | admission (id : Nat) (free : Bool)
  | refuse (id : Nat)
  | serve (id : Nat)
  | start (run : Nat) (free : Bool)
  | apply (run : Nat)
  | ran (run : Nat) (v : V)
  | panic (run : Nat)
  | finish (run : Nat)
  | tell (run : Nat)
  | reply (id : Nat)
  | giveUp (id : Nat)
  | tick (ms : Nat)

namespace Server

variable {K V : Type*} [DecidableEq K] (cfg : Config K V) (s : Server K V)

def setStage (q : KeyedRequest K V) (stage : Stage V) : Server K V :=
  { s with requests := s.requests.updateWhere (·.id = q.id) (fun q => { q with stage }) fun _ => rfl }

def setRun (id : Nat) (f : OpRun K V → OpRun K V) (hf : ∀ r, (f r).id = r.id) : Server K V :=
  { s with runs := s.runs.updateWhere (·.id = id) f hf }

/-- `admission`: a resend of a key that is recorded needs no permit. -/
def admission (q : KeyedRequest K V) (free : Bool) : Server K V :=
  if s.store.contains q.key || free then s.setStage q .admitted else s.setStage q (.answered none .busy)

/-- What one store holds and another does not, and when that is. -/
def lost (now : Nat) (before after : Store K (Answer V)) : List (Nat × Nat) :=
  (before.entries.rows.filter fun e => (after.entries.find? e.key).isNone).map fun e => (e.id, now)

/-- `serve_keyed`, up to what its begin found. -/
def serveKeyed (q : KeyedRequest K V) : Server K V :=
  let (found, store) := s.store.begin cfg.iter q.key q.fingerprint s.now
  let s := { s with store, evicted := lost s.now (s.store.expire s.now) store ++ s.evicted }
  match found with
  | .replay answer => s.setStage q (.answered none answer)
  | .mismatch => s.setStage q (.answered none .mismatch)
  | .wait run => s.setStage q (.waiting run)
  | .run run =>
      { s with runs := (s.runs.insertOrIgnore ⟨run, q.key, q.fingerprint, s.now, .spawned, false, false⟩).1 }.setStage q
        (.owner run)

/-- The drop of a `Recording` that has not finished, up to what its waiters are told. -/
def drop (r : OpRun K V) (started : Bool) : Server K V :=
  { s with store := s.store.abandon r.key r.id }.setRun r.id
    (fun r => { r with progress := .abandoned started }) fun _ => rfl

/-- What is recorded of an answer. -/
def recordedOf (v : V) : Answer V := if cfg.maxAnswer < cfg.bytes (.value v) then .tooLarge else .value v

/-- `Recording::finish`, up to what its waiters are told. -/
def finish (r : OpRun K V) (v : V) : Server K V :=
  let store := s.store.finish cfg.iter r.key r.id (recordedOf cfg v) (cfg.bytes (recordedOf cfg v)) s.now
  { s with store, evicted := lost s.now s.store store ++ s.evicted }.setRun r.id
    (fun r => { r with progress := .recorded v s.now }) fun _ => rfl

/-- What the request that ran an op answers, once it is done. -/
def ownAnswer (r : OpRun K V) : Option (Answer V) :=
  if r.told then
    match r.progress with
    | .recorded v _ => some (.value v)
    | .abandoned true => some .failed
    | .abandoned false => some .busy
    | _ => none
  else none

/-- `await_original`: what a request that waited for an op answers, once it is told. -/
def waitAnswer (r : OpRun K V) : Option (Answer V) :=
  if r.told then
    match r.progress with
    | .recorded v _ => some (.value v)
    | .abandoned true => some .mayApply
    | .abandoned false => some .busy
    | _ => none
  else none

/-- A request is answered by what has become of its run. -/
def reply (q : KeyedRequest K V) : Server K V :=
  match q.stage with
  | .owner run =>
      ((s.runs.find? run).bind ownAnswer).elim s fun answer => s.setStage q (.answered (some run) answer)
  | .waiting run =>
      ((s.runs.find? run).bind waitAnswer).elim s fun answer => s.setStage q (.answered (some run) answer)
  | _ => s

/-- A step of a request. -/
def requestStep (q : KeyedRequest K V) : Step K V → Server K V
  | .admission _ free => if q.stage matches .arrived then s.admission q free else s
  | .refuse _ => if q.stage matches .arrived | .admitted then s.setStage q (.answered none .refused) else s
  | .serve _ => if q.stage matches .admitted then s.serveKeyed cfg q else s
  | .reply _ => s.reply q
  | .giveUp _ =>
      match q.stage with
      | .waiting run => s.setStage q (.answered (some run) .mayApply)
      | _ => s
  | _ => s

/-- A step of a run. -/
def runStep (r : OpRun K V) : Step K V → Server K V
  | .start _ free =>
      if r.progress matches .spawned then
        if free then s.setRun r.id (fun r => { r with progress := .started }) fun _ => rfl else s.drop r false
      else s
  | .apply _ =>
      if r.progress matches .started then s.setRun r.id (fun r => { r with applied := true }) fun _ => rfl else s
  | .ran _ v =>
      if r.progress matches .started then s.setRun r.id (fun r => { r with progress := .ran v }) fun _ => rfl else s
  | .panic _ => if r.progress matches .started then s.drop r true else s
  | .finish _ =>
      match r.progress with
      | .ran v => s.finish cfg r v
      | _ => s
  | .tell _ => if r.isLive then s else s.setRun r.id (fun r => { r with told := true }) fun _ => rfl
  | _ => s

/-- A step of the daemon; one that cannot be taken leaves it as it is. -/
def next (step : Step K V) : Server K V :=
  match step with
  | .arrive id key fingerprint => { s with requests := (s.requests.insertOrIgnore ⟨id, key, fingerprint, .arrived⟩).1 }
  | .admission id _ | .refuse id | .serve id | .reply id | .giveUp id =>
      (s.requests.find? id).elim s fun q => s.requestStep cfg q step
  | .start run _ | .apply run | .ran run _ | .panic run | .finish run | .tell run =>
      (s.runs.find? run).elim s fun r => s.runStep cfg r step
  | .tick ms => { s with now := s.now + ms }

end Server

/-! ## what is said of a history -/

namespace Server

variable {K V : Type*} (cfg : Config K V)

/-- The answer of a run had been dropped for room by then. -/
def Gone (s : Server K V) (id now : Nat) : Prop := ∃ t ≤ now, (id, t) ∈ s.evicted

/-- The answer of a run was recorded. -/
def Recorded (s : Server K V) (id : Nat) : Prop :=
  ∃ r ∈ s.runs.rows, r.id = id ∧ ∃ v since, r.progress = .recorded v since

/-- A run of an op came to nothing that a later one of its key would repeat: it was abandoned, or its answer had
expired by then, or has gone for room. -/
def Over (s : Server K V) (r r' : OpRun K V) : Prop :=
  (∃ started, r.progress = .abandoned started) ∨
    (∃ v since, r.progress = .recorded v since ∧ s.store.ttl ≤ r'.begun - since) ∨ s.Gone r.id r'.begun

/-- The run that a request has joined is of its key and its body. -/
def Joined (s : Server K V) (q : KeyedRequest K V) (id : Nat) : Prop :=
  ∃ r ∈ s.runs.rows, r.id = id ∧ r.key = q.key ∧ r.fingerprint = q.fingerprint

/-- What an answer says of the runs there have been. -/
def AnswerOk (s : Server K V) (q : KeyedRequest K V) (run : Option Nat) : Answer V → Prop
  | .value v => ∃ r ∈ s.runs.rows, r.key = q.key ∧ r.fingerprint = q.fingerprint ∧
      ∃ since, r.progress = .recorded v since
  | .tooLarge => ∃ r ∈ s.runs.rows, r.key = q.key ∧ r.fingerprint = q.fingerprint ∧
      ∃ v since, r.progress = .recorded v since ∧ cfg.maxAnswer < cfg.bytes (.value v)
  | .busy => ∀ id, run = some id → ∃ r ∈ s.runs.rows, r.id = id ∧ r.progress = .abandoned false
  | .mismatch => run = none ∧ ∃ r ∈ s.runs.rows, r.key = q.key ∧ r.fingerprint ≠ q.fingerprint
  | .refused => run = none
  | .mayApply => run.isSome
  | .failed => ∃ id, run = some id ∧ ∃ r ∈ s.runs.rows, r.id = id ∧ r.progress = .abandoned true

/-- What is known of a request. -/
structure RequestOk (s : Server K V) (q : KeyedRequest K V) : Prop where
  joined : ∀ id, q.stage.run = some id → s.Joined q id
  answer : ∀ run a, q.stage = .answered run a → AnswerOk cfg s q run a

variable {cfg} {s s' : Server K V} {q : KeyedRequest K V} {r : OpRun K V} {stage : Stage V}

/-! ## what only grows -/

/-- Time passes, runs are kept, with what has become of them, and so is what was dropped. -/
structure Grows (s s' : Server K V) : Prop where
  ttl : s'.store.ttl = s.store.ttl
  now : s.now ≤ s'.now
  runs : ∀ r ∈ s.runs.rows, ∃ r' ∈ s'.runs.rows, r'.id = r.id ∧ r'.key = r.key ∧ r'.fingerprint = r.fingerprint ∧
    (r.isLive = false → r'.progress = r.progress)
  evicted : s.evicted ⊆ s'.evicted

/-- What was dropped is dropped later too. -/
theorem Gone.mono {id now now' : Nat} (h : s.Gone id now) (hevicted : s.evicted ⊆ s'.evicted) (hnow : now ≤ now') :
    s'.Gone id now' :=
  h.imp fun _ ht => ⟨ht.1.trans hnow, hevicted ht.2⟩

/-- A run that is over stays as it is. -/
theorem Grows.of_progress (h : Grows s s') {p : Progress V} (hr : r ∈ s.runs.rows) (hp : r.progress = p)
    (hover : r.isLive = false) :
    ∃ r' ∈ s'.runs.rows, r'.id = r.id ∧ r'.key = r.key ∧ r'.fingerprint = r.fingerprint ∧ r'.progress = p := by
  obtain ⟨r', hr', hid, hkey, hbody, hsame⟩ := h.runs r hr
  exact ⟨r', hr', hid, hkey, hbody, (hsame hover).trans hp⟩

/-- What has been recorded stays recorded. -/
theorem Grows.recorded (h : Grows s s') {id : Nat} (hrun : s.Recorded id) : s'.Recorded id := by
  obtain ⟨r, hr, rfl, v, since, hp⟩ := hrun
  obtain ⟨r', hr', hid, -, -, hp'⟩ := h.of_progress hr hp (by rw [OpRun.isLive, hp])
  exact ⟨r', hr', hid, v, since, hp'⟩

/-- A request stays with the run that it has joined. -/
theorem Grows.joined (h : Grows s s') {id : Nat} (hq : s.Joined q id) : s'.Joined q id := by
  obtain ⟨r, hr, rfl, hkey, hbody⟩ := hq
  obtain ⟨r', hr', hid, hkey', hbody', -⟩ := h.runs r hr
  exact ⟨r', hr', hid, hkey'.trans hkey, hbody'.trans hbody⟩

/-- An answer stays true. -/
theorem Grows.answerOk (h : Grows s s') {run : Option Nat} {a : Answer V} (ha : AnswerOk cfg s q run a) :
    AnswerOk cfg s' q run a := by
  cases a with
  | value v =>
      obtain ⟨r, hr, hkey, hbody, since, hp⟩ := ha
      obtain ⟨r', hr', -, hkey', hbody', hp'⟩ := h.of_progress hr hp (by rw [OpRun.isLive, hp])
      exact ⟨r', hr', hkey'.trans hkey, hbody'.trans hbody, since, hp'⟩
  | tooLarge =>
      obtain ⟨r, hr, hkey, hbody, v, since, hp, hlong⟩ := ha
      obtain ⟨r', hr', -, hkey', hbody', hp'⟩ := h.of_progress hr hp (by rw [OpRun.isLive, hp])
      exact ⟨r', hr', hkey'.trans hkey, hbody'.trans hbody, v, since, hp', hlong⟩
  | busy =>
      intro id hid
      obtain ⟨r, hr, rfl, hp⟩ := ha id hid
      obtain ⟨r', hr', hid', -, -, hp'⟩ := h.of_progress hr hp (by rw [OpRun.isLive, hp])
      exact ⟨r', hr', hid', hp'⟩
  | mismatch =>
      obtain ⟨hrun, r, hr, hkey, hbody⟩ := ha
      obtain ⟨r', hr', -, hkey', hbody', -⟩ := h.runs r hr
      exact ⟨hrun, r', hr', hkey'.trans hkey, hbody' ▸ hbody⟩
  | refused => exact ha
  | mayApply => exact ha
  | failed =>
      obtain ⟨id, hrun, r, hr, rfl, hp⟩ := ha
      obtain ⟨r', hr', hid', -, -, hp'⟩ := h.of_progress hr hp (by rw [OpRun.isLive, hp])
      exact ⟨r.id, hrun, r', hr', hid', hp'⟩

/-- A request stays as it has to be. -/
theorem Grows.requestOk (h : Grows s s') (hq : RequestOk cfg s q) : RequestOk cfg s' q :=
  ⟨fun id hid => h.joined (hq.joined id hid), fun run a ha => h.answerOk (hq.answer run a ha)⟩

/-! ## rows -/

/-- The requests after one of them has moved on. -/
theorem mem_setStage {q' : KeyedRequest K V} (hq : q ∈ s.requests.rows) :
    q' ∈ (s.setStage q stage).requests.rows ↔
      q' ∈ s.requests.rows ∧ q'.id ≠ q.id ∨ q' = { q with stage } := by
  simp only [Server.setStage, Table.mem_updateWhere]
  constructor
  · rintro ⟨x, hx, rfl⟩
    by_cases hid : x.id = q.id
    · obtain rfl := s.requests.eq_of_key_eq hx hq hid
      exact Or.inr (by simp)
    · simp only [hid, decide_false, Bool.false_eq_true, if_false]
      exact Or.inl ⟨hx, hid⟩
  · rintro (⟨hx, hid⟩ | rfl)
    · exact ⟨q', hx, by simp [hid]⟩
    · exact ⟨q, hq, by simp⟩

/-- What is read of a run when its request is answered. -/
theorem find?_of_joined {run : Nat} (hjoined : s.Joined q run) (hfind : s.runs.find? run = some r) :
    r ∈ s.runs.rows ∧ r.id = run ∧ r.key = q.key ∧ r.fingerprint = q.fingerprint := by
  obtain ⟨r', hr', hid, hkey, hbody⟩ := hjoined
  obtain rfl := Option.some.inj ((Table.find?_of_mem hr').symm.trans (hid ▸ hfind))
  exact ⟨hr', hid, hkey, hbody⟩

/-- A run that is over has no entry in progress. -/
theorem isLive_of_recorded {v : V} {since : Nat} (h : r.progress = .recorded v since) : r.isLive = false := by
  rw [OpRun.isLive, h]

/-- The runs after one of them has changed. -/
theorem mem_setRun {id : Nat} {f : OpRun K V → OpRun K V} {hf : ∀ r, (f r).id = r.id} :
    r ∈ (s.setRun id f hf).runs.rows ↔ r ∈ s.runs.rows ∧ r.id ≠ id ∨ ∃ x ∈ s.runs.rows, x.id = id ∧ r = f x := by
  simp only [Server.setRun, Table.mem_updateWhere]
  constructor
  · rintro ⟨x, hx, rfl⟩
    by_cases hid : x.id = id
    · exact Or.inr ⟨x, hx, hid, by simp [hid]⟩
    · exact Or.inl (by simp [hid, hx])
  · rintro (⟨hr, hid⟩ | ⟨x, hx, hid, rfl⟩)
    · exact ⟨r, hr, by simp [hid]⟩
    · exact ⟨x, hx, by simp [hid]⟩

/-- The entry of a run, in a state. -/
def entryOf (r : OpRun K V) (state : State (Answer V)) : Entry K (Answer V) := ⟨r.key, r.id, r.fingerprint, state⟩

/-- A run whose new row is of the same op. -/
structure Moves (f : OpRun K V → OpRun K V) : Prop where
  id : ∀ r, (f r).id = r.id
  key : ∀ r, (f r).key = r.key
  fingerprint : ∀ r, (f r).fingerprint = r.fingerprint
  begun : ∀ r, (f r).begun = r.begun

/-- A run that moves on keeps the entry that it began with. -/
theorem Moves.entryOf {f : OpRun K V → OpRun K V} (hf : Moves f) (state : State (Answer V)) :
    entryOf (f r) state = entryOf r state := by
  rw [Server.entryOf, hf.id, hf.key, hf.fingerprint, Server.entryOf]

/-- A run's progress is no part of its entry. -/
theorem moves_progress (p : Progress V) : Moves fun r : OpRun K V => { r with progress := p } :=
  ⟨fun _ => rfl, fun _ => rfl, fun _ => rfl, fun _ => rfl⟩

/-- Nor is whether it was applied. -/
theorem moves_applied : Moves fun r : OpRun K V => { r with applied := true } :=
  ⟨fun _ => rfl, fun _ => rfl, fun _ => rfl, fun _ => rfl⟩

/-- Nor what was told of it. -/
theorem moves_told : Moves fun r : OpRun K V => { r with told := true } :=
  ⟨fun _ => rfl, fun _ => rfl, fun _ => rfl, fun _ => rfl⟩

/-- The rows after a run has moved: the others, and its new one. -/
theorem Moves.mem {f : OpRun K V → OpRun K V} (hf : Moves f) {x : OpRun K V} (hr : r ∈ s.runs.rows) :
    x ∈ (s.setRun r.id f hf.id).runs.rows ↔ x ∈ s.runs.rows ∧ x.id ≠ r.id ∨ x = f r := by
  rw [mem_setRun]
  refine or_congr_right ⟨?_, fun hx => ⟨r, hr, rfl, hx⟩⟩
  rintro ⟨y, hy, hid, rfl⟩
  rw [s.runs.eq_of_key_eq hy hr hid]

/-- What two runs were said to be, their rows are said to be after a step that one of them moves. -/
theorem Over.of_rows {x x' y y' : OpRun K V} (h : Over s x x') (httl : s'.store.ttl = s.store.ttl)
    (hevicted : s.evicted ⊆ s'.evicted) (hid : y.id = x.id) (hbegun : y'.begun = x'.begun)
    (hsame : x.isLive = false → y.progress = x.progress) : Over s' y y' := by
  obtain ⟨started, hp⟩ | ⟨v, since, hp, hexpired⟩ | hgone := h
  · exact Or.inl ⟨started, (hsame (by rw [OpRun.isLive, hp])).trans hp⟩
  · refine Or.inr (Or.inl ⟨v, since, (hsame (isLive_of_recorded hp)).trans hp, ?_⟩)
    rw [httl, hbegun]
    exact hexpired
  · exact Or.inr (Or.inr (hid ▸ hgone.mono hevicted (Nat.le_of_eq hbegun.symm)))

/-! ## what every step keeps -/

variable [DecidableEq K]

/-- What every step keeps. -/
structure Inv (cfg : Config K V) (s : Server K V) : Prop where
  settings : s.store.settings = cfg.settings
  kept : s.store.Kept
  fits : s.store.Fits
  issued : ∀ r ∈ s.runs.rows, r.id < s.store.nextId
  live : ∀ r ∈ s.runs.rows, r.isLive = true → s.store.entries.find? r.key = some (entryOf r .inProgress)
  recorded : ∀ r ∈ s.runs.rows, ∀ v since, r.progress = .recorded v since → since ≤ s.now ∧
    (s.store.entries.find? r.key =
        some (entryOf r (.done (recordedOf cfg v) (cfg.bytes (recordedOf cfg v)) since)) ∨
      s.store.ttl ≤ s.now - since ∨ s.Gone r.id s.now)
  entry : ∀ e ∈ s.store.entries.rows, ∃ r ∈ s.runs.rows, e = entryOf r e.state ∧
    (e.state = .inProgress → r.isLive = true) ∧
    ∀ a bytes since, e.state = .done a bytes since → ∃ v, r.progress = .recorded v since ∧ a = recordedOf cfg v
  gone : ∀ p ∈ s.evicted, s.Recorded p.1
  applied : ∀ r ∈ s.runs.rows, r.applied = true → r.hasStarted = true
  once : ∀ r ∈ s.runs.rows, ∀ r' ∈ s.runs.rows, r.key = r'.key → r.id < r'.id → s.Over r r'
  request : ∀ q ∈ s.requests.rows, RequestOk cfg s q
  owned : ∀ r ∈ s.runs.rows, ∃ q ∈ s.requests.rows,
    q.key = r.key ∧ q.fingerprint = r.fingerprint ∧ q.stage.run = some r.id

/-- What is lost of a store is what was in it and is not any more. -/
theorem mem_lost {before after : Store K (Answer V)} {now : Nat} {p : Nat × Nat} :
    p ∈ lost now before after ↔
      ∃ e ∈ before.entries.rows, after.entries.find? e.key = none ∧ p = (e.id, now) := by
  simp only [lost, List.mem_map, List.mem_filter, Option.isNone_iff_eq_none, and_assoc, @eq_comm _ p]

/-- A key that is found no more is lost. -/
theorem mem_lost_of_find? {before after : Store K (Answer V)} {now : Nat} {k : K} {e : Entry K (Answer V)}
    (he : before.entries.find? k = some e) (hgone : after.entries.find? k = none) :
    (e.id, now) ∈ lost now before after := by
  obtain rfl := Table.key_of_find? he
  exact mem_lost.mpr ⟨e, Table.mem_of_find? he, hgone, rfl⟩

/-- Nothing is lost of a store that stays. -/
theorem lost_self (store : Store K (Answer V)) (now : Nat) : lost now store store = [] := by
  refine List.eq_nil_iff_forall_not_mem.mpr fun p hp => ?_
  obtain ⟨e, he, hnone, -⟩ := mem_lost.mp hp
  cases hnone.symm.trans (Table.find?_of_mem he)

/-- An answer in the store is one that was recorded. -/
theorem Inv.recorded_of_done (h : Inv cfg s) {e : Entry K (Answer V)} (he : e ∈ s.store.entries.rows)
    (hdone : e.isDone = true) : s.Recorded e.id := by
  obtain ⟨r, hr, heq, -, hrecorded⟩ := h.entry e he
  cases hstate : e.state with
  | inProgress =>
      rw [Entry.isDone, hstate] at hdone
      cases hdone
  | done a bytes since =>
      obtain ⟨v, hp, -⟩ := hrecorded a bytes since hstate
      exact ⟨r, hr, by rw [heq]; rfl, v, since, hp⟩

/-! ## steps of a request -/

/-- A request moves on, and keeps the run that it has joined. -/
theorem Inv.setStage (h : Inv cfg s) (hq : q ∈ s.requests.rows)
    (hrun : ∀ id, q.stage.run = some id → stage.run = some id) (hok : RequestOk cfg s { q with stage }) :
    Inv cfg (s.setStage q stage) := by
  have hgrows : Grows s (s.setStage q stage) :=
    ⟨rfl, Nat.le_refl _, fun r hr => ⟨r, hr, rfl, rfl, rfl, fun _ => rfl⟩, fun _ hid => hid⟩
  refine { h with request := fun q' hq' => ?_, owned := fun r hr => ?_ }
  · obtain ⟨hold, -⟩ | rfl := (mem_setStage hq).mp hq'
    · exact hgrows.requestOk (h.request q' hold)
    · exact hgrows.requestOk hok
  · obtain ⟨o, ho, hkey, hbody, howns⟩ := h.owned r hr
    by_cases hid : o.id = q.id
    · obtain rfl := s.requests.eq_of_key_eq ho hq hid
      exact ⟨_, (mem_setStage hq).mpr (Or.inr rfl), hkey, hbody, hrun _ howns⟩
    · exact ⟨o, (mem_setStage hq).mpr (Or.inl ⟨ho, hid⟩), hkey, hbody, howns⟩

/-- An answer that a request gets of no run. -/
theorem Inv.answerNone {a : Answer V} (h : Inv cfg s) (hq : q ∈ s.requests.rows) (hstage : q.stage.run = none)
    (ha : AnswerOk cfg s q none a) : Inv cfg (s.setStage q (.answered none a)) :=
  h.setStage hq (fun id hid => by rw [hstage] at hid; cases hid)
    ⟨nofun, fun run b hb => by cases hb; exact ha⟩

/-- An admission keeps the invariant. -/
theorem Inv.admission {free : Bool} (h : Inv cfg s) (hq : q ∈ s.requests.rows) (hstage : q.stage = .arrived) :
    Inv cfg (s.admission q free) := by
  unfold Server.admission
  have hnone : q.stage.run = none := by rw [hstage]; rfl
  split
  · exact h.setStage hq (fun id hid => by rw [hnone] at hid; cases hid) ⟨nofun, nofun⟩
  · exact h.answerNone hq hnone nofun

/-- The answer of the run that a request has joined. -/
theorem Inv.answerSome {run : Nat} {a : Answer V} (h : Inv cfg s) (hq : q ∈ s.requests.rows)
    (hstage : q.stage.run = some run) (ha : s.Joined q run → AnswerOk cfg s q (some run) a) :
    Inv cfg (s.setStage q (.answered (some run) a)) := by
  have hjoined := (h.request q hq).joined run hstage
  refine h.setStage hq (fun id hid => hstage.symm.trans hid) ⟨fun id hid => ?_, fun run' b hb => ?_⟩
  · cases hid
    exact hjoined
  · cases hb
    exact ha hjoined

/-- A reply keeps it. -/
theorem Inv.reply (h : Inv cfg s) (hq : q ∈ s.requests.rows) : Inv cfg (s.reply q) := by
  unfold Server.reply
  split
  · next run hstage =>
      cases hfind : (s.runs.find? run).bind ownAnswer with
      | none => exact h
      | some a =>
          obtain ⟨r, hr, ha⟩ := Option.bind_eq_some_iff.mp hfind
          refine h.answerSome hq (by rw [hstage]; rfl) fun hjoined => ?_
          obtain ⟨hmem, hid, hkey, hbody⟩ := find?_of_joined hjoined hr
          unfold ownAnswer at ha
          split at ha
          swap
          · cases ha
          split at ha <;> cases ha
          · next v since hp => exact ⟨r, hmem, hkey, hbody, since, hp⟩
          · next hp => exact ⟨run, rfl, r, hmem, hid, hp⟩
          · next hp => exact fun id heq => ⟨r, hmem, hid.trans (Option.some.inj heq), hp⟩
  · next run hstage =>
      cases hfind : (s.runs.find? run).bind waitAnswer with
      | none => exact h
      | some a =>
          obtain ⟨r, hr, ha⟩ := Option.bind_eq_some_iff.mp hfind
          refine h.answerSome hq (by rw [hstage]; rfl) fun hjoined => ?_
          obtain ⟨hmem, hid, hkey, hbody⟩ := find?_of_joined hjoined hr
          unfold waitAnswer at ha
          split at ha
          swap
          · cases ha
          split at ha <;> cases ha
          · next v since hp => exact ⟨r, hmem, hkey, hbody, since, hp⟩
          · rfl
          · next hp => exact fun id heq => ⟨r, hmem, hid.trans (Option.some.inj heq), hp⟩
  · exact h

/-! ## steps of a run -/

/-- **A run moves**, and the store with it. What is left to show is what is in the store of each run. -/
theorem Inv.of_setRun {f : OpRun K V → OpRun K V} (h : Inv cfg s) (hr : r ∈ s.runs.rows) (hf : Moves f)
    (hsame : r.isLive = false → (f r).progress = r.progress)
    (happlied : (f r).applied = true → (f r).hasStarted = true) (hruns : s'.runs = (s.setRun r.id f hf.id).runs)
    (hrequests : s'.requests = s.requests) (hnow : s.now ≤ s'.now) (hset : s'.store.settings = s.store.settings)
    (hnext : s'.store.nextId = s.store.nextId) (hevicted : s.evicted ⊆ s'.evicted) (hkept : s'.store.Kept)
    (hfits : s'.store.Fits)
    (hlive : ∀ x ∈ s'.runs.rows, x.isLive = true → s'.store.entries.find? x.key = some (Server.entryOf x .inProgress))
    (hrecorded : ∀ x ∈ s'.runs.rows, ∀ v since, x.progress = .recorded v since → since ≤ s'.now ∧
      (s'.store.entries.find? x.key =
          some (Server.entryOf x (.done (recordedOf cfg v) (cfg.bytes (recordedOf cfg v)) since)) ∨
        s'.store.ttl ≤ s'.now - since ∨ s'.Gone x.id s'.now))
    (hentry : ∀ e ∈ s'.store.entries.rows, ∃ x ∈ s'.runs.rows, e = Server.entryOf x e.state ∧
      (e.state = .inProgress → x.isLive = true) ∧
      ∀ a bytes since, e.state = .done a bytes since → ∃ v, x.progress = .recorded v since ∧ a = recordedOf cfg v)
    (hgone : ∀ p ∈ s'.evicted, s.Recorded p.1 ∨ s'.Recorded p.1) : Inv cfg s' := by
  have hrow : ∀ y ∈ s'.runs.rows, ∃ x ∈ s.runs.rows, y.id = x.id ∧ y.key = x.key ∧ y.fingerprint = x.fingerprint ∧
      y.begun = x.begun ∧ (x.isLive = false → y.progress = x.progress) := fun y hy => by
    obtain ⟨hy, -⟩ | rfl := (hf.mem hr).mp (hruns ▸ hy)
    · exact ⟨y, hy, rfl, rfl, rfl, rfl, fun _ => rfl⟩
    · exact ⟨r, hr, hf.id r, hf.key r, hf.fingerprint r, hf.begun r, hsame⟩
  have hgrows : Grows s s' := by
    refine ⟨Store.ttl_of_settings hset, hnow, fun x hx => ?_, hevicted⟩
    rw [hruns]
    by_cases hid : x.id = r.id
    · obtain rfl := s.runs.eq_of_key_eq hx hr hid
      exact ⟨f x, (hf.mem hr).mpr (Or.inr rfl), hf.id x, hf.key x, hf.fingerprint x, hsame⟩
    · exact ⟨x, (hf.mem hr).mpr (Or.inl ⟨hx, hid⟩), rfl, rfl, rfl, fun _ => rfl⟩
  refine ⟨hset.trans h.settings, hkept, hfits, fun y hy => ?_, hlive, hrecorded, hentry,
    fun p hp => (hgone p hp).elim hgrows.recorded id, fun y hy hy_applied => ?_,
    fun y hy y' hy' hkey hlt => ?_, fun q hq => ?_, fun y hy => ?_⟩
  · obtain ⟨x, hx, hid, -⟩ := hrow y hy
    rw [hid, hnext]
    exact h.issued x hx
  · obtain ⟨hy, -⟩ | rfl := (hf.mem hr).mp (hruns ▸ hy)
    · exact h.applied y hy hy_applied
    · exact happlied hy_applied
  · obtain ⟨x, hx, hid, hk, -, -, hp⟩ := hrow y hy
    obtain ⟨x', hx', hid', hk', -, hbegun, -⟩ := hrow y' hy'
    have hover := h.once x hx x' hx' (hk.symm.trans (hkey.trans hk')) (hid ▸ hid' ▸ hlt)
    exact hover.of_rows hgrows.ttl hevicted hid hbegun hp
  · exact hgrows.requestOk (h.request q (hrequests ▸ hq))
  · obtain ⟨x, hx, hid, hk, hbody, -⟩ := hrow y hy
    obtain ⟨q, hq, hqkey, hqbody, howns⟩ := h.owned x hx
    exact ⟨q, hrequests ▸ hq, hqkey.trans hk.symm, hqbody.trans hbody.symm, howns.trans (congrArg some hid.symm)⟩

/-- A run moves on, and is as live as it was. -/
theorem Inv.setRun {f : OpRun K V → OpRun K V} (h : Inv cfg s) (hr : r ∈ s.runs.rows) (hf : Moves f)
    (hlive : (f r).isLive = r.isLive) (hsame : r.isLive = false → (f r).progress = r.progress)
    (happlied : (f r).applied = true → (f r).hasStarted = true) : Inv cfg (s.setRun r.id f hf.id) := by
  refine h.of_setRun hr hf hsame happlied rfl rfl (Nat.le_refl _) rfl rfl (fun _ hid => hid) h.kept h.fits ?_ ?_ ?_
    fun p hp => Or.inl (h.gone p hp)
  · intro x hx hx_live
    obtain ⟨hx, -⟩ | rfl := (hf.mem hr).mp hx
    · exact h.live x hx hx_live
    · rw [hf.key, hf.entryOf]
      exact h.live r hr (hlive ▸ hx_live)
  · intro x hx v since hp
    obtain ⟨hx, -⟩ | rfl := (hf.mem hr).mp hx
    · exact h.recorded x hx v since hp
    · have hover : r.isLive = false := hlive ▸ isLive_of_recorded hp
      rw [hf.key, hf.entryOf, hf.id]
      exact h.recorded r hr v since ((hsame hover).symm.trans hp)
  · intro e he
    obtain ⟨x, hx, heq, hruns, hdone⟩ := h.entry e he
    by_cases hid : x.id = r.id
    · obtain rfl := s.runs.eq_of_key_eq hx hr hid
      refine ⟨f x, (hf.mem hr).mpr (Or.inr rfl), by rw [hf.entryOf]; exact heq,
        fun hstate => hlive.trans (hruns hstate), fun a bytes since hstate => ?_⟩
      obtain ⟨v, hp, ha⟩ := hdone a bytes since hstate
      exact ⟨v, (hsame (isLive_of_recorded hp)).trans hp, ha⟩
    · exact ⟨x, (hf.mem hr).mpr (Or.inl ⟨hx, hid⟩), heq, hruns, hdone⟩

/-- One op of a key runs at a time. -/
theorem Inv.eq_of_live (h : Inv cfg s) {x : OpRun K V} (hr : r ∈ s.runs.rows) (hx : x ∈ s.runs.rows)
    (hr_live : r.isLive = true) (hx_live : x.isLive = true) (hkey : x.key = r.key) : x = r := by
  have heq := (h.live x hx hx_live).symm.trans (hkey ▸ h.live r hr hr_live)
  exact s.runs.eq_of_key_eq hx hr (congrArg Entry.id (Option.some.inj heq))

/-- The store has a live run's op as one that runs. -/
theorem Inv.running (h : Inv cfg s) (hr : r ∈ s.runs.rows) (hlive : r.isLive = true) :
    s.store.running r.key r.id = some (Server.entryOf r .inProgress) :=
  Store.running_eq_some.mpr ⟨h.live r hr hlive, rfl, rfl⟩

/-- What is in the store of a recorded run is not under the key of one that is live. -/
theorem Inv.key_ne (h : Inv cfg s) {x : OpRun K V} {a : Answer V} {bytes since : Nat} (hr : r ∈ s.runs.rows)
    (hlive : r.isLive = true) (hx : s.store.entries.find? x.key = some (Server.entryOf x (.done a bytes since))) :
    r.key ≠ x.key := fun hkey => by
  have heq := (h.live r hr hlive).symm.trans (hkey ▸ hx)
  cases congrArg Entry.state (Option.some.inj heq)

/-- So does a run that is dropped. -/
theorem Inv.drop {started : Bool} (h : Inv cfg s) (hr : r ∈ s.runs.rows) (hlive : r.isLive = true)
    (hstarted : r.hasStarted = started) : Inv cfg (s.drop r started) := by
  have hrun := h.running hr hlive
  have hf : Moves fun r : OpRun K V => { r with progress := .abandoned started } := moves_progress _
  have hstore : (s.drop r started).store.settings = s.store.settings ∧
      (s.drop r started).store.nextId = s.store.nextId := by
    show (s.store.abandon r.key r.id).settings = _ ∧ (s.store.abandon r.key r.id).nextId = _
    rw [Store.abandon_of_running hrun]
    exact ⟨rfl, rfl⟩
  have happlied : r.applied = true →
      ({ r with progress := .abandoned started } : OpRun K V).hasStarted = true := fun happlied => by
    rw [h.applied r hr happlied] at hstarted
    cases hstarted
    rfl
  refine h.of_setRun hr hf (fun hover => absurd hlive (by simp [hover])) happlied rfl rfl (Nat.le_refl _) hstore.1
    hstore.2 (fun _ hid => hid) h.kept.abandon h.fits.abandon ?_ ?_ ?_ fun p hp =>
      Or.inl (h.gone p hp)
  · intro x hx hx_live
    obtain ⟨hx, hid⟩ | rfl := (hf.mem hr).mp hx
    · have hkey : r.key ≠ x.key := fun hkey => hid (by rw [h.eq_of_live hr hx hlive hx_live hkey.symm])
      exact ((Store.find?_abandon hrun _).trans (if_neg hkey)).trans (h.live x hx hx_live)
    · cases hx_live
  · intro x hx v since hp
    obtain ⟨hx, -⟩ | rfl := (hf.mem hr).mp hx
    · obtain ⟨hsince, hhere | hgone⟩ := h.recorded x hx v since hp
      · have hsame := (Store.find?_abandon hrun x.key).trans (if_neg (h.key_ne hr hlive hhere))
        exact ⟨hsince, Or.inl (hsame.trans hhere)⟩
      · refine ⟨hsince, Or.inr ?_⟩
        rw [Store.ttl_of_settings hstore.1]
        exact hgone
    · cases hp
  · intro e he
    have hsub : e ∈ s.store.entries.rows ∧ e.key ≠ r.key := by
      have he' : e ∈ (s.store.abandon r.key r.id).entries.rows := he
      rw [Store.abandon_of_running hrun] at he'
      obtain ⟨hmem, hkey⟩ := Table.mem_deleteWhere.mp he'
      exact ⟨hmem, of_decide_eq_false hkey⟩
    obtain ⟨x, hx, heq, hdone⟩ := h.entry e hsub.1
    refine ⟨x, (hf.mem hr).mpr (Or.inl ⟨hx, fun hid => hsub.2 ?_⟩), heq, hdone⟩
    rw [heq, ← s.runs.eq_of_key_eq hx hr hid]
    rfl

/-- So does one that ends. -/
theorem Inv.finish {v : V} (h : Inv cfg s) (hr : r ∈ s.runs.rows) (hp : r.progress = .ran v) :
    Inv cfg (s.finish cfg r v) := by
  have hlive : r.isLive = true := by rw [OpRun.isLive, hp]
  have hrun := h.running hr hlive
  have hf : Moves fun r : OpRun K V => { r with progress := .recorded v s.now } := moves_progress _
  have hfind := Store.find?_finish cfg.iter (recordedOf cfg v) (cfg.bytes (recordedOf cfg v)) s.now hrun
  have hstore : (s.finish cfg r v).store.settings = s.store.settings ∧
      (s.finish cfg r v).store.nextId = s.store.nextId := by
    show (s.store.finish ..).settings = _ ∧ (s.store.finish ..).nextId = _
    rw [Store.finish_of_running hrun]
    exact ⟨(Store.evicts_evict _ _).settings, (Store.evicts_evict _ _).nextId⟩
  refine h.of_setRun hr hf (fun hover => absurd hlive (by simp [hover])) (fun _ => rfl) rfl rfl (Nat.le_refl _)
    hstore.1 hstore.2 (List.subset_append_right _ _) h.kept.finish h.fits.finish ?_ ?_ ?_ ?_
  · intro x hx hx_live
    obtain ⟨hx, hid⟩ | rfl := (hf.mem hr).mp hx
    swap
    · cases hx_live
    have hkey : r.key ≠ x.key := fun hkey => hid (by rw [h.eq_of_live hr hx hlive hx_live hkey.symm])
    have hhere := h.live x hx hx_live
    obtain hsame | ⟨heq | ⟨e, he, hdone⟩, -⟩ := hfind x.key
    · exact (hsame.trans (if_neg hkey)).trans hhere
    · exact absurd heq hkey
    · cases hhere.symm.trans he
      cases hdone
  · intro x hx v' since hp'
    obtain ⟨hx, -⟩ | rfl := (hf.mem hr).mp hx
    · obtain ⟨hsince, hhere | hexpired | hevicted⟩ := h.recorded x hx v' since hp'
      · refine ⟨hsince, ?_⟩
        obtain hsame | ⟨-, hnone⟩ := hfind x.key
        · exact Or.inl ((hsame.trans (if_neg (h.key_ne hr hlive hhere))).trans hhere)
        · exact Or.inr (Or.inr ⟨s.now, Nat.le_refl _, List.mem_append_left _ (mem_lost_of_find? hhere hnone)⟩)
      · refine ⟨hsince, Or.inr (Or.inl ?_)⟩
        rw [Store.ttl_of_settings hstore.1]
        exact hexpired
      · exact ⟨hsince, Or.inr (Or.inr (hevicted.mono (List.subset_append_right _ _) (Nat.le_refl _)))⟩
    · cases hp'
      refine ⟨Nat.le_refl _, ?_⟩
      obtain hsame | ⟨-, hnone⟩ := hfind r.key
      · exact Or.inl (hsame.trans (if_pos rfl))
      · have hlost : (r.id, s.now) ∈ lost s.now s.store _ := mem_lost_of_find? (h.live r hr hlive) hnone
        exact Or.inr (Or.inr ⟨s.now, Nat.le_refl _, List.mem_append_left _ hlost⟩)
  · intro e he
    have hhere := Table.find?_of_mem he
    obtain hsame | ⟨-, hnone⟩ := hfind e.key
    swap
    · cases hnone.symm.trans hhere
    by_cases hkey : r.key = e.key
    · obtain heq := Option.some.inj ((hsame.trans (if_pos hkey)).symm.trans hhere)
      refine ⟨_, (hf.mem hr).mpr (Or.inr rfl), ?_, fun hstate => ?_, fun a bytes since hstate => ?_⟩
      · rw [← heq]
        rfl
      · rw [← heq] at hstate
        cases hstate
      · rw [← heq] at hstate
        cases hstate
        exact ⟨v, rfl, rfl⟩
    · obtain ⟨x, hx, heq, hdone⟩ := h.entry e (Table.mem_of_find? ((hsame.trans (if_neg hkey)).symm.trans hhere))
      refine ⟨x, (hf.mem hr).mpr (Or.inl ⟨hx, fun hid => hkey ?_⟩), heq, hdone⟩
      rw [heq, ← s.runs.eq_of_key_eq hx hr hid]
      rfl
  · intro p hp
    obtain hp | hp := List.mem_append.mp hp
    swap
    · exact Or.inl (h.gone p hp)
    obtain ⟨e, he, hnone, rfl⟩ := mem_lost.mp hp
    have hhere := Table.find?_of_mem he
    obtain hsame | ⟨hkey | ⟨x, hx, hdone⟩, -⟩ := hfind e.key
    · rw [hnone] at hsame
      split at hsame
      · cases hsame
      · cases hsame.trans hhere
    · have heq := Option.some.inj (hhere.symm.trans (hkey ▸ h.live r hr hlive))
      exact Or.inr ⟨_, (hf.mem hr).mpr (Or.inr rfl), (congrArg Entry.id heq).symm, v, s.now, rfl⟩
    · cases hhere.symm.trans hx
      exact Or.inl (h.recorded_of_done he hdone)

/-! ## a request is served -/

/-- An answer that is recorded and has not expired is found. -/
theorem find?_expire_of_done {x : OpRun K V} {a : Answer V} {bytes since : Nat}
    (hhere : s.store.entries.find? x.key = some (entryOf x (.done a bytes since))) :
    (s.store.expire s.now).entries.find? x.key = some (entryOf x (.done a bytes since)) ∨
      s.store.ttl ≤ s.now - since := by
  by_cases httl : s.store.ttl ≤ s.now - since
  · exact Or.inr httl
  · refine Or.inl ((Store.find?_expire _ _ _).trans ?_)
    rw [hhere, Option.filter_some_pos]
    simp [Entry.isExpired, Entry.isDone, Entry.since, entryOf, httl]

/-- What has expired is forgotten. -/
theorem Inv.expire (h : Inv cfg s) : Inv cfg { s with store := s.store.expire s.now } := by
  have hgrows : Grows s { s with store := s.store.expire s.now } :=
    ⟨rfl, Nat.le_refl _, fun r hr => ⟨r, hr, rfl, rfl, rfl, fun _ => rfl⟩, fun _ hid => hid⟩
  refine ⟨h.settings, h.kept.expire, h.fits.expire, h.issued, fun r hr hlive => ?_, fun r hr v since hp => ?_,
    fun e he => ?_, h.gone, h.applied, fun r hr r' hr' hkey hlt => ?_,
    fun q hq => hgrows.requestOk (h.request q hq), h.owned⟩
  · exact Store.find?_expire_of_inProgress (h.live r hr hlive) rfl
  · obtain ⟨hsince, hhere | hexpired | hgone⟩ := h.recorded r hr v since hp
    · exact ⟨hsince, (find?_expire_of_done hhere).imp_right Or.inl⟩
    · exact ⟨hsince, Or.inr (Or.inl hexpired)⟩
    · exact ⟨hsince, Or.inr (Or.inr hgone)⟩
  · exact h.entry e (Table.mem_deleteWhere.mp he).1
  · exact (h.once r hr r' hr' hkey hlt).of_rows rfl (fun _ hid => hid) rfl rfl fun _ => rfl

/-- **An op that is begun because its key has no entry** repeats nothing. -/
theorem Inv.over_of_free (h : Inv cfg s) (hr : r ∈ s.runs.rows)
    (hfree : (s.store.expire s.now).entries.find? r.key = none) {x : OpRun K V} (hbegun : x.begun = s.now) :
    s.Over r x := by
  have hlive : r.isLive = false := by
    by_contra hlive
    have hhere := h.live r hr (Bool.eq_true_of_not_eq_false hlive)
    cases hfree.symm.trans (Store.find?_expire_of_inProgress hhere rfl)
  cases hp : r.progress with
  | spawned => rw [OpRun.isLive, hp] at hlive; cases hlive
  | started => rw [OpRun.isLive, hp] at hlive; cases hlive
  | ran v => rw [OpRun.isLive, hp] at hlive; cases hlive
  | abandoned started => exact Or.inl ⟨started, hp⟩
  | recorded v since =>
      obtain ⟨-, hhere | hexpired | hgone⟩ := h.recorded r hr v since hp
      · obtain hstays | hexpired := find?_expire_of_done hhere
        · cases hfree.symm.trans hstays
        · exact Or.inr (Or.inl ⟨v, since, hp, hbegun ▸ hexpired⟩)
      · exact Or.inr (Or.inl ⟨v, since, hp, hbegun ▸ hexpired⟩)
      · exact Or.inr (Or.inr (hbegun ▸ hgone))

/-- An op is begun. -/
theorem Inv.serveKeyed_of_free (h : Inv cfg s) (hq : q ∈ s.requests.rows) (hstage : q.stage.run = none)
    (hfree : (s.store.expire s.now).entries.find? q.key = none) : Inv cfg (s.serveKeyed cfg q) := by
  obtain ⟨hrun, hnext, hset⟩ := Store.begin_of_free cfg.iter q.fingerprint hfree
  have hfind := Store.find?_begin cfg.iter q.fingerprint hfree
  have hkept : (s.store.begin cfg.iter q.key q.fingerprint s.now).2.Kept := h.kept.begin
  have hfits : (s.store.begin cfg.iter q.key q.fingerprint s.now).2.Fits := h.fits.begin
  unfold Server.serveKeyed
  dsimp only
  rw [hrun]
  dsimp only
  generalize hstore : (s.store.begin cfg.iter q.key q.fingerprint s.now).2 = store at *
  generalize hnew : (⟨s.store.nextId, q.key, q.fingerprint, s.now, .spawned, false, false⟩ : OpRun K V) = new
  have httl : store.ttl = s.store.ttl := Store.ttl_of_settings hset
  have hid : new.id = s.store.nextId := by rw [← hnew]
  have hmem : ∀ {x}, x ∈ (s.runs.insertOrIgnore new).1.rows ↔ x ∈ s.runs.rows ∨ x = new :=
    Table.mem_insertOrIgnore_of_free (Table.find?_eq_none.mpr fun r hr => hid ▸ (h.issued r hr).ne)
  have hentry : Server.entryOf new .inProgress = ⟨q.key, s.store.nextId, q.fingerprint, .inProgress⟩ := by
    rw [← hnew]
    rfl
  have hkey : new.key = q.key := by rw [← hnew]
  have hbody : new.fingerprint = q.fingerprint := by rw [← hnew]
  have hevicted : s.evicted ⊆ lost s.now (s.store.expire s.now) store ++ s.evicted := List.subset_append_right _ _
  have hgrows : Grows s ({ s with
      store, evicted := lost s.now (s.store.expire s.now) store ++ s.evicted
      runs := (s.runs.insertOrIgnore new).1 }.setStage q (.owner s.store.nextId)) :=
    ⟨httl, Nat.le_refl _, fun r hr => ⟨r, hmem.mpr (Or.inl hr), rfl, rfl, rfl, fun _ => rfl⟩, hevicted⟩
  refine ⟨hset.trans h.settings, hkept, hfits, fun r hr => ?_, fun r hr hlive => ?_, fun r hr v since hp => ?_,
    fun e he => ?_, fun p hp => ?_, fun r hr happlied => ?_, fun r hr r' hr' hk hlt => ?_, fun q' hq' => ?_,
    fun r hr => ?_⟩
  · show r.id < store.nextId
    rw [hnext]
    obtain hr | rfl := hmem.mp hr
    · exact Nat.lt_succ_of_lt (h.issued r hr)
    · omega
  · obtain hr | rfl := hmem.mp hr
    · have hhere : (s.store.expire s.now).entries.find? r.key = _ :=
        Store.find?_expire_of_inProgress (h.live r hr hlive) rfl
      obtain hsame | ⟨-, e, he, hdone, -⟩ := hfind r.key
      · refine hsame.trans ((if_neg fun hk => ?_).trans hhere)
        cases (hk ▸ hfree).symm.trans hhere
      · cases hhere.symm.trans he
        cases hdone
    · rw [hkey, hentry]
      exact ((hfind q.key).resolve_right fun hne => hne.1 rfl).trans (if_pos rfl)
  · obtain hr | rfl := hmem.mp hr
    swap
    · rw [← hnew] at hp
      cases hp
    obtain ⟨hsince, hhere | hexpired | hgone⟩ := h.recorded r hr v since hp
    · refine ⟨hsince, ?_⟩
      obtain hstays | hexpired := find?_expire_of_done hhere
      swap
      · exact Or.inr (Or.inl (httl ▸ hexpired))
      obtain hsame | ⟨-, e, he, -, hnone⟩ := hfind r.key
      · refine Or.inl (hsame.trans ((if_neg fun hk => ?_).trans hstays))
        cases (hk ▸ hfree).symm.trans hstays
      · exact Or.inr (Or.inr ⟨s.now, Nat.le_refl _, List.mem_append_left _ (mem_lost_of_find? hstays hnone)⟩)
    · exact ⟨hsince, Or.inr (Or.inl (httl ▸ hexpired))⟩
    · exact ⟨hsince, Or.inr (Or.inr (hgone.mono hevicted (Nat.le_refl _)))⟩
  · have hhere := Table.find?_of_mem he
    obtain hsame | ⟨-, x, -, -, hnone⟩ := hfind e.key
    swap
    · cases hnone.symm.trans hhere
    by_cases hk : q.key = e.key
    · have heq := Option.some.inj ((hsame.trans (if_pos hk)).symm.trans hhere)
      refine ⟨new, hmem.mpr (Or.inr rfl), ?_, fun _ => by rw [← hnew]; rfl, fun a bytes since hdone => ?_⟩
      · rw [← heq]
        exact hentry.symm
      · rw [← heq] at hdone
        cases hdone
    · have hold := Table.mem_of_find? ((hsame.trans (if_neg hk)).symm.trans hhere)
      obtain ⟨r, hr, heq, hdone⟩ := h.entry e (Table.mem_deleteWhere.mp hold).1
      exact ⟨r, hmem.mpr (Or.inl hr), heq, hdone⟩
  · obtain hp | hp := List.mem_append.mp hp
    swap
    · exact hgrows.recorded (h.gone p hp)
    obtain ⟨e, he, hnone, rfl⟩ := mem_lost.mp hp
    have hhere := Table.find?_of_mem he
    obtain hsame | ⟨-, x, hx, hdone, -⟩ := hfind e.key
    · rw [hnone] at hsame
      split at hsame
      · cases hsame
      · cases hsame.trans hhere
    · cases hhere.symm.trans hx
      exact hgrows.recorded (h.recorded_of_done (Table.mem_deleteWhere.mp he).1 hdone)
  · obtain hr | rfl := hmem.mp hr
    · exact h.applied r hr happlied
    · rw [← hnew] at happlied
      cases happlied
  · obtain hold | rfl := hmem.mp hr
    · have hover : s.Over r r' := by
        obtain hold' | rfl := hmem.mp hr'
        · exact h.once r hold r' hold' hk hlt
        · exact h.over_of_free hold (by rw [hk, hkey]; exact hfree) (by rw [← hnew])
      exact hover.of_rows httl hevicted rfl rfl fun _ => rfl
    · obtain hold' | rfl := hmem.mp hr'
      · have hlt' := h.issued r' hold'
        omega
      · exact absurd hlt (Nat.lt_irrefl _)
  · obtain ⟨hold, -⟩ | rfl := (mem_setStage hq).mp hq'
    · exact hgrows.requestOk (h.request q' hold)
    · refine ⟨fun id hown => ?_, fun _ _ hanswered => by cases hanswered⟩
      cases hown
      exact ⟨new, hmem.mpr (Or.inr rfl), hid, hkey, hbody⟩
  · obtain hr | rfl := hmem.mp hr
    · obtain ⟨o, ho, hk, hb, howns⟩ := h.owned r hr
      refine ⟨o, (mem_setStage hq).mpr (Or.inl ⟨ho, fun heq => ?_⟩), hk, hb, howns⟩
      rw [s.requests.eq_of_key_eq ho hq heq, hstage] at howns
      cases howns
    · exact ⟨_, (mem_setStage hq).mpr (Or.inr rfl), hkey.symm, hbody.symm, congrArg some hid.symm⟩

/-- So does a request that is served. -/
theorem Inv.serveKeyed (h : Inv cfg s) (hq : q ∈ s.requests.rows) (hstage : q.stage.run = none) :
    Inv cfg (s.serveKeyed cfg q) := by
  obtain ⟨hfree, -⟩ | ⟨e, he, hstore, hfound⟩ := Store.begin_cases cfg.iter s.store q.key q.fingerprint s.now
  · exact h.serveKeyed_of_free hq hstage hfree
  have hexpire := h.expire
  obtain ⟨r, hr, heq, -, hdone⟩ := hexpire.entry e (Table.mem_of_find? he)
  have hkey : r.key = q.key := by rw [← Table.key_of_find? he, heq]; rfl
  have hbody : r.fingerprint = e.fingerprint := by rw [heq]; rfl
  unfold Server.serveKeyed
  dsimp only
  rw [hstore, hfound, lost_self, List.nil_append]
  by_cases hsame : e.fingerprint = q.fingerprint
  · rw [if_neg (not_not.mpr hsame)]
    cases hstate : e.state with
    | inProgress =>
        refine hexpire.setStage hq (fun id hid => by rw [hstage] at hid; cases hid) ⟨fun id hid => ?_, nofun⟩
        cases hid
        exact ⟨r, hr, by rw [heq]; rfl, hkey, hbody.trans hsame⟩
    | done a bytes since =>
        obtain ⟨v, hp, rfl⟩ := hdone a bytes since hstate
        refine hexpire.answerNone hq hstage ?_
        unfold recordedOf
        split
        · next hlong => exact ⟨r, hr, hkey, hbody.trans hsame, v, since, hp, hlong⟩
        · exact ⟨r, hr, hkey, hbody.trans hsame, since, hp⟩
  · rw [if_pos hsame]
    exact hexpire.answerNone hq hstage ⟨rfl, r, hr, hkey, hbody ▸ hsame⟩

/-! ## every step -/

/-- So does one that stops waiting. -/
theorem Inv.giveUp (h : Inv cfg s) (hq : q ∈ s.requests.rows) {run : Nat} (hstage : q.stage = .waiting run) :
    Inv cfg (s.setStage q (.answered (some run) .mayApply)) :=
  h.answerSome hq (by rw [hstage]; rfl) fun _ => rfl

/-- So does whatever a request does next. -/
theorem Inv.requestStep (h : Inv cfg s) (hq : q ∈ s.requests.rows) (step : Step K V) :
    Inv cfg (s.requestStep cfg q step) := by
  cases step with
  | admission _ free =>
      rw [Server.requestStep]
      cases hstage : q.stage <;> first | exact h | exact h.admission hq hstage
  | refuse _ =>
      rw [Server.requestStep]
      cases hstage : q.stage <;> first | exact h | exact h.answerNone hq (by rw [hstage]; rfl) rfl
  | serve _ =>
      rw [Server.requestStep]
      cases hstage : q.stage <;> first | exact h | exact h.serveKeyed hq (by rw [hstage]; rfl)
  | reply _ => exact h.reply hq
  | giveUp _ =>
      rw [Server.requestStep]
      cases hstage : q.stage <;> first | exact h | exact h.giveUp hq hstage
  | _ => exact h

/-- So does whatever a run does next. -/
theorem Inv.runStep (h : Inv cfg s) (hr : r ∈ s.runs.rows) (step : Step K V) : Inv cfg (s.runStep cfg r step) := by
  cases step with
  | start _ free =>
      rw [Server.runStep]
      cases hp : r.progress <;> try exact h
      have hlive : r.isLive = true := by rw [OpRun.isLive, hp]
      have hstarted : r.hasStarted = false := by rw [OpRun.hasStarted, hp]
      cases free with
      | false => exact h.drop hr hlive hstarted
      | true =>
          refine h.setRun hr (moves_progress .started) hlive.symm (fun hover => ?_) fun _ => rfl
          exact absurd hlive (by simp [hover])
  | apply _ =>
      rw [Server.runStep]
      cases hp : r.progress <;> try exact h
      have hstarted : r.hasStarted = true := by rw [OpRun.hasStarted, hp]
      exact h.setRun hr moves_applied rfl (fun _ => rfl) fun _ => hstarted
  | ran _ v =>
      rw [Server.runStep]
      cases hp : r.progress <;> try exact h
      have hlive : r.isLive = true := by rw [OpRun.isLive, hp]
      refine h.setRun hr (moves_progress (.ran v)) hlive.symm (fun hover => ?_) fun _ => rfl
      exact absurd hlive (by simp [hover])
  | panic _ =>
      rw [Server.runStep]
      cases hp : r.progress <;> try exact h
      exact h.drop hr (by rw [OpRun.isLive, hp]) (by rw [OpRun.hasStarted, hp])
  | finish _ =>
      rw [Server.runStep]
      cases hp : r.progress <;> try exact h
      exact h.finish hr hp
  | tell _ =>
      rw [Server.runStep]
      split
      · exact h
      · exact h.setRun hr moves_told rfl (fun _ => rfl) (h.applied r hr)
  | _ => exact h

/-- So does an arrival. -/
theorem Inv.arrive (h : Inv cfg s) (id : Nat) (key : K) (fingerprint : Nat) :
    Inv cfg { s with requests := (s.requests.insertOrIgnore ⟨id, key, fingerprint, .arrived⟩).1 } := by
  refine { h with
    request := fun q hq => ?_
    owned := fun r hr => (h.owned r hr).imp fun q hq => hq.imp_left Table.mem_insertOrIgnore_of_mem }
  obtain hq | rfl := Table.mem_insertOrIgnore hq
  · have hgrows : Grows s { s with requests := (s.requests.insertOrIgnore ⟨id, key, fingerprint, .arrived⟩).1 } :=
      ⟨rfl, Nat.le_refl _, fun r hr => ⟨r, hr, rfl, rfl, rfl, fun _ => rfl⟩, fun _ hid => hid⟩
    exact hgrows.requestOk (h.request q hq)
  · exact ⟨nofun, nofun⟩

/-- So does the clock. -/
theorem Inv.tick (h : Inv cfg s) (ms : Nat) : Inv cfg { s with now := s.now + ms } := by
  have hgrows : Grows s { s with now := s.now + ms } :=
    ⟨rfl, Nat.le_add_right _ _, fun r hr => ⟨r, hr, rfl, rfl, rfl, fun _ => rfl⟩, fun _ hid => hid⟩
  refine { h with
    recorded := fun r hr v since hp => ?_
    once := fun r hr r' hr' hkey hlt =>
      (h.once r hr r' hr' hkey hlt).of_rows rfl (fun _ hid => hid) rfl rfl fun _ => rfl
    request := fun q hq => hgrows.requestOk (h.request q hq) }
  obtain ⟨hsince, hhere⟩ := h.recorded r hr v since hp
  refine ⟨Nat.le_add_right_of_le hsince, hhere.imp_right fun hgone => hgone.imp (fun hexpired => ?_) fun hgone =>
    hgone.mono (fun _ hid => hid) (Nat.le_add_right _ _)⟩
  show s.store.ttl ≤ s.now + ms - since
  omega

/-- Every step keeps the invariant. -/
theorem inv_next (h : Inv cfg s) (step : Step K V) : Inv cfg (s.next cfg step) := by
  have hrequest : ∀ id, Inv cfg ((s.requests.find? id).elim s fun q => s.requestStep cfg q step) := fun id => by
    cases hq : s.requests.find? id with
    | none => exact h
    | some q => exact h.requestStep (Table.mem_of_find? hq) step
  have hrun : ∀ id, Inv cfg ((s.runs.find? id).elim s fun r => s.runStep cfg r step) := fun id => by
    cases hr : s.runs.find? id with
    | none => exact h
    | some r => exact h.runStep (Table.mem_of_find? hr) step
  cases step with
  | arrive id key fingerprint => exact h.arrive id key fingerprint
  | tick ms => exact h.tick ms
  | admission | refuse | serve | reply | giveUp => exact hrequest _
  | start | apply | ran | panic | finish | tell => exact hrun _

/-! ## requests -/

/-- What a step of a request does to the requests: that one moves on, if it has no answer. -/
theorem requests_requestStep (s : Server K V) (q : KeyedRequest K V) (step : Step K V) :
    (s.requestStep cfg q step).requests = s.requests ∨
      q.isAnswered = false ∧ ∃ stage, (s.requestStep cfg q step).requests = (s.setStage q stage).requests := by
  have hopen : ∀ {stage}, q.stage = stage → (∀ run a, stage ≠ .answered run a) → q.isAnswered = false :=
    fun hstage hne => by
      unfold KeyedRequest.isAnswered
      split
      · next run a ha => exact absurd (hstage.symm.trans ha) (hne run a)
      · rfl
  cases step with
  | admission _ free =>
      rw [Server.requestStep]
      cases hstage : q.stage <;> try exact Or.inl rfl
      refine Or.inr ⟨hopen hstage nofun, ?_⟩
      simp only [if_true, Server.admission]
      split <;> exact ⟨_, rfl⟩
  | refuse _ =>
      rw [Server.requestStep]
      cases hstage : q.stage <;> first | exact Or.inl rfl | exact Or.inr ⟨hopen hstage nofun, _, rfl⟩
  | serve _ =>
      rw [Server.requestStep]
      cases hstage : q.stage <;> try exact Or.inl rfl
      refine Or.inr ⟨hopen hstage nofun, ?_⟩
      simp only [if_true, Server.serveKeyed]
      split <;> exact ⟨_, rfl⟩
  | reply _ =>
      rw [Server.requestStep, Server.reply]
      cases hstage : q.stage with
      | owner run =>
          dsimp only
          cases (s.runs.find? run).bind ownAnswer with
          | none => exact Or.inl rfl
          | some a => exact Or.inr ⟨hopen hstage nofun, _, rfl⟩
      | waiting run =>
          dsimp only
          cases (s.runs.find? run).bind waitAnswer with
          | none => exact Or.inl rfl
          | some a => exact Or.inr ⟨hopen hstage nofun, _, rfl⟩
      | _ => exact Or.inl rfl
  | giveUp _ =>
      rw [Server.requestStep]
      cases hstage : q.stage <;> try exact Or.inl rfl
      exact Or.inr ⟨hopen hstage nofun, _, rfl⟩
  | _ => exact Or.inl rfl

/-- A step of a run leaves the requests as they are. -/
theorem requests_runStep (s : Server K V) (r : OpRun K V) (step : Step K V) :
    (s.runStep cfg r step).requests = s.requests := by
  unfold Server.runStep
  cases step with
  | start _ free => cases r.progress <;> cases free <;> rfl
  | apply | ran | panic | finish => cases r.progress <;> rfl
  | tell _ =>
      dsimp only
      split <;> rfl
  | _ => rfl

/-- What a step does to the requests: one arrives, or one that has no answer moves on. -/
theorem requests_next (cfg : Config K V) (s : Server K V) (step : Step K V) :
    (s.next cfg step).requests = s.requests ∨
      (∃ id key fingerprint, step = .arrive id key fingerprint ∧
        (s.next cfg step).requests = (s.requests.insertOrIgnore ⟨id, key, fingerprint, .arrived⟩).1) ∨
      ∃ q ∈ s.requests.rows, q.isAnswered = false ∧
        ∃ stage, (s.next cfg step).requests = (s.setStage q stage).requests := by
  have hrequest : ∀ id, ((s.requests.find? id).elim s fun q => s.requestStep cfg q step).requests = s.requests ∨
      ∃ q ∈ s.requests.rows, q.isAnswered = false ∧
        ∃ stage, ((s.requests.find? id).elim s fun q => s.requestStep cfg q step).requests =
          (s.setStage q stage).requests := fun id => by
    cases hq : s.requests.find? id with
    | none => exact Or.inl rfl
    | some q => exact (requests_requestStep s q step).imp_right fun hmoves => ⟨q, Table.mem_of_find? hq, hmoves⟩
  have hrun : ∀ id, ((s.runs.find? id).elim s fun r => s.runStep cfg r step).requests = s.requests := fun id => by
    cases s.runs.find? id with
    | none => rfl
    | some r => exact requests_runStep s r step
  cases step with
  | arrive id key fingerprint => exact Or.inr (Or.inl ⟨id, key, fingerprint, rfl, rfl⟩)
  | tick ms => exact Or.inl rfl
  | admission | refuse | serve | reply | giveUp => exact (hrequest _).imp_right Or.inr
  | start | apply | ran | panic | finish | tell => exact Or.inl (hrun _)

/-- Each request has arrived, and keeps its key and its body. -/
theorem request_of_next {step : Step K V} (hq : q ∈ (s.next cfg step).requests.rows) :
    (∃ x ∈ s.requests.rows, x.id = q.id ∧ x.key = q.key ∧ x.fingerprint = q.fingerprint) ∨
      step = .arrive q.id q.key q.fingerprint := by
  obtain heq | ⟨id, key, fingerprint, rfl, heq⟩ | ⟨x, hx, -, stage, heq⟩ := requests_next cfg s step
  · exact Or.inl ⟨q, heq ▸ hq, rfl, rfl, rfl⟩
  · obtain hq | rfl := Table.mem_insertOrIgnore (heq ▸ hq)
    · exact Or.inl ⟨q, hq, rfl, rfl, rfl⟩
    · exact Or.inr rfl
  · obtain ⟨hq, -⟩ | rfl := (mem_setStage hx).mp (heq ▸ hq)
    · exact Or.inl ⟨q, hq, rfl, rfl, rfl⟩
    · exact Or.inl ⟨x, hx, rfl, rfl, rfl⟩

/-- An answer is final. -/
theorem answered_next {step : Step K V} (hq : q ∈ s.requests.rows) (hanswered : q.isAnswered = true) :
    q ∈ (s.next cfg step).requests.rows := by
  obtain heq | ⟨id, key, fingerprint, -, heq⟩ | ⟨x, hx, hopen, stage, heq⟩ := requests_next cfg s step
  · exact heq ▸ hq
  · rw [heq]
    exact Table.mem_insertOrIgnore_of_mem hq
  · rw [heq]
    refine (mem_setStage hx).mpr (Or.inl ⟨hq, fun hid => ?_⟩)
    rw [s.requests.eq_of_key_eq hq hx hid, hopen] at hanswered
    cases hanswered

/-! ## whole histories -/

/-- A daemon that starts. -/
def start (cfg : Config K V) : Server K V :=
  { store := { ttl := cfg.ttl, maxEntries := cfg.maxEntries, maxBytes := cfg.maxBytes } }

/-- A server starts with the invariant. -/
theorem inv_start : Inv cfg (start cfg) where
  settings := rfl
  kept := ⟨nofun, List.nodup_nil, rfl⟩
  fits := Or.inr fun _ he => (List.not_mem_nil he).elim
  issued _ hr := (List.not_mem_nil hr).elim
  live _ hr := (List.not_mem_nil hr).elim
  recorded _ hr := (List.not_mem_nil hr).elim
  entry _ he := (List.not_mem_nil he).elim
  gone _ hp := (List.not_mem_nil hp).elim
  applied _ hr := (List.not_mem_nil hr).elim
  once _ hr := (List.not_mem_nil hr).elim
  request _ hq := (List.not_mem_nil hq).elim
  owned _ hr := (List.not_mem_nil hr).elim

/-- **The invariant holds after any interleaving.** -/
theorem inv_run (cfg : Config K V) (steps : List (Step K V)) : Inv cfg (run (next cfg) (start cfg) steps) := by
  have hstep : ∀ (s : Server K V) step, Inv cfg s → Inv cfg (s.next cfg step) := fun _ step h => inv_next h step
  exact run_invariant hstep inv_start steps

/-- A run that was refused before it started has written nothing. -/
theorem Inv.applied_of_refused (h : Inv cfg s) (hr : r ∈ s.runs.rows) (hp : r.progress = .abandoned false) :
    r.applied = false := by
  by_contra happlied
  have hstarted := h.applied r hr (Bool.eq_true_of_not_eq_false happlied)
  rw [OpRun.hasStarted, hp] at hstarted
  cases hstarted

/-- **An op is not run again while its answer is known, nor two of a key at a time.** Of two runs of one key the first
is over: it was refused before it started and wrote nothing, or it had started and did not finish, or its answer was
recorded and, when the second began, had expired or been dropped for room. -/
theorem once_run (cfg : Config K V) (steps : List (Step K V)) {r r' : OpRun K V}
    (hr : r ∈ (run (next cfg) (start cfg) steps).runs.rows) (hr' : r' ∈ (run (next cfg) (start cfg) steps).runs.rows)
    (hkey : r.key = r'.key) (hlt : r.id < r'.id) :
    r.progress = .abandoned false ∧ r.applied = false ∨ r.progress = .abandoned true ∨
      ∃ v since, r.progress = .recorded v since ∧
        (cfg.ttl ≤ r'.begun - since ∨ (run (next cfg) (start cfg) steps).Gone r.id r'.begun) := by
  have h := inv_run cfg steps
  have httl : (run (next cfg) (start cfg) steps).store.ttl = cfg.ttl := congrArg Prod.fst h.settings
  obtain ⟨started, hp⟩ | ⟨v, since, hp, hexpired⟩ | hgone := h.once r hr r' hr' hkey hlt
  · cases started with
    | true => exact Or.inr (Or.inl hp)
    | false =>
        exact Or.inl ⟨hp, h.applied_of_refused hr hp⟩
  · exact Or.inr (Or.inr ⟨v, since, hp, Or.inl (httl ▸ hexpired)⟩)
  · obtain ⟨t, hle, ht⟩ := hgone
    obtain ⟨x, hx, hid, v, since, hp⟩ := h.gone _ ht
    obtain rfl := Table.eq_of_key_eq _ hx hr hid
    exact Or.inr (Or.inr ⟨v, since, hp, Or.inr ⟨t, hle, ht⟩⟩)

/-- A daemon that keeps an answer for 50 ms, and two of them. -/
def shortLived : Config Nat Nat := ⟨⟨id, fun _ => List.Perm.refl _⟩, fun _ => 1, 10, 50, 2, 10⟩

/-- A request of a key, whose op runs, and once its answer has expired another. -/
def twice : List (Step Nat Nat) :=
  [.arrive 0 7 3, .admission 0 true, .serve 0, .start 0 true, .apply 0, .ran 0 1, .finish 0, .tick 60, .arrive 1 7 3,
    .admission 1 true, .serve 1]

/-- A request that is sent twice runs once. -/
theorem once_twice :
    let s := run (next shortLived) (start shortLived) twice
    ∃ r ∈ s.runs.rows, ∃ r' ∈ s.runs.rows, r.key = r'.key ∧ r.id < r'.id ∧
      (r.progress = .abandoned false ∧ r.applied = false ∨ r.progress = .abandoned true ∨
        ∃ v since, r.progress = .recorded v since ∧ (50 ≤ r'.begun - since ∨ s.Gone r.id r'.begun)) := by
  have hr : (⟨0, 7, 3, 0, .recorded 1 0, true, false⟩ : OpRun Nat Nat) ∈
      (run (next shortLived) (start shortLived) twice).runs.rows := by decide +kernel
  have hr' : (⟨1, 7, 3, 60, .spawned, false, false⟩ : OpRun Nat Nat) ∈
      (run (next shortLived) (start shortLived) twice).runs.rows := by decide +kernel
  exact ⟨_, hr, _, hr', rfl, by decide, once_run shortLived twice hr hr' rfl (by decide)⟩

/-- **What a request is answered is true.** An answer that an op gave is one that a run of its key and its body gave,
`busy` is said only of a run that was refused before it started and wrote nothing, and `mismatch` only where the key
has run another body. -/
theorem answers_run (cfg : Config K V) (steps : List (Step K V)) {q : KeyedRequest K V} {id : Option Nat} {a : Answer V}
    (hq : q ∈ (run (next cfg) (start cfg) steps).requests.rows) (hstage : q.stage = .answered id a) :
    AnswerOk cfg (run (next cfg) (start cfg) steps) q id a ∧
      (a = .busy → ∀ r ∈ (run (next cfg) (start cfg) steps).runs.rows, id = some r.id → r.applied = false) := by
  have h := inv_run cfg steps
  have ha := (h.request q hq).answer id a hstage
  refine ⟨ha, ?_⟩
  rintro rfl r hr rfl
  obtain ⟨x, hx, hid, hp⟩ := ha r.id rfl
  obtain rfl := Table.eq_of_key_eq _ hx hr hid
  exact h.applied_of_refused hr hp

/-- The second run is refused before it starts. -/
def refused : List (Step Nat Nat) := twice ++ [.start 1 false, .tell 1, .reply 1]

/-- A request that finds no room is told so, and has not run. -/
theorem answers_refused :
    let s := run (next shortLived) (start shortLived) refused
    ∃ q ∈ s.requests.rows, q.stage = .answered (some 1) .busy ∧ AnswerOk shortLived s q (some 1) .busy ∧
      ((.busy : Answer Nat) = .busy → ∀ r ∈ s.runs.rows, some 1 = some r.id → r.applied = false) := by
  have hq : (⟨1, 7, 3, .answered (some 1) .busy⟩ : KeyedRequest Nat Nat) ∈
      (run (next shortLived) (start shortLived) refused).requests.rows := by decide +kernel
  exact ⟨_, hq, rfl, answers_run shortLived refused hq rfl⟩

/-- **What the daemon remembers is bounded**, whatever the order of the requests. The bytes are those of the answers
that are there; they and the entries are within their caps, or there is no answer left to drop; and an entry is in
progress exactly while an op of its key runs. -/
theorem room_run (cfg : Config K V) (steps : List (Step K V)) :
    let s := run (next cfg) (start cfg) steps
    s.store.doneBytes = (s.store.entries.rows.map Entry.bytes).sum ∧
      (s.store.entries.rows.length ≤ cfg.maxEntries ∧ s.store.doneBytes ≤ cfg.maxBytes ∨
        ∀ e ∈ s.store.entries.rows, e.isDone = false) ∧
      ∀ k, (∃ e, s.store.entries.find? k = some e ∧ e.state = .inProgress) ↔
        ∃ r ∈ s.runs.rows, r.key = k ∧ r.isLive = true := by
  intro s
  have h : Inv cfg s := inv_run cfg steps
  refine ⟨h.kept.bytes, ?_, fun k => ⟨?_, ?_⟩⟩
  · have hset : s.store.maxEntries = cfg.maxEntries ∧ s.store.maxBytes = cfg.maxBytes :=
      ⟨congrArg (fun t => t.2.1) h.settings, congrArg (fun t => t.2.2) h.settings⟩
    refine h.fits.imp_left fun hover => ?_
    simp only [Store.overfull, Bool.or_eq_false_iff, decide_eq_false_iff_not, not_lt, hset.1, hset.2] at hover
    exact hover
  · rintro ⟨e, he, hstate⟩
    obtain ⟨r, hr, heq, hlive, -⟩ := h.entry e (Table.mem_of_find? he)
    refine ⟨r, hr, ?_, hlive hstate⟩
    rw [← Table.key_of_find? he, heq]
    rfl
  · rintro ⟨r, hr, rfl, hlive⟩
    exact ⟨_, h.live r hr hlive, rfl⟩

end Server

end Jkb.Daemon
