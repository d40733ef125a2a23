import Jkb.Daemon.Keyed

/-!
# Jkb.Daemon.Client

Callers of the keyed route, over one daemon from its start on: it is not replaced by another one meanwhile, which would
forget what it had run. A call draws a key and sends it under a token: once, and once more under the same key when that
connected and went unanswered, or once more without a key when its body was cut off. What the daemon answers
`unauthorized` is sent all over again, under a token read afresh. What was sent reaches the daemon late or never, and in
any order; an answer may be lost on its way back.

`busy_run` is what a caller relies on when it tries a call again under another key; `told_run` is that what a call is
told is true of its op.
-/

namespace Jkb.Daemon

open Run

/-! ## ops without a key -/

/-- Where an op that was sent without a key is. -/
inductive PlainStage (V : Type*) where
  | arrived
  | started
  | done (answer : Answer V)
deriving Repr, DecidableEq

/-- An op that was sent without a key: by what, for which call, and whether its writes are in the database. -/
structure PlainOp (K V : Type*) where
  id : Nat
  key : K
  fingerprint : Nat
  stage : PlainStage V := .arrived
  applied : Bool := false
deriving Repr, DecidableEq

/-- A step of one: it is refused, for want of a permit or for another reason, it starts, its writes are committed, it
answers, or it does not finish. -/
inductive PlainStep (V : Type*) where
  | refuse (busy : Bool)
  | start
  | apply
  | ran (v : V)
  | panic

namespace PlainOp

variable {K V : Type*} (p : PlainOp K V)

/-- `Op::run`, of an op without a key; a step that cannot be taken leaves it as it is. -/
def next (step : PlainStep V) : PlainOp K V :=
  match p.stage, step with
  | .arrived, .refuse busy => { p with stage := .done (if busy then .busy else .refused) }
  | .arrived, .start => { p with stage := .started }
  | .started, .apply => { p with applied := true }
  | .started, .ran v => { p with stage := .done (.value v) }
  | .started, .panic => { p with stage := .done .failed }
  | _, _ => p

/-- It has begun, whatever came of it. -/
def hasStarted : Bool :=
  match p.stage with
  | .started | .done (.value _) | .done .failed => true
  | _ => false

/-- What is known of one: what it answers is its own, and nothing is written before it starts. -/
structure Ok (p : PlainOp K V) : Prop where
  answer : p.stage ≠ .done .mismatch
  applied : p.applied = true → p.hasStarted = true

variable {p}

/-- A step is one of the same op. -/
theorem next_same (step : PlainStep V) :
    (p.next step).id = p.id ∧ (p.next step).key = p.key ∧ (p.next step).fingerprint = p.fingerprint := by
  unfold next
  split <;> exact ⟨rfl, rfl, rfl⟩

/-- An op that is done stays as it is. -/
theorem next_of_done {answer : Answer V} (h : p.stage = .done answer) (step : PlainStep V) : p.next step = p := by
  unfold next
  split <;> simp_all

/-- An unkeyed send goes on as it has to. -/
theorem Ok.next (h : Ok p) (step : PlainStep V) : Ok (p.next step) := by
  unfold PlainOp.next
  split
  case h_1 busy hstage =>
    -- nothing has been written yet
    refine ⟨by cases busy <;> simp, fun happlied => ?_⟩
    have hstarted := h.applied happlied
    simp [hasStarted, hstage] at hstarted
  case h_2 => exact ⟨by simp, fun _ => rfl⟩
  case h_3 hstage => exact ⟨by simp [hstage], fun _ => by simp [hasStarted, hstage]⟩
  case h_4 => exact ⟨by simp, fun _ => rfl⟩
  case h_5 => exact ⟨by simp, fun _ => rfl⟩
  case h_6 => exact h

end PlainOp

/-! ## calls -/

/-- How a call ends. -/
inductive Told (V : Type*) where
  | answered (answer : Answer V)
  | unauthorized
  | firstMayHaveApplied
  | unavailable
deriving Repr, DecidableEq

/-- What a call is sent under: a token given outright, a grant's or a ticket's, which the daemon takes at one time and
not at another; or one read from the token file, which is the daemon's or an earlier daemon's. -/
inductive Token where
  | given
  | read (current : Bool)
deriving Repr, DecidableEq

/-- Whether the daemon takes a token, `live` being what it would say of a given one. -/
def Token.taken (live : Bool) : Token → Bool
  | .given => live
  | .read current => current

/-- What `send_keyed` has sent, the last first: once under the key; twice under the key; or once under the key, cut off
before its body was read, and then without a key. -/
inductive Attempt where
  | first (sent : Nat)
  | resent (again sent : Nat)
  | fallback (plain sent : Nat)
deriving Repr, DecidableEq

namespace Attempt

def last : Attempt → Nat
  | .first sent => sent
  | .resent again _ => again
  | .fallback plain _ => plain

def sends : Attempt → List Nat
  | .first sent => [sent]
  | .resent again sent => [again, sent]
  | .fallback plain sent => [plain, sent]

/-- What may still reach the keyed route. -/
def keyed : Attempt → List Nat
  | .first sent => [sent]
  | .resent again sent => [again, sent]
  | .fallback .. => []

/-- What may still reach the route without keys. -/
def plain : Attempt → List Nat
  | .fallback plain _ => [plain]
  | _ => []

variable {a : Attempt} {n : Nat}

/-- An attempt is two sends at most. -/
theorem length_sends_le (a : Attempt) : a.sends.length ≤ 2 := by
  cases a <;> simp [sends]

/-- The last send of an attempt is one of its sends. -/
theorem last_mem_sends (a : Attempt) : a.last ∈ a.sends := by
  cases a <;> simp [last, sends]

/-- A keyed send is one of the attempt's. -/
theorem keyed_subset (a : Attempt) : a.keyed ⊆ a.sends := by
  cases a <;> simp [keyed, sends]

/-- So is the unkeyed one. -/
theorem plain_subset (a : Attempt) : a.plain ⊆ a.sends := by
  cases a <;> simp [plain, sends]

/-- A send is keyed or unkeyed, and not both. -/
theorem length_keyed_add_length_plain_le (a : Attempt) : a.keyed.length + a.plain.length ≤ a.sends.length := by
  cases a <;> simp [keyed, plain, sends]

/-- Nothing of one attempt may arrive both with and without a key. -/
theorem plain_eq_nil (h : n ∈ a.keyed) : a.plain = [] := by
  cases a <;> simp_all [plain, keyed]

end Attempt

/-- A call of an op: its key, its body, the token of its last attempt, that attempt, the one before it, which was
answered `unauthorized`, and how the call has ended. -/
structure KeyedCall (K V : Type*) where
  key : K
  fingerprint : Nat
  token : Token
  attempt : Attempt
  earlier : Option Attempt := none
  told : Option (Told V) := none
deriving Repr, DecidableEq

/-- All that a call has sent. -/
def KeyedCall.sends {K V : Type*} (c : KeyedCall K V) : List Nat :=
  c.attempt.sends ++ c.earlier.elim [] Attempt.sends

/-- A call is four sends at most. -/
theorem KeyedCall.length_sends_le {K V : Type*} (c : KeyedCall K V) : c.sends.length ≤ 4 := by
  have hlast := c.attempt.length_sends_le
  cases hearlier : c.earlier with
  | none => simpa [sends, hearlier] using hlast.trans (by decide)
  | some earlier =>
      have hfirst := earlier.length_sends_le
      simp only [sends, hearlier, Option.elim_some, List.length_append]
      omega

/-- `is_busy`: whether an answer says that nothing ran. An op may say so itself. -/
def isBusy {V : Type*} (opBusy : V → Bool) : Answer V → Bool
  | .busy => true
  | .value v => opBusy v
  | _ => false

/-- The callers and the daemon, with its ops without a key, and what it has answered `unauthorized`. -/
structure Callers (K V : Type*) where
  server : Server K V
  plain : Table (PlainOp.id : PlainOp K V → Nat) := .empty
  rejected : List Nat := []
  calls : Table (KeyedCall.key : KeyedCall K V → K) := .empty
  nextSend : Nat := 0

/-- A step: a call is made, something that it sent reaches the daemon, the daemon takes a step, a call hears the answer
to what it sent last, what it sent first stalls or is cut off, or it fails. -/
inductive CallStep (K V : Type*) where
  | call (key : K) (fingerprint : Nat) (token : Token)
  | arrive (key : K) (sent : Nat) (live : Bool)
  | daemon (step : Step K V)
  | plain (sent : Nat) (step : PlainStep V)
  | hear (key : K) (current : Bool)
  | stall (key : K)
  | cut (key : K)
  | fail (key : K)

namespace Callers

variable {K V : Type*} [DecidableEq K] (cfg : Config K V) (opBusy : V → Bool) (s : Callers K V)

def setCall (c : KeyedCall K V) (f : KeyedCall K V → KeyedCall K V) (hf : ∀ c, (f c).key = c.key) : Callers K V :=
  { s with calls := s.calls.updateWhere (·.key = c.key) f hf }

def tell (c : KeyedCall K V) (told : Told V) : Callers K V :=
  s.setCall c (fun c => { c with told := some told }) fun _ => rfl

/-- What `send_keyed` makes of an answer: one to the resend that would say that nothing ran is not relayed, since what
was sent first may have applied. -/
def toldOf (attempt : Attempt) (answer : Answer V) : Told V :=
  match attempt with
  | .resent .. => if isBusy opBusy answer then .firstMayHaveApplied else .answered answer
  | _ => .answered answer

/-- What the daemon answers what was sent last, once it has. -/
def answerOf (attempt : Attempt) : Option (Answer V) :=
  match attempt with
  | .fallback plain _ =>
      (s.plain.find? plain).bind fun p =>
        match p.stage with
        | .done answer => some answer
        | _ => none
  | .first sent | .resent sent _ =>
      (s.server.requests.find? sent).bind fun q =>
        match q.stage with
        | .answered _ answer => some answer
        | _ => none

/-- A call is made all over, under a token read afresh. -/
def again (c : KeyedCall K V) (current : Bool) : Callers K V :=
  { s with nextSend := s.nextSend + 1 }.setCall c
    (fun c => { c with token := .read current, attempt := .first s.nextSend, earlier := some c.attempt }) fun _ => rfl

/-- `RemoteBackend::call`, once the daemon has answered: a given token has nothing fresher to retry with, and one read
from the file is read once more. An op under the file's token never answers `unauthorized` itself. -/
def hear (c : KeyedCall K V) (current : Bool) : Callers K V :=
  if c.told.isSome then s
  else if c.attempt.last ∈ s.rejected then
    if c.token = .given ∨ c.earlier.isSome then s.tell c .unauthorized else s.again c current
  else (s.answerOf c.attempt).elim s fun answer => s.tell c (toldOf opBusy c.attempt answer)

/-- What was sent first connected and goes unanswered: it is sent once more, under the same key. -/
def stall (c : KeyedCall K V) : Callers K V :=
  match c.told, c.attempt with
  | none, .first sent =>
      { s with nextSend := s.nextSend + 1 }.setCall c (fun c => { c with attempt := .resent s.nextSend sent })
        fun _ => rfl
  | _, _ => s

/-- `body_write_broken`: the daemon closed the connection before it had read the body. What was sent first is then sent
without a key; after the resend, what was sent first may have applied. -/
def cut (c : KeyedCall K V) : Callers K V :=
  match c.told, c.attempt with
  | none, .first sent =>
      if (s.server.requests.find? sent).isSome then s
      else
        { s with nextSend := s.nextSend + 1 }.setCall c (fun c => { c with attempt := .fallback s.nextSend sent })
          fun _ => rfl
  | none, .resent .. => s.tell c .firstMayHaveApplied
  | _, _ => s

/-- Something of the last attempt of a call reaches the daemon. Of the attempt before, everything is refused, and no
one hears of it. -/
def arrive (c : KeyedCall K V) (sent : Nat) (live : Bool) : Callers K V :=
  if sent ∈ c.attempt.sends then
    if c.token.taken live then
      if sent ∈ c.attempt.keyed then
        { s with server := s.server.next cfg (.arrive sent c.key c.fingerprint) }
      else if sent ∈ c.attempt.plain then
        { s with plain := (s.plain.insertOrIgnore ⟨sent, c.key, c.fingerprint, .arrived, false⟩).1 }
      else s
    else { s with rejected := sent :: s.rejected }
  else s

/-- An op without a key takes a step. -/
def plainStep (sent : Nat) (step : PlainStep V) : Callers K V :=
  { s with plain := s.plain.updateWhere (·.id = sent) (·.next step) fun _ => (PlainOp.next_same step).1 }

def next (step : CallStep K V) : Callers K V :=
  match step with
  | .call key fingerprint token =>
      { s with
        calls := (s.calls.insertOrIgnore ⟨key, fingerprint, token, .first s.nextSend, none, none⟩).1
        nextSend := s.nextSend + 1 }
  | .arrive key sent live => (s.calls.find? key).elim s fun c => s.arrive cfg c sent live
  | .daemon (.arrive ..) => s
  | .daemon step => { s with server := s.server.next cfg step }
  | .plain sent step => s.plainStep sent step
  | .hear key current => (s.calls.find? key).elim s fun c => s.hear opBusy c current
  | .stall key => (s.calls.find? key).elim s fun c => s.stall c
  | .cut key => (s.calls.find? key).elim s fun c => s.cut c
  | .fail key =>
      (s.calls.find? key).elim s fun c => if c.told.isNone then s.tell c .unavailable else s

/-! ## what every step keeps -/

/-- An answer that a call is told is one of the daemon to that call. If it says that nothing ran, there is nothing else
of the call that the daemon has or may still get. -/
def Heard (s : Callers K V) (c : KeyedCall K V) (a : Answer V) : Prop :=
  (∃ q ∈ s.server.requests.rows, q.id ∈ c.attempt.keyed ∧ (∃ run, q.stage = .answered run a) ∧
      (isBusy opBusy a = true → c.attempt = .first q.id)) ∨
    ∃ p ∈ s.plain.rows, p.id ∈ c.attempt.plain ∧ p.stage = .done a

/-- What every step keeps. What the daemon has of a call is of its last attempt, under a token that it takes. -/
structure Inv (s : Callers K V) : Prop where
  server : Server.Inv cfg s.server
  fresh : ∀ c ∈ s.calls.rows, ∀ n ∈ c.attempt.sends, n < s.nextSend
  own : ∀ c ∈ s.calls.rows, ∀ c' ∈ s.calls.rows, ∀ n ∈ c.attempt.sends, n ∈ c'.attempt.sends → c = c'
  request : ∀ q ∈ s.server.requests.rows, ∃ c ∈ s.calls.rows,
    c.key = q.key ∧ c.fingerprint = q.fingerprint ∧ q.id ∈ c.attempt.keyed ∧ c.token ≠ .read false
  plain : ∀ p ∈ s.plain.rows, p.Ok ∧ ∃ c ∈ s.calls.rows,
    c.key = p.key ∧ c.fingerprint = p.fingerprint ∧ p.id ∈ c.attempt.plain ∧ c.token ≠ .read false
  rejected : ∀ n ∈ s.rejected, n < s.nextSend ∧ ∀ c ∈ s.calls.rows, n ∈ c.attempt.sends → c.token ≠ .read true
  told : ∀ c ∈ s.calls.rows, ∀ a, c.told = some (.answered a) → Heard opBusy s c a
  unauthorized : ∀ c ∈ s.calls.rows, c.told = some .unauthorized → c.token ≠ .read true

/-- How a call may move on, with the sends up to `upTo` drawn: it keeps what the daemon has of it, what it sends is new,
and what it is told is so. -/
structure Moves (s : Callers K V) (upTo : Nat) (c c' : KeyedCall K V) : Prop where
  key : c'.key = c.key
  fingerprint : c'.fingerprint = c.fingerprint
  next : s.nextSend ≤ upTo
  sends : ∀ n ∈ c'.attempt.sends, n ∈ c.attempt.sends ∨ s.nextSend ≤ n ∧ n < upTo
  request : ∀ q ∈ s.server.requests.rows, q.id ∈ c.attempt.keyed → c.token ≠ .read false →
    q.id ∈ c'.attempt.keyed ∧ c'.token ≠ .read false
  plain : ∀ p ∈ s.plain.rows, p.id ∈ c.attempt.plain → c.token ≠ .read false →
    p.id ∈ c'.attempt.plain ∧ c'.token ≠ .read false
  rejected : ∀ n ∈ s.rejected, n ∈ c'.attempt.sends → c'.token ≠ .read true
  told : ∀ a, c'.told = some (.answered a) → Heard opBusy s c' a
  unauthorized : c'.told = some .unauthorized → c'.token ≠ .read true

variable {cfg opBusy} {s : Callers K V} {c : KeyedCall K V}

/-- The calls after one of them has moved on. -/
theorem mem_setCall {f : KeyedCall K V → KeyedCall K V} {hf : ∀ c, (f c).key = c.key} {x : KeyedCall K V}
    (hc : c ∈ s.calls.rows) :
    x ∈ (s.setCall c f hf).calls.rows ↔ x ∈ s.calls.rows ∧ x.key ≠ c.key ∨ x = f c := by
  simp only [setCall, Table.mem_updateWhere]
  constructor
  · rintro ⟨y, hy, rfl⟩
    by_cases hkey : y.key = c.key
    · obtain rfl := s.calls.eq_of_key_eq hy hc hkey
      exact Or.inr (by simp)
    · simp only [hkey, decide_false, Bool.false_eq_true, if_false]
      exact Or.inl ⟨hy, hkey⟩
  · rintro (⟨hx, hkey⟩ | rfl)
    · exact ⟨x, hx, by simp [hkey]⟩
    · exact ⟨c, hc, by simp⟩

/-- **A call moves on**: whatever is not of it stays as it is. -/
theorem Inv.setCall {f : KeyedCall K V → KeyedCall K V} {hf : ∀ c, (f c).key = c.key} {upTo : Nat}
    (h : Inv cfg opBusy s) (hc : c ∈ s.calls.rows) (hmoves : Moves opBusy s upTo c (f c)) :
    Inv cfg opBusy ({ s with nextSend := upTo }.setCall c f hf) := by
  have hmem : ∀ {x}, x ∈ ({ s with nextSend := upTo }.setCall c f hf).calls.rows ↔
      x ∈ s.calls.rows ∧ x.key ≠ c.key ∨ x = f c := mem_setCall (s := { s with nextSend := upTo }) hc
  have hother : ∀ x ∈ s.calls.rows, x.key ≠ c.key → ∀ n ∈ x.attempt.sends, n ∉ (f c).attempt.sends := by
    intro x hx hne n hn hmine
    obtain hold | ⟨hle, -⟩ := hmoves.sends n hmine
    · exact hne (congrArg KeyedCall.key (h.own x hx c hc n hn hold))
    · exact absurd (h.fresh x hx n hn) (Nat.not_lt.mpr hle)
  refine ⟨h.server, fun x hx n hn => ?_, fun x hx x' hx' n hn hn' => ?_, fun q hq => ?_, fun p hp => ?_,
    fun n hn => ?_, fun x hx a ha => ?_, fun x hx hx_told => ?_⟩
  · obtain ⟨hx, -⟩ | rfl := hmem.mp hx
    · exact (h.fresh x hx n hn).trans_le hmoves.next
    · exact (hmoves.sends n hn).elim (fun hold => (h.fresh c hc n hold).trans_le hmoves.next) And.right
  · obtain ⟨hx, hne⟩ | rfl := hmem.mp hx
    · obtain ⟨hx', -⟩ | rfl := hmem.mp hx'
      · exact h.own x hx x' hx' n hn hn'
      · exact absurd hn' (hother x hx hne n hn)
    · obtain ⟨hx', hne⟩ | rfl := hmem.mp hx'
      · exact absurd hn (hother x' hx' hne n hn')
      · rfl
  · obtain ⟨x, hx, hkey, hbody, hmine, htoken⟩ := h.request q hq
    by_cases hsame : x.key = c.key
    · obtain rfl := s.calls.eq_of_key_eq hx hc hsame
      exact ⟨f x, hmem.mpr (Or.inr rfl), hmoves.key.trans hkey, hmoves.fingerprint.trans hbody,
        hmoves.request q hq hmine htoken⟩
    · exact ⟨x, hmem.mpr (Or.inl ⟨hx, hsame⟩), hkey, hbody, hmine, htoken⟩
  · obtain ⟨hok, x, hx, hkey, hbody, hmine, htoken⟩ := h.plain p hp
    refine ⟨hok, ?_⟩
    by_cases hsame : x.key = c.key
    · obtain rfl := s.calls.eq_of_key_eq hx hc hsame
      exact ⟨f x, hmem.mpr (Or.inr rfl), hmoves.key.trans hkey, hmoves.fingerprint.trans hbody,
        hmoves.plain p hp hmine htoken⟩
    · exact ⟨x, hmem.mpr (Or.inl ⟨hx, hsame⟩), hkey, hbody, hmine, htoken⟩
  · refine ⟨(h.rejected n hn).1.trans_le hmoves.next, fun x hx hmine => ?_⟩
    obtain ⟨hx, -⟩ | rfl := hmem.mp hx
    · exact (h.rejected n hn).2 x hx hmine
    · exact hmoves.rejected n hn hmine
  · obtain ⟨hx, -⟩ | rfl := hmem.mp hx
    · exact h.told x hx a ha
    · exact hmoves.told a ha
  · obtain ⟨hx, -⟩ | rfl := hmem.mp hx
    · exact h.unauthorized x hx hx_told
    · exact hmoves.unauthorized hx_told

/-- A call ends, and what it has sent stays as it is. -/
theorem Inv.tell (h : Inv cfg opBusy s) (hc : c ∈ s.calls.rows) {told : Told V}
    (htold : ∀ a, told = .answered a → Heard opBusy s c a) (hrefused : told = .unauthorized → c.token ≠ .read true) :
    Inv cfg opBusy (s.tell c told) :=
  h.setCall hc
    { key := rfl
      fingerprint := rfl
      next := Nat.le_refl _
      sends := fun _ hn => Or.inl hn
      request := fun _ _ hmine htoken => ⟨hmine, htoken⟩
      plain := fun _ _ hmine htoken => ⟨hmine, htoken⟩
      rejected := fun n hn hmine => (h.rejected n hn).2 c hc hmine
      told := fun a ha => htold a (Option.some.inj ha)
      unauthorized := fun hsome => hrefused (Option.some.inj hsome) }

omit [DecidableEq K] in
/-- What a call hears of is a request, or an op without a key, that it sent last. -/
theorem answerOf_eq_some {attempt : Attempt} {a : Answer V} (h : s.answerOf attempt = some a) :
    (∃ q ∈ s.server.requests.rows, q.id = attempt.last ∧ q.id ∈ attempt.keyed ∧ ∃ run, q.stage = .answered run a) ∨
      ∃ p ∈ s.plain.rows, p.id ∈ attempt.plain ∧ p.stage = .done a := by
  have hkeyed : ∀ {sent}, (s.server.requests.find? sent).bind (fun q =>
      match q.stage with
      | .answered _ answer => some answer
      | _ => none) = some a → ∃ q ∈ s.server.requests.rows, q.id = sent ∧ ∃ run, q.stage = .answered run a := by
    intro sent hanswer
    obtain ⟨q, hq, ha⟩ := Option.bind_eq_some_iff.mp hanswer
    refine ⟨q, Table.mem_of_find? hq, Table.key_of_find? hq, ?_⟩
    cases hstage : q.stage <;> rw [hstage] at ha <;> cases ha
    exact ⟨_, rfl⟩
  cases attempt with
  | first sent =>
      obtain ⟨q, hq, rfl, hstage⟩ := hkeyed h
      exact Or.inl ⟨q, hq, rfl, List.mem_singleton_self _, hstage⟩
  | resent sent _ =>
      obtain ⟨q, hq, rfl, hstage⟩ := hkeyed h
      exact Or.inl ⟨q, hq, rfl, List.mem_cons_self, hstage⟩
  | fallback plain _ =>
      obtain ⟨p, hp, ha⟩ := Option.bind_eq_some_iff.mp h
      refine Or.inr ⟨p, Table.mem_of_find? hp, ?_, ?_⟩
      · rw [← Table.key_of_find? hp]
        exact List.mem_singleton_self _
      · cases hstage : p.stage <;> rw [hstage] at ha <;> cases ha
        rfl

omit [DecidableEq K] in
/-- **An answer that says that nothing ran** is relayed to a call that has sent nothing else that may run. -/
theorem heard_of_answer {a b : Answer V} (hanswer : s.answerOf c.attempt = some a)
    (hrelayed : toldOf opBusy c.attempt a = .answered b) : Heard opBusy s c b := by
  unfold toldOf at hrelayed
  split at hrelayed
  · next again sent hattempt =>
      split at hrelayed
      · cases hrelayed
      next hbusy =>
      cases hrelayed
      obtain ⟨q, hq, -, hmine, hstage⟩ | ⟨p, -, hmine, -⟩ := answerOf_eq_some hanswer
      · exact Or.inl ⟨q, hq, hmine, hstage, fun hb => absurd hb hbusy⟩
      · rw [hattempt] at hmine
        exact (List.not_mem_nil hmine).elim
  · next hattempt =>
      cases hrelayed
      refine (answerOf_eq_some hanswer).imp_left ?_
      rintro ⟨q, hq, hlast, hmine, hstage⟩
      refine ⟨q, hq, hmine, hstage, fun _ => ?_⟩
      cases hc : c.attempt with
      | first sent => rw [hlast, hc]; rfl
      | resent again sent => exact absurd hc (hattempt again sent)
      | fallback plain sent => rw [hc] at hmine; exact (List.not_mem_nil hmine).elim

/-- A send that is drawn now is of no call, and the daemon has answered nothing to it. -/
theorem Inv.notMem_sends (h : Inv cfg opBusy s) (hc : c ∈ s.calls.rows) : s.nextSend ∉ c.attempt.sends :=
  fun hn => Nat.lt_irrefl _ (h.fresh c hc _ hn)

/-- The next send has not been rejected. -/
theorem Inv.notMem_rejected (h : Inv cfg opBusy s) : s.nextSend ∉ s.rejected :=
  fun hn => Nat.lt_irrefl _ (h.rejected _ hn).1

/-- **A call is made all over** only under a token that the daemon has never taken. -/
theorem Inv.again (h : Inv cfg opBusy s) (hc : c ∈ s.calls.rows) (htold : c.told = none)
    (htoken : c.token = .read false) (current : Bool) : Inv cfg opBusy (s.again c current) := by
  refine h.setCall hc
    { key := rfl
      fingerprint := rfl
      next := Nat.le_succ _
      sends := fun n hn => ?_
      request := fun _ _ _ hne => absurd htoken hne
      plain := fun _ _ _ hne => absurd htoken hne
      rejected := fun n hn hmine => ?_
      told := fun a ha => ?_
      unauthorized := fun ha => ?_ }
  · obtain rfl := List.mem_singleton.mp hn
    exact Or.inr ⟨Nat.le_refl _, Nat.lt_succ_self _⟩
  · obtain rfl := List.mem_singleton.mp hmine
    exact absurd hn h.notMem_rejected
  · cases htold.symm.trans ha
  · cases htold.symm.trans ha

/-- A call that hears an answer keeps the invariant. -/
theorem Inv.hear (h : Inv cfg opBusy s) (hc : c ∈ s.calls.rows) (current : Bool) :
    Inv cfg opBusy (s.hear opBusy c current) := by
  unfold Callers.hear
  split
  · exact h
  next htold =>
  split
  · next hrejected =>
      have htoken := (h.rejected _ hrejected).2 c hc c.attempt.last_mem_sends
      split
      · exact h.tell hc nofun fun _ => htoken
      · next hretried =>
          refine h.again hc (by simpa using htold) ?_ current
          cases hcase : c.token with
          | given => exact absurd (Or.inl hcase) hretried
          | read good =>
              cases good with
              | true => exact absurd hcase htoken
              | false => rfl
  · cases hanswer : s.answerOf c.attempt with
    | none => exact h
    | some a =>
        refine h.tell hc (fun b hb => heard_of_answer hanswer hb) fun hb => ?_
        unfold toldOf at hb
        split at hb
        · split at hb <;> cases hb
        · cases hb

/-- So does one that hears none in time. -/
theorem Inv.stall (h : Inv cfg opBusy s) (hc : c ∈ s.calls.rows) : Inv cfg opBusy (s.stall c) := by
  unfold Callers.stall
  split
  swap
  · exact h
  next sent htold hattempt =>
  refine h.setCall hc
    { key := rfl
      fingerprint := rfl
      next := Nat.le_succ _
      sends := fun n hn => ?_
      request := fun q _ hmine hne => ⟨?_, hne⟩
      plain := fun p _ hmine _ => ?_
      rejected := fun n hn hmine => ?_
      told := fun a ha => ?_
      unauthorized := fun ha => ?_ }
  · rw [hattempt]
    obtain rfl | hn := List.mem_cons.mp hn
    · exact Or.inr ⟨Nat.le_refl _, Nat.lt_succ_self _⟩
    · exact Or.inl hn
  · rw [hattempt] at hmine
    exact List.mem_cons_of_mem _ hmine
  · rw [hattempt] at hmine
    exact (List.not_mem_nil hmine).elim
  · obtain rfl | hmine := List.mem_cons.mp hmine
    · exact absurd hn h.notMem_rejected
    · exact (h.rejected n hn).2 c hc (by rw [hattempt]; exact hmine)
  · cases htold.symm.trans ha
  · cases htold.symm.trans ha

/-- **What is cut off never reaches the daemon**, so it may be sent without a key. -/
theorem Inv.cut (h : Inv cfg opBusy s) (hc : c ∈ s.calls.rows) : Inv cfg opBusy (s.cut c) := by
  unfold Callers.cut
  split
  · next sent htold hattempt =>
      split
      · exact h
      next hfree =>
      have hnone : ∀ q ∈ s.server.requests.rows, q.id ≠ sent :=
        Table.find?_eq_none.mp (Option.not_isSome_iff_eq_none.mp hfree)
      refine h.setCall hc
        { key := rfl
          fingerprint := rfl
          next := Nat.le_succ _
          sends := fun n hn => ?_
          request := fun q hq hmine _ => ?_
          plain := fun p _ hmine _ => ?_
          rejected := fun n hn hmine => ?_
          told := fun a ha => ?_
          unauthorized := fun ha => ?_ }
      · rw [hattempt]
        obtain rfl | hn := List.mem_cons.mp hn
        · exact Or.inr ⟨Nat.le_refl _, Nat.lt_succ_self _⟩
        · exact Or.inl hn
      · rw [hattempt] at hmine
        exact absurd (List.mem_singleton.mp hmine) (hnone q hq)
      · rw [hattempt] at hmine
        exact (List.not_mem_nil hmine).elim
      · obtain rfl | hmine := List.mem_cons.mp hmine
        · exact absurd hn h.notMem_rejected
        · exact (h.rejected n hn).2 c hc (by rw [hattempt]; exact hmine)
      · cases htold.symm.trans ha
      · cases htold.symm.trans ha
  · exact h.tell hc (fun _ hanswered => by cases hanswered) (fun hrefused => by cases hrefused)
  · exact h

/-- So does a new call. -/
theorem Inv.call (h : Inv cfg opBusy s) (key : K) (fingerprint : Nat) (token : Token) :
    Inv cfg opBusy { s with
      calls := (s.calls.insertOrIgnore ⟨key, fingerprint, token, .first s.nextSend, none, none⟩).1
      nextSend := s.nextSend + 1 } := by
  refine ⟨h.server, fun x hx n hn => ?_, fun x hx x' hx' n hn hn' => ?_, fun q hq => ?_, fun p hp => ?_,
    fun n hn => ⟨Nat.lt_succ_of_lt (h.rejected n hn).1, fun x hx hmine => ?_⟩, fun x hx a ha => ?_,
    fun x hx hx_told => ?_⟩
  · obtain hx | rfl := Table.mem_insertOrIgnore hx
    · exact Nat.lt_succ_of_lt (h.fresh x hx n hn)
    · obtain rfl := List.mem_singleton.mp hn
      exact Nat.lt_succ_self _
  · obtain hx | rfl := Table.mem_insertOrIgnore hx
    · obtain hx' | rfl := Table.mem_insertOrIgnore hx'
      · exact h.own x hx x' hx' n hn hn'
      · obtain rfl := List.mem_singleton.mp hn'
        exact absurd hn (h.notMem_sends hx)
    · obtain rfl := List.mem_singleton.mp hn
      obtain hx' | rfl := Table.mem_insertOrIgnore hx'
      · exact absurd hn' (h.notMem_sends hx')
      · rfl
  · exact (h.request q hq).imp fun x hx => hx.imp_left Table.mem_insertOrIgnore_of_mem
  · exact (h.plain p hp).imp_right fun hown => hown.imp fun x hx => hx.imp_left Table.mem_insertOrIgnore_of_mem
  · obtain hx | rfl := Table.mem_insertOrIgnore hx
    · exact (h.rejected n hn).2 x hx hmine
    · obtain rfl := List.mem_singleton.mp hmine
      exact absurd hn h.notMem_rejected
  · obtain hx | rfl := Table.mem_insertOrIgnore hx
    · exact h.told x hx a ha
    · cases ha
  · obtain hx | rfl := Table.mem_insertOrIgnore hx
    · exact h.unauthorized x hx hx_told
    · cases hx_told

/-- The daemon takes a step; a request that arrives is one that a call has sent under a token that it takes. -/
theorem Inv.daemon (h : Inv cfg opBusy s) {step : Step K V}
    (harrive : ∀ id key fingerprint, step = .arrive id key fingerprint → ∃ c ∈ s.calls.rows,
      c.key = key ∧ c.fingerprint = fingerprint ∧ id ∈ c.attempt.keyed ∧ c.token ≠ .read false) :
    Inv cfg opBusy { s with server := s.server.next cfg step } := by
  refine { h with server := Server.inv_next h.server step, request := fun q hq => ?_, told := fun c hc a ha => ?_ }
  · obtain ⟨x, hx, hid, hkey, hbody⟩ | harrived := Server.request_of_next hq
    · obtain ⟨c, hc, hc_key, hc_body, hsent, htoken⟩ := h.request x hx
      exact ⟨c, hc, hc_key.trans hkey, hc_body.trans hbody, hid ▸ hsent, htoken⟩
    · exact harrive _ _ _ harrived
  · refine (h.told c hc a ha).imp_left ?_
    rintro ⟨q, hq, hsent, ⟨run, hstage⟩, hbusy⟩
    have hanswered : q.isAnswered = true := by rw [KeyedRequest.isAnswered, hstage]
    exact ⟨q, Server.answered_next hq hanswered, hsent, ⟨run, hstage⟩, hbusy⟩

/-- So does a send that arrives. -/
theorem Inv.arrive (h : Inv cfg opBusy s) (hc : c ∈ s.calls.rows) (sent : Nat) (live : Bool) :
    Inv cfg opBusy (s.arrive cfg c sent live) := by
  unfold Callers.arrive
  split
  swap
  · exact h
  next hsent =>
  split
  · next htaken =>
      have htoken : c.token ≠ .read false := fun hread => by
        rw [hread] at htaken
        cases htaken
      split
      · next hkeyed =>
          refine h.daemon fun id key fingerprint heq => ?_
          cases heq
          exact ⟨c, hc, rfl, rfl, hkeyed, htoken⟩
      split
      · next hplain =>
          refine { h with
            plain := fun p hp => ?_
            told := fun x hx a ha => (h.told x hx a ha).imp_right fun hheard =>
              hheard.imp fun p hp => hp.imp_left Table.mem_insertOrIgnore_of_mem }
          obtain hp | rfl := Table.mem_insertOrIgnore hp
          · exact h.plain p hp
          · exact ⟨⟨nofun, nofun⟩, c, hc, rfl, rfl, hplain, htoken⟩
      · exact h
  · next htaken =>
      refine { h with rejected := fun n hn => ?_ }
      obtain rfl | hn := List.mem_cons.mp hn
      · refine ⟨h.fresh c hc n hsent, fun x hx hmine hread => htaken ?_⟩
        rw [h.own c hc x hx n hsent hmine, hread]
        rfl
      · exact h.rejected n hn

/-- An op without a key takes a step, of which a call that has heard its answer knows nothing. -/
theorem Inv.plainStep (h : Inv cfg opBusy s) (sent : Nat) (step : PlainStep V) :
    Inv cfg opBusy (s.plainStep sent step) := by
  have hmem : ∀ {x}, x ∈ (s.plainStep sent step).plain.rows ↔
      ∃ p ∈ s.plain.rows, (if decide (p.id = sent) = true then p.next step else p) = x := fun {x} => by
    simp only [Callers.plainStep, Table.mem_updateWhere]
  refine ⟨h.server, h.fresh, h.own, h.request, fun p hp => ?_, h.rejected, fun c hc a ha => ?_, h.unauthorized⟩
  · obtain ⟨x, hx, rfl⟩ := hmem.mp hp
    obtain ⟨hok, hown⟩ := h.plain x hx
    split
    · obtain ⟨hid, hkey, hbody⟩ := PlainOp.next_same (p := x) step
      rw [hid, hkey, hbody]
      exact ⟨hok.next step, hown⟩
    · exact ⟨hok, hown⟩
  · refine (h.told c hc a ha).imp_right ?_
    rintro ⟨p, hp, hmine, hdone⟩
    exact ⟨p, hmem.mpr ⟨p, hp, by rw [PlainOp.next_of_done hdone, ite_self]⟩, hmine, hdone⟩

/-- Every step keeps the invariant. -/
theorem inv_next (h : Inv cfg opBusy s) (step : CallStep K V) : Inv cfg opBusy (s.next cfg opBusy step) := by
  have hcall : ∀ key (f : KeyedCall K V → Callers K V), (∀ c ∈ s.calls.rows, Inv cfg opBusy (f c)) →
      Inv cfg opBusy ((s.calls.find? key).elim s f) := fun key f hf => by
    cases hc : s.calls.find? key with
    | none => exact h
    | some c => exact hf c (Table.mem_of_find? hc)
  cases step with
  | call key fingerprint token => exact h.call key fingerprint token
  | arrive key sent live => exact hcall key _ fun c hc => h.arrive hc sent live
  | daemon step => cases step <;> first | exact h | exact h.daemon nofun
  | plain sent step => exact h.plainStep sent step
  | hear key current => exact hcall key _ fun c hc => h.hear hc current
  | stall key => exact hcall key _ fun c hc => h.stall hc
  | cut key => exact hcall key _ fun c hc => h.cut hc
  | fail key =>
      refine hcall key _ fun c hc => ?_
      split
      · exact h.tell hc nofun nofun
      · exact h

/-! ## what a call is told -/

/-- Callers that have made no call yet, of a daemon that starts. -/
def start (cfg : Config K V) : Callers K V := { server := Server.start cfg }

/-- A client without calls has it. -/
theorem inv_start : Inv cfg opBusy (start cfg) where
  server := Server.inv_start
  fresh _ hc := (List.not_mem_nil hc).elim
  own _ hc := (List.not_mem_nil hc).elim
  request _ hq := (List.not_mem_nil hq).elim
  plain _ hp := (List.not_mem_nil hp).elim
  rejected _ hn := (List.not_mem_nil hn).elim
  told _ hc := (List.not_mem_nil hc).elim
  unauthorized _ hc := (List.not_mem_nil hc).elim

/-- **The invariant holds after any interleaving.** -/
theorem inv_run (cfg : Config K V) (opBusy : V → Bool) (steps : List (CallStep K V)) :
    Inv cfg opBusy (run (next cfg opBusy) (start cfg) steps) := by
  have hstep : ∀ (s : Callers K V) step, Inv cfg opBusy s → Inv cfg opBusy (s.next cfg opBusy step) :=
    fun _ step h => inv_next h step
  exact run_invariant hstep inv_start steps

/-- A request is one of the call that sent it. -/
theorem Inv.of_sent (h : Inv cfg opBusy s) (hc : c ∈ s.calls.rows) {q : KeyedRequest K V}
    (hq : q ∈ s.server.requests.rows) (hsent : q.id ∈ c.attempt.keyed) :
    c.key = q.key ∧ c.fingerprint = q.fingerprint := by
  obtain ⟨x, hx, hkey, hbody, hx_sent, -⟩ := h.request q hq
  obtain rfl := h.own x hx c hc q.id (x.attempt.keyed_subset hx_sent) (c.attempt.keyed_subset hsent)
  exact ⟨hkey, hbody⟩

/-- A run of the key of a call is that of a request that the call has sent. -/
theorem Inv.owner (h : Inv cfg opBusy s) (hc : c ∈ s.calls.rows) {r : OpRun K V} (hr : r ∈ s.server.runs.rows)
    (hkey : r.key = c.key) :
    ∃ q ∈ s.server.requests.rows, q.id ∈ c.attempt.keyed ∧ q.fingerprint = r.fingerprint ∧
      q.stage.run = some r.id := by
  obtain ⟨q, hq, hq_key, hbody, howns⟩ := h.server.owned r hr
  obtain ⟨x, hx, hx_key, -, hsent, -⟩ := h.request q hq
  obtain rfl := s.calls.eq_of_key_eq hx hc (hx_key.trans (hq_key.trans hkey))
  exact ⟨q, hq, hsent, hbody, howns⟩

/-- An op without a key is one that the call of its key has sent. -/
theorem Inv.plainOwner (h : Inv cfg opBusy s) (hc : c ∈ s.calls.rows) {p : PlainOp K V} (hp : p ∈ s.plain.rows)
    (hkey : p.key = c.key) : c.fingerprint = p.fingerprint ∧ p.id ∈ c.attempt.plain ∧ c.token ≠ .read false := by
  obtain ⟨-, x, hx, hx_key, hbody, hsent, htoken⟩ := h.plain p hp
  obtain rfl := s.calls.eq_of_key_eq hx hc (hx_key.trans hkey)
  exact ⟨hbody, hsent, htoken⟩

/-- The runs of a call under its key are as many as it has sent of them at most. -/
theorem Inv.runs_le (h : Inv cfg opBusy s) (hc : c ∈ s.calls.rows) :
    (s.server.runs.rows.filter (·.key = c.key)).length ≤ c.attempt.keyed.length := by
  -- each request has joined one run, and each run has a request that has joined it
  let joined (n : Nat) : Option Nat := (s.server.requests.find? n).bind (·.stage.run)
  have hnodup : ((s.server.runs.rows.filter (·.key = c.key)).map (some ∘ OpRun.id)).Nodup := by
    have hids : ((s.server.runs.rows.filter (·.key = c.key)).map OpRun.id).Nodup :=
      s.server.runs.nodup.sublist (List.filter_sublist.map _)
    rw [← List.map_map]
    exact hids.map (Option.some_injective Nat)
  have hsub : ((s.server.runs.rows.filter (·.key = c.key)).map (some ∘ OpRun.id)) ⊆ c.attempt.keyed.map joined := by
    intro n hn
    obtain ⟨r, hr, rfl⟩ := List.mem_map.mp hn
    obtain ⟨hr, hkey⟩ := List.mem_filter.mp hr
    obtain ⟨q, hq, hsent, -, howns⟩ := h.owner hc hr (of_decide_eq_true hkey)
    refine List.mem_map.mpr ⟨q.id, hsent, ?_⟩
    simp only [joined, Table.find?_of_mem hq, Option.bind_some, howns, Function.comp_apply]
  simpa using hnodup.length_le_of_subset hsub

/-- Its ops without a key are as many as it has sent of those at most. -/
theorem Inv.plain_le (h : Inv cfg opBusy s) (hc : c ∈ s.calls.rows) :
    (s.plain.rows.filter (·.key = c.key)).length ≤ c.attempt.plain.length := by
  have hnodup : ((s.plain.rows.filter (·.key = c.key)).map PlainOp.id).Nodup :=
    s.plain.nodup.sublist (List.filter_sublist.map _)
  have hsub : ((s.plain.rows.filter (·.key = c.key)).map PlainOp.id) ⊆ c.attempt.plain := by
    intro n hn
    obtain ⟨p, hp, rfl⟩ := List.mem_map.mp hn
    obtain ⟨hp, hkey⟩ := List.mem_filter.mp hp
    exact (h.plainOwner hc hp (of_decide_eq_true hkey)).2.1
  simpa using hnodup.length_le_of_subset hsub

/-- What became of the op of a call that is told that nothing ran: it was refused, or it said so itself. -/
def Untouched (opBusy : V → Bool) (s : Callers K V) (c : KeyedCall K V) (a : Answer V) : Prop :=
  (∀ r ∈ s.server.runs.rows, r.key = c.key → r.progress = .abandoned false ∧ r.applied = false ∨
      ∃ v since, opBusy v = true ∧ a = .value v ∧ r.progress = .recorded v since) ∧
    ∀ p ∈ s.plain.rows, p.key = c.key → p.stage = .done .busy ∧ p.applied = false ∨
      ∃ v, opBusy v = true ∧ a = .value v ∧ p.stage = .done (.value v)

/-- **A caller that is told that nothing ran may try again under another key.** Whatever is still on its way to the
daemon, its op has not run, with its key or without, and never will, or it ran and said so itself. -/
theorem busy_run (cfg : Config K V) (opBusy : V → Bool) (steps : List (CallStep K V)) {c : KeyedCall K V} {a : Answer V}
    (hc : c ∈ (run (next cfg opBusy) (start cfg) steps).calls.rows) (htold : c.told = some (.answered a))
    (hbusy : isBusy opBusy a = true) : Untouched opBusy (run (next cfg opBusy) (start cfg) steps) c a := by
  have h := inv_run cfg opBusy steps
  obtain ⟨q, hq, hsent, ⟨id, hstage⟩, hlast⟩ | ⟨p, hp, hsent, hdone⟩ := h.told c hc a htold
  · have hattempt := hlast hbusy
    refine ⟨fun r hr hkey => ?_, fun p hp hkey => ?_⟩
    · have howner : ∀ x ∈ (run (next cfg opBusy) (start cfg) steps).server.runs.rows, x.key = c.key → id = some x.id :=
        fun x hx hx_key => by
          obtain ⟨q', hq', hsent, -, howns⟩ := h.owner hc hx hx_key
          rw [hattempt] at hsent
          rw [Table.eq_of_key_eq _ hq' hq (List.mem_singleton.mp hsent), hstage] at howns
          exact howns
      have hid := howner r hr hkey
      have ha := (h.server.request q hq).answer id a hstage
      cases a with
      | busy =>
          obtain ⟨x, hx, hx_id, hp⟩ := ha r.id hid
          obtain rfl := Table.eq_of_key_eq _ hx hr hx_id
          exact Or.inl ⟨hp, h.server.applied_of_refused hr hp⟩
      | value v =>
          obtain ⟨x, hx, hx_key, -, since, hp⟩ := ha
          have hx_id := howner x hx (hx_key.trans (h.of_sent hc hq hsent).1.symm)
          obtain rfl := Table.eq_of_key_eq _ hx hr (Option.some.inj (hx_id.symm.trans hid))
          exact Or.inr ⟨v, since, hbusy, rfl, hp⟩
      | _ => cases hbusy
    · have hsent := (h.plainOwner hc hp hkey).2.1
      rw [hattempt] at hsent
      exact (List.not_mem_nil hsent).elim
  · refine ⟨fun r hr hkey => ?_, fun x hx hkey => ?_⟩
    · -- what was sent under the key was cut off
      obtain ⟨q, -, hkeyed, -⟩ := h.owner hc hr hkey
      rw [Attempt.plain_eq_nil hkeyed] at hsent
      exact (List.not_mem_nil hsent).elim
    · have hx_sent := (h.plainOwner hc hx hkey).2.1
      have hsame : x.id = p.id := by
        cases hattempt : c.attempt <;> rw [hattempt] at hsent hx_sent
        case fallback => exact (List.mem_singleton.mp hx_sent).trans (List.mem_singleton.mp hsent).symm
        all_goals exact (List.not_mem_nil hsent).elim
      obtain rfl := Table.eq_of_key_eq _ hx hp hsame
      cases a with
      | busy =>
          refine Or.inl ⟨hdone, Bool.eq_false_iff.mpr fun happlied => ?_⟩
          have hstarted := (h.plain x hx).1.applied happlied
          rw [PlainOp.hasStarted, hdone] at hstarted
          cases hstarted
      | value v => exact Or.inr ⟨v, hbusy, rfl, hdone⟩
      | _ => cases hbusy

/-- A call with the token of an earlier daemon, which is made all over and refused; one that is sent twice and answered
the second time; and one that is cut off and then answered without its key. -/
def refusedResentCut : List (CallStep Nat Nat) :=
  [.call 7 3 (.read false), .arrive 7 0 true, .hear 7 true, .arrive 7 1 true, .daemon (.admission 1 true),
    .daemon (.serve 1), .daemon (.start 0 false), .daemon (.tell 0), .daemon (.reply 1), .hear 7 true,
    .call 8 4 .given, .stall 8, .arrive 8 3 true, .daemon (.admission 3 true), .daemon (.serve 3),
    .daemon (.start 1 true), .daemon (.apply 1), .daemon (.ran 1 9), .daemon (.finish 1), .daemon (.tell 1),
    .daemon (.reply 3), .hear 8 true,
    .call 9 5 (.read true), .cut 9, .arrive 9 5 true, .plain 5 .start, .plain 5 .apply, .plain 5 (.ran 6), .hear 9 true]

/-- A call that is told `busy` after a token was rejected has run nothing. -/
theorem busy_refused :
    ∃ c ∈ (run (next Server.shortLived fun _ => false) (start Server.shortLived) refusedResentCut).calls.rows,
      c.told = some (.answered .busy) ∧ c.sends = [1, 0] ∧
        Untouched (fun _ => false) (run (next Server.shortLived fun _ => false) (start Server.shortLived)
          refusedResentCut) c .busy := by
  have hc : (⟨7, 3, .read true, .first 1, some (.first 0), some (.answered .busy)⟩ : KeyedCall Nat Nat) ∈
      (run (next Server.shortLived fun _ => false) (start Server.shortLived) refusedResentCut).calls.rows := by
    decide +kernel
  exact ⟨_, hc, rfl, rfl, busy_run Server.shortLived _ refusedResentCut hc rfl rfl⟩

/-- What a call is told is true of its op. -/
structure ToldTrue (s : Callers K V) (c : KeyedCall K V) : Prop where
  runs : (s.server.runs.rows.filter (·.key = c.key)).length + (s.plain.rows.filter (·.key = c.key)).length ≤
    c.attempt.sends.length
  attempts : c.attempt.sends.length ≤ 2 ∧ c.sends.length ≤ 4
  mismatch : c.told ≠ some (.answered .mismatch)
  unauthorized : c.told = some .unauthorized → c.token = .given ∨
    (∀ r ∈ s.server.runs.rows, r.key ≠ c.key) ∧ ∀ p ∈ s.plain.rows, p.key ≠ c.key
  value : ∀ v, c.told = some (.answered (.value v)) →
    (∃ r ∈ s.server.runs.rows, r.key = c.key ∧ r.fingerprint = c.fingerprint ∧
        ∃ since, r.progress = .recorded v since) ∨
      ∃ p ∈ s.plain.rows, p.key = c.key ∧ p.fingerprint = c.fingerprint ∧ p.stage = .done (.value v)

/-- **What a call is told is true**, and its op is run at most once for each time that its last attempt was sent: twice
at most, and never for an attempt before it, of two at most. -/
theorem told_run (cfg : Config K V) (opBusy : V → Bool) (steps : List (CallStep K V)) {c : KeyedCall K V}
    (hc : c ∈ (run (next cfg opBusy) (start cfg) steps).calls.rows) :
    ToldTrue (run (next cfg opBusy) (start cfg) steps) c := by
  have h := inv_run cfg opBusy steps
  refine ⟨?_, ⟨c.attempt.length_sends_le, c.length_sends_le⟩, fun htold => ?_, fun htold => ?_, fun v htold => ?_⟩
  · exact (Nat.add_le_add (h.runs_le hc) (h.plain_le hc)).trans c.attempt.length_keyed_add_length_plain_le
  · obtain ⟨q, hq, hsent, ⟨id, hstage⟩, -⟩ | ⟨p, hp, -, hdone⟩ := h.told c hc _ htold
    · obtain ⟨-, r, hr, hkey, hbody⟩ := (h.server.request q hq).answer id _ hstage
      obtain ⟨hq_key, hq_body⟩ := h.of_sent hc hq hsent
      obtain ⟨q', hq', hsent', hbody', -⟩ := h.owner hc hr (hkey.trans hq_key.symm)
      exact hbody (hbody'.symm.trans ((h.of_sent hc hq' hsent').2.symm.trans hq_body))
    · exact (h.plain p hp).1.answer hdone
  · have htoken := h.unauthorized c hc htold
    cases hcase : c.token with
    | given => exact Or.inl rfl
    | read current =>
        -- the daemon never takes it, and it has taken the token of everything that it has
        have hstale : c.token = .read false := by
          cases current with
          | true => exact absurd hcase htoken
          | false => exact hcase
        refine Or.inr ⟨fun r hr hkey => ?_, fun p hp hkey => (h.plainOwner hc hp hkey).2.2 hstale⟩
        obtain ⟨q, hq, hq_key, -, -⟩ := h.server.owned r hr
        obtain ⟨x, hx, hx_key, -, -, hx_token⟩ := h.request q hq
        obtain rfl := Table.eq_of_key_eq _ hx hc (hx_key.trans (hq_key.trans hkey))
        exact hx_token hstale
  · obtain ⟨q, hq, hsent, ⟨id, hstage⟩, -⟩ | ⟨p, hp, hsent, hdone⟩ := h.told c hc _ htold
    · obtain ⟨r, hr, hkey, hbody, hp⟩ := (h.server.request q hq).answer id _ hstage
      obtain ⟨hq_key, hq_body⟩ := h.of_sent hc hq hsent
      exact Or.inl ⟨r, hr, hkey.trans hq_key.symm, hbody.trans hq_body.symm, hp⟩
    · obtain ⟨-, x, hx, hkey, hbody, hx_sent, -⟩ := h.plain p hp
      obtain rfl := h.own x hx c hc p.id (x.attempt.plain_subset hx_sent) (c.attempt.plain_subset hsent)
      exact Or.inr ⟨p, hp, hkey.symm, hbody.symm, hdone⟩

/-- One call is told the value of its resent send, and another that of its unkeyed one. -/
theorem told_resent :
    ∃ c ∈ (run (next Server.shortLived fun _ => false) (start Server.shortLived) refusedResentCut).calls.rows,
      ∃ c' ∈ (run (next Server.shortLived fun _ => false) (start Server.shortLived) refusedResentCut).calls.rows,
        c.told = some (.answered (.value 9)) ∧ c.attempt = .resent 3 2 ∧
          ToldTrue (run (next Server.shortLived fun _ => false) (start Server.shortLived) refusedResentCut) c ∧
        c'.told = some (.answered (.value 6)) ∧ c'.attempt = .fallback 5 4 ∧
          ToldTrue (run (next Server.shortLived fun _ => false) (start Server.shortLived) refusedResentCut) c' := by
  have hc : (⟨8, 4, .given, .resent 3 2, none, some (.answered (.value 9))⟩ : KeyedCall Nat Nat) ∈
      (run (next Server.shortLived fun _ => false) (start Server.shortLived) refusedResentCut).calls.rows := by
    decide +kernel
  have hc' : (⟨9, 5, .read true, .fallback 5 4, none, some (.answered (.value 6))⟩ : KeyedCall Nat Nat) ∈
      (run (next Server.shortLived fun _ => false) (start Server.shortLived) refusedResentCut).calls.rows := by
    decide +kernel
  exact ⟨_, hc, _, hc', rfl, rfl, told_run Server.shortLived _ refusedResentCut hc, rfl, rfl,
    told_run Server.shortLived _ refusedResentCut hc'⟩

end Callers

end Jkb.Daemon
