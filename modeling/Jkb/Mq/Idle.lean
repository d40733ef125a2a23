import Jkb.Mq.Caps

/-!
# Jkb.Mq.Idle

A consumer that keeps polling. It asks first whether a poll has anything to do, and a poll it is told to
skip leaves the group's last poll as old as it was; compaction still does not take the group for an
abandoned one, as long as the consumer is back within half the time after which a group is idle.
-/

namespace Jkb.Mq

open Run Tx

variable {Value : Type} {json : Serde Value}

/-! ## asking first -/

def pollTouchMs : Int := 60 * 60 * 1000

/-- How old a group's last poll may get before a poll refreshes it. -/
def touchEvery (spec : TopicSpec) : Int := min pollTouchMs (max (spec.groupIdleMs / 4) 1)

/-- Whether a poll has messages to hand over, or a last poll to refresh. -/
def pollNeededReserved (q : Queue) (topic group : String) (max : Nat) (after : Option Int) (now : Int) :
    Except QueueError Bool := do
  checkBatch max
  let row ← q.topicRowAny topic
  match q.groups.find? (row.id, group) with
  | none => .error (.noSuchGroup topic group)
  | some g =>
      if g.lastPollAt.all fun at_ => touchEvery row.spec ≤ satSub now at_ then pure true
      else
        let fromSeq := Max.max g.position (after.getD 0)
        pure ((q.messagesOf row.id).any fun m => fromSeq < m.seq)

def pollNeeded (q : Queue) (topic group : String) (max : Nat) (after : Option Int) (now : Int) :
    Except QueueError Bool := do
  checkUnreserved topic
  pollNeededReserved q topic group max after now

/-- The question, by who asks. -/
def asked (q : Queue) (topic group : String) (max : Nat) (after : Option Int) (now : Int) :
    Caller → Except QueueError Bool
  | .anyone => pollNeeded q topic group max after now
  | .owner => pollNeededReserved q topic group max after now

/-- The poll, by who calls. -/
def polled (json : Serde Value) (q : Queue) (topic group : String) (max : Nat) (after : Option Int)
    (now : Int) : Caller → Except QueueError (Queue × List (Delivered Value))
  | .anyone => poll json q topic group max after now
  | .owner => pollReserved json q topic group max after now

/-! ## a consumer's run -/

/-- A consumer: who it calls as, and the group it reads. -/
structure Consumer where
  caller : Caller
  topic : String
  group : String

/-- What happens: the consumer asks or polls, or somebody else does something. -/
inductive Event (Value : Type) where
  | ask (max : Nat) (after : Option Int) (now : Int)
  | poll (max : Nat) (after : Option Int) (now : Int)
  | other (caller : Caller) (op : Op Value)

/-- The time an operation is given. -/
def Op.now? : Op Value → Option Int
  | .topicCreate _ _ now => some now
  | .send _ _ now => some now
  | .groupCreate _ _ _ now => some now
  | .groupDelete _ _ => none
  | .poll _ _ _ _ now => some now
  | .ack _ _ _ now => some now
  | .compact now _ => some now

def Event.now? : Event Value → Option Int
  | .ask _ _ now => some now
  | .poll _ _ now => some now
  | .other _ op => op.now?

/-- The queue, with the time, when the consumer was last through with a call, and the poll that it has
been told to make. -/
structure Watch where
  q : Queue
  clock : Int
  last : Int
  due : Option (Nat × Option Int)

/-- What happens next. A call ends where the answer is that no poll is needed, or the group is gone, or
else with the poll. -/
def Watch.next (json : Serde Value) (c : Consumer) (w : Watch) : Event Value → Watch
  | .ask max after now =>
      match asked w.q c.topic c.group max after now c.caller with
      | .ok true => { w with clock := now, due := some (max, after) }
      | .ok false => { w with clock := now, last := now }
      | .error (.noSuchGroup _ _) => { w with clock := now, last := now }
      | .error _ => { w with clock := now }
  | .poll max after now =>
      { q := step json w.q (c.caller, .poll c.topic c.group max after now)
        clock := now
        last := now
        due := none }
  | .other caller op =>
      { w with
        q := step json w.q (caller, op)
        clock := op.now?.getD w.clock }

/-- A run in which time does not go back and the consumer makes the polls that it has been told to
make, and no others. -/
structure Obeys (w : Watch) (e : Event Value) : Prop where
  time : ∀ now, e.now? = some now → w.clock ≤ now
  ask : ∀ max after now, e = .ask max after now → w.due = none
  poll : ∀ max after now, e = .poll max after now → w.due = some (max, after)

/-- What the run keeps to, besides: no more than half of `idleMs` goes by between the end of one of the
consumer's calls and the end of its next. -/
structure Keeps (idleMs : Int) (w : Watch) (e : Event Value) : Prop extends Obeys w e where
  through : ∀ now, e.now? = some now → 2 * (now - w.last) ≤ idleMs

/-- The time of a call of the consumer's. A question and the poll it asks for are two calls. -/
def Event.call? : Event Value → Option Int
  | .ask _ _ now => some now
  | .poll _ _ now => some now
  | .other _ _ => none

/-- A first call that the consumer is through with at `now`. -/
inductive FirstCall (json : Serde Value) (c : Consumer) (q : Queue) (now : Int) : Queue → Prop
  | skipped (max after) (h : asked q c.topic c.group max after now c.caller = .ok false) :
      FirstCall json c q now q
  | polled (max after q' out)
      (h : polled json q c.topic c.group max after now c.caller = .ok (q', out)) :
      FirstCall json c q now q'

/-! ## what an operation does to a group -/

/-- The latest sign of life of a group. -/
def Group.seen (g : Group) : Int := Max.max g.createdAt (Max.max (g.lastPollAt.getD 0) (g.lastAckAt.getD 0))

variable {q q' : Queue}

/-- A group that is created is created now. -/
theorem groupCreateReserved_find {topic group : String} {start : Start} {now : Int} {c : Created}
    (h : groupCreateReserved q topic group start now = .ok (q', c)) {k : Nat × String} {g : Group}
    (hg : q'.groups.find? k = some g) : q.groups.find? k = some g ∨ g.createdAt = now := by
  simp only [groupCreateReserved, bind_eq_ok] at h
  obtain ⟨-, -, t, -, h⟩ := h
  cases h
  rw [Table.find?_insertOrIgnore] at hg
  split_ifs at hg
  · right
    rw [← Option.some.inj hg]
  · exact Or.inl hg

/-- **An operation** leaves a group as it was, or leaves a sign of life at its own time. -/
theorem seen_step {caller : Caller} {op : Op Value} {k : Nat × String} {g : Group}
    (hg : (step json q (caller, op)).groups.find? k = some g) :
    (∃ g₀, q.groups.find? k = some g₀ ∧ g.seen = g₀.seen) ∨ ∃ now, op.now? = some now ∧ now ≤ g.seen := by
  have hsame : q.groups.find? k = some g →
      (∃ g₀, q.groups.find? k = some g₀ ∧ g.seen = g₀.seen) ∨
        ∃ now, op.now? = some now ∧ now ≤ g.seen := fun h => Or.inl ⟨g, h, rfl⟩
  cases hok : perform json q caller op with
  | error e => exact hsame (by simpa [step, hok, commit] using hg)
  | ok q' =>
      have hstep : step json q (caller, op) = q' := by simp [step, hok, commit]
      rw [hstep] at hg
      cases perform_change hok with
      | existing | topic => exact hsame hg
      | sent t q₁ mk hmk ht hroom hid =>
          refine hsame ?_
          have hgroups : q₁.groups = q.groups := by cases hroom <;> rfl
          rwa [← hgroups]
      | @joined topic group start now g₀ =>
          have hfind : q.groups.find? k = some g ∨ g.createdAt = now := by
            cases caller <;> obtain ⟨a, h⟩ := map_fst_eq_ok hok
            · exact groupCreateReserved_find (ok_of_checked h) hg
            · exact groupCreateReserved_find h hg
          rcases hfind with hfind | hnow
          · exact hsame hfind
          · exact Or.inr ⟨now, rfl, hnow ▸ le_max_left _ _⟩
      | left p =>
          rw [Table.find?_deleteWhere] at hg
          exact hsame (Option.filter_eq_some_iff.mp hg).1
      | @polled topic group max after now id =>
          simp only [Queue.updateGroup, Table.find?_updateWhere] at hg
          obtain ⟨g₀, hg₀, rfl⟩ := Option.map_eq_some_iff.mp hg
          split
          · exact Or.inr ⟨now, rfl, (le_max_left _ _).trans (le_max_right _ _)⟩
          · exact Or.inl ⟨g₀, hg₀, rfl⟩
      | @acked topic group seq now t row ht hrow =>
          simp only [Queue.updateGroup, Table.find?_updateWhere] at hg
          obtain ⟨g₀, hg₀, rfl⟩ := Option.map_eq_some_iff.mp hg
          split
          · exact Or.inr ⟨now, rfl, (le_max_right _ _).trans (le_max_right _ _)⟩
          · exact Or.inl ⟨g₀, hg₀, rfl⟩
      | compacted => exact hsame (groups_foldl_compactTopic _ _ hg)

/-- **No operation changes what a topic is**: its id and its spec. -/
theorem Change.topic_kept {op : Op Value} (h : Change q op q') {name : String} {t : Topic}
    (ht : q.topics.find? name = some t) :
    ∃ t', q'.topics.find? name = some t' ∧ t'.id = t.id ∧ t'.spec = t.spec := by
  cases h with
  | topic u hfree hid => exact ⟨t, Table.find?_insert_of_some hfree ht, rfl, rfl⟩
  | sent u q₁ mk hmk hu hroom hid =>
      refine ⟨t, ?_, rfl, rfl⟩
      simpa only [hroom.topics] using ht
  | @compacted now force =>
      have hsame := @map_topics_foldl_compactTopic _ now force (fun t => (t.id, t.spec)) (fun _ _ => rfl)
        q.topics.rows (q, {}) name
      rw [ht] at hsame
      obtain ⟨t', ht', heq⟩ := Option.map_eq_some_iff.mp hsame
      exact ⟨t', ht', (Prod.mk.inj heq).1, (Prod.mk.inj heq).2⟩
  | existing | joined | left | polled | acked => exact ⟨t, ht, rfl, rfl⟩

/-- **Compaction keeps a group** that is not idle, by the idle time of its topic. -/
theorem find?_foldl_compactTopic {now : Int} {force : Bool} {ts : List Topic}
    {acc : Queue × CompactReport} {k : Nat × String} {g : Group} (hg : acc.1.groups.find? k = some g)
    (hlive : ∀ t ∈ ts, t.id = k.1 → g.idle t.spec.groupIdleMs now = false) :
    (ts.foldl (compactTopic now force) acc).1.groups.find? k = some g := by
  induction ts generalizing acc with
  | nil => exact hg
  | cons t ts ih =>
      rw [List.foldl_cons]
      refine ih ?_ fun u hu => hlive u (List.mem_cons_of_mem _ hu)
      obtain ⟨q, report⟩ := acc
      have hfound : q.groups.find? k = some g := hg
      simp only [compactTopic]
      split
      · exact hg
      · have hgroups : ((q.dropIdle t now).reapExpired t now).groups = (q.dropIdle t now).groups := by
          unfold Queue.reapExpired
          cases (q.dropIdle t now).reapThrough t <;> rfl
        rw [hgroups, Queue.dropIdle, Table.find?_deleteWhere, hfound]
        have hid : g.topicId = k.1 := congrArg Prod.fst (Table.key_of_find? hg)
        by_cases hsame : t.id = k.1
        · simp [hlive t List.mem_cons_self hsame]
        · simp [hid, Ne.symm hsame]

/-! ## what an answer says -/

/-- What the public operations check, and the owner's do not. -/
def Caller.check (topic : String) : Caller → Except QueueError Unit
  | .anyone => checkUnreserved topic
  | .owner => .ok ()

variable {topic group : String} {max : Nat} {after : Option Int} {now : Int} {caller : Caller} {t : Topic}

/-- What a consumer asks is checked first. -/
theorem asked_eq : asked q topic group max after now caller =
    caller.check topic >>= fun _ => pollNeededReserved q topic group max after now := by
  cases caller <;> rfl

/-- So is what it polls. -/
theorem polled_eq : polled json q topic group max after now caller =
    caller.check topic >>= fun _ => pollReserved json q topic group max after now := by
  cases caller <;> rfl

/-- **The answer that no poll is needed**: the group was polled lately, and has nothing to read. -/
theorem asked_false (ht : q.topics.find? topic = some t)
    (h : asked q topic group max after now caller = .ok false) :
    caller.check topic = .ok () ∧ checkBatch max = .ok () ∧
      ∃ g at_, q.groups.find? (t.id, group) = some g ∧ g.lastPollAt = some at_ ∧
        satSub now at_ < touchEvery t.spec ∧
        ∀ m ∈ q.messagesOf t.id, m.seq ≤ Max.max g.position (after.getD 0) := by
  simp only [asked_eq, pollNeededReserved, bind_eq_ok, topicRowAny_ok, ht, Option.some.injEq] at h
  obtain ⟨_, hcheck, _, hbatch, row, rfl, h⟩ := h
  refine ⟨hcheck, hbatch, ?_⟩
  cases hg : q.groups.find? (t.id, group) with
  | none => simp [hg] at h
  | some g =>
      simp only [hg] at h
      split at h
      · cases h
      · rename_i hlate
        cases hat : g.lastPollAt with
        | none => simp [hat] at hlate
        | some at_ =>
            refine ⟨g, at_, rfl, hat, by simpa [hat] using hlate, fun m hm => ?_⟩
            have hnone := List.any_eq_false.mp (Except.ok.inj h) m hm
            exact not_lt.mp (by simpa using hnone)

/-- An answer means that the poll's arguments are not refused. -/
theorem asked_true (h : asked q topic group max after now caller = .ok true) :
    caller.check topic = .ok () ∧ checkBatch max = .ok () := by
  simp only [asked_eq, pollNeededReserved, bind_eq_ok] at h
  obtain ⟨_, hcheck, _, hbatch, -⟩ := h
  exact ⟨hcheck, hbatch⟩

/-- A batch that is refused says nothing of the group. -/
theorem checkBatch_ne_noSuchGroup {a b : String} : checkBatch max ≠ .error (.noSuchGroup a b) := by
  unfold checkBatch
  split <;> simp

/-- Nor does a topic that is. -/
theorem check_ne_noSuchGroup {a b : String} : caller.check topic ≠ .error (.noSuchGroup a b) := by
  cases caller with
  | owner => simp [Caller.check]
  | anyone =>
      simp only [Caller.check, checkUnreserved]
      split <;> simp

/-- The refusal for a group that is not there. -/
theorem asked_noSuchGroup (ht : q.topics.find? topic = some t) {a b : String}
    (h : asked q topic group max after now caller = .error (.noSuchGroup a b)) :
    q.groups.find? (t.id, group) = none := by
  rw [asked_eq] at h
  cases hcheck : caller.check topic with
  | error e =>
      rw [hcheck] at h
      obtain rfl := Except.error.inj h
      exact absurd hcheck check_ne_noSuchGroup
  | ok u =>
      simp only [hcheck, pollNeededReserved, bind, Except.bind, topicRowAny_ok.mpr ht] at h
      cases hbatch : checkBatch max with
      | error e =>
          rw [hbatch] at h
          obtain rfl := Except.error.inj h
          exact absurd hbatch checkBatch_ne_noSuchGroup
      | ok u =>
          simp only [hbatch] at h
          cases hg : q.groups.find? (t.id, group) with
          | none => rfl
          | some g =>
              simp only [hg] at h
              split at h <;> cases h

/-! ## a poll -/

/-- Payloads that read back are handed over. -/
theorem parsePayloads_ok {out : List (Delivered Value)} {ms : List Message}
    (h : ∀ m ∈ ms, Stored json m) : ∃ out', parsePayloads json topic now out ms = .ok out' := by
  induction ms generalizing out with
  | nil => exact ⟨out, rfl⟩
  | cons m ms ih =>
      obtain ⟨-, v, hv⟩ := h m List.mem_cons_self
      rw [parsePayloads]
      simp only [hv]
      exact ih fun x hx => h x (List.mem_cons_of_mem _ hx)

/-- A poll keeps the group's key. -/
theorem key_polled (now : Int) : ∀ g : Group, (({ g with lastPollAt := some now } : Group).topicId,
    ({ g with lastPollAt := some now } : Group).name) = (g.topicId, g.name) := fun _ => rfl

/-- The queue after a poll. -/
def touched (q : Queue) (id : Nat) (group : String) (now : Int) : Queue :=
  q.updateGroup id group (fun g => { g with lastPollAt := some now }) (key_polled now)

/-- **A poll that is not refused for its arguments**, of a group that is there, is made. -/
theorem polled_ok (hcheck : caller.check topic = .ok ()) (hbatch : checkBatch max = .ok ())
    (ht : q.topics.find? topic = some t) {g : Group} (hg : q.groups.find? (t.id, group) = some g) :
    polled json q topic group max after now caller =
      (parsePayloads json topic now []
        (((q.messagesOf t.id).filter (Max.max g.position (after.getD 0) < ·.seq)).take max)).map
          fun out => (touched q t.id group now, out) := by
  have hposition : q.groupPosition topic t.id group = .ok g.position := groupPosition_ok.mpr ⟨g, hg, rfl⟩
  rw [polled_eq, hcheck]
  simp only [pollReserved, hbatch, topicRowAny_ok.mpr ht, hposition, bind, Except.bind]
  have hmessages : ∀ i, (q.updateGroup t.id group (fun g => { g with lastPollAt := some now })
      fun _ => rfl).messagesOf i = q.messagesOf i := fun _ => rfl
  simp only [hmessages]
  cases parsePayloads json topic now [] _ <;> rfl

/-- **A poll that is not needed** would hand nothing over. -/
theorem polled_of_asked_false (h : asked q topic group max after now caller = .ok false) :
    ∃ q', polled json q topic group max after now caller = .ok (q', []) := by
  cases ht : q.topics.find? topic with
  | none =>
      simp only [asked_eq, pollNeededReserved, bind_eq_ok, topicRowAny_ok, ht] at h
      obtain ⟨_, -, _, -, row, hrow, -⟩ := h
      cases hrow
  | some t =>
      obtain ⟨hcheck, hbatch, g, at_, hg, -, -, hread⟩ := asked_false ht h
      have hnone : (q.messagesOf t.id).filter (fun m => decide (Max.max g.position (after.getD 0) < m.seq)) =
          [] := by
        rw [List.filter_eq_nil_iff]
        intro m hm
        rw [decide_eq_true_eq]
        exact not_lt.mpr (hread m hm)
      rw [polled_ok hcheck hbatch ht hg, hnone, List.take_nil]
      exact ⟨_, rfl⟩

/-- What a poll does to a queue. -/
theorem perform_poll : perform json q caller (.poll topic group max after now) =
    Prod.fst <$> polled json q topic group max after now caller := by
  cases caller <;> rfl

/-! ## what holds all along -/

/-- **What holds all along**: the topic is there, a group that is there has given a sign of life in the
last quarter of the idle time before the consumer was last through, and a poll that is due is not one
that is refused for its arguments. -/
structure Seen (json : Serde Value) (c : Consumer) (t : Topic) (w : Watch) : Prop where
  topic : ∃ row, w.q.topics.find? c.topic = some row ∧ row.id = t.id ∧ row.spec = t.spec
  wf : Wf w.q
  stored : ∀ m ∈ w.q.messages.rows, Stored json m
  clock : w.last ≤ w.clock
  seen : ∀ g, w.q.groups.find? (t.id, c.group) = some g → 4 * (w.last - g.seen) < t.spec.groupIdleMs
  due : ∀ d, w.due = some d → c.caller.check c.topic = .ok () ∧ checkBatch d.1 = .ok ()

variable {c : Consumer} {w : Watch}

/-- A poll that is fresh enough not to be refreshed is within a quarter of the idle time. -/
theorem lt_of_satSub_lt {spec : TopicSpec} (hidle : 4 ≤ spec.groupIdleMs) {at_ : Int}
    (h : satSub now at_ < touchEvery spec) : 4 * (now - at_) < spec.groupIdleMs := by
  have htouch : touchEvery spec ≤ spec.groupIdleMs / 4 := by
    unfold touchEvery
    omega
  have hmax : touchEvery spec ≤ pollTouchMs := min_le_left _ _
  have hrange : pollTouchMs < i64Max := by decide
  simp only [satSub] at h
  omega

/-- Where the consumer hears that no poll is needed, the group was polled lately. -/
theorem seen_of_asked_false (hidle : 4 ≤ t.spec.groupIdleMs) {row : Topic}
    (hrow : q.topics.find? topic = some row) (hid : row.id = t.id) (hspec : row.spec = t.spec)
    (h : asked q topic group max after now caller = .ok false) :
    ∀ g, q.groups.find? (t.id, group) = some g → 4 * (now - g.seen) < t.spec.groupIdleMs := by
  intro g hg
  obtain ⟨-, -, g', at_, hg', hat, hfresh, -⟩ := asked_false hrow h
  rw [hid, hg] at hg'
  obtain rfl := Option.some.inj hg'
  have hlate := lt_of_satSub_lt hidle (hspec ▸ hfresh)
  have hseen : at_ ≤ g.seen := by
    unfold Group.seen
    rw [hat]
    exact (le_max_left _ _).trans (le_max_right _ _)
  omega

/-- Where the poll is made, the group has given a sign of life. -/
theorem seen_of_polled {row : Topic} (hrow : q.topics.find? topic = some row) (hid : row.id = t.id)
    (hpos : 0 < t.spec.groupIdleMs) (hstored : ∀ m ∈ q.messages.rows, Stored json m)
    (hcheck : caller.check topic = .ok ()) (hbatch : checkBatch max = .ok ()) :
    ∀ g, (step json q (caller, .poll topic group max after now)).groups.find? (t.id, group) = some g →
      4 * (now - g.seen) < t.spec.groupIdleMs := by
  intro g hg
  cases hbefore : q.groups.find? (t.id, group) with
  | none =>
      -- a poll makes no group
      rcases step_change json q (caller, .poll topic group max after now) with hc
      exfalso
      have hkept : (step json q (caller, .poll topic group max after now)).groups.find? (t.id, group) =
          none := by
        generalize step json q (caller, .poll topic group max after now) = q' at hc hg ⊢
        cases hc with
        | existing => exact hbefore
        | polled id => simp [Queue.updateGroup, Table.find?_updateWhere, hbefore]
      rw [hkept] at hg
      cases hg
  | some g₀ =>
      have hmade := @polled_ok _ json q topic group max after now caller row hcheck hbatch hrow g₀
        (hid ▸ hbefore)
      obtain ⟨out, hout⟩ := @parsePayloads_ok _ json topic now []
        (((q.messagesOf row.id).filter (Max.max g₀.position (after.getD 0) < ·.seq)).take max)
        fun m hm => hstored m (mem_messagesOf.mp (List.mem_filter.mp (List.mem_of_mem_take hm)).1).1
      rw [hout] at hmade
      have hstep : step json q (caller, .poll topic group max after now) = touched q row.id group now := by
        simp only [step, perform_poll, hmade]
        rfl
      rw [hstep, touched, Queue.updateGroup, hid] at hg
      simp only [Table.find?_updateWhere, hbefore] at hg
      have hkey := Table.key_of_find? hbefore
      obtain ⟨hgid, hgname⟩ := Prod.mk.inj hkey
      simp only [hgid, hgname, beq_self_eq_true, Bool.and_self, if_true, Option.map_some,
        Option.some.injEq] at hg
      have hseen : now ≤ g.seen := by
        rw [← hg]
        exact (le_max_left _ _).trans (le_max_right _ _)
      omega

/-! ## runs -/

/-- **One event** of a run that keeps to its times. -/
theorem Seen.next (hidle : 4 ≤ t.spec.groupIdleMs) (h : Seen json c t w) {e : Event Value}
    (hkeeps : Keeps t.spec.groupIdleMs w e) : Seen json c t (w.next json c e) := by
  obtain ⟨row, hrow, hid, hspec⟩ := h.topic
  cases e with
  | ask max after now =>
      have hlate := hkeeps.time now rfl
      rw [Watch.next]
      cases hanswer : asked w.q c.topic c.group max after now c.caller with
      | ok needed =>
          cases needed with
          | true =>
              exact { h with
                clock := h.clock.trans hlate
                due := by
                  rintro d hd
                  obtain rfl := Option.some.inj hd
                  exact asked_true hanswer }
          | false =>
              exact { h with
                clock := le_rfl
                seen := seen_of_asked_false hidle hrow hid hspec hanswer }
      | error e =>
          cases e with
          | noSuchGroup a b =>
              have hnone := asked_noSuchGroup hrow hanswer
              rw [hid] at hnone
              exact { h with
                clock := le_rfl
                seen := fun g hg => by rw [hnone] at hg; cases hg }
          | _ => exact { h with clock := h.clock.trans hlate }
  | poll max after now =>
      obtain ⟨hcheck, hbatch⟩ := h.due _ (hkeeps.poll max after now rfl)
      have hchange : Change w.q (.poll c.topic c.group max after now : Op Value)
        (step json w.q (c.caller, .poll c.topic c.group max after now)) := step_change json w.q (c.caller, _)
      obtain ⟨row', hrow', hid', hspec'⟩ := hchange.topic_kept hrow
      exact
        { topic := ⟨row', hrow', hid'.trans hid, hspec'.trans hspec⟩
          wf := hchange.wf h.wf
          stored := stored_step _ h.stored
          clock := le_rfl
          seen := seen_of_polled hrow hid (by omega) h.stored hcheck hbatch
          due := fun d hd => by cases hd }
  | other caller op =>
      have hchange : Change w.q op (step json w.q (caller, op)) := step_change json w.q (caller, op)
      obtain ⟨row', hrow', hid', hspec'⟩ := hchange.topic_kept hrow
      have hclock : w.clock ≤ op.now?.getD w.clock := by
        cases hnow : op.now? with
        | none => exact le_rfl
        | some now => exact hkeeps.time now hnow
      refine
        { topic := ⟨row', hrow', hid'.trans hid, hspec'.trans hspec⟩
          wf := hchange.wf h.wf
          stored := stored_step _ h.stored
          clock := h.clock.trans hclock
          seen := fun g hg => ?_
          due := h.due }
      rcases seen_step hg with ⟨g₀, hg₀, hseen⟩ | ⟨now, hnow, hseen⟩
      · rw [hseen]
        exact h.seen g₀ hg₀
      · -- whoever left the sign of life, time has not gone back since the consumer was last through
        have hlater := h.clock.trans (hkeeps.time now hnow)
        have hlast : w.last ≤ g.seen := hlater.trans hseen
        show 4 * (w.last - g.seen) < t.spec.groupIdleMs
        omega

/-- After its first call a consumer's group has been seen. -/
theorem Seen.first (hidle : 4 ≤ t.spec.groupIdleMs) (hwf : Wf q)
    (hstored : ∀ m ∈ q.messages.rows, Stored json m) (ht : q.topics.find? c.topic = some t)
    (h : FirstCall json c q now q') : Seen json c t ⟨q', now, now, none⟩ := by
  cases h with
  | skipped max after h =>
      exact
        { topic := ⟨t, ht, rfl, rfl⟩
          wf := hwf
          stored := hstored
          clock := le_rfl
          seen := seen_of_asked_false hidle ht rfl rfl h
          due := fun d hd => by cases hd }
  | polled max after q' out h =>
      have hstep : step json q (c.caller, .poll c.topic c.group max after now) = q' := by
        simp only [step, perform_poll, h]
        rfl
      have hchange : Change q (.poll c.topic c.group max after now : Op Value) q' :=
        hstep ▸ step_change json q (c.caller, _)
      obtain ⟨row', hrow', hid', hspec'⟩ := hchange.topic_kept ht
      obtain ⟨hcheck, hbatch⟩ : c.caller.check c.topic = .ok () ∧ checkBatch max = .ok () := by
        simp only [polled_eq, pollReserved, bind_eq_ok] at h
        obtain ⟨_, hcheck, _, hbatch, -⟩ := h
        exact ⟨hcheck, hbatch⟩
      exact
        { topic := ⟨row', hrow', hid', hspec'⟩
          wf := hchange.wf hwf
          stored := hstep ▸ stored_step _ hstored
          clock := le_rfl
          seen := hstep ▸ seen_of_polled ht rfl (by omega) hstored hcheck hbatch
          due := fun d hd => by cases hd }

/-- Compaction leaves a group that has been seen, at a time at which the consumer is not overdue. -/
theorem Seen.compact (h : Seen json c t w) (htime : 2 * (now - w.last) ≤ t.spec.groupIdleMs)
    (hidle : 4 ≤ t.spec.groupIdleMs) {force : Bool} {g : Group}
    (hg : w.q.groups.find? (t.id, c.group) = some g) :
    (step json w.q (caller, .compact now force)).groups.find? (t.id, c.group) = some g := by
  have hstep : step json w.q (caller, .compact now force) = (Mq.compact w.q now force).1 := by
    cases caller <;> rfl
  rw [hstep, Mq.compact]
  refine find?_foldl_compactTopic hg fun u hu huid => ?_
  obtain ⟨row, hrow, hid, hspec⟩ := h.topic
  have hsame : u = row :=
    List.inj_on_of_nodup_map h.wf hu (Table.mem_of_find? hrow) (huid.trans hid.symm)
  have hseen := h.seen g hg
  have hnot : ¬ t.spec.groupIdleMs ≤ now - g.seen := by omega
  rw [hsame, hspec]
  exact decide_eq_false hnot

/-- **A polling consumer is never removed as idle.** A poll that is not needed would hand nothing over.
And in every run of a topic whose groups are idle after four milliseconds or more, once a consumer is
through with a call, no compaction takes its group away as long as no more than half of the idle time
goes by before it is through with its next, whatever else happens. A call that finds a poll to be made
is through when the poll is: the question alone leaves no sign of life. -/
theorem polling_group_kept (json : Serde Value) :
    (∀ (q : Queue) (topic group : String) (max : Nat) (after : Option Int) (now : Int) (caller : Caller),
      asked q topic group max after now caller = .ok false →
        ∃ q', polled json q topic group max after now caller = .ok (q', [])) ∧
    ∀ (past : List (Caller × Op Value)) (c : Consumer) (t : Topic) (start : Int) (q₁ : Queue)
      (events before : List (Event Value)) (caller : Caller) (now : Int) (force : Bool)
      (after : List (Event Value)),
      let q := run (step json) Queue.empty past
      let w := run (Watch.next json c) ⟨q₁, start, start, none⟩ before
      q.topics.find? c.topic = some t → 4 ≤ t.spec.groupIdleMs → FirstCall json c q start q₁ →
      EveryStep (Watch.next json c) (Keeps t.spec.groupIdleMs) ⟨q₁, start, start, none⟩ events →
      events = before ++ .other caller (.compact now force) :: after →
      ∀ g, w.q.groups.find? (t.id, c.group) = some g →
        (step json w.q (caller, .compact now force)).groups.find? (t.id, c.group) = some g := by
  refine ⟨fun q topic group max after now caller => polled_of_asked_false, ?_⟩
  intro past c t start q₁ events before caller now force after q w ht hidle hfirst hkeeps hsplit g hg
  have hseen := Seen.first hidle (wf_run json past) (stored_run past) ht hfirst
  rw [hsplit, everyStep_append] at hkeeps
  have hw : Seen json c t w :=
    @run_invariant_of_everyStep _ _ (Watch.next json c) (Seen json c t) (Keeps t.spec.groupIdleMs)
      (fun _ _ hk h => h.next hidle hk) _ before hkeeps.1 hseen
  exact hw.compact (hkeeps.2.1.through now rfl) hidle hg

/-! ## a topic whose groups are idle after eight milliseconds -/

/-- A consumer asks when it has nothing due. -/
theorem obeys_ask (hdue : w.due = none) (hclock : w.clock ≤ now) :
    Obeys w (.ask max after now : Event Value) where
  time _ h := Option.some.inj h ▸ hclock
  ask _ _ _ _ := hdue
  poll _ _ _ h := by cases h

/-- It polls what it has due. -/
theorem obeys_poll (hdue : w.due = some (max, after)) (hclock : w.clock ≤ now) :
    Obeys w (.poll max after now : Event Value) where
  time _ h := Option.some.inj h ▸ hclock
  ask _ _ _ h := by cases h
  poll _ _ _ h := by
    cases h
    exact hdue

/-- Others do what they like, in their time. -/
theorem obeys_other {op : Op Value} (hop : op.now? = some now) (hclock : w.clock ≤ now) :
    Obeys w (.other caller op) where
  time _ h := Option.some.inj (hop.symm.trans h) ▸ hclock
  ask _ _ _ h := by cases h
  poll _ _ _ h := by cases h

/-- A topic whose groups are idle after eight milliseconds, and a group of it. -/
def eightMs : List (Caller × Op String) :=
  [(.anyone, .topicCreate "work" { TopicSpec.default with groupIdleMs := 8 } 0),
    (.anyone, .groupCreate "work" "reader" .fromStart 1)]

/-- The queue after the reader's first poll. -/
def eightMsPolled : Queue :=
  step Serde.text (run (step Serde.text) Queue.empty eightMs) (.anyone, .poll "work" "reader" 10 none 2)

/-- It asks a millisecond later, and has nothing to do; the group outlives a compaction four
milliseconds after that. -/
theorem polling_group_kept_eightMs :
    (step Serde.text eightMsPolled (.anyone, .compact 7 true)).groups.find? (1, "reader") =
      some ⟨1, "reader", 0, 1, some 2, none⟩ := by
  have hpolled : polled Serde.text (run (step Serde.text) Queue.empty eightMs) "work" "reader" 10 none 2
      .anyone = .ok (eightMsPolled, []) := by rfl
  have hasked : asked eightMsPolled "work" "reader" 10 none 3 .anyone = .ok false := by decide +kernel
  have hnext : Watch.next Serde.text ⟨.anyone, "work", "reader"⟩ ⟨eightMsPolled, 2, 2, none⟩
      (.ask 10 none 3) = ⟨eightMsPolled, 3, 3, none⟩ := by
    simp only [Watch.next, hasked]
  have hkeeps : EveryStep (Watch.next Serde.text ⟨.anyone, "work", "reader"⟩) (Keeps 8)
      ⟨eightMsPolled, 2, 2, none⟩ [.ask 10 none 3, .other .anyone (.compact 7 true)] := by
    refine ⟨⟨obeys_ask rfl (by decide), ?_⟩, ?_, trivial⟩
    · rintro now h
      cases h
      decide
    · rw [hnext]
      refine ⟨obeys_other rfl (by decide), ?_⟩
      rintro now h
      cases h
      decide
  have hkept := (polling_group_kept Serde.text).2 eightMs ⟨.anyone, "work", "reader"⟩
    ⟨1, "work", { TopicSpec.default with groupIdleMs := 8 }, 0, none⟩ 2 eightMsPolled
    [.ask 10 none 3, .other .anyone (.compact 7 true)] [.ask 10 none 3] .anyone 7 true []
    (by decide +kernel) (by decide) (.polled 10 none eightMsPolled [] hpolled) hkeeps rfl
    ⟨1, "reader", 0, 1, some 2, none⟩
  simp only [run_cons, run_nil, hnext] at hkept
  exact hkept (by decide +kernel)

/-- The reader asks at 3 and hears no, asks at 7 and hears yes, and makes that poll at 11. -/
def slowPoll : List (Event String) :=
  [.ask 10 none 3, .ask 10 none 7, .other .anyone (.compact 10 true), .poll 10 none 11]

/-- **No gap between two calls is enough by itself.** The reader is never away for more than half of the
idle time, and makes every poll that it is told to make; but the poll is the second of two calls, and a
compaction that runs before it finds a group last polled at 2. -/
theorem slow_poll_loses_group :
    (run (step Serde.text) Queue.empty eightMs).topics.find? "work" =
        some ⟨1, "work", { TopicSpec.default with groupIdleMs := 8 }, 0, none⟩ ∧
      FirstCall Serde.text ⟨.anyone, "work", "reader"⟩ (run (step Serde.text) Queue.empty eightMs) 2
        eightMsPolled ∧
      EveryStep (Watch.next Serde.text ⟨.anyone, "work", "reader"⟩) Obeys ⟨eightMsPolled, 2, 2, none⟩
        slowPoll ∧
      (2 :: slowPoll.filterMap Event.call?).IsChain (fun a b => a ≤ b ∧ 2 * (b - a) ≤ 8) ∧
      (run (Watch.next Serde.text ⟨.anyone, "work", "reader"⟩) ⟨eightMsPolled, 2, 2, none⟩
        (slowPoll.take 2)).q.groups.find? (1, "reader") = some ⟨1, "reader", 0, 1, some 2, none⟩ ∧
      (run (Watch.next Serde.text ⟨.anyone, "work", "reader"⟩) ⟨eightMsPolled, 2, 2, none⟩
        (slowPoll.take 3)).q.groups.find? (1, "reader") = none := by
  have hpolled : polled Serde.text (run (step Serde.text) Queue.empty eightMs) "work" "reader" 10 none 2
      .anyone = .ok (eightMsPolled, []) := by rfl
  have hno : asked eightMsPolled "work" "reader" 10 none 3 .anyone = .ok false := by decide +kernel
  have hyes : asked eightMsPolled "work" "reader" 10 none 7 .anyone = .ok true := by decide +kernel
  have hfirst : Watch.next Serde.text ⟨.anyone, "work", "reader"⟩ ⟨eightMsPolled, 2, 2, none⟩
      (.ask 10 none 3) = ⟨eightMsPolled, 3, 3, none⟩ := by
    simp only [Watch.next, hno]
  have hsecond : Watch.next Serde.text ⟨.anyone, "work", "reader"⟩ ⟨eightMsPolled, 3, 3, none⟩
      (.ask 10 none 7) = ⟨eightMsPolled, 7, 3, some (10, none)⟩ := by
    simp only [Watch.next, hyes]
  refine ⟨by decide +kernel, .polled 10 none eightMsPolled [] hpolled, ?_, by decide, ?_, ?_⟩
  · refine ⟨obeys_ask rfl (by decide), ?_⟩
    rw [hfirst]
    refine ⟨obeys_ask rfl (by decide), ?_⟩
    rw [hsecond]
    exact ⟨obeys_other rfl (by decide), obeys_poll rfl (by decide), trivial⟩
  · simp only [slowPoll, List.take, run_cons, run_nil, hfirst, hsecond]
    decide +kernel
  · simp only [slowPoll, List.take, run_cons, run_nil, hfirst, hsecond]
    decide +kernel

end Jkb.Mq
