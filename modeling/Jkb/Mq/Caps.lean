import Jkb.Mq.Retain
import Mathlib.Algebra.Order.BigOperators.Group.List

/-!
# Jkb.Mq.Caps

A topic's caps. A send that succeeds leaves no more than the topic may hold, and what it deletes for
that is the shortest run of the oldest messages that is enough, all of them consumed by every group. A
send that is refused deletes nothing, not even for its transaction to roll back.
-/

namespace Jkb.Mq

open Log Run Tx

variable {Value : Type} {json : Serde Value}

/-! ## a send, statement by statement -/

/-- `make_room` as its statements run: the answer, and the tables as they are when it is given. -/
def makeRoomRun (q : Queue) (topic : Topic) (size : Int) : Except QueueError Unit × Queue :=
  let (heldMessages, heldBytes) := q.holdings topic.id
  if fits topic.spec size heldMessages heldBytes then (.ok (), q)
  else
    let consumed := match q.consumedThrough topic.id with
      | some through => (q.messagesOf topic.id).filter (·.seq ≤ through)
      | none => []
    let (messages, bytes, cutoff) := walk topic.spec size heldMessages heldBytes none consumed
    if !fits topic.spec size messages bytes then
      (.error (.queueFull topic.name heldMessages heldBytes), q)
    else
      match cutoff with
      | some cutoff => (.ok (), q.reap topic.id cutoff fun _ => true)
      | none => (.ok (), q)

theorem seq_message (draft : Draft Value) (row : Topic) (payload : String) (size now : Int)
    (expiresAt : Option Int) : ∀ seq, (⟨seq, row.id, draft.key, draft.kind, payload, size, draft.producer, now,
      expiresAt⟩ : Message).seq = seq := fun _ => rfl

/-- `send_reserved` as its statements run. -/
def sendReservedRun (json : Serde Value) (q : Queue) (topic : String) (draft : Draft Value)
    (now : Int) : Except QueueError Int × Queue :=
  match q.topicRowAny topic with
  | .error e => (.error e, q)
  | .ok row =>
      match validateDraft json draft row.spec with
      | .error e => (.error e, q)
      | .ok (payload, size) =>
          match makeRoomRun q row size with
          | (.error e, q) => (.error e, q)
          | (.ok (), q) =>
              let expiresAt := (draft.ttlMs.or row.spec.defaultTtlMs).map (satAdd now)
              let message seq : Message :=
                ⟨seq, row.id, draft.key, draft.kind, payload, size, draft.producer, now, expiresAt⟩
              (.ok q.messages.nextKey,
                { q with messages :=
                    q.messages.insertNext message (seq_message draft row payload size now expiresAt) })

/-- `send` and `send_reserved`, by who calls. -/
def sendRun (json : Serde Value) (caller : Caller) (q : Queue) (topic : String) (draft : Draft Value)
    (now : Int) : Except QueueError Int × Queue :=
  match caller with
  | .anyone =>
      match checkUnreserved topic with
      | .error e => (.error e, q)
      | .ok () => sendReservedRun json q topic draft now
  | .owner => sendReservedRun json q topic draft now

/-- **Room is refused before anything is deleted.** -/
theorem makeRoomRun_eq (q : Queue) (t : Topic) (size : Int) :
    makeRoomRun q t size =
      match makeRoom q t size with
      | .ok q' => (.ok (), q')
      | .error e => (.error e, q) := by
  simp only [makeRoomRun, makeRoom]
  by_cases hfits : fits t.spec size (q.holdings t.id).1 (q.holdings t.id).2 = true
  · simp only [if_pos hfits]
  · simp only [if_neg hfits]
    generalize walk t.spec size (q.holdings t.id).1 (q.holdings t.id).2 none _ = walked
    obtain ⟨messages, bytes, cutoff⟩ := walked
    by_cases hfits' : fits t.spec size messages bytes = true
    · simp only [hfits', Bool.not_true, Bool.false_eq_true, if_false, if_true]
      cases cutoff <;> rfl
    · simp [hfits']

/-- **A send's statements** leave what the send does, and on a refusal what was there. -/
theorem sendReservedRun_eq (q : Queue) (topic : String) (draft : Draft Value) (now : Int) :
    sendReservedRun json q topic draft now =
      match sendReserved json q topic draft now with
      | .ok (q', seq) => (.ok seq, q')
      | .error e => (.error e, q) := by
  simp only [sendReservedRun, sendReserved]
  cases hrow : q.topicRowAny topic with
  | error e => rfl
  | ok row =>
      cases hvalid : validateDraft json draft row.spec with
      | error e => simp [hvalid, bind, Except.bind]
      | ok p =>
          obtain ⟨payload, size⟩ := p
          simp only [hvalid, makeRoomRun_eq, bind, Except.bind]
          cases hroom : makeRoom q row size with
          | error e => rfl
          | ok q' =>
              have hnext : q'.messages.nextKey = q.messages.nextKey := by
                have := makeRoom_room hroom
                cases this <;> rfl
              simp only [pure, Except.pure, hnext]

theorem sendRun_eq (caller : Caller) (q : Queue) (topic : String) (draft : Draft Value) (now : Int) :
    (∀ e, (sendRun json caller q topic draft now).1 = .error e →
        (sendRun json caller q topic draft now).2 = q) ∧
      ∀ q', perform json q caller (.send topic draft now) = .ok q' ↔
        ∃ seq, sendRun json caller q topic draft now = (.ok seq, q') := by
  cases caller with
  | anyone =>
      simp only [sendRun, perform, send]
      cases hcheck : checkUnreserved topic with
      | error e => simp [bind, Except.bind]
      | ok u =>
          simp only [sendReservedRun_eq, bind, Except.bind]
          cases sendReserved json q topic draft now <;> simp
  | owner =>
      simp only [sendRun, perform, sendReservedRun_eq]
      cases sendReserved json q topic draft now <;> simp

/-! ## a topic's messages, oldest first -/

variable {q q' : Queue} {id : Nat}

theorem mem_messagesOf {m : Message} : m ∈ q.messagesOf id ↔ m ∈ q.messages.rows ∧ m.topicId = id := by
  rw [Queue.messagesOf, List.mem_insertionSort, List.mem_filter, beq_iff_eq]

/-- Each message stands before those with a larger `seq`. -/
theorem messagesOf_sorted (q : Queue) (id : Nat) :
    (q.messagesOf id).Pairwise fun a b => a.seq < b.seq := by
  have hperm := List.perm_insertionSort (fun a b : Message => a.seq ≤ b.seq)
    (q.messages.rows.filter (·.topicId == id))
  have hnodup : ((q.messagesOf id).map (·.seq)).Nodup :=
    ((hperm.map _).nodup_iff).mpr (q.messages.nodup.sublist (List.filter_sublist.map _))
  have hle : (q.messagesOf id).Pairwise fun a b => a.seq ≤ b.seq := List.pairwise_insertionSort _ _
  have hne : (q.messagesOf id).Pairwise fun a b => a.seq ≠ b.seq := List.pairwise_map.mp hnodup
  exact hle.imp₂ (fun _ _ hle hne => lt_of_le_of_ne hle hne) hne

/-- The rows of a topic in the order of their `seq` are its messages. -/
theorem messagesOf_eq {ms : List Message} (hsorted : ms.Pairwise fun a b => a.seq < b.seq)
    (hmem : ∀ m, m ∈ ms ↔ m ∈ q.messages.rows ∧ m.topicId = id) : q.messagesOf id = ms := by
  have hnodup : ∀ {xs : List Message}, xs.Pairwise (fun a b => a.seq < b.seq) → xs.Nodup :=
    fun h => h.imp fun hlt heq => absurd (congrArg Message.seq heq) (ne_of_lt hlt)
  have hperm : (q.messagesOf id).Perm ms :=
    (List.perm_ext_iff_of_nodup (hnodup (messagesOf_sorted q id)) (hnodup hsorted)).mpr fun m => by
      rw [mem_messagesOf, hmem]
  refine List.Perm.eq_of_pairwise (fun a b ha hb (hab : a.seq ≤ b.seq) (hba : b.seq ≤ a.seq) => ?_)
    ((messagesOf_sorted q id).imp le_of_lt) (hsorted.imp le_of_lt) hperm
  exact q.messages.eq_of_key_eq (mem_messagesOf.mp ha).1 ((hmem b).mp hb).1 (le_antisymm hab hba)

/-- What a reaped topic holds, and that another topic holds what it held. -/
theorem messagesOf_reap (cutoff : Int) (i : Nat) :
    (q.reap id cutoff fun _ => true).messagesOf i =
      if i = id then (q.messagesOf id).filter fun m => cutoff < m.seq else q.messagesOf i := by
  by_cases hi : i = id
  · subst hi
    rw [if_pos rfl]
    refine messagesOf_eq ((messagesOf_sorted q i).filter _) fun m => ?_
    rw [List.mem_filter, mem_messagesOf]
    simp only [Queue.reap, AutoTable.mem_deleteWhere, decide_eq_true_eq]
    constructor
    · rintro ⟨⟨hm, hid⟩, hlt⟩
      exact ⟨⟨hm, by simp [hlt]⟩, hid⟩
    · rintro ⟨⟨hm, hkept⟩, hid⟩
      exact ⟨⟨hm, hid⟩, by simpa [hid] using hkept⟩
  · rw [if_neg hi]
    refine messagesOf_eq (messagesOf_sorted q i) fun m => ?_
    rw [mem_messagesOf]
    refine and_congr_left fun hid => ?_
    simp [Queue.reap, hid, hi]

/-- A message that is put in is its topic's newest. -/
theorem messagesOf_insertNext {mk : Int → Message} {hmk}
    (h : q' = { q with messages := q.messages.insertNext mk hmk }) (hid : ∀ i, (mk i).topicId = id)
    (i : Nat) : q'.messagesOf i =
      if i = id then q.messagesOf id ++ [mk q.messages.nextKey] else q.messagesOf i := by
  subst h
  by_cases hi : i = id
  · subst hi
    rw [if_pos rfl]
    refine messagesOf_eq ?_ fun m => ?_
    · refine List.pairwise_append.mpr ⟨messagesOf_sorted q i, List.pairwise_singleton _ _, ?_⟩
      intro a ha b hb
      rw [List.mem_singleton.mp hb, hmk]
      have hle := q.messages.le_last a (mem_messagesOf.mp ha).1
      exact Int.lt_add_one_of_le hle
    · rw [List.mem_append, mem_messagesOf, List.mem_singleton]
      simp only [AutoTable.mem_insertNext]
      constructor
      · rintro (⟨hm, hid⟩ | rfl)
        · exact ⟨Or.inl hm, hid⟩
        · exact ⟨Or.inr rfl, hid _⟩
      · rintro ⟨hm | rfl, hid⟩
        · exact Or.inl ⟨hm, hid⟩
        · exact Or.inr rfl
  · rw [if_neg hi]
    refine messagesOf_eq (messagesOf_sorted q i) fun m => ?_
    rw [mem_messagesOf]
    simp only [AutoTable.mem_insertNext]
    refine and_congr_left fun hm => ⟨Or.inl, ?_⟩
    rintro (h | rfl)
    · exact h
    · exact absurd ((hid _).symm.trans hm).symm hi

/-! ## what is stored -/

/-- What a draft that was accepted stores: a size, and a payload that reads back. -/
def Stored (json : Serde Value) (m : Message) : Prop := 0 ≤ m.size ∧ ∃ v, json.fromStr m.payload = .ok v

theorem validateDraft_stored {draft : Draft Value} {spec : TopicSpec} {payload : String} {size : Int}
    (h : validateDraft json draft spec = .ok (payload, size)) :
    0 ≤ size ∧ ∃ v, json.fromStr payload = .ok v := by
  simp only [validateDraft, guard_eq_ok, bind_eq_ok] at h
  obtain ⟨-, -, -, -, -, -, -, -, -, text, -, -, h⟩ := h
  cases hparse : json.fromStr text with
  | error e => simp [hparse, bind, Except.bind] at h
  | ok v =>
      simp only [hparse, guard_eq_ok] at h
      obtain ⟨rfl, rfl⟩ := Prod.mk.inj (Except.ok.inj h.2)
      exact ⟨Int.natCast_nonneg _, v, hparse⟩

theorem sendReserved_ok {topic : String} {draft : Draft Value} {now seq : Int}
    (h : sendReserved json q topic draft now = .ok (q', seq)) :
    ∃ t payload size q₁ expiresAt, q.topics.find? topic = some t ∧
      validateDraft json draft t.spec = .ok (payload, size) ∧ makeRoom q t size = .ok q₁ ∧
      q' = { q₁ with
        messages := q₁.messages.insertNext (fun seq =>
          ⟨seq, t.id, draft.key, draft.kind, payload, size, draft.producer, now, expiresAt⟩) fun _ => rfl } := by
  simp only [sendReserved, bind_eq_ok, topicRowAny_ok] at h
  obtain ⟨t, ht, ⟨payload, size⟩, hvalid, q₁, hroom, h⟩ := h
  cases h
  exact ⟨t, payload, size, q₁, _, ht, hvalid, hroom, rfl⟩

/-- Any send, by whoever calls it. -/
theorem performSend_ok {caller : Caller} {topic : String} {draft : Draft Value} {now : Int}
    (h : perform json q caller (.send topic draft now) = .ok q') :
    ∃ t payload size q₁ expiresAt, q.topics.find? topic = some t ∧
      validateDraft json draft t.spec = .ok (payload, size) ∧ makeRoom q t size = .ok q₁ ∧
      q' = { q₁ with
        messages := q₁.messages.insertNext (fun seq =>
          ⟨seq, t.id, draft.key, draft.kind, payload, size, draft.producer, now, expiresAt⟩) fun _ => rfl } := by
  cases caller <;> obtain ⟨seq, h⟩ := map_fst_eq_ok h
  · exact sendReserved_ok (ok_of_checked h)
  · exact sendReserved_ok h

theorem Room.mem_messages (h : Room q id q') {m : Message} (hm : m ∈ q'.messages.rows) :
    m ∈ q.messages.rows := by
  cases h with
  | fits => exact hm
  | reaped low cutoff hlow hcut => exact (AutoTable.mem_deleteWhere.mp hm).1

theorem messages_foldl_compactTopic {now : Int} {force : Bool} (ts : List Topic)
    (acc : Queue × CompactReport) {m : Message}
    (h : m ∈ (ts.foldl (compactTopic now force) acc).1.messages.rows) : m ∈ acc.1.messages.rows := by
  induction ts generalizing acc with
  | nil => exact h
  | cons t ts ih =>
      have hone := ih _ h
      obtain ⟨q, report⟩ := acc
      simp only [compactTopic] at hone
      split at hone
      · exact hone
      · simp only [Queue.reapExpired] at hone
        split at hone
        · exact (AutoTable.mem_deleteWhere.mp hone).1
        · exact hone

/-- **One step** stores only what a draft that was accepted stores. -/
theorem stored_step (op : Caller × Op Value) (h : ∀ m ∈ q.messages.rows, Stored json m) :
    ∀ m ∈ (step json q op).messages.rows, Stored json m := by
  refine commit_rel (R := fun _ q' : Queue => ∀ m ∈ q'.messages.rows, Stored json m) h fun q' hok => ?_
  obtain ⟨caller, op⟩ := op
  have hchange := perform_change hok
  cases hchange with
  | existing | topic | joined | left | polled | acked => exact h
  | compacted => exact fun m hm => h m (messages_foldl_compactTopic _ _ hm)
  | sent t q₁ mk hmk ht hroom hid =>
      obtain ⟨t, payload, size, q₁, expiresAt, ht, hvalid, hroom, heq⟩ := performSend_ok hok
      rw [heq]
      intro m hm
      rcases AutoTable.mem_insertNext.mp hm with hm | rfl
      · exact h m ((makeRoom_room hroom).mem_messages hm)
      · exact validateDraft_stored hvalid

/-- **Every message of a reachable queue** is of an accepted draft. -/
theorem stored_run (ops : List (Caller × Op Value)) :
    ∀ m ∈ (run (step json) Queue.empty ops).messages.rows, Stored json m := by
  have hempty : ∀ m ∈ Queue.empty.messages.rows, Stored json m := by
    intro m hm
    cases hm
  exact @run_invariant _ _ (step json) (fun q => ∀ m ∈ q.messages.rows, Stored json m)
    (fun _ op h => stored_step op h) _ hempty ops

/-! ## room -/

/-- A message of a size fits under a topic's caps, beside what the topic holds. -/
def Fits (spec : TopicSpec) (size : Int) (held : List Message) : Prop :=
  (held.length : Int) + 1 ≤ spec.maxMessages ∧ (held.map (·.size)).sum + size ≤ spec.maxBytes

/-- The code's test, of what a topic holds. -/
def fitsBeside (spec : TopicSpec) (size : Int) (held : List Message) : Bool :=
  fits spec size held.length (held.map (·.size)).sum

/-- The code's test of the count. -/
theorem count_of_fitsBeside {spec : TopicSpec} {size : Int} {held : List Message}
    (h : fitsBeside spec size held = true) : (held.length : Int) + 1 ≤ spec.maxMessages := by
  have hfits := of_decide_eq_true h
  omega

/-- The code's saturating test of the bytes is the plain one, unless the cap is the largest `i64` and
the total beyond it. -/
theorem bytes_of_fitsBeside {spec : TopicSpec} {size : Int} {held : List Message}
    (h : fitsBeside spec size held = true)
    (hrange : spec.maxBytes < i64Max ∨ (held.map (·.size)).sum + size ≤ i64Max) :
    (held.map (·.size)).sum + size ≤ spec.maxBytes := by
  have hfits := of_decide_eq_true h
  simp only [satAdd] at hfits
  omega

theorem not_fits_of_fitsBeside {spec : TopicSpec} {size : Int} {held : List Message}
    (h : fitsBeside spec size held = false) (hsize : 0 ≤ (held.map (·.size)).sum + size) :
    ¬ Fits spec size held := by
  rintro ⟨hcount, hbytes⟩
  have hmin : i64Min ≤ 0 := by decide
  refine of_decide_eq_false h ⟨by omega, ?_⟩
  simp only [satAdd]
  omega

/-- **The walk** takes messages off, oldest first, and stops at the first that leaves room. -/
theorem walk_spec (spec : TopicSpec) (size : Int) (messages bytes : Int) (cutoff : Option Int)
    (ms : List Message) :
    ∃ gone rest, ms = gone ++ rest ∧
      walk spec size messages bytes cutoff ms = (messages - gone.length,
        bytes - (gone.map (·.size)).sum, (gone.getLast?.map (·.seq)).or cutoff) ∧
      ∀ a b, gone = a ++ b → b ≠ [] →
        fits spec size (messages - a.length) (bytes - (a.map (·.size)).sum) = false := by
  induction ms generalizing messages bytes cutoff with
  | nil => exact ⟨[], [], rfl, by simp [walk], by simp⟩
  | cons m ms ih =>
      rw [walk]
      cases hfits : fits spec size messages bytes with
      | true => exact ⟨[], m :: ms, rfl, by simp, by simp⟩
      | false =>
          obtain ⟨gone, rest, rfl, hwalk, hfirst⟩ := ih (messages - 1) (bytes - m.size) (some m.seq)
          refine ⟨m :: gone, rest, rfl, ?_, ?_⟩
          · rw [if_neg Bool.false_ne_true, hwalk, List.length_cons, List.map_cons, List.sum_cons]
            refine Prod.ext (by simp only; omega) (Prod.ext (by simp only; omega) ?_)
            cases hlast : gone.getLast? with
            | none => simp [List.getLast?_cons, hlast]
            | some x => simp [List.getLast?_cons, hlast]
          · intro a b hsplit hb
            cases a with
            | nil => simpa using hfits
            | cons x a =>
                obtain ⟨rfl, hsplit'⟩ := List.cons.inj hsplit
                have hstep := hfirst a b hsplit' hb
                rw [List.length_cons, List.map_cons, List.sum_cons]
                have hm : messages - ((a.length + 1 : Nat) : Int) = messages - 1 - a.length := by omega
                have hbytes : bytes - (m.size + (a.map (·.size)).sum) =
                    bytes - m.size - (a.map (·.size)).sum := by omega
                rwa [hm, hbytes]

/-- What is at or below a `seq` stands before what is above it. -/
theorem messagesOf_split (q : Queue) (id : Nat) (low : Int) :
    q.messagesOf id = (q.messagesOf id).filter (·.seq ≤ low) ++
      (q.messagesOf id).filter fun m => low < m.seq := by
  refine messagesOf_eq (List.pairwise_append.mpr ⟨(messagesOf_sorted q id).filter _,
    (messagesOf_sorted q id).filter _, fun a ha b hb => ?_⟩) fun m => ?_
  · have hle := of_decide_eq_true (List.mem_filter.mp ha).2
    have hlt := of_decide_eq_true (List.mem_filter.mp hb).2
    exact lt_of_le_of_lt hle hlt
  · rw [List.mem_append, List.mem_filter, List.mem_filter, mem_messagesOf, decide_eq_true_eq,
      decide_eq_true_eq, ← and_or_left, and_iff_left (le_or_gt _ _)]

/-- Reaping to the last of the oldest messages takes just these. -/
theorem messagesOf_reap_last {gone kept : List Message} {last : Message}
    (hsplit : q.messagesOf id = gone ++ kept) (hlast : gone.getLast? = some last) :
    (q.reap id last.seq fun _ => true).messagesOf id = kept := by
  obtain ⟨init, rfl⟩ := List.getLast?_eq_some_iff.mp hlast
  have hsorted := messagesOf_sorted q id
  rw [hsplit] at hsorted
  obtain ⟨hgone, -, hcross⟩ := List.pairwise_append.mp hsorted
  have hnone : (init ++ [last]).filter (fun m => decide (last.seq < m.seq)) = [] := by
    rw [List.filter_eq_nil_iff]
    intro m hm
    rcases List.mem_append.mp hm with hm | hm
    · have hlt := (List.pairwise_append.mp hgone).2.2 m hm last (List.mem_singleton_self _)
      simpa using le_of_lt hlt
    · simp [List.mem_singleton.mp hm]
  have hall : kept.filter (fun m => decide (last.seq < m.seq)) = kept := by
    rw [List.filter_eq_self]
    intro m hm
    exact decide_eq_true (hcross last (List.mem_append_right _ (List.mem_singleton_self _)) m hm)
  rw [messagesOf_reap, if_pos rfl, hsplit, List.filter_append, hnone, hall, List.nil_append]

/-- **Room is made** by deleting the shortest run of the oldest messages that is enough, of those that
every group has consumed. -/
theorem makeRoom_ok {t : Topic} {size : Int} (h : makeRoom q t size = .ok q') :
    ∃ gone kept, q.messagesOf t.id = gone ++ kept ∧ q'.messagesOf t.id = kept ∧
      (∀ i, i ≠ t.id → q'.messagesOf i = q.messagesOf i) ∧ q'.groups = q.groups ∧
      (∀ m ∈ gone, Consumed (·.seq) (viewId q t.id) m) ∧ fitsBeside t.spec size kept = true ∧
      ∀ a b, gone = a ++ b → b ≠ [] → fitsBeside t.spec size (b ++ kept) = false := by
  simp only [makeRoom] at h
  cases hfits : fits t.spec size (q.holdings t.id).1 (q.holdings t.id).2 with
  | true =>
      rw [if_pos hfits] at h
      obtain rfl := Except.ok.inj h
      exact ⟨[], q.messagesOf t.id, rfl, rfl, fun _ _ => rfl, rfl, by simp, hfits, by simp⟩
  | false =>
      rw [if_neg (by simp [hfits])] at h
      cases hlow : q.consumedThrough t.id with
      | none => simp [hlow, walk, hfits] at h
      | some low =>
          simp only [hlow] at h
          obtain ⟨gone, rest, hconsumed, hwalk, hfirst⟩ := walk_spec t.spec size (q.holdings t.id).1
            (q.holdings t.id).2 none ((q.messagesOf t.id).filter (·.seq ≤ low))
          rw [hwalk] at h
          have hsplit : q.messagesOf t.id =
              gone ++ (rest ++ (q.messagesOf t.id).filter fun m => low < m.seq) := by
            rw [← List.append_assoc, ← hconsumed]
            exact messagesOf_split q t.id low
          generalize (rest ++ (q.messagesOf t.id).filter fun m => low < m.seq) = kept at hsplit
          have hheld : ∀ a b, gone = a ++ b → (q.holdings t.id).1 - a.length = ((b ++ kept).length : Int) ∧
              (q.holdings t.id).2 - (a.map (·.size)).sum = ((b ++ kept).map (·.size)).sum := by
            rintro a b rfl
            simp only [Queue.holdings, hsplit, List.length_append, List.map_append, List.sum_append]
            constructor <;> omega
          have hgone : ∀ m ∈ gone, Consumed (·.seq) (viewId q t.id) m := by
            intro m hm
            have hmem : m ∈ (q.messagesOf t.id).filter (·.seq ≤ low) :=
              hconsumed ▸ List.mem_append_left _ hm
            obtain ⟨hsome, hle⟩ := consumedThrough_le hlow
            exact ⟨hsome, fun g p hp => (of_decide_eq_true (List.mem_filter.mp hmem).2).trans (hle g p hp)⟩
          have hshortest : ∀ a b, gone = a ++ b → b ≠ [] → fitsBeside t.spec size (b ++ kept) = false := by
            intro a b hab hb
            rw [fitsBeside, ← (hheld a b hab).1, ← (hheld a b hab).2]
            exact hfirst a b hab hb
          obtain ⟨hcount, hbytes⟩ := hheld gone [] (List.append_nil _).symm
          rw [List.nil_append] at hcount hbytes
          simp only [hcount, hbytes] at h
          split at h
          · rename_i henough
            cases hlast : gone.getLast? with
            | none =>
                obtain rfl := List.getLast?_eq_none_iff.mp hlast
                simp only [hlast, Option.map_none, Option.none_or] at h
                obtain rfl := Except.ok.inj h
                exact ⟨[], kept, hsplit, hsplit, fun _ _ => rfl, rfl, hgone, henough, hshortest⟩
            | some last =>
                simp only [hlast, Option.map_some, Option.some_or] at h
                obtain rfl := Except.ok.inj h
                exact ⟨gone, kept, hsplit, messagesOf_reap_last hsplit hlast,
                  fun i hi => by rw [messagesOf_reap, if_neg hi], rfl, hgone, henough, hshortest⟩
          · cases h

/-! ## sends -/

/-- **A send keeps its topic within the caps.** In every run, a send that is refused has changed no
row. One that succeeds leaves the topic with no more messages and bytes than it may hold (a cap of the
largest `i64` is never passed by a total that is an `i64`); what it deleted are the oldest messages, all
of them consumed by every group, and no shorter run of them would have made the message fit. -/
theorem send_keeps_caps (json : Serde Value) (past : List (Caller × Op Value)) (caller : Caller)
    (topic : String) (draft : Draft Value) (now : Int) :
    let q := run (step json) Queue.empty past
    (∀ e, (sendRun json caller q topic draft now).1 = .error e →
      (sendRun json caller q topic draft now).2 = q) ∧
    ∀ seq q', sendRun json caller q topic draft now = (.ok seq, q') →
      ∃ t gone kept new, q.topics.find? topic = some t ∧
        validateDraft json draft t.spec = .ok (new.payload, new.size) ∧
        q.messagesOf t.id = gone ++ kept ∧ q'.messagesOf t.id = kept ++ [new] ∧
        (q'.holdings t.id).1 ≤ t.spec.maxMessages ∧
        (t.spec.maxBytes < i64Max ∨ (q'.holdings t.id).2 ≤ i64Max →
          (q'.holdings t.id).2 ≤ t.spec.maxBytes) ∧
        (∀ m ∈ gone, Consumed (·.seq) (viewId q t.id) m) ∧
        (∀ fewer more, gone = fewer ++ more → more ≠ [] → ¬ Fits t.spec new.size (more ++ kept)) ∧
        (∀ id, id ≠ t.id → q'.messagesOf id = q.messagesOf id) ∧
        q'.groups = q.groups ∧ q'.topics = q.topics := by
  intro q
  refine ⟨(sendRun_eq caller q topic draft now).1, fun seq q' hok => ?_⟩
  obtain ⟨t, payload, size, q₁, expiresAt, ht, hvalid, hroom, heq⟩ :=
    performSend_ok (((sendRun_eq caller q topic draft now).2 q').mpr ⟨seq, hok⟩)
  obtain ⟨gone, kept, hsplit, hkept, hother, hgroups, hgone, hfits, hshortest⟩ := makeRoom_ok hroom
  let new : Message :=
    ⟨q₁.messages.nextKey, t.id, draft.key, draft.kind, payload, size, draft.producer, now, expiresAt⟩
  have hafter : ∀ i, q'.messagesOf i = if i = t.id then kept ++ [new] else q₁.messagesOf i := by
    intro i
    rw [← hkept]
    exact messagesOf_insertNext heq (fun _ => rfl) i
  have hmessages : q'.messagesOf t.id = kept ++ [new] := by rw [hafter, if_pos rfl]
  have hcount : (q'.holdings t.id).1 = kept.length + 1 := by simp [Queue.holdings, hmessages]
  have hbytes : (q'.holdings t.id).2 = (kept.map (·.size)).sum + size := by
    simp [Queue.holdings, hmessages, new]
  have hstored : ∀ m ∈ q.messagesOf t.id, 0 ≤ m.size := fun m hm =>
    (stored_run past m (mem_messagesOf.mp hm).1).1
  refine ⟨t, gone, kept, new, ht, hvalid, hsplit, hmessages, hcount ▸ count_of_fitsBeside hfits,
    fun hrange => hbytes ▸ bytes_of_fitsBeside hfits (hbytes ▸ hrange), hgone,
    fun fewer more hmore hne => ?_, fun id hid => ?_, ?_, ?_⟩
  · refine not_fits_of_fitsBeside (hshortest fewer more hmore hne) ?_
    have hsum : 0 ≤ ((more ++ kept).map (·.size)).sum := by
      refine List.sum_nonneg fun x hx => ?_
      obtain ⟨m, hm, rfl⟩ := List.mem_map.mp hx
      refine hstored m ?_
      rw [hsplit, hmore, List.append_assoc]
      exact List.mem_append_right _ hm
    exact Int.add_nonneg hsum (validateDraft_stored hvalid).1
  · rw [hafter, if_neg hid, hother id hid]
  · rw [heq]
    exact hgroups
  · rw [heq]
    exact (makeRoom_room hroom).topics

/-- A topic that holds two messages at most, two that its one group has consumed, and a third. -/
def twoAtMost : List (Caller × Op String) :=
  [(.anyone, .topicCreate "work" { TopicSpec.default with maxMessages := 2 } 0),
    (.anyone, .groupCreate "work" "reader" .fromStart 1),
    (.anyone, .send "work" ⟨"a", "kind", "1", none, "me"⟩ 2),
    (.anyone, .send "work" ⟨"b", "kind", "2", none, "me"⟩ 3), (.anyone, .ack "work" "reader" 2 4)]

/-- The third message of the topic takes the place of its first. -/
theorem send_keeps_caps_twoAtMost :
    ∃ t gone kept new, (run (step Serde.text) Queue.empty twoAtMost).topics.find? "work" = some t ∧
      (run (step Serde.text) Queue.empty twoAtMost).messagesOf t.id = gone ++ kept ∧
      (sendRun Serde.text .anyone (run (step Serde.text) Queue.empty twoAtMost) "work"
        ⟨"c", "kind", "3", none, "me"⟩ 5).2.messagesOf t.id = kept ++ [new] := by
  have hsent : (sendRun Serde.text .anyone (run (step Serde.text) Queue.empty twoAtMost) "work"
      ⟨"c", "kind", "3", none, "me"⟩ 5).1 = .ok 3 := by decide +kernel
  obtain ⟨t, gone, kept, new, ht, -, hbefore, hafter, -⟩ :=
    (send_keeps_caps Serde.text twoAtMost .anyone "work" ⟨"c", "kind", "3", none, "me"⟩ 5).2 3 _
      (Prod.ext hsent rfl)
  exact ⟨t, gone, kept, new, ht, hbefore, hafter⟩

end Jkb.Mq
