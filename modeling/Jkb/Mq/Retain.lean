import Jkb.Log
import Jkb.Mq

/-!
# Jkb.Mq.Retain

The queue refines the consumer log of `Jkb.Log`: every operation is a lossless step of each topic
outside the reserved prefixes. `Change` says once what an operation can do to the tables; the
invariant, the refinement and the fact that only an ack moves a position are read off it.
-/

namespace Jkb.Mq

open Log Run Tx

variable {Value : Type} {json : Serde Value}

/-! ## A topic seen as a consumer log -/

/-- The log of the topic with a given id. -/
def viewId (q : Queue) (id : Nat) : GroupLog String Message Int where
  held := {m | m ∈ q.messages.rows ∧ m.topicId = id}
  pos g := (q.groups.find? (id, g)).map (·.position)

/-- The log of a topic by name; a topic that is not there holds nothing and has no group. -/
def view (q : Queue) (topic : String) : GroupLog String Message Int :=
  match q.topics.find? topic with
  | some t => viewId q t.id
  | none => ⟨∅, fun _ => none⟩

/-- `MIN(position)` is a lower bound of the positions, and there is one. -/
theorem consumedThrough_le {q : Queue} {id : Nat} {low : Int} (h : q.consumedThrough id = some low) :
    (∃ g p, (viewId q id).pos g = some p) ∧ ∀ g p, (viewId q id).pos g = some p → low ≤ p := by
  obtain ⟨hmem, hle⟩ := List.min?_eq_some_iff.mp h
  constructor
  · obtain ⟨g, hg, rfl⟩ := List.mem_map.mp hmem
    obtain ⟨hrow, hid⟩ := List.mem_filter.mp hg
    refine ⟨g.name, g.position, ?_⟩
    have hfind := Table.find?_of_mem hrow
    rw [beq_iff_eq.mp hid] at hfind
    simp [viewId, hfind]
  · intro g p hp
    obtain ⟨row, hrow, rfl⟩ := Option.map_eq_some_iff.mp hp
    obtain ⟨hrow, hkey⟩ := Table.find?_eq_some.mp hrow
    refine hle _ (List.mem_map.mpr ⟨row, List.mem_filter.mpr ⟨hrow, ?_⟩, rfl⟩)
    simpa using congrArg Prod.fst hkey

/-! ## What an operation can do -/

/-- What `make_room` leaves: everything, or all but a prefix that every group has consumed. -/
inductive Room (q : Queue) (id : Nat) : Queue → Prop
  | fits : Room q id q
  | reaped (low cutoff : Int) (hlow : q.consumedThrough id = some low) (hcut : cutoff ≤ low) :
      Room q id (q.reap id cutoff fun _ => true)

/-- What a successful operation does to the tables. -/
inductive Change (q : Queue) : Op Value → Queue → Prop
  | existing (op : Op Value) : Change q op q
  | topic {name spec now} (t : Topic) (h) (hid : ∀ u ∈ q.topics.rows, u.id ≠ t.id) :
      Change q (.topicCreate name spec now) { q with topics := q.topics.insert t h }
  | sent {topic draft now} (t : Topic) (q₁ : Queue) (mk : Int → Message) (hmk)
      (ht : q.topics.find? topic = some t) (hroom : Room q t.id q₁) (hid : ∀ i, (mk i).topicId = t.id) :
      Change q (.send topic draft now) { q₁ with messages := q₁.messages.insertNext mk hmk }
  | joined {topic group start now} (g : Group) :
      Change q (.groupCreate topic group start now)
        { q with groups := (q.groups.insertOrIgnore g).1 }
  | left {topic group} (p : Group → Bool) :
      Change q (.groupDelete topic group) { q with groups := q.groups.deleteWhere p }
  | polled {topic group max after now} (id : Nat) :
      Change q (.poll topic group max after now)
        (q.updateGroup id group (fun g => { g with lastPollAt := some now }) fun _ => rfl)
  | acked {topic group seq now} (t : Topic) (g : Group) (ht : q.topics.find? topic = some t)
      (hg : q.groups.find? (t.id, group) = some g) :
      Change q (.ack topic group seq now)
        (q.updateGroup t.id group (fun x =>
          { x with position := max g.position seq, lastAckAt := some now }) fun _ => rfl)
  | compacted {now force} : Change q (.compact now force) (compact q now force).1

/-- A topic that is read is stored. -/
theorem topicRowAny_ok {q : Queue} {topic : String} {t : Topic} :
    q.topicRowAny topic = .ok t ↔ q.topics.find? topic = some t := by
  unfold Queue.topicRowAny
  cases q.topics.find? topic <;> simp

/-- The position of a group is the one of its row. -/
theorem groupPosition_ok {q : Queue} {topic group : String} {id : Nat} {p : Int} :
    q.groupPosition topic id group = .ok p ↔
      ∃ g, q.groups.find? (id, group) = some g ∧ g.position = p := by
  unfold Queue.groupPosition
  cases q.groups.find? (id, group) <;> simp

/-- What `topic_create` changes. -/
theorem topicCreateReserved_change {q q' : Queue} {name spec now c}
    (h : topicCreateReserved q name spec now = .ok (q', c)) :
    Change q (.topicCreate name spec now : Op Value) q' := by
  simp only [topicCreateReserved, bind_eq_ok] at h
  obtain ⟨-, -, -, -, -, -, -, -, -, -, -, -, h⟩ := h
  split at h
  · split at h
    · cases h
      exact .existing _
    · contradiction
  · cases h
    refine .topic _ _ fun u hu hid => ?_
    -- the new id is one past the largest in use
    have hmem : u.id ∈ q.topics.rows.map (·.id) := List.mem_map_of_mem hu
    have hle := List.le_max?_getD_of_mem hmem (k := 0)
    simp only at hid
    omega

/-- The walk ends at the `seq` of a message it walked. -/
theorem walk_cutoff (spec : TopicSpec) (size : Int) (messages bytes : Int) (cutoff : Option Int)
    (ms : List Message) :
    (walk spec size messages bytes cutoff ms).2.2 = cutoff ∨
      ∃ m ∈ ms, (walk spec size messages bytes cutoff ms).2.2 = some m.seq := by
  induction ms generalizing messages bytes cutoff with
  | nil => exact Or.inl rfl
  | cons m ms ih =>
      unfold walk
      by_cases hfits : fits spec size messages bytes = true
      · rw [if_pos hfits]
        exact Or.inl rfl
      · rw [if_neg hfits]
        rcases ih (messages - 1) (bytes - m.size) (some m.seq) with h | ⟨x, hx, h⟩
        · exact Or.inr ⟨m, by simp, h⟩
        · exact Or.inr ⟨x, by simp [hx], h⟩

/-- Room is made in the topic that it is asked of. -/
theorem makeRoom_room {q q' : Queue} {t : Topic} {size : Int} (h : makeRoom q t size = .ok q') :
    Room q t.id q' := by
  simp only [makeRoom] at h
  by_cases hfits : fits t.spec size (q.holdings t.id).1 (q.holdings t.id).2 = true
  · rw [if_pos hfits] at h
    cases h
    exact .fits
  · rw [if_neg hfits] at h
    cases hlow : q.consumedThrough t.id with
    | none => simp [hlow, walk, hfits] at h
    | some low =>
        simp only [hlow] at h
        split at h
        · rcases walk_cutoff t.spec size (q.holdings t.id).1 (q.holdings t.id).2 none
            ((q.messagesOf t.id).filter (·.seq ≤ low)) with hcut | ⟨m, hm, hcut⟩
          · rw [hcut] at h
            cases h
            exact .fits
          · rw [hcut] at h
            cases h
            exact .reaped low m.seq hlow (by simpa using (List.mem_filter.mp hm).2)
        · contradiction

/-- What `send` changes. -/
theorem sendReserved_change {q q' : Queue} {topic draft now seq}
    (h : sendReserved json q topic draft now = .ok (q', seq)) :
    Change q (.send topic draft now) q' := by
  simp only [sendReserved, bind_eq_ok, topicRowAny_ok] at h
  obtain ⟨t, ht, stored, -, q₁, hroom, h⟩ := h
  cases h
  exact .sent t q₁ _ _ ht (makeRoom_room hroom) fun _ => rfl

/-- What `group_create` changes. -/
theorem groupCreateReserved_change {q q' : Queue} {topic group start now c}
    (h : groupCreateReserved q topic group start now = .ok (q', c)) :
    Change q (.groupCreate topic group start now : Op Value) q' := by
  simp only [groupCreateReserved, bind_eq_ok] at h
  obtain ⟨-, -, t, -, h⟩ := h
  cases h
  exact .joined _

/-- What `group_delete` changes. -/
theorem groupDeleteReserved_change {q q' : Queue} {topic group b}
    (h : groupDeleteReserved q topic group = .ok (q', b)) :
    Change q (.groupDelete topic group : Op Value) q' := by
  simp only [groupDeleteReserved, bind_eq_ok] at h
  obtain ⟨-, -, t, -, h⟩ := h
  cases h
  exact .left _

/-- What `poll` changes. -/
theorem pollReserved_change {q q' : Queue} {topic group max after now out}
    (h : pollReserved json q topic group max after now = .ok (q', out)) :
    Change q (.poll topic group max after now : Op Value) q' := by
  simp only [pollReserved, bind_eq_ok] at h
  obtain ⟨-, -, t, -, position, -, rows, -, h⟩ := h
  cases h
  exact .polled t.id

/-- What `ack` changes. -/
theorem ackReserved_change {q q' : Queue} {topic group seq now p}
    (h : ackReserved q topic group seq now = .ok (q', p)) :
    Change q (.ack topic group seq now : Op Value) q' := by
  simp only [ackReserved, bind_eq_ok, topicRowAny_ok, groupPosition_ok] at h
  obtain ⟨t, ht, -, ⟨g, hg, rfl⟩, h⟩ := h
  split at h
  · contradiction
  · cases h
    exact .acked t g ht hg

/-- The public operation is the reserved one behind a check. -/
theorem ok_of_checked {ε α : Type} {c : Except ε Unit} {x : Except ε α} {a : α}
    (h : (c >>= fun _ => x) = .ok a) : x = .ok a := by
  obtain ⟨-, -, h⟩ := bind_eq_ok.mp h
  exact h

/-- What any operation changes. -/
theorem perform_change {q q' : Queue} {c : Caller} {op : Op Value}
    (h : perform json q c op = .ok q') : Change q op q' := by
  cases op with
  | topicCreate name spec now =>
      cases c <;> obtain ⟨a, h⟩ := map_fst_eq_ok h
      · exact topicCreateReserved_change (ok_of_checked h)
      · exact topicCreateReserved_change h
  | send topic draft now =>
      cases c <;> obtain ⟨a, h⟩ := map_fst_eq_ok h
      · exact sendReserved_change (ok_of_checked h)
      · exact sendReserved_change h
  | groupCreate topic group start now =>
      cases c <;> obtain ⟨a, h⟩ := map_fst_eq_ok h
      · exact groupCreateReserved_change (ok_of_checked h)
      · exact groupCreateReserved_change h
  | groupDelete topic group =>
      cases c <;> obtain ⟨a, h⟩ := map_fst_eq_ok h
      · exact groupDeleteReserved_change (ok_of_checked h)
      · exact groupDeleteReserved_change h
  | poll topic group max after now =>
      cases c <;> obtain ⟨a, h⟩ := map_fst_eq_ok h
      · exact pollReserved_change (ok_of_checked h)
      · exact pollReserved_change h
  | ack topic group seq now =>
      cases c <;> obtain ⟨a, h⟩ := map_fst_eq_ok h
      · exact ackReserved_change (ok_of_checked h)
      · exact ackReserved_change h
  | compact now force =>
      cases c <;> (cases h; exact .compacted)

/-- A step is a change, refusals included. -/
theorem step_change (json : Serde Value) (q : Queue) (op : Caller × Op Value) :
    Change q op.2 (step json q op) := by
  unfold step
  exact commit_rel (R := fun q q' => Change q op.2 q') (.existing _) fun _ h => perform_change h

/-! ## Compaction, one topic at a time -/

/-- Topic ids are issued once. -/
def Wf (q : Queue) : Prop := (q.topics.rows.map (·.id)).Nodup

/-- Two stores that agree on a topic's messages and groups have one log of it. -/
theorem viewId_congr {q q' : Queue} {id : Nat}
    (hm : ∀ m : Message, m.topicId = id → (m ∈ q'.messages.rows ↔ m ∈ q.messages.rows))
    (hg : ∀ g, q'.groups.find? (id, g) = q.groups.find? (id, g)) : viewId q' id = viewId q id := by
  unfold viewId
  congr 1
  · ext m
    exact and_congr_left fun hid => hm m hid
  · funext g
    rw [hg]

/-- A position in a log is a group's, and deleting groups leaves the rest where they were. -/
theorem pos_deleteWhere {q : Queue} {p : Group → Bool} {id : Nat} {g : String} {x : Int}
    (h : (viewId { q with groups := q.groups.deleteWhere p } id).pos g = some x) :
    (viewId q id).pos g = some x := by
  obtain ⟨row, hrow, rfl⟩ := Option.map_eq_some_iff.mp h
  rw [Table.find?_deleteWhere] at hrow
  simp [viewId, (Option.filter_eq_some_iff.mp hrow).1]

/-- To delete groups loses no message. -/
theorem lossless_deleteGroups (q : Queue) (p : Group → Bool) (id : Nat) :
    Lossless (·.seq) (viewId q id) (viewId { q with groups := q.groups.deleteWhere p } id) := by
  refine Lossless.of_subset (fun m hm => hm) fun g x x' hx hx' => ?_
  rw [pos_deleteWhere hx'] at hx
  exact le_of_eq (Option.some.inj hx).symm

/-- Reaping up to the lowest position loses nothing. -/
theorem lossless_reap {q : Queue} {id : Nat} {low cutoff : Int} (p : Message → Bool)
    (hlow : q.consumedThrough id = some low) (hcut : cutoff ≤ low) :
    Lossless (·.seq) (viewId q id) (viewId (q.reap id cutoff p) id) where
  reaped m hm hgone := by
    obtain ⟨hsome, hle⟩ := consumedThrough_le hlow
    refine ⟨hsome, fun g x hx => ?_⟩
    have hseq : m.seq ≤ cutoff := by
      by_contra hgt
      exact hgone ⟨by simp [Queue.reap, hm.1, hgt], hm.2⟩
    exact (hseq.trans hcut).trans (hle g x hx)
  forward g x x' hx hx' := by
    rw [show (viewId (q.reap id cutoff p) id).pos g = (viewId q id).pos g from rfl, hx] at hx'
    exact le_of_eq (Option.some.inj hx')

/-- The topics table is not part of a log. -/
@[simp] theorem viewId_topics (q : Queue) (topics) (id : Nat) :
    viewId { q with topics } id = viewId q id := rfl

/-- `compact_topic` on another topic leaves a topic's log alone. -/
theorem viewId_compactTopic_of_ne {now force} (acc : Queue × CompactReport) {t : Topic} {id : Nat}
    (hne : t.id ≠ id) : viewId (compactTopic now force acc t).1 id = viewId acc.1 id := by
  obtain ⟨q, report⟩ := acc
  have hidle : viewId (q.dropIdle t now) id = viewId q id := by
    refine viewId_congr (fun m _ => Iff.rfl) fun g => ?_
    simp only [Queue.dropIdle, Table.find?_deleteWhere]
    cases hrow : q.groups.find? (id, g) with
    | none => rfl
    | some row =>
        have hkey : row.topicId = id := congrArg Prod.fst (Table.key_of_find? hrow)
        simp [Option.filter, hkey, Ne.symm hne]
  have hreap : viewId ((q.dropIdle t now).reapExpired t now) id = viewId (q.dropIdle t now) id := by
    unfold Queue.reapExpired
    cases (q.dropIdle t now).reapThrough t with
    | none => rfl
    | some through =>
        refine viewId_congr (fun m hid => ?_) fun g => rfl
        simp [Queue.reap, hid, Ne.symm hne]
  simp only [compactTopic]
  split
  · rfl
  · rw [viewId_topics, hreap, hidle]

/-- `compact_topic` on a topic outside the reserved prefixes loses nothing of it. -/
theorem lossless_compactTopic {now force} (acc : Queue × CompactReport) {t : Topic}
    (hpub : isReserved t.name = false) :
    Lossless (·.seq) (viewId acc.1 t.id) (viewId (compactTopic now force acc t).1 t.id) := by
  obtain ⟨q, report⟩ := acc
  have hidle := lossless_deleteGroups q
    (fun g => g.topicId == t.id && g.idle t.spec.groupIdleMs now) t.id
  simp only [compactTopic]
  split
  · exact Lossless.refl _ _
  · rw [viewId_topics]
    unfold Queue.reapExpired Queue.reapThrough
    rw [hpub]
    cases hlow : (q.dropIdle t now).consumedThrough t.id with
    | none => exact hidle
    | some low => exact hidle.trans_of_pos (lossless_reap _ hlow le_rfl) fun g => rfl

/-- `compact` loses nothing of a topic outside the reserved prefixes: ids are distinct, so exactly
one turn of the loop is about it. -/
theorem lossless_foldl_compactTopic {now force} {id : Nat} (ts : List Topic)
    (hpub : ∀ t ∈ ts, t.id = id → isReserved t.name = false) (hnodup : (ts.map (·.id)).Nodup)
    (acc : Queue × CompactReport) :
    Lossless (·.seq) (viewId acc.1 id) (viewId (ts.foldl (compactTopic now force) acc).1 id) := by
  induction ts generalizing acc with
  | nil => exact Lossless.refl _ _
  | cons t ts ih =>
      rw [List.map_cons, List.nodup_cons] at hnodup
      rw [List.foldl_cons]
      have hpub' : ∀ u ∈ ts, u.id = id → isReserved u.name = false :=
        fun u hu => hpub u (List.mem_cons_of_mem _ hu)
      by_cases hid : t.id = id
      · have hrest : viewId (ts.foldl (compactTopic now force) (compactTopic now force acc t)).1 id =
            viewId (compactTopic now force acc t).1 id := by
          clear ih hpub hpub'
          generalize compactTopic now force acc t = acc
          induction ts generalizing acc with
          | nil => rfl
          | cons u us ih =>
              simp only [List.map_cons, List.mem_cons, not_or, List.nodup_cons] at hnodup
              rw [List.foldl_cons, ih ⟨hnodup.1.2, hnodup.2.2⟩,
                viewId_compactTopic_of_ne _ fun hu => hnodup.1.1 (hid.trans hu.symm)]
        rw [hrest]
        subst hid
        exact lossless_compactTopic acc (hpub t List.mem_cons_self rfl)
      · have htail := ih hpub' hnodup.2 (compactTopic now force acc t)
        rwa [viewId_compactTopic_of_ne acc hid] at htail

/-- What expires leaves the topics. -/
theorem topics_reapExpired (q : Queue) (t : Topic) (now : Int) :
    ((q.dropIdle t now).reapExpired t now).topics = q.topics := by
  unfold Queue.reapExpired
  cases (q.dropIdle t now).reapThrough t <;> rfl

/-- `compact` changes no topic but its `compacted_at`. -/
theorem map_topics_foldl_compactTopic {β : Type*} {now force} (f : Topic → β)
    (hf : ∀ t at_, f { t with compactedAt := at_ } = f t) (ts : List Topic)
    (acc : Queue × CompactReport) (name : String) :
    ((ts.foldl (compactTopic now force) acc).1.topics.find? name).map f =
      (acc.1.topics.find? name).map f := by
  induction ts generalizing acc with
  | nil => rfl
  | cons t ts ih =>
      rw [List.foldl_cons, ih]
      obtain ⟨q, report⟩ := acc
      simp only [compactTopic]
      split
      · rfl
      · rw [topics_reapExpired, Table.find?_updateWhere, Option.map_map]
        congr 1
        funext u
        by_cases hu : u.id = t.id
        · rw [Function.comp_apply, if_pos (beq_iff_eq.mpr hu), hf]
        · rw [Function.comp_apply, if_neg (by simpa using hu)]

/-- A compaction leaves the ids of the topics. -/
theorem topics_foldl_compactTopic {now force} (ts : List Topic) (acc : Queue × CompactReport)
    (name : String) :
    ((ts.foldl (compactTopic now force) acc).1.topics.find? name).map (·.id) =
      (acc.1.topics.find? name).map (·.id) :=
  map_topics_foldl_compactTopic _ (fun _ _ => rfl) ts acc name

/-- A compaction leaves the topics in their order. -/
theorem ids_foldl_compactTopic {now force} (ts : List Topic) (acc : Queue × CompactReport) :
    (ts.foldl (compactTopic now force) acc).1.topics.rows.map (·.id) =
      acc.1.topics.rows.map (·.id) := by
  induction ts generalizing acc with
  | nil => rfl
  | cons t ts ih =>
      rw [List.foldl_cons, ih]
      obtain ⟨q, report⟩ := acc
      simp only [compactTopic]
      split
      · rfl
      · simp only [topics_reapExpired, Table.updateWhere, List.map_map]
        refine List.map_congr_left fun u _ => ?_
        by_cases hu : u.id = t.id <;> simp [hu]

/-! ## The refinement -/

/-- To make room leaves the topics. -/
theorem Room.topics {q q' : Queue} {id : Nat} (h : Room q id q') : q'.topics = q.topics := by
  cases h <;> rfl

/-- To make room loses no message. -/
theorem Room.lossless {q q' : Queue} {id : Nat} (h : Room q id q') (i : Nat) :
    Lossless (·.seq) (viewId q i) (viewId q' i) := by
  cases h with
  | fits => exact Lossless.refl _ _
  | reaped low cutoff hlow hcut =>
      by_cases hi : i = id
      · subst hi
        exact lossless_reap _ hlow hcut
      · have : viewId (q.reap id cutoff fun _ => true) i = viewId q i := by
          refine viewId_congr (fun m hm => ?_) fun g => rfl
          simp [Queue.reap, hm, hi]
        rw [this]
        exact Lossless.refl _ _

/-- Every change keeps the tables in order. -/
theorem Change.wf {q q' : Queue} {op : Op Value} (h : Change q op q') (hq : Wf q) : Wf q' := by
  cases h with
  | topic t h hid =>
      simp only [Wf, Table.insert, List.map_append, List.map_cons, List.map_nil]
      refine List.nodup_append.mpr ⟨hq, List.nodup_singleton _, ?_⟩
      rintro a ha b hb rfl
      obtain ⟨u, hu, rfl⟩ := List.mem_map.mp ha
      exact hid u hu (by simpa using hb)
  | sent t q₁ mk hmk ht hroom hid =>
      simp only [Wf, hroom.topics]
      exact hq
  | compacted =>
      simp only [Wf, compact, ids_foldl_compactTopic]
      exact hq
  | existing | joined | left | polled | acked => exact hq

/-- No operation renames a topic or gives it another id. -/
theorem Change.topicId {q q' : Queue} {op : Op Value} (h : Change q op q') {name : String} {t : Topic}
    (ht : q.topics.find? name = some t) : ∃ t', q'.topics.find? name = some t' ∧ t'.id = t.id := by
  cases h with
  | topic u hfree hid => exact ⟨t, Table.find?_insert_of_some hfree ht, rfl⟩
  | sent u q₁ mk hmk hu hroom hid =>
      refine ⟨t, ?_, rfl⟩
      simpa only [hroom.topics] using ht
  | @compacted now force =>
      have hid := @topics_foldl_compactTopic now force q.topics.rows (q, {}) name
      rw [ht] at hid
      exact Option.map_eq_some_iff.mp hid
  | existing | joined | left | polled | acked => exact ⟨t, ht, rfl⟩

/-- A change that only rewrites group rows keeps a log's messages. -/
theorem pos_updateGroup (q : Queue) (id i : Nat) (group g : String) (f : Group → Group) (hf) :
    (viewId (q.updateGroup id group f hf) i).pos g =
      (q.groups.find? (i, g)).map fun row =>
        (if i = id ∧ g = group then f row else row).position := by
  simp only [viewId, Queue.updateGroup, Table.find?_updateWhere, Option.map_map]
  cases hrow : q.groups.find? (i, g) with
  | none => rfl
  | some row =>
      have hkey := Table.key_of_find? hrow
      obtain ⟨rfl, rfl⟩ := Prod.mk.inj hkey
      simp

/-- `compact` only removes groups: one that is left was there, unchanged. -/
theorem groups_foldl_compactTopic {now force} (ts : List Topic) (acc : Queue × CompactReport)
    {k : Nat × String} {g : Group}
    (h : (ts.foldl (compactTopic now force) acc).1.groups.find? k = some g) :
    acc.1.groups.find? k = some g := by
  induction ts generalizing acc with
  | nil => exact h
  | cons t ts ih =>
      have hone := ih _ h
      obtain ⟨q, report⟩ := acc
      simp only [compactTopic] at hone
      split at hone
      · exact hone
      · rw [show ((q.dropIdle t now).reapExpired t now).groups = (q.dropIdle t now).groups by
          unfold Queue.reapExpired
          cases (q.dropIdle t now).reapThrough t <;> rfl] at hone
        simp only [Queue.dropIdle, Table.find?_deleteWhere] at hone
        exact (Option.filter_eq_some_iff.mp hone).1

/-- **Only an ack moves a position**, its own group's, and never back. -/
theorem Change.pos {q q' : Queue} {op : Op Value} (h : Change q op q') {id : Nat} {group : String}
    {p p' : Int} (hp : (viewId q id).pos group = some p)
    (hp' : (viewId q' id).pos group = some p') :
    p' = p ∨ ∃ topic seq now t, op = .ack topic group seq now ∧
      q.topics.find? topic = some t ∧ t.id = id ∧ p' = max p seq := by
  obtain ⟨row, hrow, rfl⟩ := Option.map_eq_some_iff.mp hp
  cases h with
  | existing | topic => exact Or.inl (Option.some.inj (hp'.symm.trans hp))
  | sent u q₁ mk hmk hu hroom hmkid =>
      have hgroups : q₁.groups = q.groups := by cases hroom <;> rfl
      simp only [viewId, hgroups, hrow] at hp'
      exact Or.inl (Option.some.inj hp').symm
  | joined g =>
      have hne : ¬ (q.groups.find? (g.topicId, g.name) = none ∧
          (g.topicId, g.name) = (id, group)) := by
        rintro ⟨hnone, hkey⟩
        rw [← hkey, hnone] at hrow
        contradiction
      simp only [viewId, Table.find?_insertOrIgnore, if_neg hne, hrow] at hp'
      exact Or.inl (Option.some.inj hp').symm
  | left p => exact Or.inl (Option.some.inj ((pos_deleteWhere hp').symm.trans hp))
  | polled i =>
      rw [pos_updateGroup, hrow] at hp'
      split at hp' <;> exact Or.inl (Option.some.inj hp').symm
  | @acked topic name seq now u g hu hg =>
      rw [pos_updateGroup, hrow] at hp'
      by_cases hkey : id = u.id ∧ group = name
      · obtain ⟨rfl, rfl⟩ := hkey
        cases hrow.symm.trans hg
        rw [Option.map_some, if_pos ⟨rfl, rfl⟩] at hp'
        exact Or.inr ⟨topic, seq, now, u, rfl, hu, rfl, (Option.some.inj hp').symm⟩
      · rw [Option.map_some, if_neg hkey] at hp'
        exact Or.inl (Option.some.inj hp').symm
  | compacted =>
      obtain ⟨row', hrow', rfl⟩ := Option.map_eq_some_iff.mp hp'
      cases hrow.symm.trans (groups_foldl_compactTopic _ _ hrow')
      exact Or.inl rfl

/-- What an operation deletes of a topic outside the reserved prefixes, every group has consumed. -/
theorem Change.reaped {q q' : Queue} {op : Op Value} (h : Change q op q') (hq : Wf q) {t : Topic}
    (ht : t ∈ q.topics.rows) (hpub : isReserved t.name = false) {m : Message}
    (hm : m ∈ (viewId q t.id).held) (hgone : m ∉ (viewId q' t.id).held) :
    Consumed (·.seq) (viewId q' t.id) m := by
  cases h with
  | existing | topic | joined | left | polled | acked => exact absurd hm hgone
  | sent u q₁ mk hmk hu hroom hmkid =>
      exact (hroom.lossless t.id).reaped m hm fun hm' => hgone ⟨by simp [hm'.1], hm'.2⟩
  | compacted =>
      refine (lossless_foldl_compactTopic _ (fun u hu huid => ?_) hq (q, {})).reaped m hm hgone
      rw [List.inj_on_of_nodup_map hq hu ht huid]
      exact hpub

/-- **The refinement**: every operation is a lossless step of every topic outside the reserved
prefixes. -/
theorem Change.lossless {q q' : Queue} {op : Op Value} (h : Change q op q') (hq : Wf q)
    {topic : String} (hpub : isReserved topic = false) :
    Lossless (·.seq) (view q topic) (view q' topic) := by
  cases ht : q.topics.find? topic with
  | none =>
      -- a topic that was not there had nothing to lose
      simp only [view, ht]
      exact ⟨fun m hm => absurd hm (Set.notMem_empty m), fun g p p' hp => by contradiction⟩
  | some t =>
      obtain ⟨t', ht', hid⟩ := h.topicId ht
      have hname : t.name = topic := Table.key_of_find? ht
      simp only [view, ht, ht', hid]
      refine ⟨fun m hm hgone => h.reaped hq (Table.mem_of_find? ht) (hname ▸ hpub) hm hgone, ?_⟩
      intro g p p' hp hp'
      rcases h.pos hp hp' with rfl | ⟨-, seq, -, -, -, -, -, rfl⟩
      · exact le_rfl
      · exact le_max_left p seq

/-! ## Runs -/

/-- A queue without topics is in order. -/
theorem wf_empty : Wf Queue.empty := List.nodup_nil

/-- So is it after any run. -/
theorem wf_run (json : Serde Value) (ops : List (Caller × Op Value)) :
    Wf (run (step json) Queue.empty ops) :=
  run_invariant (fun q op hq => (step_change json q op).wf hq) wf_empty ops

/-- What every group has consumed is at or below `MIN(position)`. -/
theorem Consumed.le_consumedThrough {q : Queue} {id : Nat} {m : Message}
    (h : Consumed (·.seq) (viewId q id) m) :
    ∃ low, q.consumedThrough id = some low ∧ m.seq ≤ low := by
  obtain ⟨⟨g, p, hp⟩, hle⟩ := h
  cases hlow : q.consumedThrough id with
  | some low =>
      obtain ⟨x, hx, rfl⟩ := List.mem_map.mp (List.min?_eq_some_iff.mp hlow).1
      obtain ⟨hrow, hid⟩ := List.mem_filter.mp hx
      have hfind := Table.find?_of_mem hrow
      rw [beq_iff_eq.mp hid] at hfind
      exact ⟨x.position, rfl, hle x.name x.position (by simp [viewId, hfind])⟩
  | none =>
      obtain ⟨row, hrow, rfl⟩ := Option.map_eq_some_iff.mp hp
      obtain ⟨hrow, hkey⟩ := Table.find?_eq_some.mp hrow
      have hempty := List.map_eq_nil_iff.mp (List.min?_eq_none_iff.mp hlow)
      have hmem : row ∈ q.groupsOf id :=
        List.mem_filter.mpr ⟨hrow, by simpa using congrArg Prod.fst hkey⟩
      rw [hempty] at hmem
      contradiction

/-- A step that carries a group's position past a message is an ack of that group. -/
theorem ack_of_passes {q : Queue} (hq : Wf q) {topic group : String} {m : Message}
    {op : Caller × Op Value} (hu : Unread (·.seq) (view q topic) group m)
    (hpass : Passes (step json) (view · topic) (·.seq) group m q op) :
    ∃ seq now, op.2 = .ack topic group seq now ∧ perform json q op.1 op.2 = .ok (step json q op) := by
  obtain ⟨p, hp, hlt⟩ := hu
  obtain ⟨p', hp', hle⟩ := hpass
  have hchange := step_change json q op
  cases ht : q.topics.find? topic with
  | none => simp [view, ht] at hp
  | some t =>
      obtain ⟨t', ht', hid⟩ := hchange.topicId ht
      simp only [view, ht] at hp
      simp only [view, ht', hid] at hp'
      rcases hchange.pos hp hp' with rfl | ⟨topic', seq, now, u, hop, hu, huid, -⟩
      · exact absurd hle (not_le.mpr hlt)
      · have hsame : u = t :=
          List.inj_on_of_nodup_map hq (Table.mem_of_find? hu) (Table.mem_of_find? ht) huid
        have hname : topic' = topic := by
          rw [← show u.name = topic' from Table.key_of_find? hu, hsame]
          exact Table.key_of_find? ht
        refine ⟨seq, now, hname ▸ hop, ?_⟩
        cases hres : perform json q op.1 op.2 with
        | ok q' => simp [step, hres, commit]
        | error e =>
            rw [show step json q op = q by simp [step, hres, commit], hp] at hp'
            cases hp'
            exact absurd hle (not_le.mpr hlt)

/-- **No message is skipped or lost.** In every run, on every topic outside the reserved prefixes:
what a step deletes is at or below the lowest position of the groups that remain, so a topic with no
group loses nothing; and along any stretch through which a group exists, a message stored past its
committed position stays stored until an ack carries that position to the message or past it. -/
theorem no_message_skipped (json : Serde Value) (past : List (Caller × Op Value)) (topic : String)
    (hpub : isReserved topic = false) :
    let q := run (step json) Queue.empty past
    (∀ op m, m ∈ (view q topic).held → m ∉ (view (step json q op) topic).held →
      ∃ t low, (step json q op).topics.find? topic = some t ∧
        (step json q op).consumedThrough t.id = some low ∧ m.seq ≤ low) ∧
    ∀ stretch group m p,
      Throughout (step json) (fun q => (view q topic).pos group ≠ none) q stretch →
      m ∈ (view q topic).held → (view q topic).pos group = some p → p < m.seq →
      m ∈ (view (run (step json) q stretch) topic).held ∨
        ∃ before c seq now after q' p', stretch = before ++ (c, .ack topic group seq now) :: after ∧
          m ∈ (view (run (step json) q before) topic).held ∧
          perform json (run (step json) q before) c (.ack topic group seq now) = .ok q' ∧
          (view q' topic).pos group = some p' ∧ m.seq ≤ p' := by
  intro q
  have hq : Wf q := wf_run json past
  have hstep : ∀ q op, Wf q → Lossless (·.seq) (view q topic) (view (step json q op) topic) :=
    fun q op hq => (step_change json q op).lossless hq hpub
  constructor
  · intro op m hm hgone
    have hconsumed := (hstep q op hq).reaped m hm hgone
    cases ht : (step json q op).topics.find? topic with
    | none =>
        simp only [view, ht] at hconsumed
        obtain ⟨⟨g, p, hp⟩, -⟩ := hconsumed
        contradiction
    | some t =>
        simp only [view, ht] at hconsumed
        obtain ⟨low, hlow, hle⟩ := Consumed.le_consumedThrough hconsumed
        exact ⟨t, low, rfl, hlow, hle⟩
  · intro stretch group m p hthrough hm hp hlt
    have hwf : ∀ q op, Wf q → Wf (step json q op) := fun q op h => (step_change json q op).wf h
    rcases held_until hwf hstep hq hthrough hm ⟨p, hp, hlt⟩ with h | ⟨before, op, after, hsplit, hb, hpass⟩
    · exact Or.inl h.1
    · obtain ⟨seq, now, hop, hok⟩ := ack_of_passes (run_invariant hwf hq before) hb.2 hpass
      obtain ⟨p', hp', hle⟩ := hpass
      obtain ⟨c, op⟩ := op
      subst hop
      exact Or.inr ⟨before, c, seq, now, after, _, p', hsplit, hb.1, hok, hp', hle⟩

/-- JSON whose values are their own text. -/
def Serde.text : Serde String := ⟨fun v => .ok v, fun s => .ok s⟩

/-- A topic, a group from its start, and one message that expires at once. -/
def oneMessage : List (Caller × Op String) :=
  [(.anyone, .topicCreate "work" .default 0), (.anyone, .groupCreate "work" "reader" .fromStart 1),
    (.anyone, .send "work" ⟨"k", "kind", "\x7b\x7d", some 5, "me"⟩ 2)]

/-- A message that a group has not had is held through a forced compaction. -/
theorem no_message_skipped_compact :
    ∃ m ∈ (view (run (step Serde.text) (run (step Serde.text) Queue.empty oneMessage)
      [(.anyone, .compact 1000 true)]) "work").held, m.seq = 1 := by
  have h := (no_message_skipped Serde.text oneMessage "work" (by decide)).2
    [(.anyone, .compact 1000 true)] "reader"
    ⟨1, 1, "k", "kind", "\x7b\x7d", 7, "me", 2, some 7⟩ 0
    ⟨Option.some_ne_none 0, Option.some_ne_none 0⟩ ⟨by decide, rfl⟩ rfl (by decide)
  rcases h with h | ⟨before, c, seq, now, after, q', p', hsplit, -⟩
  · exact ⟨_, h, rfl⟩
  · cases before with
    | nil => cases hsplit
    | cons b bs => cases bs <;> cases hsplit

end Jkb.Mq
