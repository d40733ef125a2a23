import Jkb.Exec
import Jkb.Mq.Send
import Mathlib.Algebra.Order.BigOperators.Group.List
import Mathlib.Data.String.Basic

/-!
# Jkb.Exec.Hints

What the queue is told about a run request is a hint: telling it always succeeds, whether the topic is
there, read or full, and leaves everything but the queue alone. That a send is never refused for
another reason rests on sizes: a row's note and exit status are bounded where they are written, so
every payload fits every topic that `exec.rs` creates.
-/

namespace Jkb.Exec

open Mq Run Tx

variable {lib : Ext}

/-! ## what the printer does -/

def isI64 (n : Int) : Prop := i64Min ≤ n ∧ n ≤ i64Max

/-- The bytes a character of a string prints in: a control character may take a whole `u` escape, a
quote and a backslash take one more, and the rest is printed as it is. -/
def charBytes (c : Char) : Nat :=
  if c.toNat < 0x20 then 6 else if c.toNat = 0x22 ∨ c.toNat = 0x5c then 2 else c.utf8Size

def strBytes (s : String) : Nat := 2 + (s.toList.map charBytes).sum

/-- The values the messages of `exec.rs` and `notify.rs` are made of. -/
def Scalar : Json → Prop
  | .null => True
  | .num n => isI64 n
  | .str _ => True
  | _ => False

/-- The most bytes a scalar prints in. -/
def scalarBytes : Json → Nat
  | .str s => strBytes s
  | _ => 20

/-- The most bytes an object of scalars prints in. -/
def objBytes (fields : List (String × Json)) : Nat :=
  2 + (fields.map fun f => strBytes f.1 + scalarBytes f.2 + 2).sum

/-- The alphabet of standard base64, its padding included. -/
def isBase64 (c : Char) : Bool := c.isAlphanum || c == '+' || c == '/' || c == '='

/-- What the code relies on: an object of scalars prints, within its bytes, and reads back; base64
takes four characters of its alphabet for every three bytes begun. -/
structure Printer (lib : Ext) : Prop where
  prints (fields : List (String × Json)) (h : ∀ f ∈ fields, Scalar f.2) :
    ∃ text, lib.json.toString (.obj fields) = .ok text ∧ text.utf8ByteSize ≤ objBytes fields ∧
      ∃ v, lib.json.fromStr text = .ok v
  base64_length (bytes : List UInt8) : (lib.base64 bytes).length = 4 * ((bytes.length + 2) / 3)
  base64_alphabet (bytes : List UInt8) : ∀ c ∈ (lib.base64 bytes).toList, isBase64 c = true

/-- A character takes six bytes at most. -/
theorem charBytes_le (c : Char) : charBytes c ≤ 6 := by
  have hsize := c.utf8Size_le_four
  unfold charBytes
  split_ifs <;> omega

/-- A string of `n` characters that print in at most `k` bytes each. -/
theorem strBytes_le {s : String} {k n : Nat} (hk : ∀ c ∈ s.toList, charBytes c ≤ k)
    (hn : s.length ≤ n) : strBytes s ≤ 2 + n * k := by
  have hsum : (s.toList.map charBytes).sum ≤ (s.toList.map charBytes).length * k := by
    refine List.sum_le_card_nsmul _ k fun b hb => ?_
    obtain ⟨c, hc, rfl⟩ := List.mem_map.mp hb
    exact hk c hc
  have hmul : s.toList.length * k ≤ n * k :=
    Nat.mul_le_mul_right k (by rwa [String.length_toList])
  simp only [List.length_map] at hsum
  unfold strBytes
  omega

/-- A character of the alphabet prints as itself. -/
theorem charBytes_of_base64 {c : Char} (h : isBase64 c = true) : charBytes c ≤ 1 := by
  have hrange : 0x20 ≤ c.toNat ∧ c.toNat ≠ 0x22 ∧ c.toNat ≠ 0x5c ∧ c.toNat < 128 := by
    simp only [isBase64, Bool.or_eq_true, Char.isAlphanum, Text.isAlpha_eq, Text.isUpper_eq, Text.isLower_eq,
      Char.isDigit, Bool.and_eq_true, decide_eq_true_eq, beq_iff_eq, ge_iff_le, UInt32.le_iff_toNat_le,
      Char.toNat_val] at h
    rcases h with (((((hupper | hlower) | hdigit) | rfl) | rfl) | rfl)
    · simp at hupper; omega
    · simp at hlower; omega
    · simp at hdigit; omega
    all_goals decide
  have hone : c.utf8Size = 1 := by
    rw [Char.utf8Size_eq_one_iff, UInt32.le_iff_toNat_le]
    exact Nat.le_of_lt_succ hrange.2.2.2
  unfold charBytes
  rw [if_neg (by omega), if_neg (by omega), hone]

/-! ## the topics of exec -/

/-- `index_spec`: the index topic. -/
def indexSpec : TopicSpec :=
  { TopicSpec.default with maxBytes := indexMaxBytes, defaultTtlMs := some topicTtlMs }

/-- The topics under exec's prefix are the ones exec creates. -/
def OwnSpecs (q : Queue) : Prop :=
  ∀ t ∈ q.topics.rows,
    (∀ id, t.name = topic id → t.spec = requestSpec) ∧ (t.name = indexTopic → t.spec = indexSpec)

/-- Whether exec's topics are as exec makes them is read of the topics. -/
theorem OwnSpecs.of_topics {q q' : Queue} (h : OwnSpecs q) (ht : q'.topics = q.topics) :
    OwnSpecs q' := by
  unfold OwnSpecs
  rwa [ht]

/-- A queue without topics has none that exec did not make. -/
theorem ownSpecs_empty : OwnSpecs Queue.empty := by
  intro t ht
  simp [Queue.empty, Table.empty] at ht

/-- The characters of a number in a name. -/
theorem mem_toString {c : Char} {id : Int} (h : c ∈ (toString id).toList) :
    c.isDigit = true ∨ c = '-' := by
  cases id with
  | ofNat n =>
      rw [show toString (Int.ofNat n) = Nat.repr n from rfl] at h
      exact Or.inl (Nat.isDigit_of_mem_toDigits (b := 10) (by decide) (by decide)
        (by simpa [Nat.repr] using h))
  | negSucc n =>
      rw [show toString (Int.negSucc n) = "-" ++ Nat.repr (n + 1) from rfl, String.toList_append] at h
      rcases List.mem_append.mp h with h | h
      · exact Or.inr (by simpa using h)
      · exact Or.inl (Nat.isDigit_of_mem_toDigits (b := 10) (by decide) (by decide)
          (by simpa [Nat.repr] using h))

/-- A number is written without a NUL. -/
theorem nul_notMem_toString (id : Int) : '\x00' ∉ (toString id).toList := by
  intro h
  rcases mem_toString h with h | h
  · simp [Char.isDigit] at h
  · cases h

/-- No request's topic is the index. -/
theorem topic_ne_index (id : Int) : topic id ≠ indexTopic := by
  intro h
  have hlist := congrArg String.toList h
  rw [topic, topicPrefix, String.toList_append] at hlist
  have hr : 'r' ∈ (toString id).toList := by
    have hid : (toString id).toList = "requests".toList :=
      @List.append_cancel_left _ "exec/".toList _ _ hlist
    rw [hid]
    decide
  rcases mem_toString hr with h | h <;> revert h <;> decide

/-- A topic that is created, or is there already. -/
theorem topicCreateReserved_ok {q q' : Queue} {name spec now c}
    (h : topicCreateReserved q name spec now = .ok (q', c)) :
    ∀ t ∈ q'.topics.rows, t ∈ q.topics.rows ∨ (t.name = name ∧ t.spec = spec) := by
  simp only [topicCreateReserved, bind_eq_ok] at h
  obtain ⟨-, -, -, -, -, -, -, -, -, -, -, -, h⟩ := h
  intro t ht
  split at h
  · split at h
    · cases h
      exact Or.inl ht
    · contradiction
  · cases h
    simp only [Table.mem_insert] at ht
    rcases ht with ht | rfl
    · exact Or.inl ht
    · exact Or.inr ⟨rfl, rfl⟩

/-- A topic created elsewhere, or as exec creates it. -/
theorem OwnSpecs.create {q q' : Queue} {name spec now c} (h : OwnSpecs q)
    (hc : topicCreateReserved q name spec now = .ok (q', c))
    (hname : ∀ id, name = topic id → spec = requestSpec)
    (hindex : name = indexTopic → spec = indexSpec) : OwnSpecs q' := by
  intro t ht
  rcases topicCreateReserved_ok hc t ht with ht | ⟨rfl, rfl⟩
  · exact h t ht
  · exact ⟨hname, hindex⟩

/-- Compaction keeps every topic's name and spec. -/
theorem OwnSpecs.compact {q : Queue} (h : OwnSpecs q) (now : Int) (force : Bool) :
    OwnSpecs (Mq.compact q now force).1 := by
  unfold Mq.compact
  generalize q.topics.rows = ts
  suffices ∀ acc : Queue × CompactReport, OwnSpecs acc.1 →
      OwnSpecs (ts.foldl (compactTopic now force) acc).1 from this (q, {}) h
  intro acc hacc
  induction ts generalizing acc with
  | nil => exact hacc
  | cons t ts ih =>
      rw [List.foldl_cons]
      refine ih _ ?_
      obtain ⟨q, report⟩ := acc
      simp only [compactTopic]
      split
      · exact hacc
      · intro u hu
        rw [topics_reapExpired, Table.mem_updateWhere] at hu
        obtain ⟨v, hv, rfl⟩ := hu
        split <;> exact hacc v hv

/-- A name that the public operations take. -/
theorem not_reserved {name : String} (h : checkUnreserved name = .ok ()) : isReserved name = false := by
  unfold checkUnreserved at h
  split at h
  · contradiction
  · next hnone => simpa [isReserved] using hnone

/-- The topic of a request is reserved. -/
theorem isReserved_topic (id : Int) : isReserved (topic id) = true := by
  simp [isReserved, reservedPrefixes, startsWith, topic, topicPrefix]

/-- What the queue may be asked meanwhile: anything by anyone, and by its owner anything but a topic
other than the index. -/
def Meanwhile : Caller → Mq.Op Json → Prop
  | .owner, .topicCreate name spec _ => name = indexTopic ∧ spec = indexSpec
  | _, _ => True

/-- **The topics of exec stay as exec creates them**, whatever anyone asks of the queue. -/
theorem OwnSpecs.perform {q q' : Queue} (h : OwnSpecs q) {c : Caller} {op : Mq.Op Json}
    (ho : Meanwhile c op) (hq : Mq.perform lib.json q c op = .ok q') : OwnSpecs q' := by
  cases perform_change hq with
  | existing => exact h
  | topic t ht hid =>
      cases c with
      | anyone =>
          obtain ⟨a, hc⟩ := map_fst_eq_ok hq
          obtain ⟨u, hcheck, hc⟩ := bind_eq_ok.mp hc
          have hfree := not_reserved hcheck
          refine h.create hc (fun id hid => ?_) fun hid => ?_
          · rw [hid, isReserved_topic] at hfree
            contradiction
          · rw [hid, show isReserved indexTopic = true by decide] at hfree
            contradiction
      | owner =>
          obtain ⟨a, hc⟩ := map_fst_eq_ok hq
          obtain ⟨rfl, rfl⟩ := ho
          exact h.create hc (fun id hid => absurd hid.symm (topic_ne_index id)) fun _ => rfl
  | sent t q₁ mk hmk ht hroom hid => exact h.of_topics hroom.topics
  | joined g => exact h.of_topics rfl
  | left p => exact h.of_topics rfl
  | polled id => exact h.of_topics rfl
  | acked t g ht hg => exact h.of_topics rfl
  | compacted => exact h.compact _ _

/-- **The topics of exec stay exec's own** along every run of the queue. -/
theorem OwnSpecs.run {q : Queue} (h : OwnSpecs q) {ops : List (Caller × Mq.Op Json)}
    (hops : ∀ o ∈ ops, Meanwhile o.1 o.2) : OwnSpecs (run (Mq.step lib.json) q ops) := by
  induction ops generalizing q with
  | nil => exact h
  | cons o ops ih =>
      have hstep : OwnSpecs (Mq.step lib.json q o) :=
        commit_rel (R := fun _ q' => OwnSpecs q') h fun q' hq =>
          h.perform (hops o List.mem_cons_self) hq
      exact ih hstep fun x hx => hops x (List.mem_cons_of_mem _ hx)

/-! ## hints -/

/-- What telling the queue does: it is done, and only the queue is another. -/
def Told (db : Db) (x : Except ExecError Db) : Prop :=
  ∃ q, OwnSpecs q ∧ x = .ok { db with queue := q }

/-- The bounds of what a row puts into a payload. -/
structure Sized (id : Int) (note : Option String) (exitStatus : Option Int) : Prop where
  name : checkName "topic name" (topic id) = .ok ()
  note : ∀ s ∈ note, s.length ≤ maxNoteChars
  exit : ∀ n ∈ exitStatus, isI64 n

/-- A name that is accepted has a bounded size. -/
theorem size_of_checkName {what name : String} (h : checkName what name = .ok ()) :
    name.utf8ByteSize ≤ Mq.maxNameBytes := by
  unfold checkName at h
  by_contra hlt
  rw [if_pos (not_le.mp hlt)] at h
  contradiction

/-- The topic of a request is named without a NUL. -/
theorem nul_notMem_topic (id : Int) : '\x00' ∉ (topic id).toList := by
  rw [topic, String.toList_append]
  intro h
  rcases List.mem_append.mp h with h | h
  · revert h
    decide
  · exact nul_notMem_toString id h

/-- The topic of a request has a name. -/
theorem topic_ne_empty (id : Int) : topic id ≠ "" := by
  intro h
  have hlist := congrArg String.toList h
  simp [topic, topicPrefix] at hlist

/-- A message of scalars, sent as jkb, is well formed. -/
theorem sendable (hlib : Printer lib) (key kind : String) (fields : List (String × Json))
    (ttl : Option Int) (hkey : key ≠ "") (hnul : '\x00' ∉ key.toList)
    (hkind : checkName "kind" kind = .ok ()) (hs : ∀ f ∈ fields, Scalar f.2)
    (httl : checkSome "ttl_ms" ttl = .ok ()) :
    ∃ text, Sendable lib.json (⟨key, kind, .obj fields, ttl, "jkb"⟩ : Draft Json) text ∧
      text.utf8ByteSize ≤ objBytes fields := by
  obtain ⟨text, hprint, htext, hparse⟩ := hlib.prints fields hs
  have hproducer : '\x00' ∉ "jkb".toList := by decide
  exact ⟨text, ⟨hkey, hnul, hproducer, hkind, httl, hprint, hparse⟩, htext⟩

/-- Within a row's bounds, a message fits a topic that is large enough for any. -/
theorem fitting {key kind text : String} {payload : Json} {maxBytes : Int}
    (hkey : key.utf8ByteSize ≤ Mq.maxNameBytes) (hkind : checkName "kind" kind = .ok ())
    (htext : text.utf8ByteSize ≤ maxPayloadBytes) (hmax : 66000 ≤ maxBytes) :
    Fitting (⟨key, kind, payload, none, "jkb"⟩ : Draft Json) text maxBytes := by
  have hkindSize := size_of_checkName hkind
  have hproducer : "jkb".utf8ByteSize ≤ Mq.maxNameBytes := by decide
  simp only [Mq.maxNameBytes, maxPayloadBytes] at hkey hkindSize htext
  refine ⟨?_, hproducer, htext, ?_⟩
  · simp only [maxKeyBytes]
    omega
  · simp only [messageSize]
    push_cast
    omega

/-- A message about a request, on its own topic. -/
theorem publish_told (hlib : Printer lib) {db : Db} (hq : OwnSpecs db.queue) {id : Int}
    (hname : checkName "topic name" (topic id) = .ok ()) (kind : String)
    (hkind : checkName "kind" kind = .ok ()) {fields : List (String × Json)}
    (hs : ∀ f ∈ fields, Scalar f.2) (hsize : objBytes fields ≤ maxPayloadBytes) (now : Int) :
    ∃ q seq, OwnSpecs q ∧
      publish lib db id kind (.obj fields) now false = .ok ({ db with queue := q }, seq) := by
  unfold publish
  cases ht : db.queue.topics.find? (topic id) with
  | none =>
      simp only [sendReserved_absent ht]
      exact ⟨db.queue, none, hq, rfl⟩
  | some t =>
      obtain ⟨text, hsend, htext⟩ :=
        sendable hlib (topic id) kind fields none (topic_ne_empty id) (nul_notMem_topic id) hkind hs rfl
      have hspec : t.spec = requestSpec :=
        (hq t (Table.mem_of_find? ht)).1 id (Table.key_of_find? ht)
      have hmax : 66000 ≤ t.spec.maxBytes := by rw [hspec]; decide
      have hvalid := validateDraft_ok hsend
        (fitting (size_of_checkName hname) hkind (htext.trans hsize) hmax)
      rcases sendReserved_of_validated ht hvalid now with
        ⟨q', seq, hsent, htopics⟩ | ⟨m, b, hfull⟩
      · simp only [hsent]
        exact ⟨q', some seq, hq.of_topics htopics, rfl⟩
      · simp only [hfull]
        exact ⟨db.queue, none, hq, rfl⟩

/-- How many groups read a topic, when it is there. -/
theorem groupCountReserved_answer (q : Queue) (name : String) :
    (∃ n t, q.groupCountReserved name = .ok n ∧ q.topics.find? name = some t) ∨
      q.groupCountReserved name = .error (.noSuchTopic name) := by
  unfold Queue.groupCountReserved Queue.topicRowAny
  cases q.topics.find? name with
  | none => exact Or.inr rfl
  | some t => exact Or.inl ⟨_, t, rfl, rfl⟩

/-- A text has no more characters than bytes. -/
theorem length_le_utf8ByteSize (s : String) : s.length ≤ s.utf8ByteSize := by
  rw [← String.ofList_toList (s := s), String.utf8ByteSize_ofList, String.length_ofList]
  induction s.toList with
  | nil => simp
  | cons c cs ih =>
      have hpos := c.utf8Size_pos
      simp only [List.length_cons, String.utf8Len]
      omega

/-- A name on the wire is short, as its topic's is. -/
theorem strBytes_wireId {id : Int} (h : checkName "topic name" (topic id) = .ok ()) :
    strBytes (wireId id) ≤ 1202 := by
  have hlen : (wireId id).length = (topic id).length := by
    have hprefix : idPrefix.length = topicPrefix.length := by decide
    rw [wireId, topic, String.length_append, String.length_append, hprefix]
  have hsize := (length_le_utf8ByteSize (topic id)).trans (size_of_checkName h)
  exact strBytes_le (fun c _ => charBytes_le c) (hlen ▸ hsize)

/-- A state is written in ten bytes at most. -/
theorem strBytes_state (s : ExecState) : strBytes s.asStr ≤ 10 := by cases s <;> decide

/-- A reason is written in fifteen. -/
theorem strBytes_refuseReason (r : RefuseReason) : strBytes r.asStr ≤ 15 := by cases r <;> decide

/-- An outcome is written in thirteen. -/
theorem strBytes_outcome (o : Outcome) : strBytes o.asStr ≤ 13 := by cases o <;> decide

/-- The bytes of an object, part by part. -/
theorem objBytes_append_le {xs ys : List (String × Json)} {m n : Nat} (hx : objBytes xs ≤ m)
    (hy : objBytes ys ≤ n) : objBytes (xs ++ ys) ≤ m + n := by
  simp only [objBytes, List.map_append, List.sum_append] at hx hy ⊢
  omega

/-- The bound of a field is that of its key and its value. -/
theorem objBytes_pair_le {key : String} {v : Json} {m n : Nat} (hkey : strBytes key ≤ m)
    (hv : scalarBytes v ≤ n) : objBytes [(key, v)] ≤ m + n + 4 := by
  simp only [objBytes, List.map_cons, List.map_nil, List.sum_cons, List.sum_nil]
  omega

/-- What every payload about a request starts with. -/
theorem objBytes_head {row : ExecRow} (hrow : Sized row.id row.note row.exitStatus) :
    objBytes [("id", .str (wireId row.id)), ("state", .str row.state.asStr)] ≤ 1300 := by
  have hid : objBytes [("id", .str (wireId row.id))] ≤ 4 + 1202 + 4 :=
    objBytes_pair_le (by decide) (strBytes_wireId hrow.name)
  have hstate : objBytes [("state", .str row.state.asStr)] ≤ 7 + 10 + 4 :=
    objBytes_pair_le (by decide) (strBytes_state row.state)
  exact (objBytes_append_le hid hstate).trans (by decide)

/-- The index is told, or nobody reads it. -/
theorem announce_told (hlib : Printer lib) {db : Db} (hq : OwnSpecs db.queue) {row : ExecRow}
    (hrow : Sized row.id row.note row.exitStatus) (now : Int) :
    Told db (announce lib db row now) := by
  unfold announce indexGroups
  rcases groupCountReserved_answer db.queue indexTopic with ⟨n, t, hn, ht⟩ | hn
  · simp only [hn, bind, Except.bind]
    by_cases hzero : n = 0
    · rw [if_pos hzero]
      exact ⟨db.queue, hq, rfl⟩
    rw [if_neg hzero]
    have hs : ∀ f ∈ [("id", Json.str (wireId row.id)), ("state", Json.str row.state.asStr)],
        Scalar f.2 := by simp [Scalar]
    obtain ⟨text, hsend, htext⟩ :=
      sendable hlib indexTopic indexKind _ none (by decide) (by decide) (by decide) hs rfl
    have hspec : t.spec = indexSpec := (hq t (Table.mem_of_find? ht)).2 (Table.key_of_find? ht)
    have hsize := (htext.trans (objBytes_head hrow)).trans (show 1300 ≤ maxPayloadBytes by decide)
    have hmax : 66000 ≤ t.spec.maxBytes := by rw [hspec]; decide
    have hvalid := validateDraft_ok hsend (fitting (by decide) (by decide) hsize hmax)
    rcases sendReserved_of_validated ht hvalid now with
      ⟨q', seq, hsent, htopics⟩ | ⟨m, b, hfull⟩
    · simp only [hsent]
      exact ⟨q', hq.of_topics htopics, rfl⟩
    · simp only [hfull]
      exact ⟨db.queue, hq, rfl⟩
  · simp only [hn, bind, Except.bind]
    exact ⟨db.queue, hq, rfl⟩

/-- A direct notification is sent, or not, and either is fine. -/
theorem direct_told {q : Queue} {draft : Draft Json} {text : String}
    (h : Sendable lib.json draft text) (now : Int) :
    ∃ q' sent, q'.topics = q.topics ∧
      (do
        if !(← Notify.heard q) then return (q, false)
        Notify.sentSoftly q (send lib.json q Notify.topic draft now)) = Except.ok (q', sent) := by
  have hfree : checkUnreserved Notify.topic = .ok () := by rfl
  unfold Notify.heard Queue.groupCount send
  simp only [hfree, bind, Except.bind]
  rcases groupCountReserved_answer q Notify.topic with ⟨n, t, hn, ht⟩ | hn
  · simp only [hn]
    by_cases hpos : n > 0
    · simp only [hpos, decide_true, Bool.not_true, Bool.false_eq_true, if_false]
      rcases sendReserved_answer h ht now with
        ⟨q', seq, hsent, htopics⟩ | ⟨m, b, hfull⟩ | ⟨w, b, m, hlarge⟩
      · simp only [hsent, Notify.sentSoftly]
        exact ⟨q', true, htopics, rfl⟩
      · simp only [hfull, Notify.sentSoftly]
        exact ⟨q, false, rfl, rfl⟩
      · simp only [hlarge, Notify.sentSoftly]
        exact ⟨q, false, rfl, rfl⟩
    · simp only [hpos, decide_false, Bool.not_false, if_true]
      exact ⟨q, false, rfl, rfl⟩
  · simp only [hn]
    exact ⟨q, false, rfl, rfl⟩

/-- The key of a request's notification. -/
theorem notification_key (id : Int) :
    "notification/" ++ notificationId id ≠ "" ∧
      '\x00' ∉ ("notification/" ++ notificationId id).toList := by
  have hlist : ("notification/" ++ notificationId id).toList =
      "notification/exec-".toList ++ (toString id).toList := by
    simp [notificationId, wireId, idPrefix]
  constructor
  · intro h
    have hempty := congrArg String.toList h
    simp at hempty
  · rw [hlist]
    intro h
    rcases List.mem_append.mp h with h | h
    · revert h
      decide
    · exact nul_notMem_toString id h

/-- A new request's notification is posted, or not. -/
theorem postDirect_told (hlib : Printer lib) {q : Queue} (hq : OwnSpecs q) (id : Int)
    (session subtitle body : String) (now : Int) :
    ∃ q' sent, OwnSpecs q' ∧
      Notify.postDirect lib.json q (notificationId id) session subtitle body now = .ok (q', sent) := by
  obtain ⟨hkey, hnul⟩ := notification_key id
  obtain ⟨text, hsend, -⟩ := sendable hlib _ Notify.kindPost
    [("id", .str (notificationId id)), ("session", .str session), ("title", .str Notify.title),
      ("subtitle", .str subtitle), ("body", .str (String.ofList (body.toList.take Notify.maxBodyChars)))]
    (some Notify.postTtlMs) hkey hnul (by decide) (by simp [Scalar]) (by rfl)
  obtain ⟨q', sent, htopics, hdone⟩ := direct_told hsend now
  exact ⟨q', sent, hq.of_topics htopics, hdone⟩

/-- A request's notification is withdrawn, or not. -/
theorem withdrawPending_told (hlib : Printer lib) {db : Db} (hq : OwnSpecs db.queue) (before : RawRow)
    (row : ExecRow) (now : Int) : Told db (withdrawPending lib db before row now) := by
  unfold withdrawPending
  by_cases hpending : before.state = .pending
  · rw [if_pos hpending]
    obtain ⟨hkey, hnul⟩ := notification_key row.id
    obtain ⟨text, hsend, -⟩ := sendable hlib _ Notify.kindWithdraw
      [("id", .str (notificationId row.id)), ("session", .str row.requester.session)] none hkey hnul
      (by decide) (by simp [Scalar]) rfl
    obtain ⟨q', sent, htopics, hdone⟩ := direct_told (q := db.queue) hsend now
    simp only [show Notify.withdrawDirect lib.json db.queue (notificationId row.id)
      row.requester.session now = .ok (q', sent) from hdone]
    exact ⟨q', hq.of_topics htopics, rfl⟩
  · rw [if_neg hpending]
    exact ⟨db.queue, hq, rfl⟩

/-- A decision is published, or dropped. -/
theorem publishDecision_told (hlib : Printer lib) {db : Db} (hq : OwnSpecs db.queue) {row : ExecRow}
    (hrow : Sized row.id row.note row.exitStatus) (now : Int) :
    Told db (publishDecision lib db row now) := by
  unfold publishDecision
  by_cases hfinished : row.state = .finished
  · rw [if_neg (by simp [hfinished])]
    exact ⟨db.queue, hq, rfl⟩
  rw [if_pos hfinished]
  have hnote : objBytes (row.note.elim [] fun note => [("note", Json.str note)]) ≤ 13000 := by
    cases hn : row.note with
    | none => decide
    | some note =>
        have hlen := strBytes_le (fun c _ => charBytes_le c) (hrow.note note hn)
        have hpair : objBytes [("note", .str note)] ≤ 6 + (2 + maxNoteChars * 6) + 4 :=
          objBytes_pair_le (by decide) hlen
        exact hpair.trans (by decide)
  have hreason : objBytes (row.refuseReason.elim [] fun reason => [("refuse_reason", Json.str reason.asStr)]) ≤
      100 := by
    cases row.refuseReason with
    | none => decide
    | some reason =>
        have hpair : objBytes [("refuse_reason", .str reason.asStr)] ≤ 15 + 15 + 4 :=
          objBytes_pair_le (by decide) (strBytes_refuseReason reason)
        exact hpair.trans (by decide)
  have hsize := (objBytes_append_le (objBytes_append_le (objBytes_head hrow) hnote) hreason).trans
    (show 1300 + 13000 + 100 ≤ maxPayloadBytes by decide)
  have hscalar : ∀ f ∈ [("id", Json.str (wireId row.id)), ("state", .str row.state.asStr)] ++
      (row.note.elim [] fun note => [("note", Json.str note)]) ++
      (row.refuseReason.elim [] fun reason => [("refuse_reason", Json.str reason.asStr)]), Scalar f.2 := by
    cases row.note <;> cases row.refuseReason <;> simp [Scalar]
  obtain ⟨q, seq, hq', hdone⟩ :=
    publish_told hlib hq hrow.name "exec.decision" (by decide) hscalar hsize now
  have hpayload : decisionPayload row = .obj ([("id", .str (wireId row.id)), ("state", .str row.state.asStr)] ++
      (row.note.elim [] fun note => [("note", .str note)]) ++
      (row.refuseReason.elim [] fun reason => [("refuse_reason", .str reason.asStr)])) := by
    unfold decisionPayload
    cases row.note <;> cases row.refuseReason <;> rfl
  have hdecision : publish lib db row.id "exec.decision" (decisionPayload row) now false =
      .ok ({ db with queue := q }, seq) := by
    rw [hpayload]
    exact hdone
  refine ⟨q, hq', ?_⟩
  rw [hdecision]
  rfl

/-- An end is published, or dropped. -/
theorem publish_end_told (hlib : Printer lib) {db : Db} (hq : OwnSpecs db.queue) {row : ExecRow}
    (hrow : Sized row.id row.note row.exitStatus) {id : Int} (hid : id = row.id) (now : Int) :
    ∃ q seq, OwnSpecs q ∧
      publish lib db id "exec.end" (endPayload row) now false = .ok ({ db with queue := q }, seq) := by
  subst hid
  refine publish_told hlib hq hrow.name "exec.end" (by decide) ?_ ?_ now
  · cases row.outcome <;> cases hexit : row.exitStatus <;> simp [Scalar]
    all_goals exact hrow.exit _ hexit
  · refine (objBytes_append_le (m := 1300) (objBytes_head hrow) (n := 100) ?_).trans (by decide)
    refine (objBytes_append_le (objBytes_pair_le (n := 20) (show strBytes "outcome" ≤ 9 by decide) ?_)
      (objBytes_pair_le (n := 20) (show strBytes "exit_status" ≤ 13 by decide) ?_)).trans (by decide)
    · cases row.outcome with
      | none => decide
      | some o => exact (strBytes_outcome o).trans (by decide)
    · cases row.exitStatus <;> exact le_rfl

end Jkb.Exec
