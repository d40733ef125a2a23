import Jkb.Mq.Retain

/-!
# Jkb.Mq.Send

What a send can answer. A draft that is well formed is refused for the room it needs and for nothing
else: the topic is missing, or full, or the draft is too large. An accepted draft leaves the topics as
they were.
-/

namespace Jkb.Mq

open Tx

variable {Value : Type} {json : Serde Value} {draft : Draft Value} {text : String}

/-! ## drafts -/

/-- A draft that is well formed, whatever its size: its names pass and its payload prints as `text`,
which reads back. -/
structure Sendable (json : Serde Value) (draft : Draft Value) (text : String) : Prop where
  key : draft.key ≠ ""
  key_nul : '\x00' ∉ draft.key.toList
  producer_nul : '\x00' ∉ draft.producer.toList
  kind : checkName "kind" draft.kind = .ok ()
  ttl : checkSome "ttl_ms" draft.ttlMs = .ok ()
  prints : json.toString draft.payload = .ok text
  parses : ∃ v, json.fromStr text = .ok v

/-- The size of a message. -/
def messageSize (draft : Draft Value) (text : String) : Nat :=
  draft.key.utf8ByteSize + draft.kind.utf8ByteSize + text.utf8ByteSize

/-- A draft within the limits of every topic, and within `maxBytes`. -/
structure Fitting (draft : Draft Value) (text : String) (maxBytes : Int) : Prop where
  key : draft.key.utf8ByteSize ≤ maxKeyBytes
  producer : draft.producer.utf8ByteSize ≤ maxNameBytes
  payload : text.utf8ByteSize ≤ maxPayloadBytes
  message : (messageSize draft text : Int) ≤ maxBytes

/-- A well-formed draft is measured, and only measured. -/
theorem validateDraft_eq (h : Sendable json draft text) (spec : TopicSpec) :
    validateDraft json draft spec =
      if draft.key.utf8ByteSize > maxKeyBytes then
        .error (.tooLarge "key" draft.key.utf8ByteSize maxKeyBytes)
      else if draft.producer.utf8ByteSize > maxNameBytes then
        .error (.tooLarge "producer" draft.producer.utf8ByteSize maxNameBytes)
      else if text.utf8ByteSize > maxPayloadBytes then
        .error (.tooLarge "payload" text.utf8ByteSize maxPayloadBytes)
      else if (messageSize draft text : Int) > spec.maxBytes then
        .error (.tooLarge "message" (messageSize draft text) spec.maxBytes.toNat)
      else .ok (text, (messageSize draft text : Int)) := by
  obtain ⟨v, hv⟩ := h.parses
  simp only [validateDraft, if_neg h.key, if_neg h.key_nul, if_neg h.producer_nul, h.kind, h.ttl,
    h.prints, Except.mapError]
  by_cases hkey : draft.key.utf8ByteSize > maxKeyBytes
  · simp only [if_pos hkey]
    rfl
  by_cases hproducer : draft.producer.utf8ByteSize > maxNameBytes
  · simp only [if_neg hkey, if_pos hproducer]
    rfl
  by_cases htext : text.utf8ByteSize > maxPayloadBytes
  · simp only [if_neg hkey, if_neg hproducer, bind, Except.bind, if_pos htext]
  · simp only [if_neg hkey, if_neg hproducer, if_neg htext, bind, Except.bind, pure, Except.pure, hv]
    rfl

/-- A well-formed draft is accepted, or too large. -/
theorem validateDraft_answer (h : Sendable json draft text) (spec : TopicSpec) :
    validateDraft json draft spec = .ok (text, (messageSize draft text : Int)) ∨
      ∃ what bytes most, validateDraft json draft spec = .error (.tooLarge what bytes most) := by
  rw [validateDraft_eq h]
  split_ifs with hkey hproducer htext hsize
  · exact Or.inr ⟨_, _, _, rfl⟩
  · exact Or.inr ⟨_, _, _, rfl⟩
  · exact Or.inr ⟨_, _, _, rfl⟩
  · exact Or.inr ⟨_, _, _, rfl⟩
  · exact Or.inl rfl

/-- A well-formed draft within the limits is accepted. -/
theorem validateDraft_ok (h : Sendable json draft text) {spec : TopicSpec}
    (hfit : Fitting draft text spec.maxBytes) :
    validateDraft json draft spec = .ok (text, (messageSize draft text : Int)) := by
  rw [validateDraft_eq h, if_neg (not_lt.mpr hfit.key), if_neg (not_lt.mpr hfit.producer),
    if_neg (not_lt.mpr hfit.payload), if_neg (not_lt.mpr hfit.message)]

/-! ## room -/

/-- Room is found, or the topic is full. -/
theorem makeRoom_answer (q : Queue) (t : Topic) (size : Int) :
    (∃ q', makeRoom q t size = .ok q' ∧ q'.topics = q.topics) ∨
      ∃ messages bytes, makeRoom q t size = .error (.queueFull t.name messages bytes) := by
  cases h : makeRoom q t size with
  | ok q' => exact Or.inl ⟨q', rfl, (makeRoom_room h).topics⟩
  | error e =>
      right
      simp only [makeRoom] at h
      by_cases hfits : fits t.spec size (q.holdings t.id).1 (q.holdings t.id).2 = true
      · rw [if_pos hfits] at h
        contradiction
      · rw [if_neg hfits] at h
        split at h <;> split at h <;> (try split at h) <;> cases h
        all_goals exact ⟨_, _, rfl⟩

/-! ## sends -/

/-- A send that was made room for: only messages change. -/
theorem sendReserved_of_validated {q : Queue} {t : Topic} {topic : String} {size : Int}
    (ht : q.topics.find? topic = some t) (hv : validateDraft json draft t.spec = .ok (text, size))
    (now : Int) :
    (∃ q' seq, sendReserved json q topic draft now = .ok (q', seq) ∧ q'.topics = q.topics) ∨
      ∃ messages bytes,
        sendReserved json q topic draft now = .error (.queueFull t.name messages bytes) := by
  have hrow : q.topicRowAny topic = .ok t := topicRowAny_ok.mpr ht
  rcases makeRoom_answer q t size with ⟨q', hroom, htopics⟩ | ⟨m, b, hroom⟩
  · left
    simp only [sendReserved, hrow, hv, hroom, bind, Except.bind]
    exact ⟨_, _, rfl, htopics⟩
  · right
    simp only [sendReserved, hrow, hv, hroom, bind, Except.bind]
    exact ⟨m, b, rfl⟩

/-- **A well-formed send to a topic that is there** is done, or finds the topic full or too small. -/
theorem sendReserved_answer (h : Sendable json draft text) {q : Queue} {t : Topic} {topic : String}
    (ht : q.topics.find? topic = some t) (now : Int) :
    (∃ q' seq, sendReserved json q topic draft now = .ok (q', seq) ∧ q'.topics = q.topics) ∨
      (∃ messages bytes,
        sendReserved json q topic draft now = .error (.queueFull t.name messages bytes)) ∨
      ∃ what bytes most, sendReserved json q topic draft now = .error (.tooLarge what bytes most) := by
  rcases validateDraft_answer h t.spec with hv | ⟨w, b, m, hv⟩
  · rcases sendReserved_of_validated ht hv now with hok | hfull
    · exact Or.inl hok
    · exact Or.inr (Or.inl hfull)
  · have hrow : q.topicRowAny topic = .ok t := topicRowAny_ok.mpr ht
    right; right
    simp only [sendReserved, hrow, hv, bind, Except.bind]
    exact ⟨w, b, m, rfl⟩

/-- A send to a topic that is not there. -/
theorem sendReserved_absent {q : Queue} {topic : String} {now : Int}
    (ht : q.topics.find? topic = none) :
    sendReserved json q topic draft now = .error (.noSuchTopic topic) := by
  simp [sendReserved, Queue.topicRowAny, ht, bind, Except.bind]

end Jkb.Mq
