import Jkb.Exec.Hints
import Jkb.Exec.Once
import Jkb.Twin

/-!
# Jkb.Exec.Fate

No condition of a topic changes what becomes of a run request. The argument is about two runs of the
same operations that find different queues: `Beside` relates the stores they reach, which differ in the
queue alone. Every operation is taken apart as it is written; where it tells the queue, the hints say
that both runs go on, and the rest of it never looks at the queue.
-/

namespace Jkb.Exec

open Mq Run Tx Twin

variable {lib : Ext}

/-! ## two runs -/

/-- The bounds every state keeps: the topics are exec's own, rows are sized, and no more than `k` chunks
were counted. -/
structure Bounded (k : Int) (db : Db) : Prop where
  specs : OwnSpecs db.queue
  sized : ∀ r ∈ db.requests.rows, Sized r.id r.note r.exitStatus
  chunks : ∀ o ∈ db.output.rows, 0 ≤ o.chunks ∧ o.chunks ≤ k

/-- A store beside another: the same but for its queue. -/
def Beside (k : Int) (db db' : Db) : Prop :=
  Bounded k db ∧ ∃ q, OwnSpecs q ∧ db' = { db with queue := q }

variable {k : Int} {db db' : Db}

/-- Databases side by side may have any queues in which exec's topics are as exec makes them. -/
theorem Beside.requeue (h : Beside k db db') {q q' : Queue} (hq : OwnSpecs q) (hq' : OwnSpecs q') :
    Beside k { db with queue := q } { db' with queue := q' } := by
  obtain ⟨hdb, r, hr, rfl⟩ := h
  exact ⟨⟨hq, hdb.sized, hdb.chunks⟩, q', hq', rfl⟩

/-- Telling two queues leaves the stores beside each other. -/
theorem Beside.told (h : Beside k db db') {x y : Except ExecError Db} (hx : Told db x)
    (hy : Told db' y) : Alike (Beside k) x y := by
  obtain ⟨q, hq, rfl⟩ := hx
  obtain ⟨q', hq', rfl⟩ := hy
  exact h.requeue hq hq'

/-- The second database has exec's topics as exec makes them, too. -/
theorem Beside.specs' (h : Beside k db db') : OwnSpecs db'.queue := by
  obtain ⟨hdb, q, hq, rfl⟩ := h
  exact hq

/-- What a row that is read keeps of the stored one. -/
theorem parse_kept {r : RawRow} {row : ExecRow} (h : r.parse lib = .ok row) :
    row.id = r.id ∧ row.note = r.note ∧ row.exitStatus = r.exitStatus := by
  unfold RawRow.parse at h
  split at h
  · contradiction
  · cases h
    exact ⟨rfl, rfl, rfl⟩

/-- A row that is read is within its bounds. -/
theorem Bounded.row (h : Bounded k db) {id : Int} {row : ExecRow} (hrow : mustGet lib db id = .ok row) :
    row.id = id ∧ Sized row.id row.note row.exitStatus := by
  obtain ⟨r, hr, hparse⟩ := mustGet_ok hrow
  obtain ⟨hid, hnote, hexit⟩ := parse_kept hparse
  rw [hnote, hexit, hid]
  exact ⟨Table.key_of_find? hr, h.sized r (Table.mem_of_find? hr)⟩

/-- What a move answers in either run: the same row, within its bounds. -/
def SameMove (k id : Int) (x y : Db × Option ExecRow) : Prop :=
  Beside k x.1 y.1 ∧ x.2 = y.2 ∧ ∀ row ∈ x.2, row.id = id ∧ Sized row.id row.note row.exitStatus

/-- **A move is made alike**, whatever the queues. -/
theorem moved_alike (hlib : Printer lib) (h : Beside k db db') {id : Int} {guard : RawRow → Bool}
    {set : RawRow → RawRow} {hset : ∀ r, (set r).id = r.id}
    (hsized : ∀ r, Sized r.id r.note r.exitStatus → Sized (set r).id (set r).note (set r).exitStatus)
    (now : Int) :
    Alike (SameMove k id) (moved lib db id guard set hset now) (moved lib db' id guard set hset now) := by
  obtain ⟨hdb, q, hq, rfl⟩ := h
  unfold moved
  cases hfind : db.requests.find? id with
  | none => exact rfl
  | some before =>
      cases hguard : guard before with
      | false =>
          simp only [hguard, Bool.not_false, if_true]
          exact ⟨⟨hdb, q, hq, rfl⟩, rfl, by simp⟩
      | true =>
          simp only [hguard, Bool.not_true, Bool.false_eq_true, if_false]
          have hmoved : Beside k
              { db.update id guard set hset with changelog := db.changelog ++ [⟨some before, set before⟩] }
              { db.update id guard set hset with
                queue := q, changelog := db.changelog ++ [⟨some before, set before⟩] } := by
            refine ⟨⟨hdb.specs, fun r hr => ?_, hdb.chunks⟩, q, hq, rfl⟩
            obtain ⟨x, hx, rfl⟩ := AutoTable.mem_updateWhere.mp hr
            split
            · exact hsized x (hdb.sized x hx)
            · exact hdb.sized x hx
          refine Alike.bind_same fun row hrow => ?_
          obtain ⟨hid, hs⟩ := hmoved.1.row hrow
          refine Alike.bind (hmoved.told (publishDecision_told hlib hmoved.1.specs hs now)
            (publishDecision_told hlib hmoved.specs' hs now)) fun a b hab => ?_
          refine Alike.bind (hab.told (withdrawPending_told hlib hab.1.specs before row now)
            (withdrawPending_told hlib hab.specs' before row now)) fun a b hab => ?_
          refine Alike.bind (hab.told (announce_told hlib hab.1.specs hs now)
            (announce_told hlib hab.specs' hs now)) fun a b hab => ?_
          refine ⟨hab, rfl, fun x hx => ?_⟩
          cases hx
          exact ⟨hid, hs⟩

/-- A move that was made is one in both runs. -/
theorem mustMove_alike (hlib : Printer lib) (h : Beside k db db') {id : Int} {guard : RawRow → Bool}
    {set : RawRow → RawRow} {hset : ∀ r, (set r).id = r.id}
    (hsized : ∀ r, Sized r.id r.note r.exitStatus → Sized (set r).id (set r).note (set r).exitStatus)
    (now : Int) (e : ExecError) :
    Alike (fun x y => Beside k x.1 y.1 ∧ x.2 = y.2 ∧ x.2.id = id ∧
        Sized x.2.id x.2.note x.2.exitStatus)
      (mustMove lib db id guard set hset now e) (mustMove lib db' id guard set hset now e) := by
  refine Alike.bind (moved_alike hlib h hsized now) fun x y hxy => ?_
  obtain ⟨a, row⟩ := x
  obtain ⟨b, row'⟩ := y
  obtain ⟨hab, hrow, hs⟩ := hxy
  cases hrow
  cases row with
  | none => exact rfl
  | some row => exact ⟨hab, rfl, (hs row rfl).1, (hs row rfl).2⟩

/-- A note of the allowed length fits. -/
theorem Sized.withNote {id : Int} {note : Option String} {exit : Option Int}
    (h : Sized id note exit) (text : String) (htext : text.length ≤ maxNoteChars) :
    Sized id (some text) exit where
  name := h.name
  note s hs := by
    cases hs
    exact htext
  exit := h.exit

/-- To expire requests goes alike on both sides. -/
theorem expireAll_alike (hlib : Printer lib) {now : Int} {note : String}
    (hnote : note.length ≤ maxNoteChars) (ids : List Int) (h : Beside k db db') :
    Alike (fun x y => Beside k x.1 y.1 ∧ x.2 = y.2) (expireAll lib now note db ids)
      (expireAll lib now note db' ids) := by
  induction ids generalizing db db' with
  | nil => exact ⟨h, rfl⟩
  | cons id ids ih =>
      refine Alike.bind (moved_alike hlib h (fun r hr => hr.withNote note hnote) now)
        fun x y hxy => ?_
      obtain ⟨a, row⟩ := x
      obtain ⟨b, row'⟩ := y
      obtain ⟨hab, hrow, -⟩ := hxy
      cases hrow
      refine Alike.bind (ih hab) fun x y hxy => ?_
      exact ⟨hxy.1, by rw [hxy.2]⟩

/-- The end of a row that moved is published, or dropped. -/
theorem publishEnd_told (hlib : Printer lib) (hq : OwnSpecs db.queue) {id : Int} {row : Option ExecRow}
    (hrow : ∀ r ∈ row, r.id = id ∧ Sized r.id r.note r.exitStatus) (now : Int) :
    Told db (publishEnd lib db id row now) := by
  cases row with
  | none => exact ⟨db.queue, hq, rfl⟩
  | some r =>
      obtain ⟨hid, hs⟩ := hrow r rfl
      obtain ⟨q, seq, hq', hdone⟩ := publish_end_told hlib hq hs hid.symm now
      refine ⟨q, hq', ?_⟩
      rw [publishEnd, hdone]
      rfl

/-- So does an interruption. -/
theorem interruptAll_alike (hlib : Printer lib) {now : Int} (ids : List Int) (h : Beside k db db') :
    Alike (Beside k) (interruptAll lib now db ids) (interruptAll lib now db' ids) := by
  induction ids generalizing db db' with
  | nil => exact h
  | cons id ids ih =>
      have hsized : ∀ r, Sized r.id r.note r.exitStatus →
          Sized (interrupt now r).id (interrupt now r).note (interrupt now r).exitStatus :=
        fun r hr => hr.withNote settledInterrupt (by decide)
      refine Alike.bind (moved_alike hlib h hsized now) fun x y hxy => ?_
      obtain ⟨a, row⟩ := x
      obtain ⟨b, row'⟩ := y
      obtain ⟨hab, hrow, hs⟩ := hxy
      cases hrow
      refine Alike.bind (hab.told (publishEnd_told hlib hab.1.specs hs now)
        (publishEnd_told hlib hab.specs' hs now)) fun a b hab => ?_
      exact ih hab

/-- **Settling goes alike**: what is due is what the rows say. -/
theorem settle_alike (hlib : Printer lib) (h : Beside k db db') (now : Int) :
    Alike (fun x y => Beside k x.1 y.1 ∧ x.2 = y.2) (settle lib db now) (settle lib db' now) := by
  have hids : ∀ {a b : Db}, Beside k a b → ∀ p, b.ids p = a.ids p := by
    rintro a b ⟨-, q, -, rfl⟩ p
    rfl
  unfold settle
  rw [hids h]
  refine Alike.bind (expireAll_alike hlib (by decide) _ h) fun x y hxy => ?_
  obtain ⟨a, expired⟩ := x
  obtain ⟨b, expired'⟩ := y
  obtain ⟨hab, rfl⟩ := hxy
  simp only [hids hab]
  refine Alike.bind (interruptAll_alike hlib _ hab) fun a b hab => ?_
  exact ⟨hab, rfl⟩

/-! ## operations -/

/-- Both runs answer alike, and the stores stay beside each other. -/
abbrev Same {α : Type} (k : Int) (x y : Db × α) : Prop := Beside k x.1 y.1 ∧ x.2 = y.2

/-- A request's topic is made, or its name is refused, whatever the queue. -/
theorem create_alike {q q' : Queue} (hq : OwnSpecs q) (hq' : OwnSpecs q') (id now : Int) :
    Alike (fun x y => OwnSpecs x.1 ∧ OwnSpecs y.1 ∧ checkName "topic name" (topic id) = .ok ())
      (liftQueue (topicCreateReserved q (topic id) requestSpec now))
      (liftQueue (topicCreateReserved q' (topic id) requestSpec now)) := by
  cases hname : checkName "topic name" (topic id) with
  | error e =>
      simp only [topicCreateReserved, hname, liftQueue]
      exact rfl
  | ok u =>
      have hmade : ∀ {q : Queue}, OwnSpecs q → ∃ q₁ c, OwnSpecs q₁ ∧
          topicCreateReserved q (topic id) requestSpec now = .ok (q₁, c) := by
        intro q hq
        cases hc : topicCreateReserved q (topic id) requestSpec now with
        | ok r => exact ⟨r.1, r.2, hq.create hc (fun _ _ => rfl) fun h => absurd h (topic_ne_index id), rfl⟩
        | error e =>
            exfalso
            have hchecks : checkPositive "max_bytes" requestSpec.maxBytes = .ok () ∧
                checkPositive "max_messages" requestSpec.maxMessages = .ok () ∧
                checkPositive "group_idle_ms" requestSpec.groupIdleMs = .ok () ∧
                checkPositive "compact_every_ms" requestSpec.compactEveryMs = .ok () ∧
                checkSome "default_ttl_ms" requestSpec.defaultTtlMs = .ok () := by decide
            simp only [topicCreateReserved, hname, hchecks, bind, Except.bind] at hc
            split at hc
            · next t ht =>
                have hspec := (hq t (Table.mem_of_find? ht)).1 id (Table.key_of_find? ht)
                rw [if_pos hspec] at hc
                contradiction
            · contradiction
      obtain ⟨q₁, c, hq₁, hc⟩ := hmade hq
      obtain ⟨q₂, c', hq₂, hc'⟩ := hmade hq'
      rw [hc, hc']
      exact ⟨hq₁, hq₂, rfl⟩

/-- A new request's notification, in both runs. -/
theorem postDirect_alike (hlib : Printer lib) {q q' : Queue} (hq : OwnSpecs q) (hq' : OwnSpecs q')
    (id : Int) (session subtitle body : String) (now : Int) :
    Alike (fun x y => OwnSpecs x.1 ∧ OwnSpecs y.1)
      (liftQueue (Notify.postDirect lib.json q (notificationId id) session subtitle body now))
      (liftQueue (Notify.postDirect lib.json q' (notificationId id) session subtitle body now)) := by
  obtain ⟨q₁, sent, hq₁, hdone⟩ := postDirect_told hlib hq id session subtitle body now
  obtain ⟨q₂, sent', hq₂, hdone'⟩ := postDirect_told hlib hq' id session subtitle body now
  rw [hdone, hdone']
  exact ⟨hq₁, hq₂⟩

/-- So does `request`. -/
theorem request_alike (hlib : Printer lib) (h : Beside k db db') (requester : Requester) (ask : Ask)
    (now : Int) :
    Alike (Same k) (request lib db requester ask now) (request lib db' requester ask now) := by
  unfold request
  refine Alike.bind_same fun _ _ => Alike.bind_same fun argv _ => ?_
  refine Alike.bind (settle_alike hlib h now) fun x y hxy => ?_
  obtain ⟨a, expired⟩ := x
  obtain ⟨b, expired'⟩ := y
  obtain ⟨⟨ha, q, hq, rfl⟩, -⟩ := hxy
  dsimp only
  cases a.requests.rows.find? (folds (pendingRow requester ask argv now 0)) with
  | some r => exact Alike.bind_same fun row _ => ⟨⟨ha, q, hq, rfl⟩, rfl⟩
  | none =>
      refine Alike.bind (create_alike ha.specs hq _ now) fun x y hxy => ?_
      obtain ⟨q₁, c⟩ := x
      obtain ⟨q₂, c'⟩ := y
      obtain ⟨hq₁, hq₂, hname⟩ := hxy
      -- the row is in bounds once its topic's name is
      have hinserted : Beside k
          { a with
            queue := q₁
            requests := a.requests.insertNext (pendingRow requester ask argv now) fun _ => rfl
            changelog := a.changelog ++
              [(⟨none, pendingRow requester ask argv now a.requests.nextKey⟩ : LogEntry)] }
          { a with
            queue := q₂
            requests := a.requests.insertNext (pendingRow requester ask argv now) fun _ => rfl
            changelog := a.changelog ++
              [(⟨none, pendingRow requester ask argv now a.requests.nextKey⟩ : LogEntry)] } := by
        refine ⟨⟨hq₁, fun r hr => ?_, ha.chunks⟩, q₂, hq₂, rfl⟩
        have hid : ∀ i, (pendingRow requester ask argv now i).id = i := fun _ => rfl
        have hrow : r ∈ (a.requests.insertNext (pendingRow requester ask argv now) hid).rows := hr
        rw [AutoTable.mem_insertNext] at hrow
        rcases hrow with hr | rfl
        · exact ha.sized r hr
        · exact ⟨hname, by simp [pendingRow], by simp [pendingRow]⟩
      refine Alike.bind_same fun row hrow => ?_
      obtain ⟨-, hs⟩ := hinserted.1.row hrow
      refine Alike.bind (postDirect_alike hlib hq₁ hq₂ _ _ _ _ now) fun x y hxy => ?_
      obtain ⟨q₃, sent⟩ := x
      obtain ⟨q₄, sent'⟩ := y
      have hposted := hinserted.requeue hxy.1 hxy.2
      refine Alike.bind (hposted.told (announce_told hlib hxy.1 hs now)
        (announce_told hlib hxy.2 hs now)) fun a b hab => ?_
      exact ⟨hab, rfl⟩

/-- What follows settling. -/
theorem settled_alike {α : Type} {S : Db × α → Db × α → Prop} (hlib : Printer lib)
    (h : Beside k db db') (now : Int) {f g : Db × List Int → Except ExecError (Db × α)}
    (hfg : ∀ a q expired, Bounded k a → OwnSpecs q →
      Alike S (f (a, expired)) (g ({ a with queue := q }, expired))) :
    Alike S (settle lib db now >>= f) (settle lib db' now >>= g) := by
  refine Alike.bind (settle_alike hlib h now) fun x y hxy => ?_
  obtain ⟨a, expired⟩ := x
  obtain ⟨b, expired'⟩ := y
  obtain ⟨⟨ha, q, hq, rfl⟩, rfl⟩ := hxy
  exact hfg a q expired ha hq

/-- A move that must be made, as the whole of what is left to do. -/
theorem mustMove_same (hlib : Printer lib) (h : Beside k db db') {id : Int} {guard : RawRow → Bool}
    {set : RawRow → RawRow} {hset : ∀ r, (set r).id = r.id} {now : Int} {e : ExecError}
    (hsized : ∀ r, Sized r.id r.note r.exitStatus → Sized (set r).id (set r).note (set r).exitStatus) :
    Alike (Same k) (mustMove lib db id guard set hset now e)
      (mustMove lib db' id guard set hset now e) :=
  (mustMove_alike hlib h hsized now e).mono fun _ _ hxy => ⟨hxy.1, hxy.2.1⟩

/-- So does `refuse`. -/
theorem refuse_alike (hlib : Printer lib) (h : Beside k db db') (id : Int) (reason : RefuseReason)
    (now : Int) : Alike (Same k) (refuse lib db id reason now) (refuse lib db' id reason now) := by
  unfold refuse
  refine settled_alike hlib h now fun a q expired ha hq => ?_
  refine Alike.bind_same fun row _ => ?_
  refine mustMove_same hlib ⟨ha, q, hq, rfl⟩ ?_
  exact fun r hr => hr

/-- So does `decline`. -/
theorem decline_alike (hlib : Printer lib) (h : Beside k db db') (id : Int) (note : String)
    (now : Int) : Alike (Same k) (decline lib db id note now) (decline lib db' id note now) := by
  unfold decline
  refine Alike.guard fun hlen => ?_
  refine Alike.guard fun _ => ?_
  refine settled_alike hlib h now fun a q expired ha hq => ?_
  refine Alike.bind_same fun row _ => ?_
  refine mustMove_same hlib ⟨ha, q, hq, rfl⟩ ?_
  exact fun r hr => hr.withNote note (not_lt.mp hlen)

/-- So does `begin`. -/
theorem begin_alike (hlib : Printer lib) (hk : 0 ≤ k) (h : Beside k db db') (id : Int)
    (pin : Option TreePin) (runner : String) (now : Int) :
    Alike (Same k) (begin lib db id pin runner now) (begin lib db' id pin runner now) := by
  unfold begin
  refine Alike.bind_same fun _ _ => Alike.bind_same fun _ _ => ?_
  refine settled_alike hlib h now fun a q expired ha hq => ?_
  refine Alike.bind_same fun row _ => ?_
  dsimp only
  by_cases hexpired : id ∈ expired
  · rw [if_pos hexpired, if_pos hexpired]
    exact ⟨⟨ha, q, hq, rfl⟩, rfl⟩
  rw [if_neg hexpired, if_neg hexpired]
  refine Alike.guard fun _ => ?_
  by_cases hpin : row.ask.pin ≠ pin
  · rw [if_pos hpin, if_pos hpin]
    refine Alike.bind (mustMove_same hlib ⟨ha, q, hq, rfl⟩ ?_) fun x y hxy => ?_
    · exact fun r hr => hr
    · exact ⟨hxy.1, by rw [hxy.2]⟩
  · rw [if_neg hpin, if_neg hpin]
    refine Alike.bind (mustMove_same hlib ⟨ha, q, hq, rfl⟩ ?_) fun x y hxy => ?_
    · exact fun r hr => hr
    · obtain ⟨b, running⟩ := x
      obtain ⟨b', running'⟩ := y
      obtain ⟨⟨hb, q', hq', rfl⟩, rfl⟩ := hxy
      refine ⟨⟨⟨hb.specs, hb.sized, fun o ho => ?_⟩, q', hq', rfl⟩, rfl⟩
      rcases Table.mem_insertOrIgnore ho with ho | rfl
      · exact hb.chunks o ho
      · exact ⟨le_rfl, hk⟩

/-- What an output row keeps when one is changed or inserted. -/
theorem Bounded.setOutput {j : Int} (h : Bounded k db) (hk : 0 ≤ k) (hkj : k ≤ j) {id : Int}
    {f : OutputRow → OutputRow} {hf : ∀ o, (f o).requestId = o.requestId}
    (hchunks : ∀ o, 0 ≤ o.chunks → o.chunks ≤ k → 0 ≤ (f o).chunks ∧ (f o).chunks ≤ j) :
    Bounded j (db.setOutput id f hf) := by
  refine ⟨h.specs, h.sized, fun o ho => ?_⟩
  simp only [Db.setOutput, Table.mem_updateWhere] at ho
  obtain ⟨x, hx, rfl⟩ := ho
  have hx' : 0 ≤ x.chunks ∧ x.chunks ≤ k := by
    rcases Table.mem_insertOrIgnore hx with hx | rfl
    · exact h.chunks x hx
    · exact ⟨le_rfl, hk⟩
  split
  · exact hchunks x hx'.1 hx'.2
  · exact ⟨hx'.1, hx'.2.trans hkj⟩

/-- A chunk of output, in base64, fits a message. -/
theorem objBytes_chunk (hlib : Printer lib) (n : Int) {chunk : List UInt8}
    (h : chunk.length ≤ maxChunkBytes) :
    objBytes [("n", .num n), ("b64", .str (lib.base64 chunk))] ≤ maxPayloadBytes := by
  have hlength : (lib.base64 chunk).length ≤ 64172 := by
    rw [hlib.base64_length]
    simp only [maxChunkBytes] at h
    omega
  have hb64 := strBytes_le (fun c hc => charBytes_of_base64 (hlib.base64_alphabet chunk c hc)) hlength
  have hn : objBytes [("n", .num n)] ≤ 3 + 20 + 4 := objBytes_pair_le (by decide) le_rfl
  have hb : objBytes [("b64", .str (lib.base64 chunk))] ≤ 5 + (2 + 64172 * 1) + 4 :=
    objBytes_pair_le (by decide) hb64
  exact (objBytes_append_le hn hb).trans (by decide)

/-- Publishing in both runs, and answering with what does not depend on it. -/
theorem publish_alike (hlib : Printer lib) (h : Beside k db db') {id : Int}
    (hname : checkName "topic name" (topic id) = .ok ()) (kind : String)
    (hkind : checkName "kind" kind = .ok ()) {fields : List (String × Json)}
    (hs : ∀ f ∈ fields, Scalar f.2) (hsize : objBytes fields ≤ maxPayloadBytes) (now : Int) :
    Alike (fun x y => Beside k x.1 y.1) (publish lib db id kind (.obj fields) now false)
      (publish lib db' id kind (.obj fields) now false) := by
  obtain ⟨q, seq, hq, hdone⟩ := publish_told hlib h.1.specs hname kind hkind hs hsize now
  obtain ⟨q', seq', hq', hdone'⟩ := publish_told hlib h.specs' hname kind hkind hs hsize now
  rw [hdone, hdone']
  exact h.requeue hq hq'

/-- How many chunks were counted, as `output` reads it. -/
theorem Bounded.counted (h : Bounded k db) (hk : 0 ≤ k) (id : Int) :
    0 ≤ ((db.output.find? id).map (·.chunks)).getD 0 ∧
      ((db.output.find? id).map (·.chunks)).getD 0 ≤ k := by
  cases ho : db.output.find? id with
  | none => exact ⟨le_rfl, hk⟩
  | some o => exact h.chunks o (Table.mem_of_find? ho)

/-- **A chunk is counted alike**, whether or not it is published. -/
theorem output_alike (hlib : Printer lib) (hk : 0 ≤ k) (hmax : k ≤ i64Max) (h : Beside k db db')
    (id : Int) (runner : String) (chunk : List UInt8) (now : Int) :
    Alike (fun x y => Beside (k + 1) x.1 y.1 ∧ x.2.2 = y.2.2) (output lib db id runner chunk now)
      (output lib db' id runner chunk now) := by
  unfold output
  refine Alike.guard fun hlen => ?_
  have hchunk : chunk.length ≤ maxChunkBytes := by
    simp only [Bool.or_eq_true, decide_eq_true_eq, not_or, not_lt] at hlen
    exact hlen.2
  refine settled_alike hlib h now fun a q expired ha hq => ?_
  refine Alike.bind_same fun row hrow => ?_
  obtain ⟨rfl, hs⟩ := ha.row hrow
  have hcounted : Beside (k + 1) (a.setOutput row.id (fun o => { o with chunks := o.chunks + 1 }) fun _ => rfl)
      (({ a with queue := q } : Db).setOutput row.id (fun o => { o with chunks := o.chunks + 1 })
        fun _ => rfl) := by
    refine ⟨ha.setOutput hk (by omega) fun o h₀ h₁ => ?_, q, hq, rfl⟩
    show 0 ≤ o.chunks + 1 ∧ o.chunks + 1 ≤ k + 1
    omega
  obtain ⟨hn, hnk⟩ := ha.counted hk row.id
  have hscalar : isI64 (((a.output.find? row.id).map (·.chunks)).getD 0) := by
    unfold isI64 i64Min
    omega
  have hpublish := publish_alike hlib hcounted hs.name "exec.output" (by decide)
    (by simpa [Scalar] using hscalar) (objBytes_chunk hlib _ hchunk) now
  by_cases hage : settledByAge row runner = true
  · simp only [hage, Bool.not_true, Bool.false_eq_true, if_false]
    exact Alike.bind hpublish fun x y hxy => ⟨hxy, rfl⟩
  · simp only [hage, Bool.not_false, if_true]
    exact Alike.bind_same fun _ _ => Alike.bind hpublish fun x y hxy => ⟨hxy, rfl⟩

/-- What follows a finishing move is alike. -/
theorem recordEnd_alike (hlib : Printer lib) (hk : 0 ≤ k) (h : Beside k db db') {id : Int}
    {row : ExecRow} (hid : row.id = id) (hs : Sized row.id row.note row.exitStatus) (done : Finished)
    (now : Int) : Alike (Same k) (recordEnd lib db id done row now) (recordEnd lib db' id done row now) := by
  obtain ⟨hdb, q, hq, rfl⟩ := h
  have hstored : Beside k (storeOutput db id done) (storeOutput { db with queue := q } id done) :=
    ⟨hdb.setOutput hk le_rfl fun o h₀ h₁ => ⟨h₀, h₁⟩, q, hq, rfl⟩
  obtain ⟨q₁, seq, hq₁, hdone⟩ := publish_end_told hlib hstored.1.specs hs hid.symm now
  obtain ⟨q₂, seq', hq₂, hdone'⟩ := publish_end_told hlib hstored.specs' hs hid.symm now
  unfold recordEnd
  rw [hdone, hdone']
  exact ⟨hstored.requeue hq₁ hq₂, rfl⟩

/-- So does `finish`. -/
theorem finish_alike (hlib : Printer lib) (hk : 0 ≤ k) (h : Beside k db db') (id : Int)
    (done : Finished) (hdone : ∀ n ∈ done.exitStatus, isI64 n) (now : Int) :
    Alike (Same k) (finish lib db id done now) (finish lib db' id done now) := by
  unfold finish
  refine Alike.bind_same fun _ _ => ?_
  refine settled_alike hlib h now fun a q expired ha hq => ?_
  refine Alike.bind_same fun row _ => ?_
  by_cases hage : settledByAge row done.runner = true
  · rw [if_pos hage, if_pos hage]
    refine Alike.bind (mustMove_alike hlib ⟨ha, q, hq, rfl⟩ ?_ now _) fun x y hxy => ?_
    · exact fun r hr => ⟨hr.name, by simp, hdone⟩
    · obtain ⟨b, finished⟩ := x
      obtain ⟨b', finished'⟩ := y
      obtain ⟨hb, rfl, hid, hs⟩ := hxy
      exact recordEnd_alike hlib hk hb hid hs done now
  rw [if_neg hage, if_neg hage]
  by_cases hfinished : row.state = .finished
  · rw [if_pos hfinished, if_pos hfinished]
    by_cases hidem : row.runner = some done.runner ∧ row.outcome = some done.outcome ∧
        row.exitStatus = done.exitStatus
    · rw [if_pos hidem, if_pos hidem]
      exact ⟨⟨ha, q, hq, rfl⟩, rfl⟩
    · rw [if_neg hidem, if_neg hidem]
      exact rfl
  · rw [if_neg hfinished, if_neg hfinished]
    refine Alike.bind_same fun _ _ => ?_
    refine Alike.bind (mustMove_alike hlib ⟨ha, q, hq, rfl⟩ ?_ now _) fun x y hxy => ?_
    · exact fun r hr => ⟨hr.name, hr.note, hdone⟩
    · obtain ⟨b, finished⟩ := x
      obtain ⟨b', finished'⟩ := y
      obtain ⟨hb, rfl, hid, hs⟩ := hxy
      exact recordEnd_alike hlib hk hb hid hs done now

/-- So does `expire_session`. -/
theorem expireSession_alike (hlib : Printer lib) (h : Beside k db db') (session : String) (now : Int) :
    Alike (Same k) (expireSession lib db session now) (expireSession lib db' session now) := by
  unfold expireSession
  refine settled_alike hlib h now fun a q expired ha hq => ?_
  refine Alike.bind (expireAll_alike hlib (by decide) _ ⟨ha, q, hq, rfl⟩) fun x y hxy => ?_
  exact ⟨hxy.1, by rw [hxy.2]⟩

/-- So does `status`. -/
theorem status_alike (hlib : Printer lib) (h : Beside k db db') (id now : Int) :
    Alike (Same k) (status lib db id now) (status lib db' id now) := by
  unfold status
  refine settled_alike hlib h now fun a q expired ha hq => ?_
  refine Alike.bind_same fun row _ => ?_
  cases row with
  | none => exact ⟨⟨ha, q, hq, rfl⟩, rfl⟩
  | some row => exact ⟨⟨ha, q, hq, rfl⟩, rfl⟩

/-- So does `list`. -/
theorem list_alike (hlib : Printer lib) (h : Beside k db db') (filter : Filter) (after : Option Int)
    (now : Int) : Alike (Same k) (list lib db filter after now) (list lib db' filter after now) := by
  unfold list
  refine settled_alike hlib h now fun a q expired ha hq => ?_
  exact Alike.bind_same fun page _ => ⟨⟨ha, q, hq, rfl⟩, rfl⟩

/-! ## a printer -/

/-- The escapes of a JSON string. -/
def escapeChar (c : Char) : List Char :=
  let backslash := Char.ofNat 0x5c
  match c.toNat with
  | 0x22 => [backslash, c]
  | 0x5c => [backslash, c]
  | 8 => [backslash, 'b']
  | 9 => [backslash, 't']
  | 10 => [backslash, 'n']
  | 12 => [backslash, 'f']
  | 13 => [backslash, 'r']
  | n => if n < 0x20 then [backslash, 'u', '0', '0'] ++ [Nat.digitChar (n / 16), Nat.digitChar (n % 16)]
      else [c]

def quoted (s : String) : List Char :=
  Char.ofNat 0x22 :: (s.toList.flatMap escapeChar ++ [Char.ofNat 0x22])

/-- A scalar, printed. -/
def printScalar : Json → List Char
  | .num n => (toString n).toList
  | .str s => quoted s
  | _ => "null".toList

/-- What `print` prints of each, with commas between. -/
def commas {α : Type} (print : α → List Char) : List α → List Char
  | [] => []
  | [a] => print a
  | a :: l => print a ++ ',' :: commas print l

/-- Objects and arrays of scalars, printed without spaces. -/
def printFlat : Json → Except String String
  | .obj fields => .ok (String.ofList (Char.ofNat 0x7b ::
      (commas (fun f => quoted f.1 ++ ':' :: printScalar f.2) fields ++ [Char.ofNat 0x7d])))
  | .arr xs => .ok (String.ofList ('[' :: (commas printScalar xs ++ [']'])))
  | _ => .error "not a list or an object"

def base64Char (n : Nat) : Char :=
  "ABCDEFGHIJKLMNOPQRSTUVWXYZabcdefghijklmnopqrstuvwxyz0123456789+/".toList.getD n '='

/-- Standard base64, with padding. -/
def base64Chars : List UInt8 → List Char
  | [] => []
  | [a] => [base64Char (a.toNat / 4), base64Char (a.toNat % 4 * 16), '=', '=']
  | [a, b] => [base64Char (a.toNat / 4), base64Char (a.toNat % 4 * 16 + b.toNat / 16),
      base64Char (b.toNat % 16 * 4), '=']
  | a :: b :: c :: rest =>
      [base64Char (a.toNat / 4), base64Char (a.toNat % 4 * 16 + b.toNat / 16),
        base64Char (b.toNat % 16 * 4 + c.toNat / 64), base64Char (c.toNat % 64)] ++ base64Chars rest

/-- The printer, with a parser that knows the texts of some values. -/
def Ext.flat (known : List Json) : Ext where
  json := {
    toString := printFlat
    fromStr := fun text =>
      .ok ((known.find? fun v => (printFlat v).toOption = some text).getD .null) }
  base64 bytes := String.ofList (base64Chars bytes)

example : printFlat (.obj [("id", .str "exec-1"), ("n", .num (-5))]) =
    .ok "\x7b\"id\":\"exec-1\",\"n\":-5\x7d" := by decide +kernel

example : String.ofList (base64Chars "light work".toUTF8.toList) = "bGlnaHQgd29yaw==" := by decide +kernel

/-- The bytes of a list of characters. -/
def byteSize (l : List Char) : Nat := (l.map Char.utf8Size).sum

/-- The bytes of a text are those of its characters. -/
theorem utf8ByteSize_ofList (l : List Char) : (String.ofList l).utf8ByteSize = byteSize l := by
  rw [String.utf8ByteSize_ofList]
  induction l with
  | nil => rfl
  | cons c l ih =>
      simp only [byteSize, String.utf8Len, List.map_cons, List.sum_cons] at ih ⊢
      omega

/-- The bytes of two texts, one after the other. -/
theorem byteSize_append (xs ys : List Char) : byteSize (xs ++ ys) = byteSize xs + byteSize ys := by
  simp [byteSize]

/-- The bytes of a text, from its first character. -/
theorem byteSize_cons (c : Char) (l : List Char) : byteSize (c :: l) = c.utf8Size + byteSize l := by
  simp [byteSize]

/-- An ASCII character is one byte. -/
theorem utf8Size_ascii {c : Char} (h : c.toNat < 128) : c.utf8Size = 1 := by
  rw [Char.utf8Size_eq_one_iff, UInt32.le_iff_toNat_le]
  exact Nat.le_of_lt_succ h

/-- The bound of an escaped character. -/
theorem byteSize_escapeChar (c : Char) : byteSize (escapeChar c) ≤ charBytes c := by
  have hbackslash : (Char.ofNat 0x5c).utf8Size = 1 := by decide
  have hpair : ∀ d : Char, d.utf8Size = 1 → byteSize [Char.ofNat 0x5c, d] = 2 := by
    intro d hd
    simp [byteSize, hbackslash, hd]
  have hhex : ∀ d < 16, (Nat.digitChar d).utf8Size = 1 := by decide
  unfold escapeChar charBytes
  split
  · next hc => rw [hpair c (utf8Size_ascii (by omega)), if_neg (by omega), if_pos (Or.inl hc)]
  · next hc => rw [hpair c (utf8Size_ascii (by omega)), if_neg (by omega), if_pos (Or.inr hc)]
  · next hc => rw [hpair 'b' (by decide), if_pos (by omega)]; omega
  · next hc => rw [hpair 't' (by decide), if_pos (by omega)]; omega
  · next hc => rw [hpair 'n' (by decide), if_pos (by omega)]; omega
  · next hc => rw [hpair 'f' (by decide), if_pos (by omega)]; omega
  · next hc => rw [hpair 'r' (by decide), if_pos (by omega)]; omega
  · next h₁ h₂ _ _ _ _ _ =>
      by_cases hcontrol : c.toNat < 0x20
      · have hu : byteSize [Char.ofNat 0x5c, 'u', '0', '0'] = 4 := by decide
        rw [if_pos hcontrol, if_pos hcontrol, byteSize_append, hu]
        simp only [byteSize, List.map_cons, List.map_nil, List.sum_cons, List.sum_nil,
          hhex (c.toNat / 16) (by omega), hhex (c.toNat % 16) (by omega)]
        omega
      · have hplain : ¬ (c.toNat = 0x22 ∨ c.toNat = 0x5c) := by
          rintro (h | h)
          · exact h₁ h
          · exact h₂ h
        rw [if_neg hcontrol, if_neg hcontrol, if_neg hplain]
        simp [byteSize]

/-- The bound of a quoted text. -/
theorem byteSize_quoted (s : String) : byteSize (quoted s) ≤ strBytes s := by
  have hbody : ∀ l : List Char, byteSize (l.flatMap escapeChar) ≤ (l.map charBytes).sum := by
    intro l
    induction l with
    | nil => simp [byteSize]
    | cons c l ih =>
        have hc := byteSize_escapeChar c
        simp only [List.flatMap_cons, byteSize_append, List.map_cons, List.sum_cons]
        omega
  have hquote : (Char.ofNat 0x22).utf8Size = 1 := by decide
  have := hbody s.toList
  simp only [quoted, strBytes, byteSize_cons, byteSize_append, hquote]
  simp only [byteSize, List.map_nil, List.sum_nil] at this ⊢
  omega

/-- The bound of a number of 64 bits. -/
theorem byteSize_number {n : Int} (h : isI64 n) : byteSize (toString n).toList ≤ 20 := by
  have hascii : ∀ c ∈ (toString n).toList, c.utf8Size = 1 := by
    intro c hc
    rcases mem_toString hc with hdigit | rfl
    · simp only [Char.isDigit, Bool.and_eq_true, decide_eq_true_eq, ge_iff_le, UInt32.le_iff_toNat_le,
        Char.toNat_val] at hdigit
      exact utf8Size_ascii (by simp at hdigit; omega)
    · decide
  have hsize : byteSize (toString n).toList = (toString n).toList.length := by
    rw [byteSize, List.map_congr_left hascii]
    simp
  obtain ⟨hlow, hhigh⟩ := h
  unfold i64Min at hlow
  unfold i64Max at hhigh
  rw [hsize]
  cases n with
  | ofNat m =>
      rw [Int.ofNat_eq_natCast] at hhigh
      have hlen := (Nat.length_repr_le_iff (n := m) (k := 19) (by decide)).mpr (by omega)
      rw [show toString (Int.ofNat m) = Nat.repr m from rfl, String.length_toList]
      omega
  | negSucc m =>
      have hlen := (Nat.length_repr_le_iff (n := m + 1) (k := 19) (by decide)).mpr (by omega)
      rw [show toString (Int.negSucc m) = "-" ++ Nat.repr (m + 1) from rfl, String.toList_append,
        List.length_append, String.length_toList, String.length_toList]
      have hone : "-".length = 1 := by decide
      omega

/-- The bound of a value that is no list and no object. -/
theorem byteSize_printScalar {v : Json} (h : Scalar v) : byteSize (printScalar v) ≤ scalarBytes v := by
  cases v with
  | null => decide
  | num n => exact byteSize_number h
  | str s => exact byteSize_quoted s
  | bool b => exact h.elim
  | real q => exact h.elim
  | arr xs => exact h.elim
  | obj fields => exact h.elim

/-- The bound of a list of values. -/
theorem byteSize_commas {α : Type} {print : α → List Char} {bytes : α → Nat} {l : List α}
    (h : ∀ a ∈ l, byteSize (print a) ≤ bytes a) :
    byteSize (commas print l) ≤ (l.map fun a => bytes a + 1).sum := by
  fun_induction commas print l with
  | case1 => simp [byteSize]
  | case2 a =>
      have ha := h a (by simp)
      simp
      omega
  | case3 a b l ih =>
      have ha := h a (by simp)
      have hl := ih fun x hx => h x (List.mem_cons_of_mem _ hx)
      have hcomma : (',' : Char).utf8Size = 1 := by decide
      rw [byteSize_append, byteSize_cons, hcomma, List.map_cons, List.sum_cons]
      omega

/-- The printer prints objects of scalars within their bytes. -/
theorem printFlat_obj {fields : List (String × Json)} (h : ∀ f ∈ fields, Scalar f.2) :
    ∃ text, printFlat (.obj fields) = .ok text ∧ text.utf8ByteSize ≤ objBytes fields := by
  refine ⟨_, rfl, ?_⟩
  have hbrace : (Char.ofNat 0x7b).utf8Size = 1 ∧ (Char.ofNat 0x7d).utf8Size = 1 := by decide
  have hcolon : (':' : Char).utf8Size = 1 := by decide
  have hbody := @byteSize_commas _ (fun f => quoted f.1 ++ ':' :: printScalar f.2)
    (fun f => strBytes f.1 + scalarBytes f.2 + 1) fields fun f hf => by
      have hkey := byteSize_quoted f.1
      have hvalue := byteSize_printScalar (h f hf)
      rw [byteSize_append, byteSize_cons, hcolon]
      omega
  simp only [Nat.add_assoc, Nat.reduceAdd] at hbody
  rw [utf8ByteSize_ofList, byteSize_cons, byteSize_append, byteSize_cons, hbrace.1, hbrace.2]
  simp only [objBytes, byteSize, List.map_nil, List.sum_nil, Nat.add_assoc] at hbody ⊢
  omega

/-- Six bits are a character of the alphabet. -/
theorem isBase64_base64Char (n : Nat) : isBase64 (base64Char n) = true := by
  have halphabet : ∀ c ∈
      "ABCDEFGHIJKLMNOPQRSTUVWXYZabcdefghijklmnopqrstuvwxyz0123456789+/".toList,
      isBase64 c = true := List.forall_iff_forall_mem.mp (by decide)
  unfold base64Char
  rw [List.getD_eq_getElem?_getD]
  cases hc : "ABCDEFGHIJKLMNOPQRSTUVWXYZabcdefghijklmnopqrstuvwxyz0123456789+/".toList[n]? with
  | none => rfl
  | some c => exact halphabet c (List.mem_of_getElem? hc)

/-- Three bytes are four characters of the alphabet. -/
theorem base64Chars_spec (bytes : List UInt8) :
    (base64Chars bytes).length = 4 * ((bytes.length + 2) / 3) ∧
      ∀ c ∈ base64Chars bytes, isBase64 c = true := by
  have hpad : isBase64 '=' = true := by decide
  fun_induction base64Chars bytes with
  | case1 => simp
  | case2 a => simp [isBase64_base64Char, hpad]
  | case3 a b => simp [isBase64_base64Char, hpad]
  | case4 a b c rest ih =>
      obtain ⟨hlength, halphabet⟩ := ih
      constructor
      · simp only [List.length_append, List.length_cons, List.length_nil, hlength]
        omega
      · simpa [isBase64_base64Char] using halphabet

/-- The printer of flat values keeps the bound. -/
theorem Ext.flat_printer (known : List Json) : Printer (Ext.flat known) where
  prints fields h := by
    obtain ⟨text, hprint, hsize⟩ := printFlat_obj h
    exact ⟨text, hprint, hsize, _, rfl⟩
  base64_length bytes := by
    rw [← (base64Chars_spec bytes).1]
    exact String.length_ofList
  base64_alphabet bytes c hc := (base64Chars_spec bytes).2 c (by simpa [Ext.flat] using hc)

/-! ## runs -/

/-- An operation of exec, with an exit status that a process can have. -/
def Op.OfExec : Op → Prop
  | .finish _ done _ => ∀ n ∈ done.exitStatus, isI64 n
  | .queue _ _ => False
  | _ => True

/-- An answer, but for the number a message was given. -/
def Reply.forgetSeq : Reply → Reply
  | .chunk _ n => .chunk none n
  | r => r

/-- Databases side by side up to a request are so up to a later one. -/
theorem Beside.mono {j : Int} (h : Beside k db db') (hkj : k ≤ j) : Beside j db db' := by
  obtain ⟨hdb, q, hq, rfl⟩ := h
  exact ⟨⟨hdb.specs, hdb.sized, fun o ho => ⟨(hdb.chunks o ho).1, (hdb.chunks o ho).2.trans hkj⟩⟩,
    q, hq, rfl⟩

/-- The answer of an operation whose outcome is the same. -/
theorem Alike.reply {α : Type} {x y : Except ExecError (Db × α)} (h : Alike (Same k) x y)
    (f : α → Reply) :
    Alike (fun x y : Db × Reply => Beside (k + 1) x.1 y.1 ∧ x.2.forgetSeq = y.2.forgetSeq)
      (x >>= fun (db, a) => pure (db, f a)) (y >>= fun (db, a) => pure (db, f a)) := by
  refine Alike.bind h fun x y hxy => ?_
  exact ⟨hxy.1.mono (by omega), by rw [hxy.2]⟩

/-- **One operation, in both runs**: the same answer, or the same refusal. -/
theorem perform_alike (hlib : Printer lib) (hk : 0 ≤ k) (hmax : k ≤ i64Max) (h : Beside k db db')
    {op : Op} (hop : op.OfExec) :
    Alike (fun x y : Db × Reply => Beside (k + 1) x.1 y.1 ∧ x.2.forgetSeq = y.2.forgetSeq)
      (perform lib db op) (perform lib db' op) := by
  cases op with
  | request requester ask now => exact Alike.reply (request_alike hlib h requester ask now) .requested
  | begin id pin runner now => exact Alike.reply (begin_alike hlib hk h id pin runner now) .begun
  | decline id note now => exact Alike.reply (decline_alike hlib h id note now) .row
  | refuse id reason now => exact Alike.reply (refuse_alike hlib h id reason now) .row
  | output id runner chunk now =>
      refine Alike.bind (output_alike hlib hk hmax h id runner chunk now) fun x y hxy => ?_
      exact ⟨hxy.1, by simp only [Reply.forgetSeq, hxy.2]⟩
  | finish id done now => exact Alike.reply (finish_alike hlib hk h id done hop now) .row
  | expireSession session now => exact Alike.reply (expireSession_alike hlib h session now) .expired
  | status id now => exact Alike.reply (status_alike hlib h id now) .status
  | list filter after now =>
      refine Alike.bind (list_alike hlib h filter after now) fun x y hxy => ?_
      exact ⟨hxy.1.mono (by omega), by simp only [hxy.2]⟩
  | queue caller op => exact hop.elim

/-- A store, with its queue as something else left it. -/
def Db.finds (db : Db) (q : Queue) : Db := { db with queue := q }

/-- One operation of a run, which finds the queue it names. -/
def stepIn (lib : Ext) (db : Db) (s : Op × Queue) : Db := step lib (db.finds s.2) s.1

/-- The stores of one operation in two runs. -/
theorem beside_step (hlib : Printer lib) {op : Op} {q q' : Queue} (hop : op.OfExec) (hq : OwnSpecs q)
    (hq' : OwnSpecs q') (hk : 0 ≤ k) (hmax : k ≤ i64Max) (h : Beside k db db') :
    Beside (k + 1) (stepIn lib db (op, q)) (stepIn lib db' (op, q')) := by
  have hfound : Beside k (db.finds q) (db'.finds q') := h.requeue hq hq'
  refine Alike.commit (Alike.map (perform_alike hlib hk hmax hfound hop) ?_)
    (hfound.mono (by omega))
  exact fun x y hxy => hxy.1

/-- The stores of two runs of the same operations stay beside each other. -/
theorem beside_run (hlib : Printer lib) {steps : List (Op × Queue × Queue)}
    (hsteps : ∀ s ∈ steps, s.1.OfExec ∧ OwnSpecs s.2.1 ∧ OwnSpecs s.2.2) (hk : 0 ≤ k)
    (hmax : k + steps.length ≤ i64Max) (h : Beside k db db') :
    Beside (k + steps.length) (run (stepIn lib) db (steps.map fun s => (s.1, s.2.1)))
      (run (stepIn lib) db' (steps.map fun s => (s.1, s.2.2))) := by
  induction steps generalizing k db db' with
  | nil => exact h.mono (by simp)
  | cons s steps ih =>
      obtain ⟨hop, hq, hq'⟩ := hsteps s List.mem_cons_self
      simp only [List.length_cons, Nat.cast_add, Nat.cast_one] at hmax ⊢
      have hstep := beside_step hlib hop hq hq' hk (by omega) h
      have hrest := ih (fun x hx => hsteps x (List.mem_cons_of_mem _ hx)) (by omega) (by omega) hstep
      rw [show k + (steps.length + 1 : Int) = k + 1 + steps.length by omega]
      exact hrest

/-- Two empty databases are side by side. -/
theorem beside_empty : Beside 0 Db.empty Db.empty := by
  have hnone : Bounded 0 Db.empty := by
    refine ⟨ownSpecs_empty, fun r hr => ?_, fun o ho => ?_⟩
    · simp [Db.empty, AutoTable.empty, Table.empty] at hr
    · simp [Db.empty, Table.empty] at ho
  exact ⟨hnone, Queue.empty, ownSpecs_empty, rfl⟩

/-- **The queue never decides a request's fate.** Take two runs of the same operations of exec that find
different queues at every step: other topics, with other messages and readers, or none, as long as
the topics under exec's own prefix are the ones exec creates. Then after every step the rows of
`exec_requests` and `exec_output` are the same, and the next operation gives the same answer or the
same refusal, but for the number of the message it may have published. No more operations are taken than a
chunk counter, an `i64`, can count. -/
theorem queue_never_decides (hlib : Printer lib) (steps : List (Op × Queue × Queue))
    (hsteps : ∀ s ∈ steps, s.1.OfExec ∧ OwnSpecs s.2.1 ∧ OwnSpecs s.2.2)
    (hlen : steps.length ≤ i64Max) (op : Op) (hop : op.OfExec) (q q' : Queue) (hq : OwnSpecs q)
    (hq' : OwnSpecs q') :
    let db := run (stepIn lib) Db.empty (steps.map fun s => (s.1, s.2.1))
    let db' := run (stepIn lib) Db.empty (steps.map fun s => (s.1, s.2.2))
    db.requests = db'.requests ∧ db.output = db'.output ∧
      Alike (fun x y => x.1.requests = y.1.requests ∧ x.1.output = y.1.output ∧
          x.2.forgetSeq = y.2.forgetSeq)
        (perform lib (db.finds q) op) (perform lib (db'.finds q') op) := by
  intro db db'
  have h : Beside (0 + steps.length) db db' :=
    beside_run hlib hsteps le_rfl (by omega) beside_empty
  have hfound : Beside (0 + steps.length) (db.finds q) (db'.finds q') := h.requeue hq hq'
  have hrows : ∀ {k : Int} {a b : Db}, Beside k a b → a.requests = b.requests ∧ a.output = b.output := by
    rintro k a b ⟨-, r, -, rfl⟩
    exact ⟨rfl, rfl⟩
  refine ⟨(hrows h).1, (hrows h).2, ?_⟩
  refine (perform_alike hlib (by omega) (by omega) hfound hop).mono fun x y hxy => ?_
  exact ⟨(hrows hxy.1).1, (hrows hxy.1).2, hxy.2⟩

/-- A queue with a notification topic too small for any message, and readers of it and of the index. -/
def busyQueue : Queue :=
  run (Mq.step (Ext.flat []).json) Queue.empty
    [(.anyone, .topicCreate Notify.topic { TopicSpec.default with maxBytes := 1 } 0),
      (.anyone, .groupCreate Notify.topic "notifier" .fromStart 0),
      (.owner, .topicCreate indexTopic indexSpec 0),
      (.owner, .groupCreate indexTopic "panel" .fromStart 0)]

/-- The printer of a run that asks for `true` and begins it. -/
def Ext.sample : Ext :=
  Ext.flat [.arr [.str "true"], .obj [("id", .str "exec-1"), ("state", .str "pending")],
    .obj [("id", .str "exec-1"), ("state", .str "running")]]

/-- Asked where readers wait and nothing can be notified, or where no queue is; begun the other way. -/
theorem queue_never_decides_busy :
    let ask : Op := .request ⟨"s", none, "worker", none⟩
      ⟨.host, "/tmp", .host, ["true"], "", none, none⟩ 0
    let db := run (stepIn Ext.sample) Db.empty [(ask, busyQueue)]
    let db' := run (stepIn Ext.sample) Db.empty [(ask, Queue.empty)]
    db.requests = db'.requests ∧ db.output = db'.output ∧
      Alike (fun x y => x.1.requests = y.1.requests ∧ x.1.output = y.1.output ∧
          x.2.forgetSeq = y.2.forgetSeq)
        (perform Ext.sample (db.finds Queue.empty) (.begin 1 none "me" 5))
        (perform Ext.sample (db'.finds busyQueue) (.begin 1 none "me" 5)) := by
  have hbusy : OwnSpecs busyQueue := ownSpecs_empty.run fun o ho => by
    simp only [List.mem_cons, List.not_mem_nil, or_false] at ho
    rcases ho with rfl | rfl | rfl | rfl
    · trivial
    · trivial
    · exact ⟨rfl, rfl⟩
    · trivial
  intro ask
  exact queue_never_decides (Ext.flat_printer _) [(ask, busyQueue, Queue.empty)]
    (by simpa [ask, Op.OfExec] using ⟨hbusy, ownSpecs_empty⟩) (by decide) (.begin 1 none "me" 5)
    trivial Queue.empty busyQueue ownSpecs_empty hbusy

end Jkb.Exec
