import Jkb.Notify
import Jkb.Run

/-!
# Jkb.Core.ClaudeSession

The registry of Claude Code sessions. A row is one process holding a session, and a session is ended
only when every process that held it is: an ended session is the one answer that is evidence, since it
licenses taking the session's work.

What was ever sent is kept beside the registry as marks, newest first, so that `session_evidence` can
say what an ended session is evidence of.
-/

namespace Jkb.ClaudeSession

open Mq Notify

def pruneAfterMs : Int := 90 * 24 * 60 * 60 * 1000
def seenRefreshMs : Int := 60 * 60 * 1000
def maxCwdBytes : Nat := 4096
def maxWordBytes : Nat := 32

/-- The word recorded for a start source or end reason that is not a short snake-case word. -/
def unknown : String := "unknown"

/-- The end reason a sweep records for a process it proved gone. -/
def goneReason : String := "gone"

/-- Which process an event is from. -/
structure Process where
  session : String
  pid : String
  «instance» : String
deriving Repr, DecidableEq

/-- A row of `claude_sessions`: one process's hold on a session. It has ended exactly when it has a
reason for that. -/
structure HolderRow extends Process where
  cwd : String
  startedAt : Option Int := none
  startSource : Option String := none
  seenAt : Int
  endedAt : Option Int := none
  endReason : Option String := none
  ended_iff : endedAt.isSome = endReason.isSome := by rfl
deriving DecidableEq

/-- Whether this process's hold has ended. -/
def HolderRow.ended (r : HolderRow) : Bool := r.endedAt.isSome

/-- The table, with at most one row for each process of a session. -/
abbrev Registry := Table HolderRow.toProcess

/-- A session's state, from all its rows. -/
inductive SessionState where
  | unknown
  | live
  | ended
deriving Repr, DecidableEq

/-- What an end did. -/
inductive Ended where
  | recorded
  | alreadyEnded
deriving Repr, DecidableEq

def Process.check (p : Process) : Except QueueError Unit := do
  checkSession p.session
  checkOwnerAndInstance p.pid p.instance

/-- A start source or end reason, as recorded. -/
def word (w : String) : String :=
  if w ≠ "" ∧ w.utf8ByteSize ≤ maxWordBytes ∧
      w.toList.all (fun c => c.isLower || c.isDigit || c == '_') then w
  else unknown

/-- The characters of a text that fit in so many bytes. -/
def cutBytes : Nat → List Char → List Char
  | _, [] => []
  | n, c :: cs => if c.utf8Size ≤ n then c :: cutBytes (n - c.utf8Size) cs else []

/-- A working directory as stored. -/
def cwd (c : String) : String :=
  String.ofList ((cutBytes maxCwdBytes c.toList).map fun ch => if isControl ch then '?' else ch)

/-- `WHERE session = ?1`. -/
def rowsOf (t : Registry) (session : String) : List HolderRow :=
  t.rows.filter (·.session = session)

def state (t : Registry) (session : String) : SessionState :=
  let rows := (rowsOf t session).length
  let live := ((rowsOf t session).filter (·.endedAt.isNone)).length
  let blind := ((rowsOf t session).filter (·.pid = "")).length
  match rows, live, blind with
  | 0, _, _ => .unknown
  | _, 0, 0 => .ended
  | _, 0, _ => .unknown
  | _, _, _ => .live

def holder (t : Registry) (p : Process) : Option HolderRow := t.find? p

/-! ## the four events -/

/-- `GROUP BY session HAVING max(seen_at) < ?1`. -/
def stale (t : Registry) (before : Int) (session : String) : Bool :=
  ((rowsOf t session).map (·.seenAt)).max?.any (· < before)

/-- Delete the stale sessions but one's own, each of them whole. -/
def prune (t : Registry) (before : Int) (own : String) : Registry :=
  t.deleteWhere fun r => stale t before r.session && r.session ≠ own

def started (t : Registry) (p : Process) (dir source : String) (now : Int) :
    Except QueueError (Registry × SessionState) := do
  p.check
  let t := prune t (satSub now pruneAfterMs) p.session
  let before := state t p.session
  let row : HolderRow :=
    { toProcess := p, cwd := cwd dir, startedAt := some now, startSource := some (word source), seenAt := now }
  let t := t.upsert row (fun _ => true) (fun r => { row with toProcess := r.toProcess }) fun _ => rfl
  return (t, before)

def seen (t : Registry) (p : Process) (dir : String) (now : Int) : Except QueueError Registry := do
  p.check
  let row : HolderRow := { toProcess := p, cwd := cwd dir, seenAt := now }
  return t.upsert row (fun r => r.endedAt.isSome || r.seenAt < satSub now seenRefreshMs)
    (fun r => { r with seenAt := now, endedAt := none, endReason := none, ended_iff := rfl })
    fun _ => rfl

def ended (t : Registry) (p : Process) (reason : String) (now : Int) :
    Except QueueError (Registry × Ended) := do
  p.check
  if (holder t p).any (·.ended) then return (t, .alreadyEnded)
  let row : HolderRow :=
    { toProcess := p, cwd := "", seenAt := now, endedAt := some now, endReason := some (word reason) }
  let t := t.upsert row (fun _ => true)
    (fun r => { r with
      seenAt := now, endedAt := some now, endReason := some (word reason), ended_iff := rfl })
    fun _ => rfl
  return (t, .recorded)

def gone (t : Registry) (p : Process) (now : Int) : Except QueueError (Registry × Bool) := do
  p.check
  if p.pid = "" then return (t, false)
  let matching (r : HolderRow) : Bool := r.toProcess = p && r.endedAt.isNone
  let changed := (t.rows.filter matching).length
  let t := t.updateWhere matching
    (fun r => { r with
      seenAt := now, endedAt := some now, endReason := some goneReason, ended_iff := rfl })
    fun _ => rfl
  return (t, changed > 0)

/-! ## runs, and what was sent -/

/-- An event of a process. -/
inductive Event where
  | started
  | seen
  | ended
  | gone
deriving Repr, DecidableEq

/-- A call of the registry. -/
inductive Call where
  | started (p : Process) (dir source : String) (now : Int)
  | seen (p : Process) (dir : String) (now : Int)
  | ended (p : Process) (reason : String) (now : Int)
  | gone (p : Process) (now : Int)

def Call.process : Call → Process
  | .started p _ _ _ | .seen p _ _ | .ended p _ _ | .gone p _ => p

def Call.event : Call → Event
  | .started .. => .started
  | .seen .. => .seen
  | .ended .. => .ended
  | .gone .. => .gone

/-- The registry a call leaves. -/
def Call.perform (t : Registry) : Call → Except QueueError Registry
  | .started p dir source now => (ClaudeSession.started t p dir source now).map (·.1)
  | .seen p dir now => ClaudeSession.seen t p dir now
  | .ended p reason now => (ClaudeSession.ended t p reason now).map (·.1)
  | .gone p now => (ClaudeSession.gone t p now).map (·.1)

/-- The sessions whose rows a call prunes. -/
def Call.prunes (t : Registry) : Call → List String
  | .started p _ _ now =>
      (t.rows.map (·.session)).filter fun s => stale t (satSub now pruneAfterMs) s && s ≠ p.session
  | _ => []

/-- What has happened to the registry: a process sent an event that was accepted, or the rows of a
session were pruned. -/
inductive Mark where
  | sent (p : Process) (event : Event)
  | pruned (session : String)

/-- The most recent accepted event of a process since the rows of its session were last pruned, from
the marks newest first. -/
def latest (p : Process) : List Mark → Option Event
  | [] => none
  | .sent q e :: marks => if q = p then some e else latest p marks
  | .pruned s :: marks => if s = p.session then none else latest p marks

/-- The registry, with the marks of all that happened to it. -/
structure Observed where
  registry : Registry
  marks : List Mark

def Observed.empty : Observed := ⟨Table.empty, []⟩

/-- One call in a transaction of its own. -/
def next (o : Observed) (call : Call) : Observed :=
  match call.perform o.registry with
  | .ok t => ⟨t, .sent call.process call.event :: (call.prunes o.registry).map .pruned ++ o.marks⟩
  | .error _ => o

/-! ## what a call does to a row -/

section

variable {t t' : Registry}

theorem mem_rowsOf {session : String} {r : HolderRow} :
    r ∈ rowsOf t session ↔ r ∈ t.rows ∧ r.session = session := by
  simp [rowsOf]

/-- A session is ended exactly when it has a row, and each of its rows has a pid and has ended. -/
theorem state_eq_ended {session : String} : state t session = .ended ↔
    rowsOf t session ≠ [] ∧ ∀ r ∈ rowsOf t session, r.pid ≠ "" ∧ r.ended := by
  have hlive : ((rowsOf t session).filter (·.endedAt.isNone)).length = 0 ↔
      ∀ r ∈ rowsOf t session, r.ended := by
    simp [HolderRow.ended, Option.isSome_iff_ne_none]
  have hblind : ((rowsOf t session).filter (·.pid = "")).length = 0 ↔
      ∀ r ∈ rowsOf t session, r.pid ≠ "" := by
    simp
  have hrows : (rowsOf t session).length = 0 ↔ rowsOf t session = [] := List.length_eq_zero_iff
  have hstate : state t session = .ended ↔ (rowsOf t session).length ≠ 0 ∧
      ((rowsOf t session).filter (·.endedAt.isNone)).length = 0 ∧
      ((rowsOf t session).filter (·.pid = "")).length = 0 := by
    simp only [state]
    split <;> simp_all
  rw [hstate, hlive, hblind, ne_eq, hrows]
  constructor
  · rintro ⟨hne, hended, hpid⟩
    exact ⟨hne, fun r hr => ⟨hpid r hr, hended r hr⟩⟩
  · rintro ⟨hne, h⟩
    exact ⟨hne, fun r hr => (h r hr).2, fun r hr => (h r hr).1⟩

/-- Pruning deletes a session whole, or leaves it as it was. -/
theorem rowsOf_prune (before : Int) (own session : String) :
    rowsOf (prune t before own) session =
      if stale t before session && session ≠ own then [] else rowsOf t session := by
  have hrows : rowsOf (prune t before own) session =
      (rowsOf t session).filter fun r => !(stale t before r.session && r.session ≠ own) := by
    simp [rowsOf, prune, Table.deleteWhere, List.filter_filter, Bool.and_comm]
  rw [hrows]
  by_cases h : (stale t before session && session ≠ own) = true
  · rw [if_pos h, List.filter_eq_nil_iff]
    intro r hr
    rw [(mem_rowsOf.mp hr).2, h]
    exact Bool.false_ne_true
  · rw [if_neg h, List.filter_eq_self]
    intro r hr
    rw [(mem_rowsOf.mp hr).2, Bool.eq_false_iff.mpr h]
    rfl

/-- **Pruning makes no session ended**: what is ended after it was ended before. -/
theorem state_of_prune {before : Int} {own session : String}
    (h : state (prune t before own) session = .ended) : state t session = .ended := by
  have h' := (state_eq_ended.mp h)
  rw [rowsOf_prune] at h'
  by_cases hs : (stale t before session && session ≠ own) = true
  · rw [if_pos hs] at h'
    exact absurd rfl h'.1
  · rw [if_neg hs] at h'
    exact state_eq_ended.mpr h'

/-- A process's row is live. -/
def Holds (t : Registry) (p : Process) : Prop := ∃ r, t.find? p = some r ∧ r.endedAt = none

/-- A start or a sighting makes the process's row live. -/
theorem holds_of_perform {call : Call} (h : call.perform t = .ok t')
    (he : call.event = .started ∨ call.event = .seen) : Holds t' call.process := by
  cases call with
  | started p dir source now =>
      obtain ⟨⟨t₁, before⟩, hstart, rfl⟩ := Tx.map_eq_ok.mp h
      obtain ⟨_, _, hstart⟩ := Tx.bind_eq_ok.mp hstart
      obtain ⟨rfl, -⟩ := Prod.mk.inj (Except.ok.inj hstart)
      refine ⟨_, Table.find?_upsert_self .., ?_⟩
      cases (prune t (satSub now pruneAfterMs) p.session).find? p <;> simp
  | seen p dir now =>
      obtain ⟨_, _, h⟩ := Tx.bind_eq_ok.mp h
      obtain rfl := Except.ok.inj h
      refine ⟨_, Table.find?_upsert_self .., ?_⟩
      cases hr : t.find? p with
      | none => simp
      | some r =>
          by_cases hlive : r.endedAt = none
          · by_cases hseen : r.seenAt < satSub now seenRefreshMs <;> simp [hlive, hseen]
          · simp [Option.isSome_iff_ne_none.mpr hlive]
  | ended p reason now => simp [Call.event] at he
  | gone p now => simp [Call.event] at he

/-- A call leaves the row of another process alone, unless it prunes its session. -/
theorem find?_of_perform {call : Call} (h : call.perform t = .ok t') {p : Process}
    (hp : call.process ≠ p) (hprune : p.session ∉ call.prunes t) : t'.find? p = t.find? p := by
  cases call with
  | started q dir source now =>
      obtain ⟨⟨t₁, before⟩, hstart, rfl⟩ := Tx.map_eq_ok.mp h
      obtain ⟨_, _, hstart⟩ := Tx.bind_eq_ok.mp hstart
      obtain ⟨rfl, -⟩ := Prod.mk.inj (Except.ok.inj hstart)
      have hne : q ≠ p := hp
      refine Eq.trans (Table.find?_upsert_of_ne _ _ _ _ _ hne) ?_
      rw [prune, Table.find?_deleteWhere]
      cases hr : t.find? p with
      | none => rfl
      | some r =>
          have hmem : p.session ∈ t.rows.map (·.session) :=
            List.mem_map.mpr ⟨r, Table.mem_of_find? hr, by rw [Table.key_of_find? hr]⟩
          have hkey : r.session = p.session := by rw [Table.key_of_find? hr]
          have hkept : (stale t (satSub now pruneAfterMs) p.session && p.session ≠ q.session) = false := by
            by_contra hne
            exact hprune (List.mem_filter.mpr ⟨hmem, by simpa using hne⟩)
          rw [Option.filter_some_pos]
          rw [hkey, hkept]
          rfl
  | seen q dir now =>
      obtain ⟨_, _, h⟩ := Tx.bind_eq_ok.mp h
      obtain rfl := Except.ok.inj h
      exact Table.find?_upsert_of_ne _ _ _ _ _ hp
  | ended q reason now =>
      obtain ⟨⟨t₁, what⟩, hend, rfl⟩ := Tx.map_eq_ok.mp h
      obtain ⟨_, _, hend⟩ := Tx.bind_eq_ok.mp hend
      by_cases hended : (holder t q).any (·.ended) = true
      · rw [if_pos hended] at hend
        obtain ⟨rfl, -⟩ := Prod.mk.inj (Except.ok.inj hend)
        rfl
      · rw [if_neg hended] at hend
        obtain ⟨rfl, -⟩ := Prod.mk.inj (Except.ok.inj hend)
        exact Table.find?_upsert_of_ne _ _ _ _ _ hp
  | gone q now =>
      obtain ⟨⟨t₁, changed⟩, hgone, rfl⟩ := Tx.map_eq_ok.mp h
      obtain ⟨_, _, hgone⟩ := Tx.bind_eq_ok.mp hgone
      by_cases hpid : q.pid = ""
      · rw [if_pos hpid] at hgone
        obtain ⟨rfl, -⟩ := Prod.mk.inj (Except.ok.inj hgone)
        rfl
      · rw [if_neg hpid] at hgone
        obtain ⟨rfl, -⟩ := Prod.mk.inj (Except.ok.inj hgone)
        rw [Table.find?_updateWhere]
        cases hr : t.find? p with
        | none => rfl
        | some r =>
            have hne : r.toProcess ≠ q := by
              rw [Table.key_of_find? hr]
              exact fun h => hp h.symm
            simp [hne]

/-! ## evidence -/

/-- Nothing below a list of prunes is seen of a session among them. -/
theorem latest_pruned (p : Process) (sessions : List String) (marks : List Mark) :
    latest p (sessions.map .pruned ++ marks) = if p.session ∈ sessions then none else latest p marks := by
  induction sessions with
  | nil => simp
  | cons s sessions ih =>
      by_cases hs : s = p.session
      · simp [latest, hs]
      · have hs' : p.session ≠ s := fun h => hs h.symm
        simp [latest, hs, hs', ih]

/-- A process whose most recent event is not an end holds its session. -/
def Evidence (o : Observed) : Prop :=
  ∀ p e, latest p o.marks = some e → e = .started ∨ e = .seen → Holds o.registry p

/-- Every call keeps the evidence. -/
theorem evidence_next {o : Observed} (ho : Evidence o) (call : Call) : Evidence (next o call) := by
  unfold next
  cases h : call.perform o.registry with
  | error e => exact ho
  | ok t =>
      intro p e hlatest he
      by_cases hp : call.process = p
      · rw [List.cons_append, latest, if_pos hp, Option.some.injEq] at hlatest
        rw [← hp]
        exact holds_of_perform h (hlatest ▸ he)
      · rw [List.cons_append, latest, if_neg hp, latest_pruned] at hlatest
        by_cases hprune : p.session ∈ call.prunes o.registry
        · rw [if_pos hprune] at hlatest
          contradiction
        · rw [if_neg hprune] at hlatest
          obtain ⟨r, hr, hlive⟩ := ho p e hlatest he
          exact ⟨r, (find?_of_perform h hp hprune).trans hr, hlive⟩

end

/-- **An ended session is evidence.** After any calls, a session is ended only if it has a row, none of
its rows is without a pid, and the most recent accepted event of every process that sent one since the
session's rows were last pruned is an end or a proof that it is gone. No pruning ends a live session. -/
theorem session_evidence (calls : List Call) (session : String) :
    let o := Run.run next .empty calls
    (state o.registry session = .ended →
      rowsOf o.registry session ≠ [] ∧ (∀ r ∈ rowsOf o.registry session, r.pid ≠ "") ∧
        ∀ p e, p.session = session → latest p o.marks = some e → e = .ended ∨ e = .gone) ∧
    ∀ before own, state o.registry session = .live →
      state (prune o.registry before own) session ≠ .ended := by
  intro o
  have hempty : Evidence .empty := by
    intro p e h
    simp [Observed.empty, latest] at h
  have ho : Evidence (Run.run next .empty calls) :=
    @Run.run_invariant _ _ next Evidence (fun _ call h => evidence_next h call) _ hempty calls
  refine ⟨fun h => ?_, fun before own hlive hended => ?_⟩
  · obtain ⟨hne, hrows⟩ := state_eq_ended.mp h
    refine ⟨hne, fun r hr => (hrows r hr).1, fun p e hp hlatest => ?_⟩
    have hnot : ¬ (e = .started ∨ e = .seen) := by
      intro he
      obtain ⟨r, hr, hlive⟩ := ho p e hlatest he
      have hmem : r ∈ rowsOf o.registry session :=
        mem_rowsOf.mpr ⟨Table.mem_of_find? hr, by rw [← hp, ← Table.key_of_find? hr]⟩
      have := (hrows r hmem).2
      simp [HolderRow.ended, hlive] at this
    cases e <;> simp_all
  · have := state_of_prune hended
    simp [hlive] at this

/-- A session resumed by a second process is ended once one process ended and the other is gone. -/
theorem session_evidence_resumed :
    let calls : List Call :=
      [.started ⟨"s1", "10", "host"⟩ "/work" "startup" 1,
        .started ⟨"s1", "11", "host"⟩ "/work" "resume" 2, .ended ⟨"s1", "10", "host"⟩ "other" 3,
        .gone ⟨"s1", "11", "host"⟩ 4]
    ∀ p e, p.session = "s1" → latest p (Run.run next .empty calls).marks = some e →
      e = .ended ∨ e = .gone := by
  intro calls
  exact ((session_evidence calls "s1").1 (by decide +kernel)).2.2

end Jkb.ClaudeSession
