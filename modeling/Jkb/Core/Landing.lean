import Jkb.Core.Transition

/-!
# Jkb.Core.Landing

Whether a landing speaks for the work now. A landing is proof about the past; it goes stale when a later row
puts the task back to an earlier stage. Two readers ask this of one history: `landing`, of grafts alone, and
`current_landing`, of grafts and of merged pull requests. They agree wherever the landing that is read is not
itself a move backwards, and no writer writes one that is.
-/

namespace Jkb.Landings

open Jkb.Fsm Jkb.Lifecycle Jkb.Text

/-! ## the history -/

/-- What a row of the history names besides its move. -/
structure Labels where
  branch : Option Text := none
  onto : Option Text := none
  refCommit : Option Text := none
  prNumber : Option Int := none
deriving Repr, DecidableEq

/-- A row of `task_transitions`. -/
structure TransitionRow where
  id : Int
  at_ : Text
  event : String
  fromStatus : Option String
  toStatus : String
  labels : Labels := {}
deriving Repr, DecidableEq

/-- A task's history, oldest first. -/
structure History where
  rows : List TransitionRow
  sorted : (rows.map (·.id)).Pairwise (· < ·)

/-- Whether a row put the task back to work. -/
def TransitionRow.back (r : TransitionRow) : Bool := TaskStatus.movedBackwards r.fromStatus (some r.toStatus)

/-- Whether a row is a landing with a destination. -/
def TransitionRow.graft (r : TransitionRow) : Bool :=
  (r.event = Event.name TaskEvent.land || r.event = Event.name TaskEvent.observedLanded) && r.labels.onto.isSome

/-- Whether a row closed the task when its pull request was merged. -/
def TransitionRow.merged (r : TransitionRow) : Bool :=
  r.event = Event.name TaskEvent.observedLanded && r.toStatus = TaskStatus.done.asStr && r.labels.prNumber.isSome

/-! ## the readers -/

/-- The newest row of a kind. -/
def newest (h : History) (p : TransitionRow → Bool) : Option TransitionRow := h.rows.reverse.find? p

/-- The newest row that put the task back to work. -/
def resumption (h : History) : Option TransitionRow := newest h TransitionRow.back

/-- The event of a row that records that no pull request was found. -/
def NO_PULL_REQUEST : String := "no_pull_request"

/-- What a history says about where a task's work went. -/
structure Landing where
  recorded : Option TransitionRow
  resumed : Option TransitionRow
  prNumber : Option Int
  prAbsent : Option TransitionRow
deriving Repr, DecidableEq

/-- The landing, if it still speaks for the work in flight. -/
def Landing.live (l : Landing) : Option TransitionRow :=
  match l.recorded, l.resumed with
  | some landing, some back => if landing.id < back.id then none else some landing
  | recorded, _ => recorded

/-- The landing and what retired it, if one was recorded and has since been superseded. -/
def Landing.superseded (l : Landing) : Option (TransitionRow × TransitionRow) :=
  match l.recorded, l.resumed with
  | some landing, some back => if landing.id < back.id then some (landing, back) else none
  | _, _ => none

/-- Everything a task's history says about where its work went. -/
def landing (h : History) : Landing where
  recorded := newest h TransitionRow.graft
  resumed := resumption h
  prNumber := h.rows.reverse.findSome? (·.labels.prNumber)
  prAbsent := newest h fun r => r.event = NO_PULL_REQUEST

/-- The landing that speaks for the task's work now: the newer of its graft and of its merged pull request, of
those that nothing has put back to work since. -/
def currentLanding (h : History) : Option TransitionRow :=
  let back := (resumption h).map (·.id)
  let found := [newest h TransitionRow.graft, newest h TransitionRow.merged].filterMap id
  let speaking := found.filter fun r => back.all (· < r.id)
  speaking.foldl (fun best r =>
    match best with
    | some b => if b.id ≤ r.id then some r else some b
    | none => some r) none

/-! ## what is newest -/

/-- The newest row of a kind is one, and no later one is. -/
theorem newest_eq_some {h : History} {p : TransitionRow → Bool} {r : TransitionRow} :
    newest h p = some r ↔ r ∈ h.rows ∧ p r = true ∧ ∀ r' ∈ h.rows, r.id < r'.id → p r' = false := by
  obtain ⟨rows, hsorted⟩ := h
  rw [newest]
  induction rows with
  | nil => simp
  | cons x rows ih =>
      rw [List.map_cons, List.pairwise_cons] at hsorted
      have hlater : ∀ r' ∈ rows, x.id < r'.id := fun r' hr' => hsorted.1 _ (List.mem_map_of_mem hr')
      have hrest := ih hsorted.2
      rw [List.reverse_cons, List.find?_append]
      cases hfound : rows.reverse.find? p with
      | some y =>
          rw [hfound] at hrest
          have hy : y ∈ rows := List.mem_reverse.mp (List.mem_of_find?_eq_some hfound)
          have hpy : p y = true := List.find?_some hfound
          rw [Option.some_or, hrest]
          constructor
          · rintro ⟨hr, hpr, hnewer⟩
            refine ⟨List.mem_cons_of_mem _ hr, hpr, fun r' hr' hlt => ?_⟩
            rcases List.mem_cons.mp hr' with rfl | hr'
            · exact absurd (hlater r hr) (by omega)
            · exact hnewer r' hr' hlt
          · rintro ⟨hr, hpr, hnewer⟩
            rcases List.mem_cons.mp hr with rfl | hr
            · have := hnewer y (List.mem_cons_of_mem _ hy) (hlater y hy)
              rw [hpy] at this
              cases this
            · exact ⟨hr, hpr, fun r' hr' => hnewer r' (List.mem_cons_of_mem _ hr')⟩
      | none =>
          have hnone : ∀ y ∈ rows, p y = false := fun y hy => by
            simpa using List.find?_eq_none.mp hfound y (List.mem_reverse.mpr hy)
          rw [Option.none_or, List.find?_singleton]
          constructor
          · intro h
            split at h
            · next hpx =>
                cases h
                refine ⟨List.mem_cons_self, hpx, fun r' hr' hlt => ?_⟩
                rcases List.mem_cons.mp hr' with rfl | hr'
                · exact absurd hlt (Int.lt_irrefl _)
                · exact hnone r' hr'
            · cases h
          · rintro ⟨hr, hpr, -⟩
            rcases List.mem_cons.mp hr with rfl | hr
            · rw [if_pos hpr]
            · rw [hnone r hr] at hpr
              cases hpr

/-- Where there is no newest row, there is none. -/
theorem newest_eq_none {h : History} {p : TransitionRow → Bool} :
    newest h p = none ↔ ∀ r ∈ h.rows, p r = false := by
  simp [newest]

/-! ## the two readings -/

/-- **A landing is live until the work goes back.** -/
theorem live_eq_some {h : History} {r : TransitionRow} : (landing h).live = some r ↔
    (r ∈ h.rows ∧ r.graft = true ∧ ∀ r' ∈ h.rows, r.id < r'.id → r'.graft = false) ∧
      ∀ r' ∈ h.rows, r.id < r'.id → r'.back = false := by
  rw [← newest_eq_some]
  unfold Landing.live landing resumption
  cases hgraft : newest h TransitionRow.graft with
  | none => simp
  | some landed =>
      cases hback : newest h TransitionRow.back with
      | none =>
          have hnone := newest_eq_none.mp hback
          simp only [iff_self_and]
          exact fun _ r' hr' _ => hnone r' hr'
      | some back =>
          obtain ⟨hmem, hb, hnewer⟩ := newest_eq_some.mp hback
          simp only
          split
          · next hlt =>
              refine iff_of_false nofun ?_
              rintro ⟨heq, hnone⟩
              cases heq
              rw [hnone back hmem hlt] at hb
              cases hb
          · next hle =>
              simp only [iff_self_and]
              rintro heq r' hr' hlt
              cases heq
              exact hnewer r' hr' (by omega)

/-- A landing is superseded exactly where one is recorded and none is live. -/
theorem superseded_isSome {l : Landing} :
    l.superseded.isSome = true ↔ l.recorded.isSome = true ∧ l.live = none := by
  unfold Landing.superseded Landing.live
  cases l.recorded with
  | none => simp
  | some landed =>
      cases l.resumed with
      | none => simp
      | some back =>
          simp only [Option.isSome_some, true_and]
          split <;> simp

/-- What is found newest of some rows is one of them, and none is newer. -/
theorem currentLanding_spec {h : History} {r : TransitionRow} (hgraft : newest h TransitionRow.graft = some r)
    (hspeaks : ((resumption h).map (·.id)).all (· < r.id) = true) :
    ∃ c, currentLanding h = some c ∧ r.id ≤ c.id := by
  unfold currentLanding
  rw [hgraft]
  cases newest h TransitionRow.merged with
  | none =>
      refine ⟨r, ?_, Int.le_refl _⟩
      simp [hspeaks]
  | some m =>
      by_cases hm : ((resumption h).map (·.id)).all (· < m.id) = true
      · by_cases hle : r.id ≤ m.id
        · exact ⟨m, by simp [hspeaks, hm, hle], hle⟩
        · exact ⟨r, by simp [hspeaks, hm, hle], Int.le_refl _⟩
      · exact ⟨r, by simp [hspeaks, hm], Int.le_refl _⟩

/-- **The two readings agree** where a live landing is not itself a move backwards. -/
theorem currentLanding_of_live {h : History} {r : TransitionRow} (hlive : (landing h).live = some r)
    (hforward : r.back = false) : ∃ c, currentLanding h = some c ∧ r.id ≤ c.id := by
  obtain ⟨hgraft, hnone⟩ := live_eq_some.mp hlive
  refine currentLanding_spec (newest_eq_some.mpr hgraft) ?_
  cases hback : resumption h with
  | none => rfl
  | some back =>
      obtain ⟨hmem, hb, -⟩ := newest_eq_some.mp hback
      have hle : back.id ≤ r.id := by
        by_contra hlt
        rw [hnone back hmem (by omega)] at hb
        cases hb
      have hne : back.id ≠ r.id := by
        intro hid
        have hnodup : (h.rows.map (·.id)).Nodup := h.sorted.imp fun hlt => Int.ne_of_lt hlt
        rw [List.inj_on_of_nodup_map hnodup hmem hgraft.1 hid, hforward] at hb
        cases hb
      have hlt : back.id < r.id := by omega
      simpa using hlt

/-! ## what the writers write -/

/-- A row that a writer writes: a move of the lifecycle; a fact, or an event that a guard refused, on a task that
does not move; or what an undo was seen to do. -/
inductive Written : TransitionRow → Prop
  | moved {f : TaskFacts} {event : TaskEvent} {src dst : TaskStatus} {effects : List TaskEffect}
      (h : Lifecycle.apply f event = .moved src event dst effects) (id : Int) (at_ : Text) (labels : Labels) :
      Written ⟨id, at_, Event.name event, some src.asStr, dst.asStr, labels⟩
  | appended (status : TaskStatus) (event : String) (id : Int) (at_ : Text) (labels : Labels) :
      Written ⟨id, at_, event, some status.asStr, status.asStr, labels⟩
  | undone (src dst : String) (id : Int) (at_ : Text) : Written ⟨id, at_, "undo", some src, dst, {}⟩

/-- A task lands where it is done. -/
theorem done_of_land {f : TaskFacts} {event : TaskEvent} {src dst : TaskStatus} {effects : List TaskEffect}
    (h : Lifecycle.apply f event = .moved src event dst effects)
    (hevent : event = .land ∨ event = .observedLanded) : dst = .done := by
  have hrows : ∀ t ∈ rows, t.event = .land ∨ t.event = .observedLanded →
      ∀ f d, resolve t.dest f = .to d → d = .done := by
    simp only [rows, List.forall_mem_cons]
    repeat' apply And.intro
    all_goals first
      | exact fun hkind => absurd hkind (by decide)
      | exact fun _ _ _ hdest => (Resolved.to.inj hdest).symm
      | exact List.forall_mem_nil _
  obtain ⟨-, -, t, hmem, -, hev, -, -, hdest, -⟩ := Machine.apply_eq_moved h
  exact hrows t hmem (hev ▸ hevent) f dst hdest

/-- **No landing that is written is a move backwards.** -/
theorem Written.forward {r : TransitionRow} (h : Written r) (hgraft : r.graft = true) : r.back = false := by
  cases h with
  | moved hmoved id at_ labels =>
      rename_i f event src dst effects
      have hevent : event = .land ∨ event = .observedLanded := by
        have hname : Event.name event = Event.name TaskEvent.land ∨
            Event.name event = Event.name TaskEvent.observedLanded := by
          simp only [TransitionRow.graft, Bool.and_eq_true, Bool.or_eq_true, decide_eq_true_eq] at hgraft
          exact hgraft.1
        revert hname
        cases event <;> decide
      have hstage : ¬ TaskStatus.done.stage < src.stage := by cases src <;> decide
      simp [TransitionRow.back, TaskStatus.movedBackwards, TaskStatus.fromManualStr_asStr, done_of_land hmoved hevent,
        hstage]
  | appended status event id at_ labels =>
      simp [TransitionRow.back, TaskStatus.movedBackwards, TaskStatus.fromManualStr_asStr]
  | undone src dst id at_ => simp [TransitionRow.graft] at hgraft

/-! ## the readings of a history -/

/-- **Landing evidence goes stale when the work goes back.** A landing is live exactly where it is the latest graft
and no row after it moves back; it is superseded exactly where one is recorded and none is live; and a live
landing that does not itself move back is at most as new as the one that speaks for the work now. No landing
that is written moves back, so in what is written the two readings agree. -/
theorem landing_readings (h : History) :
    (∀ r, (landing h).live = some r ↔
      (r ∈ h.rows ∧ r.graft = true ∧ ∀ r' ∈ h.rows, r.id < r'.id → r'.graft = false) ∧
        ∀ r' ∈ h.rows, r.id < r'.id → r'.back = false) ∧
    ((landing h).superseded.isSome = true ↔ (landing h).recorded.isSome = true ∧ (landing h).live = none) ∧
    (∀ r, (landing h).live = some r → r.back = false → ∃ c, currentLanding h = some c ∧ r.id ≤ c.id) ∧
    ((∀ r ∈ h.rows, Written r) →
      ∀ r, (landing h).live = some r → ∃ c, currentLanding h = some c ∧ r.id ≤ c.id) :=
  ⟨fun _ => live_eq_some, superseded_isSome, fun _ hlive hforward => currentLanding_of_live hlive hforward,
    fun hwritten r hlive =>
      have hgraft := (live_eq_some.mp hlive).1
      currentLanding_of_live hlive ((hwritten r hgraft.1).forward hgraft.2.1)⟩

/-- A landing that itself moves back is live by the one reading, and speaks for nothing by the other. -/
theorem backward_landing : ∃ (h : History) (r : TransitionRow),
    (landing h).live = some r ∧ currentLanding h = none := by
  refine ⟨⟨[⟨1, [], "land", some "done", "open", { onto := some "main".toList }⟩], by simp⟩,
    ⟨1, [], "land", some "done", "open", { onto := some "main".toList }⟩, by decide, by decide⟩

end Jkb.Landings
