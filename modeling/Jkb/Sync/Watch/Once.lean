import Jkb.Sync.Watch

/-!
# Jkb.Sync.Watch.Once

No watcher is lost, and each is joined once; whether a mount is ever watched twice depends on what its
stopped watchers do. A slot knows the watcher it holds, but a watcher in `retiring` is no longer under its
path, so a mount that is listed again is armed whether or not its old watcher has exited.
-/

namespace Jkb.Sync.Watch

open Run

variable {base : Nat}

/-! ## Threads -/

/-- A thread's path, which nothing changes. -/
def State.pathOf (s : State) (h : Nat) : Option String := (s.threads[h]?).map (·.path)

def State.stopped (s : State) (h : Nat) : Bool := (s.threads[h]?).any (·.stopped)

/-- A watcher of `path` that was armed and has not exited. -/
def State.Live (s : State) (path : String) (h : Nat) : Prop :=
  s.pathOf h = some path ∧ s.finished h = false

/-- The same threads, but for what was stopped. -/
structure Stopping (s s' : State) : Prop where
  length : s'.threads.length = s.threads.length
  pathOf : ∀ h, s'.pathOf h = s.pathOf h
  finished : ∀ h, s'.finished h = s.finished h
  stopped : ∀ h, s.stopped h = true → s'.stopped h = true

/-- To stop a watcher changes nothing but that it is stopped. -/
theorem stopping_stop (s : State) (h : Nat) : Stopping s (s.stop h) := by
  refine ⟨List.length_modify _ _ _, fun k => ?_, fun k => ?_, fun k => ?_⟩ <;>
    simp only [State.pathOf, State.finished, State.stopped, State.stop, List.getElem?_modify] <;>
    cases s.threads[k]? <;> by_cases hk : h = k <;> simp [hk]

/-- Watchers are stopped one after another. -/
theorem Stopping.trans {a b c : State} (hab : Stopping a b) (hbc : Stopping b c) : Stopping a c :=
  ⟨hbc.length.trans hab.length, fun h => (hbc.pathOf h).trans (hab.pathOf h),
    fun h => (hbc.finished h).trans (hab.finished h), fun h hs => hbc.stopped h (hab.stopped h hs)⟩

/-- A watcher that is told to stop is stopped. -/
theorem stopped_stop {s : State} {h : Nat} (hh : h < s.threads.length) : (s.stop h).stopped h = true := by
  simp only [State.stopped, State.stop, List.getElem?_modify, List.getElem?_eq_getElem hh]
  simp

/-- Stopping several changes nothing but their threads. -/
theorem foldl_stop (hs : List Nat) (s : State) :
    ∃ threads, hs.foldl State.stop s = { s with threads } ∧ Stopping s { s with threads } ∧
      ∀ h ∈ hs, h < s.threads.length → ({ s with threads } : State).stopped h = true := by
  induction hs generalizing s with
  | nil => exact ⟨s.threads, rfl, ⟨rfl, fun _ => rfl, fun _ => rfl, fun _ h => h⟩, by simp⟩
  | cons h hs ih =>
      obtain ⟨threads, hfold, hstop, hall⟩ := ih (s.stop h)
      refine ⟨threads, hfold, (stopping_stop s h).trans hstop, fun k hk hlt => ?_⟩
      rcases List.mem_cons.mp hk with rfl | hk
      · exact hstop.stopped k (stopped_stop hlt)
      · exact hall k hk (by rwa [(stopping_stop s h).length])

/-- Many watchers are joined one after another. -/
theorem foldl_join (hs : List Nat) (s : State) :
    hs.foldl State.join s = { s with joined := s.joined ++ hs } := by
  induction hs generalizing s with
  | nil => simp
  | cons h hs ih => rw [List.foldl_cons, ih]; simp [State.join]

/-- A collection joins the retiring watchers that have finished. -/
theorem collect_eq (s : State) : collect s = { s with
    retiring := s.retiring.filter fun h => !s.finished h
    joined := s.joined ++ s.retiring.filter s.finished } := by
  unfold collect
  rw [List.partition_eq_filter_filter]
  exact foldl_join _ _

/-- An exit finishes its watcher, and changes nothing else. -/
theorem exit_spec (s : State) (h : Nat) :
    (s.exit h).threads.length = s.threads.length ∧ (∀ k, (s.exit h).pathOf k = s.pathOf k) ∧
      (∀ k, s.finished k = true → (s.exit h).finished k = true) ∧
      (∀ k, (s.exit h).stopped k = s.stopped k) ∧
      (h < s.threads.length → (s.exit h).finished h = true) := by
  have heach : ∀ k, (s.exit h).pathOf k = s.pathOf k ∧
      (s.finished k = true → (s.exit h).finished k = true) ∧
      (s.exit h).stopped k = s.stopped k := by
    intro k
    simp only [State.pathOf, State.finished, State.stopped, State.exit, List.getElem?_modify]
    cases s.threads[k]? <;> by_cases hk : h = k <;> simp [hk]
  refine ⟨List.length_modify _ _ _, fun k => (heach k).1, fun k => (heach k).2.1,
    fun k => (heach k).2.2, fun hh => ?_⟩
  simp only [State.finished, State.exit, List.getElem?_modify, List.getElem?_eq_getElem hh]
  simp

/-- The state once a watcher of `path` is armed, with the slots as they are then. -/
def State.armed (s : State) (path : String) (slots : Table fun e : Slot => e.path) : State :=
  { s with slots, threads := s.threads ++ [⟨path, false, false⟩] }

/-- Arming leaves the other threads as they were, and adds one that has not exited. -/
theorem armed_spec (s : State) (path : String) (slots : Table fun e : Slot => e.path) :
    (∀ k < s.threads.length, (s.armed path slots).pathOf k = s.pathOf k ∧
      (s.armed path slots).finished k = s.finished k ∧
      (s.armed path slots).stopped k = s.stopped k) ∧
      (s.armed path slots).Live path s.threads.length := by
  refine ⟨fun k hk => ?_, ?_, ?_⟩
  · simp only [State.pathOf, State.finished, State.stopped, State.armed, List.getElem?_append_left hk,
      and_self]
  · simp [State.pathOf, State.armed]
  · simp [State.finished, State.armed]

/-- Only a watcher that has been armed has a path. -/
theorem lt_of_pathOf {s : State} {h : Nat} {path : String} (hp : s.pathOf h = some path) :
    h < s.threads.length := by
  rw [State.pathOf, Option.map_eq_some_iff] at hp
  obtain ⟨t, ht, -⟩ := hp
  exact (List.getElem?_eq_some_iff.mp ht).1

/-! ## Slots -/

/-- The watchers in slots. -/
def runs (t : Table fun e : Slot => e.path) : List Nat := t.rows.filterMap (·.running)

/-- The watchers of the slots are those of one path and of the others. -/
theorem runs_perm (t : Table fun e : Slot => e.path) (path : String) :
    (runs t).Perm (((t.find? path).bind (·.running)).toList ++
      runs (t.deleteWhere fun e => e.path = path)) := by
  cases hfind : t.find? path with
  | none => rw [Table.deleteWhere_of_find?_eq_none hfind]; exact .refl _
  | some e =>
      have hperm := Table.perm_cons_deleteWhere (Table.mem_of_find? hfind)
      rw [Table.key_of_find? hfind] at hperm
      refine (hperm.filterMap _).trans ?_
      cases hrun : e.running <;> simp [hrun, runs]

/-- The watchers of the slots after one slot has been put there. -/
theorem runs_put (t : Table fun e : Slot => e.path) (e : Slot) :
    (runs (t.put e)).Perm (e.running.toList ++ runs (t.deleteWhere fun x => x.path = e.path)) := by
  refine ((Table.perm_put t e).filterMap _).trans ?_
  cases hrun : e.running <;> simp [hrun, runs]

/-- A path has a slot of its own. -/
theorem slot_path (s : State) (path : String) (now : Nat) : (s.slot base path now).path = path := by
  unfold State.slot
  cases hfind : s.slots.find? path with
  | none => rfl
  | some e => exact Table.key_of_find? hfind

/-- A slot that is new has no watcher. -/
theorem slot_running (base : Nat) (s : State) (path : String) (now : Nat) :
    (s.slot base path now).running = (s.slots.find? path).bind (·.running) := by
  unfold State.slot
  cases s.slots.find? path <;> rfl

/-- What a tick does for one mount, by what it finds in the mount's slot. -/
theorem visit_cases (base now : Nat) (path : String) (s : State) :
    (∃ h e, (s.slot base path now).running = some h ∧ s.finished h = true ∧ e.path = path ∧
        e.running = none ∧ e.retryAt = now + (s.slot base path now).backoff ∧
        visit base now path s = { s with slots := s.slots.put e, joined := s.joined ++ [h] }) ∨
    (∃ h e, (s.slot base path now).running = some h ∧ s.finished h = false ∧ e.path = path ∧
        e.running = some h ∧ visit base now path s = { s with slots := s.slots.put e }) ∨
    (∃ e, (s.slot base path now).running = none ∧ (s.slot base path now).retryAt ≤ now ∧
        e.path = path ∧ e.running = some s.threads.length ∧
        visit base now path s = s.armed path (s.slots.put e)) ∨
    ((s.slot base path now).running = none ∧ now < (s.slot base path now).retryAt ∧
        visit base now path s = { s with slots := s.slots.put (s.slot base path now) }) := by
  have hpath : (s.slot base path now).path = path := slot_path s path now
  unfold visit
  cases hrun : (s.slot base path now).running with
  | some h =>
      cases hf : s.finished h with
      | true =>
          refine Or.inl ⟨h, { s.slot base path now with
            running := none
            retryAt := now + (s.slot base path now).backoff
            backoff := min ((s.slot base path now).backoff * 2) maxRetry },
            rfl, hf, hpath, rfl, rfl, ?_⟩
          simp only [hrun, hf]
          rfl
      | false =>
          refine Or.inr (Or.inl ⟨h, { s.slot base path now with
            backoff := if base ≤ now - (s.slot base path now).armedAt then base
              else (s.slot base path now).backoff }, rfl, hf, hpath, hrun, ?_⟩)
          simp only [hrun, hf]
          rfl
  | none =>
      by_cases hdue : (s.slot base path now).retryAt ≤ now
      · refine Or.inr (Or.inr (Or.inl ⟨{ s.slot base path now with
          armedAt := now, running := some s.threads.length }, rfl, hdue, hpath, rfl, ?_⟩))
        simp only [hrun, hdue, if_true]
        rfl
      · refine Or.inr (Or.inr (Or.inr ⟨rfl, Nat.lt_of_not_le hdue, ?_⟩))
        simp only [hrun, hdue, if_false]

/-! ## Every watcher is held once -/

/-- **No watcher leaks**: every watcher that was armed is in one slot, its own mount's, or in `retiring`,
where it was told to stop, until it exits and is joined; and in one of these places only, once. -/
structure Held (s : State) : Prop where
  once : (s.held ++ s.joined).Perm (List.range s.threads.length)
  own : ∀ path h, (s.slots.find? path).bind (·.running) = some h → s.pathOf h = some path
  stopped : ∀ h ∈ s.retiring, s.stopped h = true
  exited : ∀ h ∈ s.joined, s.finished h = true

/-- The supervisor starts with no watcher. -/
theorem held_start : Held State.start :=
  ⟨.refl _, fun path h hrun => by contradiction, fun h hh => absurd hh List.not_mem_nil,
    fun h hh => absurd hh List.not_mem_nil⟩

/-- What is held has been armed. -/
theorem Held.lt {s : State} (hs : Held s) {h : Nat} (hh : h ∈ s.held) : h < s.threads.length :=
  List.mem_range.mp (hs.once.mem_iff.mp (List.mem_append_left _ hh))

/-- An exit leaks no watcher. -/
theorem Held.exit {s : State} (hs : Held s) (h : Nat) : Held (s.exit h) := by
  obtain ⟨hlength, hpath, hfinished, hstopped, -⟩ := exit_spec s h
  refine ⟨?_, fun path k hrun => ?_, fun k hk => ?_, fun k hk => ?_⟩
  · rw [hlength]
    exact hs.once
  · rw [hpath]
    exact hs.own path k hrun
  · rw [hstopped]
    exact hs.stopped k hk
  · exact hfinished k (hs.exited k hk)

/-- What is set aside: the slots not listed, with their watchers stopped and in `retiring`. -/
theorem retire_eq (mounts : List String) (s : State) :
    ∃ threads, Stopping s { s with threads } ∧
      (∀ h ∈ runs (s.slots.deleteWhere fun e => e.path ∈ mounts), h < s.threads.length →
        ({ s with threads } : State).stopped h = true) ∧
      retire mounts s = { s with
        slots := s.slots.deleteWhere fun e => e.path ∉ mounts
        retiring := s.retiring ++ runs (s.slots.deleteWhere fun e => e.path ∈ mounts)
        threads } := by
  have hgone : (s.slots.rows.filter fun e => e.path ∉ mounts).filterMap (·.running) =
      runs (s.slots.deleteWhere fun e => e.path ∈ mounts) := by
    simp [runs, Table.deleteWhere]
  obtain ⟨threads, hfold, hstop, hall⟩ := foldl_stop (runs (s.slots.deleteWhere fun e => e.path ∈ mounts)) s
  refine ⟨threads, hstop, hall, ?_⟩
  unfold retire
  rw [hgone]
  dsimp only
  rw [hfold]

/-- The watchers of the slots, in two parts. -/
theorem runs_split (t : Table fun e : Slot => e.path) (p : Slot → Bool) :
    (runs t).Perm (runs (t.deleteWhere fun e => !p e) ++ runs (t.deleteWhere p)) := by
  have hperm := (List.filter_append_perm p t.rows).symm.filterMap (·.running)
  rw [List.filterMap_append] at hperm
  simpa [runs, Table.deleteWhere] using hperm

/-- Nor does a slot that is given up, whose watcher is told to stop. -/
theorem Held.retire {s : State} (hs : Held s) (mounts : List String) : Held (retire mounts s) := by
  obtain ⟨threads, hstop, hgone, heq⟩ := retire_eq mounts s
  rw [heq]
  have hsplit := runs_split s.slots fun e => decide (e.path ∈ mounts)
  simp only [← decide_not] at hsplit
  refine ⟨?_, fun path h hrun => ?_, fun h hh => ?_, fun h hh => ?_⟩
  · have hheld : (runs (s.slots.deleteWhere fun e => e.path ∉ mounts) ++
        (s.retiring ++ runs (s.slots.deleteWhere fun e => e.path ∈ mounts))).Perm s.held := by
      refine (List.perm_append_comm.append_left _).trans ?_
      rw [← List.append_assoc]
      exact hsplit.symm.append_right _
    have hrange : List.range threads.length = List.range s.threads.length := congrArg _ hstop.length
    show ((runs _ ++ (s.retiring ++ _)) ++ s.joined).Perm (List.range threads.length)
    rw [hrange]
    exact (hheld.append_right _).trans hs.once
  · refine (hstop.pathOf h).trans (hs.own path h ?_)
    obtain ⟨e, he, hrun⟩ := Option.bind_eq_some_iff.mp hrun
    rw [Table.find?_deleteWhere, Option.filter_eq_some_iff] at he
    rw [he.1, Option.bind_some, hrun]
  · rcases List.mem_append.mp hh with hh | hh
    · exact hstop.stopped h (hs.stopped h hh)
    · refine hgone h hh (hs.lt (List.mem_append_left _ ?_))
      exact hsplit.mem_iff.mpr (List.mem_append_right _ hh)
  · exact (hstop.finished h).trans (hs.exited h hh)

/-- Nor does a collection, which holds on to those that have not finished. -/
theorem Held.collect {s : State} (hs : Held s) : Held (collect s) := by
  rw [collect_eq]
  refine ⟨?_, hs.own, fun h hh => hs.stopped h (List.mem_filter.mp hh).1, fun h hh => ?_⟩
  · have hparts := List.filter_append_perm s.finished s.retiring
    refine List.Perm.trans (List.perm_iff_count.mpr fun h => ?_) hs.once
    have hcount := hparts.count_eq h
    simp only [State.held, List.count_append] at hcount ⊢
    omega
  · rcases List.mem_append.mp hh with hh | hh
    · exact hs.exited h hh
    · exact (List.mem_filter.mp hh).2

/-- A slot put in its mount's place. -/
theorem own_put {s s' : State} (hs : Held s) {e : Slot} {path : String} (he : e.path = path)
    (hpath : ∀ h, s.pathOf h ≠ none → s'.pathOf h = s.pathOf h)
    (hrun : ∀ h, e.running = some h → s'.pathOf h = some path) (hslots : s'.slots = s.slots.put e) :
    ∀ p h, (s'.slots.find? p).bind (·.running) = some h → s'.pathOf h = some p := by
  intro p h hh
  rw [hslots, Table.find?_put, he] at hh
  split at hh
  · next hp =>
      rw [← hp]
      exact hrun h hh
  · have hown := hs.own p h hh
    rw [hpath h (by rw [hown]; exact Option.some_ne_none p), hown]

/-- Nor does a visit to a mount, which holds what it arms. -/
theorem Held.visit {s : State} (hs : Held s) (base now : Nat) (path : String) :
    Held (visit base now path s) := by
  have hruns := runs_perm s.slots path
  rw [← slot_running base s path now] at hruns
  have hput : ∀ e : Slot, e.path = path → (runs (s.slots.put e)).Perm
      (e.running.toList ++ runs (s.slots.deleteWhere fun x => x.path = path)) := by
    rintro e rfl
    exact runs_put s.slots e
  have hkept : ∀ e : Slot, e.path = path → (∀ h, e.running = some h → s.pathOf h = some path) →
      ∀ s' : State, s'.slots = s.slots.put e → s'.threads = s.threads →
      ∀ p h, (s'.slots.find? p).bind (·.running) = some h → s'.pathOf h = some p := by
    intro e he hrun s' hslots hthreads
    have hsame : ∀ h, s'.pathOf h = s.pathOf h := fun h => by rw [State.pathOf, hthreads]; rfl
    exact own_put hs he (fun h _ => hsame h) (fun h hh => (hsame h).trans (hrun h hh)) hslots
  have hown : ∀ h, (s.slot base path now).running = some h → s.pathOf h = some path := fun h hh =>
    hs.own path h (by rw [← hh, slot_running])
  rcases visit_cases base now path s with ⟨h, e, hrun, hf, he, her, -, heq⟩ |
    ⟨h, e, hrun, hf, he, her, heq⟩ | ⟨e, hrun, hdue, he, her, heq⟩ | ⟨hrun, hdue, heq⟩
  · rw [heq]
    refine ⟨?_, hkept e he (fun k hk => by rw [her] at hk; contradiction) _ rfl rfl, hs.stopped,
      fun k hk => ?_⟩
    · refine List.Perm.trans (List.perm_iff_count.mpr fun k => ?_) hs.once
      have hbefore := hruns.count_eq k
      have hafter := (hput e he).count_eq k
      simp only [hrun, her, Option.toList_some, Option.toList_none, List.count_append, List.nil_append]
        at hbefore hafter
      show ((runs (s.slots.put e) ++ s.retiring) ++ (s.joined ++ [h])).count k =
        ((runs s.slots ++ s.retiring) ++ s.joined).count k
      simp only [List.count_append]
      omega
    · rcases List.mem_append.mp hk with hk | hk
      · exact hs.exited k hk
      · rw [List.mem_singleton.mp hk]
        exact hf
  · rw [heq]
    refine ⟨?_, hkept e he (fun k hk => hown k (by rw [hrun, ← her, hk])) _ rfl rfl, hs.stopped, hs.exited⟩
    have hsame : (runs (s.slots.put e)).Perm (runs s.slots) := by
      have hafter := hput e he
      rw [her, ← hrun] at hafter
      exact hafter.trans hruns.symm
    exact ((hsame.append_right _).append_right _).trans hs.once
  · rw [heq]
    obtain ⟨hothers, hlive, -⟩ := armed_spec s path (s.slots.put e)
    refine ⟨?_, own_put hs he (fun k hk => ?_) (fun k hk => ?_) rfl, fun k hk => ?_, fun k hk => ?_⟩
    · have hlength : (s.armed path (s.slots.put e)).threads.length = s.threads.length + 1 := by
        simp [State.armed]
      rw [hlength, List.range_succ]
      refine List.Perm.trans (List.perm_iff_count.mpr fun k => ?_) (hs.once.append_right _)
      have hbefore := hruns.count_eq k
      have hafter := (hput e he).count_eq k
      simp only [hrun, her, Option.toList_some, Option.toList_none, List.count_append, List.nil_append]
        at hbefore hafter
      show ((runs (s.slots.put e) ++ s.retiring) ++ s.joined).count k =
        (((runs s.slots ++ s.retiring) ++ s.joined) ++ [s.threads.length]).count k
      simp only [List.count_append]
      omega
    · obtain ⟨p, hp⟩ := Option.ne_none_iff_exists'.mp hk
      exact (hothers k (lt_of_pathOf hp)).1
    · rw [her] at hk
      cases hk
      exact hlive
    · rw [(hothers k (hs.lt (List.mem_append_right _ hk))).2.2]
      exact hs.stopped k hk
    · have hlt := List.mem_range.mp (hs.once.mem_iff.mp (List.mem_append_right s.held hk))
      rw [(hothers k hlt).2.1]
      exact hs.exited k hk
  · rw [heq]
    refine ⟨?_, hkept _ (slot_path s path now) hown _ rfl rfl, hs.stopped, hs.exited⟩
    have hsame := (hput _ (slot_path s path now)).trans hruns.symm
    exact ((hsame.append_right _).append_right _).trans hs.once

/-- The mounts left and the time of a tick are not what is held. -/
theorem Held.todo {s : State} (hs : Held s) (todo : List String) (now : Nat) :
    Held { s with todo, now } := ⟨hs.once, hs.own, hs.stopped, hs.exited⟩

/-- No step leaks a watcher. -/
theorem held_next (base : Nat) {s : State} (hs : Held s) (o : Op) : Held (next base s o) := by
  cases o with
  | exit h => exact hs.exit h
  | tick mounts now =>
      simp only [next]
      split
      · exact (hs.retire mounts).collect.todo mounts now
      · exact hs
  | visit =>
      cases htodo : s.todo with
      | nil => simpa only [next, htodo] using hs
      | cons path rest =>
          simp only [next, htodo]
          exact (hs.visit base s.now path).todo rest _

/-! ## Watching a mount twice -/

/-- **One writer per mount**: of the watchers of one path at most one has not exited. -/
def AtMostOne (s : State) : Prop := ∀ path h k, s.Live path h → s.Live path k → h = k

/-- A mount that is armed has no stopped watcher left running: where the tick comes to a mount without a
running watcher that is due one, every retiring watcher of the mount has exited. -/
def Awaits (base : Nat) (s : State) : Op → Prop
  | .visit => ∀ path ∈ s.todo.head?, (s.slot base path s.now).running = none →
      (s.slot base path s.now).retryAt ≤ s.now → ∀ h ∈ s.retiring, ¬ s.Live path h
  | _ => True

/-- An unfinished watcher of a mount whose slot is empty is a retiring one. -/
theorem Held.mem_retiring {s : State} (hs : Held s) {path : String} {h : Nat} {now : Nat}
    (hlive : s.Live path h) (hrun : (s.slot base path now).running = none) : h ∈ s.retiring := by
  obtain ⟨hpath, hf⟩ := hlive
  rcases List.mem_append.mp (hs.once.mem_iff.mpr (List.mem_range.mpr (lt_of_pathOf hpath))) with hh | hh
  · rcases List.mem_append.mp hh with hh | hh
    · -- a slot holds its own mount's watcher, and this mount's is empty
      obtain ⟨e, he, herun⟩ := List.mem_filterMap.mp hh
      have hfind := Table.find?_of_mem he
      have hown := hs.own e.path h (by rw [hfind]; exact herun)
      rw [hpath] at hown
      cases hown
      rw [slot_running, hfind, Option.bind_some, herun] at hrun
      contradiction
    · exact hh
  · rw [hs.exited h hh] at hf
    contradiction

/-- Where no watcher is armed, none comes to be unfinished. -/
theorem AtMostOne.of_live {s s' : State} (hs : AtMostOne s)
    (h : ∀ path k, s'.Live path k → s.Live path k) : AtMostOne s' := fun path k l hk hl =>
  hs path k l (h path k hk) (h path l hl)

/-- An exit brings no watcher back to life. -/
theorem live_exit {s : State} {h k : Nat} {path : String} (hlive : (s.exit h).Live path k) :
    s.Live path k := by
  obtain ⟨-, hpath, hfinished, -, -⟩ := exit_spec s h
  refine ⟨(hpath k).symm.trans hlive.1, ?_⟩
  cases hf : s.finished k with
  | false => rfl
  | true =>
      rw [State.Live, hfinished k hf] at hlive
      exact absurd hlive.2 (by simp)

/-- A retirement changes no live watcher. -/
theorem live_retire {s : State} {mounts : List String} {path : String} {k : Nat} :
    (collect (retire mounts s)).Live path k ↔ s.Live path k := by
  obtain ⟨threads, hstop, -, heq⟩ := retire_eq mounts s
  rw [collect_eq, heq]
  exact and_congr (Eq.congr (hstop.pathOf k) rfl) (Eq.congr (hstop.finished k) rfl)

/-- The live watchers once one has been armed. -/
theorem live_armed {s : State} {path p : String} {slots : Table fun e : Slot => e.path} {k : Nat} :
    (s.armed path slots).Live p k ↔ s.Live p k ∨ p = path ∧ k = s.threads.length := by
  obtain ⟨hothers, hlive⟩ := armed_spec s path slots
  rcases Nat.lt_trichotomy k s.threads.length with hk | rfl | hk
  · rw [State.Live, (hothers k hk).1, (hothers k hk).2.1]
    exact ⟨Or.inl, fun h => h.resolve_right fun h => absurd h.2 (Nat.ne_of_lt hk)⟩
  · constructor
    · intro h
      exact Or.inr ⟨Option.some.inj (h.1.symm.trans hlive.1), rfl⟩
    · rintro (h | ⟨rfl, -⟩)
      · exact absurd (lt_of_pathOf h.1) (Nat.lt_irrefl _)
      · exact hlive
  · have hlt : ¬ k < s.threads.length + 1 := by omega
    constructor
    · intro h
      have := lt_of_pathOf h.1
      simp only [State.armed, List.length_append, List.length_singleton] at this
      omega
    · rintro (h | ⟨-, rfl⟩)
      · exact absurd (lt_of_pathOf h.1) (by omega)
      · exact absurd hk (Nat.lt_irrefl _)

/-- **One step.** From a state in which no mount is watched twice, one is watched twice after a step only
if the step arms it beside a retiring watcher that has not exited. -/
theorem atMostOne_next {s : State} (hs : Held s) (hone : AtMostOne s) (o : Op) :
    AtMostOne (next base s o) ↔ Awaits base s o := by
  cases o with
  | exit h => exact iff_of_true (hone.of_live fun path k hk => live_exit hk) trivial
  | tick mounts now =>
      refine iff_of_true ?_ trivial
      simp only [next]
      split
      · exact hone.of_live fun path k hk => live_retire.mp hk
      · exact hone
  | visit =>
      cases htodo : s.todo with
      | nil => exact iff_of_true (by simp only [next, htodo]; exact hone) (by simp [Awaits, htodo])
      | cons path rest =>
          simp only [next, htodo, Awaits, List.head?_cons, Option.mem_some_iff, forall_eq']
          rcases visit_cases base s.now path s with ⟨h, e, hrun, hf, he, her, -, heq⟩ |
            ⟨h, e, hrun, hf, he, her, heq⟩ | ⟨e, hrun, hdue, he, her, heq⟩ | ⟨hrun, hdue, heq⟩
          · rw [heq, hrun]
            exact iff_of_true (hone.of_live fun p k hk => hk) (by simp)
          · rw [heq, hrun]
            exact iff_of_true (hone.of_live fun p k hk => hk) (by simp)
          · rw [heq]
            show AtMostOne (s.armed path (s.slots.put e)) ↔ _
            constructor
            · intro h _ _ k hk hlive
              have hold : (s.armed path (s.slots.put e)).Live path k := live_armed.mpr (Or.inl hlive)
              have hnew : (s.armed path (s.slots.put e)).Live path s.threads.length :=
                live_armed.mpr (Or.inr ⟨rfl, rfl⟩)
              have hsame := h path k s.threads.length hold hnew
              exact absurd (lt_of_pathOf hlive.1) (by omega)
            · intro h p k l hk hl
              have hnew : ∀ k, s.Live path k → False := fun k hk =>
                h hrun hdue k (hs.mem_retiring hk hrun) hk
              rcases live_armed.mp hk with hk | ⟨rfl, rfl⟩ <;> rcases live_armed.mp hl with hl | ⟨hp, rfl⟩
              · exact hone p k l hk hl
              · exact (hnew k (hp ▸ hk)).elim
              · exact (hnew l hl).elim
              · rfl
          · rw [heq]
            exact iff_of_true (hone.of_live fun p k hk => hk) fun _ hdue' => absurd hdue' (by omega)

end Jkb.Sync.Watch
