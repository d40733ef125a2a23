import Jkb.Sync.Watch.Once

/-!
# Jkb.Sync.Watch.Supervise

What the supervisor promises, and when it keeps it. A watcher that exited is armed again by the first tick at
or after its mount's retry time; shutting down stops and joins every watcher there is. These hold of
every state. That no mount is watched twice holds of the runs in which no mount is armed beside a stopped
watcher of its own that is still running.
-/

namespace Jkb.Sync.Watch

open Run

variable {base : Nat}

/-! ## Ticks as runs -/

/-- A fold of steps that leave the tick in progress alone does so too. -/
theorem foldl_within {α : Type*} {f : State → α → State}
    (hf : ∀ s todo t a, f { s with todo, now := t } a = { f s a with todo, now := t })
    (as : List α) (s : State) (todo : List String) (t : Nat) :
    as.foldl f { s with todo, now := t } = { as.foldl f s with todo, now := t } := by
  induction as generalizing s with
  | nil => rfl
  | cons a as ih => rw [List.foldl_cons, List.foldl_cons, hf, ih]

theorem visit_within (base now : Nat) (path : String) (s : State) (todo : List String) (t : Nat) :
    visit base now path { s with todo, now := t } = { visit base now path s with todo, now := t } := by
  have hslot : ({ s with todo, now := t } : State).slot base path now = s.slot base path now := rfl
  unfold visit
  rw [hslot]
  dsimp only
  split
  · rename_i k hk
    have hfinished : ({ s with todo, now := t } : State).finished k = s.finished k := rfl
    rw [hfinished]
    split <;> rfl
  · split <;> rfl

/-- A tick reads nothing of the tick before it. -/
theorem tick_within (base : Nat) (mounts : List String) (now : Nat) (s : State) (todo : List String) (t : Nat) :
    tick base mounts now { s with todo, now := t } = { tick base mounts now s with todo, now := t } := by
  have hretire : retire mounts { s with todo, now := t } = { retire mounts s with todo, now := t } := by
    unfold retire
    dsimp only
    rw [foldl_within fun _ _ _ _ => rfl]
  have hcollect : ∀ s : State, collect { s with todo, now := t } = { collect s with todo, now := t } := by
    intro s
    rw [collect_eq, collect_eq]
    rfl
  rw [tick, hretire, hcollect, foldl_within fun s todo t path => visit_within base now path s todo t, tick]

/-- A tick during which nothing exits, step by step. -/
def tickOps (mounts : List String) (now : Nat) : List Op := .tick mounts now :: List.replicate mounts.length .visit

/-- A tick during which nothing exits: the run that begins it and visits each of its mounts. -/
theorem tick_run {s : State} (htodo : s.todo = []) (mounts : List String) (now : Nat) :
    run (next base) s (tickOps mounts now) = { tick base mounts now s with todo := [], now } := by
  have hvisits : ∀ (mounts : List String) (s : State),
      run (next base) { s with todo := mounts, now } (List.replicate mounts.length .visit) =
        { mounts.foldl (fun s path => visit base now path s) s with todo := [], now } := by
    intro mounts
    induction mounts with
    | nil => exact fun s => rfl
    | cons path mounts ih =>
        intro s
        rw [List.length_cons, List.replicate_succ, run_cons, List.foldl_cons, ← ih]
        simp only [next, visit_within]
  rw [tickOps, run_cons]
  simp only [next, if_pos htodo, hvisits, tick]

/-- The mounts and the count of ticks after a turn. -/
def relist (mounts : List String) (ticks : Nat) (t : Turn) : List String × Nat :=
  let ticks := (ticks + 1) % 2 ^ 32
  (if ticks % mountScanTicks = 0 then t.listing.getD mounts else mounts, ticks)

/-- The loop of `watch_all`, step by step. -/
def turnOps (mounts : List String) (ticks : Nat) : List Turn → List Op
  | [] => []
  | t :: turns =>
      let (mounts, ticks) := relist mounts ticks t
      t.exits.map .exit ++ tickOps mounts t.now ++ turnOps mounts ticks turns

/-- The turns of the loop are the run of their steps, each tick's time apart. -/
theorem turns_run (turns : List Turn) {s s' : State} {t : Nat} (hs : s' = { s with todo := [], now := t })
    (mounts : List String) (ticks : Nat) :
    ∃ t', run (next base) s' (turnOps mounts ticks turns) =
      { (turns.foldl (turn base) (s, mounts, ticks)).1 with todo := [], now := t' } := by
  induction turns generalizing s s' t mounts ticks with
  | nil => exact ⟨t, hs⟩
  | cons u turns ih =>
      have hexits : run (next base) s' (u.exits.map .exit) =
          { u.exits.foldl State.exit s with todo := [], now := t } := by
        rw [hs, run, List.foldl_map]
        exact foldl_within (fun _ _ _ _ => rfl) u.exits s [] t
      rw [turnOps, run_append, run_append, hexits, tick_run rfl, tick_within, List.foldl_cons]
      exact ih (s := tick base (relist mounts ticks u).1 u.now (u.exits.foldl State.exit s)) rfl _ _

/-! ## Shutting down -/

theorem foldl_exit_join (hs : List Nat) (s : State) :
    ∃ threads, hs.foldl (fun s h => (s.exit h).join h) s =
        { s with threads, joined := s.joined ++ hs } ∧ threads.length = s.threads.length ∧
      ∀ h, s.stopped h = true → ({ s with threads } : State).stopped h = true := by
  induction hs generalizing s with
  | nil => exact ⟨s.threads, by simp, rfl, fun _ h => h⟩
  | cons h hs ih =>
      obtain ⟨hlength, -, -, hstopped, -⟩ := exit_spec s h
      obtain ⟨threads, hfold, hlen, hstop⟩ := ih ((s.exit h).join h)
      refine ⟨threads, ?_, hlen.trans hlength, fun k hk => hstop k ((hstopped k).trans hk)⟩
      rw [List.foldl_cons, hfold]
      simp [State.join, State.exit]

/-- **Shutting down leaves no watcher**: each that was held is stopped, none is held any more, and every
watcher ever armed has been joined, once. -/
structure ShutsDown (s : State) : Prop where
  stopped : ∀ h ∈ s.held, (shutdown s).stopped h = true
  held : (shutdown s).held = []
  joined : (shutdown s).joined.Perm (List.range s.threads.length)

theorem Held.shutsDown {s : State} (hs : Held s) : ShutsDown s := by
  obtain ⟨stopping, hstop, hstopping, hall⟩ :=
    foldl_stop s.held { s with slots := Table.empty, retiring := [] }
  obtain ⟨threads, hjoin, -, hkept⟩ := foldl_exit_join s.held
    { s with slots := Table.empty, retiring := [], threads := stopping }
  have hdown : shutdown s = { s with
      slots := Table.empty, retiring := [], threads, joined := s.joined ++ s.held } := by
    unfold shutdown
    dsimp only
    rw [hstop]
    exact hjoin
  refine ⟨fun h hh => ?_, ?_, ?_⟩
  · rw [hdown]
    exact hkept h (hall h hh (hs.lt hh))
  · rw [hdown]
    rfl
  · rw [hdown]
    exact List.perm_append_comm.trans hs.once

/-- The steps of `watch_all` until it is told to stop. -/
def watchOps (mounts : List String) (now : Nat) (turns : List Turn) : List Op :=
  tickOps mounts now ++ turnOps mounts 0 turns

/-- **However long the daemon runs, what it armed it has joined when it returns.** What `watch_all` shuts down is the
state that the steps of its loop lead to, but for the time of the last tick, so what holds of every run holds of it; and
it leaves no watcher. -/
theorem watchAll_run (base : Nat) (mounts : List String) (now : Nat) (turns : List Turn) :
    (∃ t, { watchAll base mounts now turns with todo := [], now := t } =
        shutdown (run (next base) State.start (watchOps mounts now turns))) ∧
      ShutsDown (run (next base) State.start (watchOps mounts now turns)) := by
  have hfirst : run (next base) State.start (tickOps mounts now) = _ := tick_run rfl mounts now
  obtain ⟨t, hrun⟩ := turns_run turns hfirst mounts 0
  have hheld : Held (run (next base) State.start (watchOps mounts now turns)) :=
    @run_invariant _ _ _ Held (fun s o hs => held_next base hs o) _ held_start _
  refine ⟨⟨t, ?_⟩, hheld.shutsDown⟩
  rw [watchOps, run_append, hrun]
  have hstop : ∀ (hs : List Nat) (s : State), hs.foldl State.stop { s with todo := [], now := t } = _ :=
    fun hs s => foldl_within (fun _ _ _ _ => rfl) hs s [] t
  have hjoin := fun (hs : List Nat) (s : State) =>
    foldl_within (f := fun s h => (s.exit h).join h) (fun _ _ _ _ => rfl) hs s [] t
  rw [watchAll]
  unfold shutdown
  dsimp only
  rw [← hjoin, ← hstop]
  rfl

/-! ## Arming again -/

/-- How many watchers of a mount were armed so far. -/
def State.arms (s : State) (path : String) : Nat := (s.threads.map (·.path)).count path

theorem arms_of_pathOf {s s' : State} (h : ∀ k, s'.pathOf k = s.pathOf k) (path : String) :
    s'.arms path = s.arms path := by
  have hpaths : s'.threads.map (·.path) = s.threads.map (·.path) := by
    refine List.ext_getElem? fun k => ?_
    rw [List.getElem?_map, List.getElem?_map]
    exact h k
  rw [State.arms, hpaths, State.arms]

theorem arms_armed (s : State) (path p : String) (slots : Table fun e : Slot => e.path) :
    (s.armed path slots).arms p = s.arms p + if path = p then 1 else 0 := by
  simp only [State.arms, State.armed, List.map_append, List.count_append, List.map_cons, List.map_nil,
    List.count_singleton, beq_iff_eq]

/-- A visit of another mount leaves a mount's slot and its watchers. -/
theorem visit_other (s : State) (base now : Nat) {path p : String} (h : path ≠ p) :
    (visit base now path s).slots.find? p = s.slots.find? p ∧ (visit base now path s).arms p = s.arms p := by
  have hput : ∀ e : Slot, e.path = path → (s.slots.put e).find? p = s.slots.find? p := by
    rintro e rfl
    rw [Table.find?_put, if_neg h]
  rcases visit_cases base now path s with ⟨k, e, -, -, he, -, -, heq⟩ | ⟨k, e, -, -, he, -, heq⟩ |
    ⟨e, -, -, he, -, heq⟩ | ⟨-, -, heq⟩
  · rw [heq]
    exact ⟨hput e he, rfl⟩
  · rw [heq]
    exact ⟨hput e he, rfl⟩
  · rw [heq, arms_armed, if_neg h]
    exact ⟨hput e he, rfl⟩
  · rw [heq]
    exact ⟨hput _ (slot_path s path now), rfl⟩

/-- A mount that waits for its retry time: its slot has no watcher, and it is not due. -/
theorem next_waits (base : Nat) {s : State} {path : String} {e : Slot}
    (he : s.slots.find? path = some e) (hrun : e.running = none) (o : Op)
    (htick : ∀ mounts now, o = .tick mounts now → path ∈ mounts)
    (hvisit : o = .visit → s.todo.head? = some path → s.now < e.retryAt) :
    (next base s o).slots.find? path = some e ∧ (next base s o).arms path = s.arms path := by
  cases o with
  | exit h => exact ⟨he, arms_of_pathOf (exit_spec s h).2.1 path⟩
  | tick mounts now =>
      simp only [next]
      split
      · obtain ⟨threads, hstop, -, heq⟩ := retire_eq mounts s
        rw [collect_eq, heq]
        refine ⟨?_, arms_of_pathOf hstop.pathOf path⟩
        have hlisted : e.path ∈ mounts := by
          rw [Table.key_of_find? he]
          exact htick mounts now rfl
        show (s.slots.deleteWhere _).find? path = some e
        rw [Table.find?_deleteWhere, he, Option.filter_some_pos (by simpa using hlisted)]
      · exact ⟨he, rfl⟩
  | visit =>
      cases htodo : s.todo with
      | nil => simpa only [next, htodo, and_true] using he
      | cons p rest =>
          simp only [next, htodo]
          by_cases hp : p = path
          · subst hp
            have hslot : s.slot base p s.now = e := by rw [State.slot, he]; rfl
            have hwait := hvisit rfl (by rw [htodo]; rfl)
            rcases visit_cases base s.now p s with ⟨k, x, hx, -⟩ | ⟨k, x, hx, -⟩ | ⟨x, -, hdue, -⟩ |
              ⟨-, -, heq⟩
            · rw [hslot, hrun] at hx
              contradiction
            · rw [hslot, hrun] at hx
              contradiction
            · rw [hslot] at hdue
              omega
            · rw [heq, hslot]
              refine ⟨?_, rfl⟩
              show (s.slots.put e).find? p = some e
              rw [Table.find?_put, if_pos (Table.key_of_find? he)]
          · have hother := visit_other s base s.now hp
            rw [he] at hother
            exact hother

/-- A visit of a mount that is due arms it. -/
theorem next_due (base : Nat) {s : State} {path : String} {rest : List String} {e : Slot}
    (he : s.slots.find? path = some e) (hrun : e.running = none) (htodo : s.todo = path :: rest)
    (hdue : e.retryAt ≤ s.now) : (next base s .visit).arms path = s.arms path + 1 := by
  have hslot : s.slot base path s.now = e := by rw [State.slot, he]; rfl
  simp only [next, htodo]
  rcases visit_cases base s.now path s with ⟨k, x, hx, -⟩ | ⟨k, x, hx, -⟩ | ⟨x, -, -, -, -, heq⟩ |
    ⟨-, hwait, -⟩
  · rw [hslot, hrun] at hx
    contradiction
  · rw [hslot, hrun] at hx
    contradiction
  · rw [heq]
    have harms := arms_armed s path path (s.slots.put x)
    rw [if_pos rfl] at harms
    exact harms
  · rw [hslot] at hwait
    omega

theorem arms_le_next (s : State) (o : Op) (path : String) : s.arms path ≤ (next base s o).arms path := by
  cases o with
  | exit h => exact Nat.le_of_eq (arms_of_pathOf (exit_spec s h).2.1 path).symm
  | tick mounts now =>
      simp only [next]
      split
      · obtain ⟨threads, hstop, -, heq⟩ := retire_eq mounts s
        rw [collect_eq, heq]
        exact Nat.le_of_eq (arms_of_pathOf hstop.pathOf path).symm
      · exact Nat.le_refl _
  | visit =>
      cases htodo : s.todo with
      | nil => simp only [next, htodo]; exact Nat.le_refl _
      | cons p rest =>
          simp only [next, htodo]
          rcases visit_cases base s.now p s with ⟨k, x, -, -, -, -, -, heq⟩ | ⟨k, x, -, -, -, -, heq⟩ |
            ⟨x, -, -, -, -, heq⟩ | ⟨-, -, heq⟩
          · rw [heq]; exact Nat.le_refl _
          · rw [heq]; exact Nat.le_refl _
          · rw [heq]
            have harms := arms_armed s p path (s.slots.put x)
            exact Nat.le_trans (Nat.le_add_right _ _) (Nat.le_of_eq harms.symm)
          · rw [heq]; exact Nat.le_refl _

theorem visit_now (base now : Nat) (path : String) (s : State) : (visit base now path s).now = s.now := by
  rcases visit_cases base now path s with ⟨k, x, -, -, -, -, -, heq⟩ | ⟨k, x, -, -, -, -, heq⟩ |
    ⟨x, -, -, -, -, heq⟩ | ⟨-, -, heq⟩
  · rw [heq]
  · rw [heq]
  · rw [heq, State.armed]
  · rw [heq]

/-- The tick in progress: a step begins one where none is, or takes its first mount. -/
theorem next_todo (base : Nat) (s : State) (o : Op) :
    ((next base s o).todo = s.todo ∨ (next base s o).todo = s.todo.tail) ∧ (next base s o).now = s.now ∨
      s.todo = [] ∧ ∃ mounts now, o = .tick mounts now ∧ (next base s o).todo = mounts ∧
        (next base s o).now = now := by
  cases o with
  | exit h => exact Or.inl ⟨Or.inl rfl, rfl⟩
  | tick mounts now =>
      by_cases htodo : s.todo = []
      · exact Or.inr ⟨htodo, mounts, now, rfl, by simp [next, htodo], by simp [next, htodo]⟩
      · exact Or.inl ⟨Or.inl (by simp [next, htodo]), by simp [next, htodo]⟩
  | visit =>
      cases htodo : s.todo with
      | nil => exact Or.inl ⟨Or.inl (by simp [next, htodo]), by simp [next, htodo]⟩
      | cons p rest =>
          refine Or.inl ⟨Or.inr (by simp [next, htodo]), ?_⟩
          simp only [next, htodo, visit_now]

/-- While no tick comes at or after its retry time, a listed mount waits. -/
theorem run_waits (base : Nat) {s : State} {path : String} {e : Slot}
    (he : s.slots.find? path = some e) (hrun : e.running = none) (hnow : path ∉ s.todo ∨ s.now < e.retryAt)
    {ops : List Op} (hops : ∀ mounts now, .tick mounts now ∈ ops → path ∈ mounts ∧ now < e.retryAt) :
    (run (next base) s ops).slots.find? path = some e ∧
      (run (next base) s ops).arms path = s.arms path := by
  induction ops generalizing s with
  | nil => exact ⟨he, rfl⟩
  | cons o ops ih =>
      have hstep := next_waits base he hrun o
        (fun mounts now ho => (hops mounts now (by rw [ho]; exact List.mem_cons_self)).1) fun ho hhead => by
          rcases hnow with hnow | hnow
          · exact absurd (List.mem_of_mem_head? hhead) hnow
          · exact hnow
      have hrest := ih hstep.1 ?_ fun mounts now h => hops mounts now (List.mem_cons_of_mem _ h)
      · exact ⟨hrest.1, hrest.2.trans hstep.2⟩
      · rcases next_todo base s o with ⟨htodo, hsame⟩ | ⟨-, mounts, now, ho, htodo, hnext⟩
        · rw [hsame]
          refine hnow.imp_left fun hnotin hin => hnotin ?_
          rcases htodo with htodo | htodo
          · rwa [htodo] at hin
          · rw [htodo] at hin
            exact List.mem_of_mem_tail hin
        · rw [hnext]
          exact Or.inr (hops mounts now (by rw [ho]; exact List.mem_cons_self)).2

theorem arms_le_run (base : Nat) (s : State) (ops : List Op) (path : String) :
    s.arms path ≤ (run (next base) s ops).arms path := by
  induction ops generalizing s with
  | nil => exact Nat.le_refl _
  | cons o ops ih => exact Nat.le_trans (arms_le_next s o path) (ih (next base s o))

/-- A tick that comes to a mount that is due arms it, whatever exits meanwhile. -/
theorem run_due {s : State} {path : String} {e : Slot} (he : s.slots.find? path = some e)
    (hrun : e.running = none) (hdue : e.retryAt ≤ s.now) (htodo : path ∈ s.todo) {ops : List Op}
    (hops : ∀ mounts now, .tick mounts now ∉ ops) (hlen : s.todo.length ≤ ops.count .visit) :
    s.arms path < (run (next base) s ops).arms path := by
  induction ops generalizing s with
  | nil => exact absurd (List.length_pos_of_mem htodo) (by simpa using hlen)
  | cons o ops ih =>
      have hrest : ∀ mounts now, .tick mounts now ∉ ops := fun mounts now h =>
        hops mounts now (List.mem_cons_of_mem _ h)
      cases o with
      | tick mounts now => exact absurd List.mem_cons_self (hops mounts now)
      | exit h =>
          have hstep := next_waits base he hrun (.exit h) (fun _ _ ho => by contradiction)
            (fun ho => by contradiction)
          rw [List.count_cons_of_ne (by simp)] at hlen
          have hmore := ih (s := s.exit h) hstep.1 hdue htodo hrest hlen
          exact Nat.lt_of_le_of_lt (Nat.le_of_eq hstep.2.symm) hmore
      | visit =>
          cases hs : s.todo with
          | nil => rw [hs] at htodo; contradiction
          | cons p rest =>
              by_cases hp : p = path
              · subst hp
                have harmed := next_due base he hrun hs hdue
                have hmono := arms_le_run base (next base s .visit) ops p
                show s.arms p < (run (next base) (next base s .visit) ops).arms p
                omega
              · have hstep := next_waits base he hrun .visit (fun _ _ ho => by contradiction)
                  fun _ hhead => absurd (Option.some.inj (by rw [hs] at hhead; exact hhead)) hp
                have hnow : (next base s .visit).now = s.now := by simp only [next, hs, visit_now]
                have hleft : (next base s .visit).todo = rest := by simp only [next, hs]
                have hin : path ∈ rest := by
                  rw [hs] at htodo
                  exact (List.mem_cons.mp htodo).resolve_left (Ne.symm hp)
                rw [hs, List.count_cons_self, List.length_cons] at hlen
                have hmore := ih hstep.1 (by rwa [hnow]) (by rwa [hleft]) hrest (by rw [hleft]; omega)
                exact Nat.lt_of_le_of_lt (Nat.le_of_eq hstep.2.symm) hmore

/-- **A mount is armed again in time.** A tick that finds a listed mount's watcher exited gives the mount a
retry time. From then on, while it is listed, no tick before that time arms it, and the first one at or after
it does. -/
structure Rearms (base : Nat) (s : State) : Prop where
  scheduled : ∀ path rest e h, s.todo = path :: rest → s.slots.find? path = some e →
    e.running = some h → s.finished h = true → ∃ e', (next base s .visit).slots.find? path = some e' ∧
      e'.running = none ∧ e'.retryAt = s.now + e.backoff ∧ (next base s .visit).arms path = s.arms path
  rearmed : ∀ path e before mounts now after, s.slots.find? path = some e → e.running = none →
    path ∉ s.todo → (∀ ms t, .tick ms t ∈ before → path ∈ ms ∧ t < e.retryAt) →
    (run (next base) s before).todo = [] → path ∈ mounts → e.retryAt ≤ now →
    (∀ ms t, .tick ms t ∉ after) → mounts.length ≤ after.count .visit →
    (run (next base) s before).arms path = s.arms path ∧
      s.arms path < (run (next base) s (before ++ .tick mounts now :: after)).arms path

theorem rearms (base : Nat) (s : State) : Rearms base s := by
  constructor
  · intro path rest e h htodo he hrun hf
    have hslot : s.slot base path s.now = e := by rw [State.slot, he]; rfl
    simp only [next, htodo]
    rcases visit_cases base s.now path s with ⟨k, x, hk, -, hx, hxrun, hretry, heq⟩ |
      ⟨k, x, hk, hkf, -⟩ | ⟨x, hnone, -⟩ | ⟨hnone, -⟩
    · rw [heq]
      rw [hslot] at hretry
      refine ⟨x, ?_, hxrun, hretry, rfl⟩
      show (s.slots.put x).find? path = some x
      rw [Table.find?_put, if_pos hx]
    · rw [hslot, hrun] at hk
      cases hk
      rw [hf] at hkf
      contradiction
    · rw [hslot, hrun] at hnone
      contradiction
    · rw [hslot, hrun] at hnone
      contradiction
  · intro path e before mounts now after he hrun htodo hbefore hidle hlisted hdue hafter hlen
    obtain ⟨hkept, harms⟩ := run_waits base he hrun (Or.inl htodo) hbefore
    refine ⟨harms, ?_⟩
    rw [run_append, run_cons, ← harms]
    have hstep := next_waits base hkept hrun (.tick mounts now)
      (fun ms t ho => by cases ho; exact hlisted) fun ho => by contradiction
    rw [← hstep.2]
    have hbegun : (next base (run (next base) s before) (.tick mounts now)).todo = mounts ∧
        (next base (run (next base) s before) (.tick mounts now)).now = now := by
      simp [next, hidle]
    refine run_due hstep.1 hrun ?_ ?_ hafter ?_
    · rwa [hbegun.2]
    · rwa [hbegun.1]
    · rwa [hbegun.1]

/-! ## What the supervisor promises -/

/-- No mount is watched twice, no watcher leaks, and an exited one is armed again in time. -/
structure Supervised (base : Nat) (s : State) : Prop where
  once : AtMostOne s
  held : Held s
  shutsDown : ShutsDown s
  rearms : Rearms base s

/-- **When a mount is never watched twice.** Along every run of ticks, with any mount lists and times, and of
watchers that exit at any moment, stopped or not: the supervisor keeps all it promises in every state, the
middle of a tick included, if and only if no tick arms a mount while a stopped watcher of that mount has
not exited yet. -/
theorem supervised_iff (base : Nat) (ops : List Op) :
    Throughout (next base) (Supervised base) State.start ops ↔
      EveryStep (next base) (Awaits base) State.start ops := by
  have hstart : Supervised base State.start := by
    refine ⟨fun path h k hh _ => ?_, held_start, held_start.shutsDown, rearms base _⟩
    exact absurd (lt_of_pathOf hh.1) (Nat.not_lt_zero _)
  refine throughout_iff_everyStep (fun s o hs => ?_) hstart ops
  have hheld := held_next base hs.held o
  rw [← atMostOne_next hs.held hs.once o]
  exact ⟨Supervised.once, fun hone => ⟨hone, hheld, hheld.shutsDown, rearms base _⟩⟩

/-- A mount is deleted and listed again while its stopped watcher still runs. -/
def relisted : List Op :=
  [.tick ["docs/a"] 0, .visit, .tick [] 5, .tick ["docs/a"] 6, .visit]

/-- It is watched twice. -/
theorem relisted_twice : ¬ Throughout (next 10) (Supervised 10) State.start relisted := by
  rintro ⟨-, -, -, -, -, h⟩
  have htwice := h.once "docs/a" 0 1 ⟨by decide +kernel, by decide +kernel⟩
    ⟨by decide +kernel, by decide +kernel⟩
  contradiction

end Jkb.Sync.Watch
