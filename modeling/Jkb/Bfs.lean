import Jkb.Tx
import Mathlib.Data.List.Nodup
import Mathlib.Data.Nat.Find
import Mathlib.Logic.Relation

/-!
# Jkb.Bfs

A breadth-first walk that goes out a number of levels and stops when a number of elements is reached. A level
looks at the rows of each element that the level before found; a row names an element, and the first row that
names one is kept. `walk_exact` says that the walk is exact: what it keeps stands at its shortest distance, and
what it leaves out is farther than it goes, unless it says that it stopped.

Generic over the elements and the rows, and over how a level reads the rows of an element.
-/

namespace Jkb.Bfs

variable {α R : Type*}

/-! ## distances -/

/-- There is a walk of so many steps. -/
def Steps (step : α → α → Prop) : Nat → α → α → Prop
  | 0, a, b => a = b
  | n + 1, a, b => ∃ c, Steps step n a c ∧ step c b

/-- The shortest walk from `start` has so many steps. -/
def IsDist (step : α → α → Prop) (start : α) (n : Nat) (a : α) : Prop :=
  Steps step n start a ∧ ∀ m < n, ¬ Steps step m start a

variable {step : α → α → Prop} {start : α}

/-- To be reached is to be a number of steps away. -/
theorem exists_steps_iff {a b : α} : (∃ n, Steps step n a b) ↔ Relation.ReflTransGen step a b := by
  constructor
  · rintro ⟨n, h⟩
    induction n generalizing b with
    | zero => exact h ▸ .refl
    | succ n ih =>
        obtain ⟨c, hc, hcb⟩ := h
        exact (ih hc).tail hcb
  · intro h
    induction h with
    | refl => exact ⟨0, rfl⟩
    | tail _ hstep ih =>
        obtain ⟨n, hn⟩ := ih
        exact ⟨n + 1, _, hn, hstep⟩

/-- What is reached is at some distance, and no farther. -/
theorem exists_isDist {n : Nat} {a : α} (h : Steps step n start a) : ∃ m ≤ n, IsDist step start m a := by
  classical
  have hex : ∃ m, Steps step m start a := ⟨n, h⟩
  exact ⟨Nat.find hex, Nat.find_min' hex h, Nat.find_spec hex, fun _ hm => Nat.find_min hex hm⟩

theorem IsDist.unique {n m : Nat} {a : α} (hn : IsDist step start n a) (hm : IsDist step start m a) : n = m := by
  rcases Nat.lt_trichotomy n m with h | h | h
  · exact absurd hn.1 (hm.2 n h)
  · exact h
  · exact absurd hm.1 (hn.2 m h)

/-- Before an element at a distance there is one at the distance before. -/
theorem IsDist.prev {n : Nat} {a : α} (h : IsDist step start (n + 1) a) :
    ∃ c, IsDist step start n c ∧ step c a := by
  obtain ⟨⟨c, hc, hca⟩, hleast⟩ := h
  exact ⟨c, ⟨hc, fun m hm hsteps => hleast (m + 1) (Nat.succ_lt_succ hm) ⟨c, hsteps, hca⟩⟩, hca⟩

/-- A distance is passed through on the way to a farther one. -/
theorem IsDist.exists_of_le {n m : Nat} {a : α} (h : IsDist step start m a) (hnm : n ≤ m) :
    ∃ c, IsDist step start n c := by
  induction m generalizing a with
  | zero => exact ⟨a, Nat.le_zero.mp hnm ▸ h⟩
  | succ m ih =>
      rcases Nat.lt_or_eq_of_le hnm with hlt | rfl
      · obtain ⟨c, hc, -⟩ := h.prev
        exact ih hc (Nat.le_of_lt_succ hlt)
      · exact ⟨a, h⟩

/-! ## the walk -/

/-- A walk under way: what has been seen, the rows that are kept, and what the level has found. -/
structure Work (α R : Type*) where
  seen : List α
  out : List R
  next : List α

section Walk

variable [DecidableEq α] (item : R → α) (limit : Nat)

/-- Look at a row. One that names a new element is kept, and where no more are kept the walk stops. -/
def visit (w : Work α R) (r : R) : Except (List R) (Work α R) :=
  if item r ∈ w.seen then .ok w
  else if w.out.length = limit then .error w.out
  else .ok { seen := item r :: w.seen, out := w.out ++ [r], next := w.next ++ [item r] }

/-- Go out so many levels, the first of them numbered `hop`, from what the level before found. -/
def hops (read : Nat → α → Work α R → Except (List R) (Work α R)) :
    Nat → Nat → List α → Work α R → Except (List R) (Work α R)
  | 0, _, _, w => .ok w
  | levels + 1, hop, frontier, w => do
      let w ← frontier.foldlM (fun w node => read hop node w) { w with next := [] }
      if w.next.isEmpty then .ok w else hops read levels (hop + 1) w.next w

/-- The rows that a walk keeps, and whether it stopped early. -/
def walk (read : Nat → α → Work α R → Except (List R) (Work α R)) (depth : Nat) (start : α) : List R × Bool :=
  match hops read depth 1 [start] ⟨[start], [], []⟩ with
  | .ok w => (w.out, false)
  | .error out => (out, true)

/-! ## the walk is exact -/

variable (step start) (dist : R → Nat)

/-- **An exact walk**: it keeps distinct elements without the start, each at its shortest distance, which is within
the depth, nearer ones first. Where it did not stop, it keeps every element within the depth; where it did, it
keeps as many as it may and there is another. -/
structure Exact (depth : Nat) (out : List R) (stopped : Bool) : Prop where
  nodup : (start :: out.map item).Nodup
  shortest : ∀ r ∈ out, IsDist step start (dist r) (item r) ∧ dist r ≤ depth
  sorted : (out.map dist).Pairwise (· ≤ ·)
  complete : stopped = false → ∀ n ≤ depth, ∀ a, Steps step n start a → a ≠ start → a ∈ out.map item
  cut : stopped = true → out.length = limit ∧
    ∃ n ≤ depth, ∃ a, Steps step n start a ∧ a ≠ start ∧ a ∉ out.map item

/-- What holds of a walk that has seen every element within `h` steps, and some that are one step farther. -/
structure Sound (h : Nat) (w : Work α R) : Prop where
  seen : ∀ a, a ∈ w.seen ↔ a ∈ start :: w.out.map item
  nodup : (start :: w.out.map item).Nodup
  shortest : ∀ r ∈ w.out, IsDist step start (dist r) (item r) ∧ dist r ≤ h + 1
  sorted : (w.out.map dist).Pairwise (· ≤ ·)
  within : ∀ n ≤ h, ∀ a, Steps step n start a → a ∈ w.seen
  next : ∀ a, a ∈ w.next ↔ a ∈ w.seen ∧ IsDist step start (h + 1) a

/-- A walk that stopped: it kept as many as it may, all within `h` steps, and there is one more. -/
structure Cut (h : Nat) (out : List R) : Prop where
  nodup : (start :: out.map item).Nodup
  shortest : ∀ r ∈ out, IsDist step start (dist r) (item r) ∧ dist r ≤ h
  sorted : (out.map dist).Pairwise (· ≤ ·)
  full : out.length = limit
  more : ∃ a, Steps step h start a ∧ a ∉ start :: out.map item

variable {step start item dist}

/-- **Looking at a row**: the walk stays sound, and has then seen what the row names, or it stops. -/
theorem Sound.visit {h : Nat} {w : Work α R} {r : R} (hw : Sound step start item dist h w)
    (hreach : Steps step (h + 1) start (item r)) (hdist : dist r = h + 1) :
    match visit item limit w r with
    | .ok w' => Sound step start item dist h w' ∧ item r ∈ w'.seen ∧ ∀ a ∈ w.seen, a ∈ w'.seen
    | .error out => Cut step start item limit dist (h + 1) out := by
  unfold Bfs.visit
  split_ifs with hseen hfull
  · exact ⟨hw, hseen, fun _ ha => ha⟩
  · exact ⟨hw.nodup, hw.shortest, hw.sorted, hfull, item r, hreach, fun hmem => hseen ((hw.seen _).mpr hmem)⟩
  · have hnew : item r ∉ start :: w.out.map item := fun hmem => hseen ((hw.seen _).mpr hmem)
    have hat : IsDist step start (h + 1) (item r) :=
      ⟨hreach, fun n hn hsteps => hseen (hw.within n (Nat.le_of_lt_succ hn) _ hsteps)⟩
    refine ⟨⟨fun a => ?_, ?_, fun x hx => ?_, ?_, fun n hn a ha => ?_, fun a => ?_⟩, List.mem_cons_self, fun a ha =>
      List.mem_cons_of_mem _ ha⟩
    · rw [List.mem_cons, hw.seen, List.map_append, ← List.cons_append, List.mem_append, List.map_singleton,
        List.mem_singleton, or_comm]
    · rw [List.map_append, ← List.cons_append, List.nodup_append]
      refine ⟨hw.nodup, List.nodup_singleton _, fun a ha b hb hab => hnew ?_⟩
      rw [← List.mem_singleton.mp hb, ← hab]
      exact ha
    · rcases List.mem_append.mp hx with hx | hx
      · exact hw.shortest x hx
      · rw [List.mem_singleton.mp hx, hdist]
        exact ⟨hat, Nat.le_refl _⟩
    · rw [List.map_append, List.pairwise_append]
      refine ⟨hw.sorted, List.pairwise_singleton _ _, fun a ha b hb => ?_⟩
      obtain ⟨x, hx, rfl⟩ := List.mem_map.mp ha
      rw [List.map_singleton, List.mem_singleton] at hb
      rw [hb, hdist]
      exact (hw.shortest x hx).2
    · exact List.mem_cons_of_mem _ (hw.within n hn a ha)
    · rw [List.mem_append, List.mem_singleton, hw.next, List.mem_cons]
      constructor
      · rintro (⟨ha, hd⟩ | rfl)
        · exact ⟨Or.inr ha, hd⟩
        · exact ⟨Or.inl rfl, hat⟩
      · rintro ⟨rfl | ha, hd⟩
        · exact Or.inr rfl
        · exact Or.inl ⟨ha, hd⟩

/-- **Looking at the rows of a level.** -/
theorem Sound.foldlM {h : Nat} {w : Work α R} {rows : List R} (hw : Sound step start item dist h w)
    (hrows : ∀ r ∈ rows, Steps step (h + 1) start (item r) ∧ dist r = h + 1) :
    match rows.foldlM (Bfs.visit item limit) w with
    | .ok w' => Sound step start item dist h w' ∧ (∀ r ∈ rows, item r ∈ w'.seen) ∧ ∀ a ∈ w.seen, a ∈ w'.seen
    | .error out => Cut step start item limit dist (h + 1) out := by
  induction rows generalizing w with
  | nil => exact ⟨hw, fun _ hr => absurd hr List.not_mem_nil, fun _ ha => ha⟩
  | cons r rows ih =>
      obtain ⟨hreach, hdist⟩ := hrows r List.mem_cons_self
      have hone := hw.visit limit hreach hdist
      rw [List.foldlM_cons]
      cases hvisit : Bfs.visit item limit w r with
      | error out =>
          rw [hvisit] at hone
          exact hone
      | ok w₁ =>
          rw [hvisit] at hone
          obtain ⟨hw₁, hr, hkept⟩ := hone
          have hrest := ih hw₁ fun x hx => hrows x (List.mem_cons_of_mem _ hx)
          show match rows.foldlM (Bfs.visit item limit) w₁ with | .ok _ => _ | .error _ => _
          cases hfold : rows.foldlM (Bfs.visit item limit) w₁ with
          | error out =>
              rw [hfold] at hrest
              exact hrest
          | ok w₂ =>
              rw [hfold] at hrest
              obtain ⟨hw₂, hrows₂, hkept₂⟩ := hrest
              exact ⟨hw₂, List.forall_mem_cons.mpr ⟨hkept₂ _ hr, hrows₂⟩, fun a ha => hkept₂ a (hkept a ha)⟩

/-- What holds between levels: `h` of them are done, and the frontier is what is at the distance `h`. -/
structure Level (step : α → α → Prop) (start : α) (item : R → α) (dist : R → Nat) (h : Nat) (frontier : List α)
    (w : Work α R) : Prop where
  seen : ∀ a, a ∈ w.seen ↔ a ∈ start :: w.out.map item
  nodup : (start :: w.out.map item).Nodup
  shortest : ∀ r ∈ w.out, IsDist step start (dist r) (item r) ∧ dist r ≤ h
  sorted : (w.out.map dist).Pairwise (· ≤ ·)
  within : ∀ n ≤ h, ∀ a, Steps step n start a → a ∈ w.seen
  frontier : ∀ a, a ∈ frontier ↔ IsDist step start h a

omit [DecidableEq α] in
theorem level_start : Level step start item dist 0 [start] ⟨[start], [], []⟩ := by
  refine ⟨fun a => Iff.rfl, List.nodup_singleton _, fun r hr => absurd hr List.not_mem_nil, .nil, ?_, fun a => ?_⟩
  · rintro n hn a ha
    rw [Nat.le_zero.mp hn] at ha
    exact List.mem_singleton.mpr ha.symm
  · rw [List.mem_singleton]
    constructor
    · rintro rfl
      exact ⟨rfl, fun m hm => absurd hm (Nat.not_lt_zero m)⟩
    · exact fun h => h.1.symm

/-- A level starts with a walk that has seen nothing of the next distance. -/
theorem Level.sound {h : Nat} {frontier : List α} {w : Work α R} (hw : Level step start item dist h frontier w) :
    Sound step start item dist h { w with next := [] } := by
  refine ⟨hw.seen, hw.nodup, fun r hr => ⟨(hw.shortest r hr).1, Nat.le_succ_of_le (hw.shortest r hr).2⟩, hw.sorted,
    hw.within, fun a => ⟨fun ha => absurd ha List.not_mem_nil, ?_⟩⟩
  rintro ⟨ha, hd⟩
  rcases List.mem_cons.mp ((hw.seen a).mp ha) with rfl | ha
  · exact absurd rfl (hd.2 0 (Nat.succ_pos h))
  · obtain ⟨r, hr, rfl⟩ := List.mem_map.mp ha
    have hle := (hw.shortest r hr).2
    have heq := hd.unique (hw.shortest r hr).1
    omega

omit [DecidableEq α] in
/-- A level ends with everything within one more step seen. -/
theorem Sound.level {h : Nat} {w : Work α R} (hw : Sound step start item dist h w)
    (hall : ∀ a, IsDist step start (h + 1) a → a ∈ w.seen) :
    Level step start item dist (h + 1) w.next w := by
  refine ⟨hw.seen, hw.nodup, hw.shortest, hw.sorted, fun n hn a ha => ?_, fun a => ?_⟩
  · obtain ⟨m, hm, hdist⟩ := exists_isDist ha
    rcases Nat.lt_or_eq_of_le (Nat.le_trans hm hn) with hlt | rfl
    · exact hw.within m (Nat.le_of_lt_succ hlt) a hdist.1
    · exact hall a hdist
  · rw [hw.next]
    exact ⟨And.right, fun hd => ⟨hall a hd, hd⟩⟩

variable {limit} {read : Nat → α → Work α R → Except (List R) (Work α R)} {rows : Nat → α → List R}

omit [DecidableEq α] in
theorem foldlM_flatMap {σ ε : Type*} (f : σ → R → Except ε σ) (g : α → List R) (as : List α) (w : σ) :
    as.foldlM (fun w a => (g a).foldlM f w) w = (as.flatMap g).foldlM f w := by
  induction as generalizing w with
  | nil => rfl
  | cons a as ih =>
      rw [List.foldlM_cons, List.flatMap_cons, List.foldlM_append]
      exact congrArg _ (funext ih)

/-- **The levels of a walk.** -/
theorem Level.hops (levels : Nat) {h : Nat} {frontier : List α} {w : Work α R}
    (hread : ∀ hop node w, read hop node w = (rows hop node).foldlM (visit item limit) w)
    (hstep : ∀ hop a b, step a b ↔ ∃ r ∈ rows hop a, item r = b)
    (hdist : ∀ hop a, ∀ r ∈ rows hop a, dist r = hop)
    (hw : Level step start item dist h frontier w) :
    match Bfs.hops read levels (h + 1) frontier w with
    | .ok w' => Exact step start item limit dist (h + levels) w'.out false
    | .error out => Exact step start item limit dist (h + levels) out true := by
  induction levels generalizing h frontier w with
  | zero =>
      refine ⟨hw.nodup, hw.shortest, hw.sorted, fun _ n hn a ha hne => ?_, nofun⟩
      exact (List.mem_cons.mp ((hw.seen a).mp (hw.within n hn a ha))).resolve_left hne
  | succ levels ih =>
      have hlevel : frontier.foldlM (fun w node => read (h + 1) node w) { w with next := [] } =
          (frontier.flatMap (rows (h + 1))).foldlM (visit item limit) { w with next := [] } := by
        simp only [hread, foldlM_flatMap]
      have hrows : ∀ r ∈ frontier.flatMap (rows (h + 1)), Steps step (h + 1) start (item r) ∧ dist r = h + 1 := by
        intro r hr
        obtain ⟨a, ha, hr⟩ := List.mem_flatMap.mp hr
        exact ⟨⟨a, ((hw.frontier a).mp ha).1, (hstep (h + 1) a _).mpr ⟨r, hr, rfl⟩⟩, hdist _ _ r hr⟩
      have hfold := hw.sound.foldlM limit hrows
      rw [Bfs.hops, hlevel]
      cases hrun : (frontier.flatMap (rows (h + 1))).foldlM (visit item limit) { w with next := [] } with
      | error out =>
          rw [hrun] at hfold
          obtain ⟨a, ha, hnew⟩ := hfold.more
          rw [List.mem_cons, not_or] at hnew
          exact ⟨hfold.nodup, fun r hr => ⟨(hfold.shortest r hr).1, by have := (hfold.shortest r hr).2; omega⟩,
            hfold.sorted, nofun, fun _ => ⟨hfold.full, h + 1, by omega, a, ha, hnew⟩⟩
      | ok w₁ =>
          rw [hrun] at hfold
          obtain ⟨hsound, hseen, -⟩ := hfold
          -- what stands at the next distance is named by a row of the frontier
          have hall : ∀ a, IsDist step start (h + 1) a → a ∈ w₁.seen := by
            intro a ha
            obtain ⟨c, hc, hca⟩ := ha.prev
            obtain ⟨r, hr, rfl⟩ := (hstep (h + 1) c a).mp hca
            exact hseen r (List.mem_flatMap.mpr ⟨c, (hw.frontier c).mpr hc, hr⟩)
          have hnext := hsound.level hall
          show match (if w₁.next.isEmpty then Except.ok w₁ else Bfs.hops read levels (h + 1 + 1) w₁.next w₁) with
            | .ok _ => _
            | .error _ => _
          split_ifs with hempty
          · -- nothing stands at the next distance, and so nothing at any farther one
            rw [List.isEmpty_iff] at hempty
            have hnone : ∀ a, ¬ IsDist step start (h + 1) a := by
              intro a ha
              have := (hnext.frontier a).mpr ha
              rw [hempty] at this
              exact List.not_mem_nil this
            refine ⟨hnext.nodup, fun r hr => ⟨(hnext.shortest r hr).1, ?_⟩, hnext.sorted, ?_, nofun⟩
            · have := (hnext.shortest r hr).2
              omega
            · intro _ n _ a ha hne
              obtain ⟨m, -, hd⟩ := exists_isDist ha
              by_cases hm : m ≤ h + 1
              · exact (List.mem_cons.mp ((hnext.seen a).mp (hnext.within m hm a hd.1))).resolve_left hne
              · obtain ⟨c, hc⟩ := hd.exists_of_le (Nat.le_of_not_le hm)
                exact absurd hc (hnone c)
          · have hrest := ih hnext
            rw [show h + 1 + levels = h + (levels + 1) by omega] at hrest
            exact hrest

/-- **The walk is exact**, where a level reads, row for row, what an element steps to. -/
theorem walk_exact (hread : ∀ hop node w, read hop node w = (rows hop node).foldlM (visit item limit) w)
    (hstep : ∀ hop a b, step a b ↔ ∃ r ∈ rows hop a, item r = b)
    (hdist : ∀ hop a, ∀ r ∈ rows hop a, dist r = hop) (depth : Nat) :
    Exact step start item limit dist depth (walk read depth start).1 (walk read depth start).2 := by
  have hlevel : Level step start item dist 0 [start] ⟨[start], [], []⟩ := level_start
  have h := hlevel.hops depth hread hstep hdist
  simp only [Nat.zero_add] at h
  unfold walk
  cases hrun : Bfs.hops read depth 1 [start] ⟨[start], [], []⟩ with
  | ok w =>
      rw [hrun] at h
      exact h
  | error out =>
      rw [hrun] at h
      exact h

end Walk
end Jkb.Bfs
