import Jkb.Bfs
import Jkb.Core.Edge
import Jkb.Pages

/-!
# Jkb.Core.Edge.Walk

The bounded walk of the graph. It goes out level by level from an item, reads a node's edges a page at a time, and
stops once it holds as many items as it may. `readLeg_eq` says that the pages are the node's edges, wherever they
are cut; `walkLimited_exact` that the walk is a breadth-first search.
-/

namespace Jkb.Edge

open Jkb.Bfs Jkb.Text

/-- Which way edges are followed. -/
inductive Direction where
  | out
  | «in»
  | both
deriving Repr, DecidableEq

/-- An item that a walk reached. -/
structure Related where
  item : Int
  depth : Nat
  via : EdgeType
  direction : Direction
deriving Repr, DecidableEq

/-- The table `edges`, whose ids are issued from 1 on, in 64 bits. -/
structure Graph where
  edges : Edges
  issued : ∀ e ∈ edges.rows, 0 < e.id ∧ e.id ≤ i64Max

/-- The largest `usize`. -/
def usizeMax : Nat := 2 ^ 64 - 1

/-- The legs that a direction is read in. -/
def legs : Direction → List Direction
  | .out => [.out]
  | .«in» => [.«in»]
  | .both => [.out, .«in»]

section Reading

variable (g : Graph) (types : List EdgeType)

/-- The end of an edge that a leg starts from. -/
def fromCol (leg : Direction) (e : EdgeRow) : Int :=
  match leg with
  | .«in» => e.dst
  | .out | .both => e.src

/-- The end of an edge that a leg leads to. -/
def toCol (leg : Direction) (e : EdgeRow) : Int :=
  match leg with
  | .«in» => e.src
  | .out | .both => e.dst

/-- Whether an edge is one that `neighbours` reads. -/
def follows (node : Int) (leg : Direction) (e : EdgeRow) : Bool :=
  fromCol leg e = node ∧ (types = [] ∨ e.type ∈ types)

/-- The edges of a node on a leg with ids above `after`, in the order of their ids, at most a page. -/
def neighbours (node : Int) (leg : Direction) (after : Int) (page : Nat) : List (Int × Int × EdgeType) :=
  (((g.edges.rows.filter fun e => follows types node leg e && decide (after < e.id)).insertionSort
    fun a b => a.id ≤ b.id).take (min page i64Max.toNat)).map fun e => (e.id, toCol leg e, e.type)

/-- How many edges are read at a time, where a walk may reach `limit` items. -/
def pageSize (limit : Nat) : Nat := min (limit + 2) usizeMax

/-- The edges with ids above `after`. -/
def edgesAfter (after : Int) : List EdgeRow := g.edges.rows.filter fun e => after < e.id

/-- What comes after an id that is itself after another. -/
theorem filter_after_after {after last : Int} (h : after < last) (es : List EdgeRow) :
    (es.filter fun e => after < e.id).filter (fun e => last < e.id) = es.filter fun e => last < e.id := by
  rw [List.filter_filter]
  refine List.filter_congr fun e _ => ?_
  simp only [← Bool.decide_and, decide_eq_decide]
  omega

theorem edgesAfter_lt {node : Int} {leg : Direction} {after : Int} {page : Nat} {last : Int × Int × EdgeType}
    (h : (neighbours g types node leg after page).getLast? = some last) :
    (edgesAfter g last.1).length < (edgesAfter g after).length := by
  obtain ⟨e, he, rfl⟩ := List.mem_map.mp (List.mem_of_getLast? h)
  have he := (List.mem_insertionSort _).mp (List.mem_of_mem_take he)
  simp only [List.mem_filter, Bool.and_eq_true, decide_eq_true_eq] at he
  obtain ⟨hmem, -, hafter⟩ := he
  rw [edgesAfter, edgesAfter, ← filter_after_after hafter, List.length_filter_lt_length_iff_exists]
  exact ⟨e, List.mem_filter.mpr ⟨hmem, by simpa using hafter⟩, by simp⟩

/-- Read a node's edges on a leg, a page at a time, until they run out or the walk is full. -/
def readLeg (limit hop : Nat) (node : Int) (leg : Direction) (after : Int) (w : Work Int Related) :
    Except (List Related) (Work Int Related) :=
  let rows := neighbours g types node leg after (pageSize limit)
  match _h : rows.getLast? with
  | none => .ok w
  | some last => do
      let w ← rows.foldlM (fun w row => visit Related.item limit w ⟨row.2.1, hop, row.2.2, leg⟩) w
      if rows.length = pageSize limit then readLeg limit hop node leg last.1 w else .ok w
termination_by (edgesAfter g after).length
decreasing_by exact edgesAfter_lt g types _h

/-- Walk out from `start`, and answer with what is reached and whether the walk stopped early. -/
def walkLimited (start : Int) (depth : Nat) (direction : Direction) (limit : Nat) : List Related × Bool :=
  Bfs.walk (fun hop node w => (legs direction).foldlM (fun w leg => readLeg g types limit hop node leg 0 w) w)
    depth start

/-- Walk out from `start`, as far as `depth`. -/
def walk (start : Int) (depth : Nat) (direction : Direction) : List Related :=
  (walkLimited g types start depth direction usizeMax).1

/-- An edge of one of the types leads from one item to another in a direction; no types are any. -/
def Adjacent (direction : Direction) (a b : Int) : Prop :=
  ∃ e ∈ g.edges.rows, (types = [] ∨ e.type ∈ types) ∧
    ((direction ≠ .«in» ∧ e.src = a ∧ e.dst = b) ∨ (direction ≠ .out ∧ e.dst = a ∧ e.src = b))

end Reading

/-! ## the pages of a node -/

section Pages

variable {g : Graph} {types : List EdgeType}

/-- Numbers in strict order within bounds are no more than fit. -/
theorem length_le_of_pairwise_lt {xs : List Int} {lo hi : Int} (hlt : xs.Pairwise (· < ·))
    (hbounds : ∀ x ∈ xs, lo < x ∧ x ≤ hi) (hle : lo ≤ hi) : lo + xs.length ≤ hi := by
  induction xs generalizing lo with
  | nil => simpa using hle
  | cons x xs ih =>
      obtain ⟨hx, hxs⟩ := List.pairwise_cons.mp hlt
      obtain ⟨hlo, hhi⟩ := hbounds x List.mem_cons_self
      have hrest := ih hxs (fun y hy => ⟨hx y hy, (hbounds y (List.mem_cons_of_mem _ hy)).2⟩) hhi
      rw [List.length_cons]
      push_cast
      omega

variable (g types) in
/-- The edges of a node on a leg, in the order of their ids. -/
def legEdges (node : Int) (leg : Direction) : List EdgeRow :=
  (g.edges.rows.filter (follows types node leg)).insertionSort fun a b => a.id ≤ b.id

theorem mem_legEdges {node : Int} {leg : Direction} {e : EdgeRow} :
    e ∈ legEdges g types node leg ↔ e ∈ g.edges.rows ∧ follows types node leg e = true := by
  rw [legEdges, List.mem_insertionSort, List.mem_filter]

theorem pairwise_legEdges (node : Int) (leg : Direction) :
    (legEdges g types node leg).Pairwise fun a b => a.id < b.id := by
  have hle : (legEdges g types node leg).Pairwise fun a b => a.id ≤ b.id :=
    List.pairwise_insertionSort (fun a b : EdgeRow => a.id ≤ b.id) _
  have hnodup : ((legEdges g types node leg).map (·.id)).Nodup := by
    rw [legEdges, ((List.perm_insertionSort _ _).map _).nodup_iff]
    exact g.edges.table.nodup.sublist (List.filter_sublist.map _)
  exact (hle.and (List.pairwise_map.mp hnodup)).imp fun h => lt_of_le_of_ne h.1 h.2

/-- A page is cut from the edges of the leg that come after the cursor. -/
theorem neighbours_eq (node : Int) (leg : Direction) (after : Int) (page : Nat) :
    neighbours g types node leg after page =
      (((legEdges g types node leg).filter fun e => after < e.id).take (min page i64Max.toNat)).map
        fun e => (e.id, toCol leg e, e.type) := by
  have hanti : ∀ a ∈ g.edges.rows.filter (follows types node leg), ∀ b ∈ g.edges.rows.filter (follows types node leg),
      a.id ≤ b.id → b.id ≤ a.id → a = b := fun a ha b hb hab hba =>
    g.edges.table.eq_of_key_eq (List.mem_of_mem_filter ha) (List.mem_of_mem_filter hb) (le_antisymm hab hba)
  rw [neighbours, legEdges, ← Jkb.Pages.filter_insertionSort hanti, List.filter_filter]
  simp only [Bool.and_comm]

/-- What a row of a leg reaches, at a level. -/
def related (hop : Nat) (leg : Direction) (e : EdgeRow) : Related := ⟨toCol leg e, hop, e.type, leg⟩

/-- A page that is not full ends the leg. -/
theorem eq_nil_of_not_full {left : List EdgeRow} (limit : Nat) (hsort : left.Pairwise fun a b => a.id < b.id)
    (hleft : ∀ e ∈ left, e ∈ g.edges.rows)
    (hfull : (left.take (min (pageSize limit) i64Max.toNat)).length ≠ pageSize limit) :
    left.drop (min (pageSize limit) i64Max.toNat) = [] := by
  have hmax : 0 + (left.map (·.id)).length ≤ i64Max := by
    refine length_le_of_pairwise_lt (List.pairwise_map.mpr hsort) (fun i hi => ?_) (by decide)
    obtain ⟨e, he, rfl⟩ := List.mem_map.mp hi
    exact g.issued e (hleft e he)
  rw [List.length_map] at hmax
  rw [List.drop_eq_nil_iff]
  rw [List.length_take] at hfull
  omega

/-- **The pages of a leg are its edges**, wherever they are cut. -/
theorem readLeg_eq (limit hop : Nat) (node : Int) (leg : Direction) (after : Int) (w : Work Int Related) :
    readLeg g types limit hop node leg after w =
      (((legEdges g types node leg).filter fun e => after < e.id).map (related hop leg)).foldlM
        (visit Related.item limit) w := by
  induction hn : (edgesAfter g after).length using Nat.strong_induction_on generalizing after w with
  | _ n ih =>
      -- what is left of the leg, of which a page takes the front
      generalize hleft : ((legEdges g types node leg).filter fun e => after < e.id) = left
      have hsort : left.Pairwise fun a b => a.id < b.id := hleft ▸ (pairwise_legEdges node leg).filter _
      have hmem : ∀ e ∈ left, e ∈ g.edges.rows ∧ after < e.id := by
        intro e he
        rw [← hleft, List.mem_filter, decide_eq_true_eq, mem_legEdges] at he
        exact ⟨he.1.1, he.2⟩
      have hcut := List.take_append_drop (min (pageSize limit) i64Max.toNat) left
      have hend := eq_nil_of_not_full limit hsort fun e he => (hmem e he).1
      have hsome : left ≠ [] → left.take (min (pageSize limit) i64Max.toNat) ≠ [] := by
        intro hne
        rw [Ne, List.take_eq_nil_iff, not_or]
        exact ⟨by rw [pageSize, usizeMax, i64Max]; omega, hne⟩
      have hrows : neighbours g types node leg after (pageSize limit) =
          (left.take (min (pageSize limit) i64Max.toNat)).map fun e => (e.id, toCol leg e, e.type) := by
        rw [neighbours_eq, hleft]
      generalize left.take (min (pageSize limit) i64Max.toNat) = taken at hcut hend hsome hrows
      generalize left.drop (min (pageSize limit) i64Max.toNat) = rest at hcut hend
      rw [readLeg]
      simp only [hrows, List.foldlM_map, List.length_map]
      split
      · rename_i hnone
        have hnil : left = [] := by
          by_contra hne
          rw [hrows] at hnone
          exact hsome hne (by simpa using hnone)
        rw [hnil]
        rfl
      · rename_i last hlast
        have hlt := edgesAfter_lt g types hlast
        rw [hrows, List.getLast?_map] at hlast
        obtain ⟨e, he, rfl⟩ := Option.map_eq_some_iff.mp hlast
        have hafter : after < e.id := (hmem e (by
          rw [← hcut]
          exact List.mem_append_left _ (List.mem_of_getLast? he))).2
        rw [← hcut, List.foldlM_append]
        refine congrArg (bind _) (funext fun w' => ?_)
        split
        · have hrest : (legEdges g types node leg).filter (fun x => e.id < x.id) = rest := by
            rw [← filter_after_after hafter, hleft, ← hcut]
            exact @Jkb.Pages.filter_after _ _ (· < ·) _ _ _ (fun e : EdgeRow => e.id) _ _ _ (hcut ▸ hsort) he
          rw [ih _ (hn ▸ hlt) e.id w' rfl, hrest, List.foldlM_map]
        · rename_i hfull
          rw [hend hfull]
          rfl

/-- The rows that a level reads of a node. -/
def levelRows (g : Graph) (types : List EdgeType) (direction : Direction) (hop : Nat) (node : Int) : List Related :=
  (legs direction).flatMap fun leg => (legEdges g types node leg).map (related hop leg)

/-- **Reading a node**: every edge of each of its legs, in order. -/
theorem readNode_eq (limit hop : Nat) (direction : Direction) (node : Int) (w : Work Int Related) :
    (legs direction).foldlM (fun w leg => readLeg g types limit hop node leg 0 w) w =
      (levelRows g types direction hop node).foldlM (visit Related.item limit) w := by
  have hall : ∀ leg, (legEdges g types node leg).filter (fun e => 0 < e.id) = legEdges g types node leg := by
    refine fun leg => List.filter_eq_self.mpr fun e he => ?_
    exact decide_eq_true (g.issued e (mem_legEdges.mp he).1).1
  simp only [levelRows, readLeg_eq, hall]
  exact foldlM_flatMap _ _ _ _

/-- A node is adjacent to what its rows name. -/
theorem adjacent_iff {direction : Direction} {hop : Nat} {a b : Int} :
    Adjacent g types direction a b ↔ ∃ r ∈ levelRows g types direction hop a, r.item = b := by
  simp only [levelRows, List.mem_flatMap, List.mem_map, mem_legEdges, follows, decide_eq_true_eq]
  constructor
  · rintro ⟨e, he, htypes, ⟨hdir, hfrom, hto⟩ | ⟨hdir, hfrom, hto⟩⟩
    · exact ⟨_, ⟨.out, by cases direction <;> simp_all [legs], e, ⟨he, hfrom, htypes⟩, rfl⟩, hto⟩
    · exact ⟨_, ⟨.«in», by cases direction <;> simp_all [legs], e, ⟨he, hfrom, htypes⟩, rfl⟩, hto⟩
  · rintro ⟨_, ⟨leg, hleg, e, ⟨he, hfrom, htypes⟩, rfl⟩, hto⟩
    refine ⟨e, he, htypes, ?_⟩
    cases direction with
    | out =>
        obtain rfl := List.mem_singleton.mp hleg
        exact Or.inl ⟨nofun, hfrom, hto⟩
    | «in» =>
        obtain rfl := List.mem_singleton.mp hleg
        exact Or.inr ⟨nofun, hfrom, hto⟩
    | both =>
        rcases List.mem_cons.mp hleg with rfl | hleg
        · exact Or.inl ⟨nofun, hfrom, hto⟩
        · obtain rfl := List.mem_singleton.mp hleg
          exact Or.inr ⟨nofun, hfrom, hto⟩

theorem depth_of_mem_levelRows {direction : Direction} {hop : Nat} {a : Int} {r : Related}
    (h : r ∈ levelRows g types direction hop a) : r.depth = hop := by
  obtain ⟨leg, -, h⟩ := List.mem_flatMap.mp h
  obtain ⟨e, -, rfl⟩ := List.mem_map.mp h
  rfl

end Pages

/-- **The bounded walk is a breadth-first search**, on every table of edges: it answers with distinct items without
the start, each at its shortest distance, nearer ones first; with every item within the depth, unless it says that
it stopped, and then with as many as it may, and there is another. -/
theorem walkLimited_exact (g : Graph) (types : List EdgeType) (start : Int) (depth : Nat) (direction : Direction)
    (limit : Nat) :
    Exact (Adjacent g types direction) start Related.item limit Related.depth depth
      (walkLimited g types start depth direction limit).1 (walkLimited g types start depth direction limit).2 :=
  walk_exact (readNode_eq limit · direction) (fun _ _ _ => adjacent_iff) (fun _ _ _ => depth_of_mem_levelRows) depth

/-! ## a walk without a limit -/

/-- To go out along edges of a type is to follow them. -/
theorem adjacent_out (g : Graph) (type : EdgeType) : Adjacent g [type] .out = g.edges.Arc type := by
  funext a b
  refine propext ⟨?_, ?_⟩
  · rintro ⟨e, he, htype, ⟨-, hsrc, hdst⟩ | ⟨hdir, -⟩⟩
    · exact ⟨e, he, hsrc, hdst, by simpa using htype⟩
    · exact absurd rfl hdir
  · rintro ⟨e, he, hsrc, hdst, htype⟩
    exact ⟨e, he, Or.inr (List.mem_singleton.mpr htype), Or.inl ⟨Direction.noConfusion, hsrc, hdst⟩⟩

/-- To go in along them is to follow them back. -/
theorem adjacent_in {g : Graph} {type : EdgeType} {a b : Int} :
    Adjacent g [type] .«in» a b ↔ g.edges.Arc type b a := by
  constructor
  · rintro ⟨e, he, htype, ⟨hdir, -⟩ | ⟨-, hdst, hsrc⟩⟩
    · exact absurd rfl hdir
    · exact ⟨e, he, hsrc, hdst, by simpa using htype⟩
  · rintro ⟨e, he, hsrc, hdst, htype⟩
    exact ⟨e, he, Or.inr (List.mem_singleton.mpr htype), Or.inr ⟨Direction.noConfusion, hdst, hsrc⟩⟩

section Whole

variable {g : Graph} {types : List EdgeType} {direction : Direction} {start : Int}

/-- There are no more edges than ids. -/
theorem length_rows_le (g : Graph) : (g.edges.rows.length : Int) ≤ i64Max := by
  have hle : ((g.edges.rows.map (·.id)).insertionSort (· ≤ ·)).Pairwise (· ≤ ·) :=
    List.pairwise_insertionSort (· ≤ ·) _
  have hnodup : ((g.edges.rows.map (·.id)).insertionSort (· ≤ ·)).Nodup :=
    (List.perm_insertionSort _ _).nodup_iff.mpr g.edges.table.nodup
  have hmax := @length_le_of_pairwise_lt _ 0 i64Max ((hle.and hnodup).imp fun h => lt_of_le_of_ne h.1 h.2)
    (fun i hi => by
      obtain ⟨e, he, rfl⟩ := List.mem_map.mp ((List.mem_insertionSort _).mp hi)
      exact g.issued e he) (by decide)
  rwa [List.length_insertionSort, List.length_map, Int.zero_add] at hmax

/-- What is a step or more away is at an end of an edge. -/
theorem mem_ends_of_steps {n : Nat} {b : Int} (h : Steps (Adjacent g types direction) n start b) (hb : b ≠ start) :
    b ∈ g.edges.rows.map (·.src) ++ g.edges.rows.map (·.dst) := by
  cases n with
  | zero => exact absurd h.symm hb
  | succ n =>
      obtain ⟨_, -, e, he, -, ⟨-, -, rfl⟩ | ⟨-, -, rfl⟩⟩ := h
      · exact List.mem_append_right _ (List.mem_map_of_mem he)
      · exact List.mem_append_left _ (List.mem_map_of_mem he)

/-- A walk without a limit is the search with the widest one there is. -/
theorem exact_usizeMax (g : Graph) (types : List EdgeType) (start : Int) (depth : Nat) (direction : Direction) :
    Exact (Adjacent g types direction) start Related.item usizeMax Related.depth depth
      (walk g types start depth direction) (walkLimited g types start depth direction usizeMax).2 :=
  walk_exact (readNode_eq usizeMax · direction) (fun _ _ _ => adjacent_iff) (fun _ _ _ => depth_of_mem_levelRows) depth

/-- It reaches all that there is. -/
theorem walkLimited_usizeMax (depth : Nat) : (walkLimited g types start depth direction usizeMax).2 = false := by
  have hexact := exact_usizeMax g types start depth direction
  by_contra hstopped
  have hfull := (hexact.cut (by simpa using hstopped)).1
  obtain ⟨hstart, hnodup⟩ := List.nodup_cons.mp hexact.nodup
  have hsub : (walkLimited g types start depth direction usizeMax).1.map Related.item ⊆
      g.edges.rows.map (·.src) ++ g.edges.rows.map (·.dst) := by
    intro b hb
    obtain ⟨r, hr, rfl⟩ := List.mem_map.mp hb
    exact mem_ends_of_steps (hexact.shortest r hr).1.1 fun heq => hstart (heq ▸ hb)
  have hlength := (hnodup.subperm hsub).length_le
  have hrows := length_rows_le g
  rw [List.length_map, hfull, List.length_append, List.length_map, List.length_map] at hlength
  simp only [usizeMax, i64Max] at hlength hrows
  omega

/-- **The items of a walk** are those within the depth, but for the start. -/
theorem mem_walk {depth : Nat} {b : Int} : b ∈ (walk g types start depth direction).map Related.item ↔
    b ≠ start ∧ ∃ n ≤ depth, Steps (Adjacent g types direction) n start b := by
  have hexact := exact_usizeMax g types start depth direction
  constructor
  · intro hb
    obtain ⟨r, hr, rfl⟩ := List.mem_map.mp hb
    obtain ⟨hdist, hle⟩ := hexact.shortest r hr
    exact ⟨fun heq => (List.nodup_cons.mp hexact.nodup).1 (heq ▸ hb), r.depth, hle, hdist.1⟩
  · rintro ⟨hb, n, hn, hsteps⟩
    exact hexact.complete (walkLimited_usizeMax depth) n hn b hsteps hb

end Whole

end Jkb.Edge
