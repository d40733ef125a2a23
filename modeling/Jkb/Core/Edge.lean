import Jkb.Graph
import Jkb.Sync.Doc
import Jkb.Table
import Jkb.Tx
import Jkb.Worklist

/-!
# Jkb.Core.Edge

The typed directed graph over items. `depends_on` and `parent_of` edges each stay acyclic: `linkWeighted`
refuses an edge that would close a cycle of its type, which it finds by walking the edges that are there.
-/

namespace Jkb.Edge

open Jkb.Graph Jkb.Text Relation

/-- What an edge, or an item above it, reads of a row of `items`. -/
structure Item where
  id : Int
  uid : Text
  kind : Text
deriving Repr, DecidableEq

/-- The table `items`. -/
abbrev Items := Table fun i : Item => i.id

/-- A floating-point weight: a number, or not one. -/
inductive Weight where
  | finite (q : Rat)
  | notFinite (shown : String)
deriving DecidableEq

/-- A row of `edges`. -/
structure EdgeRow where
  id : Int
  src : Int
  dst : Int
  type : EdgeType
  props : Text
  weight : Option Weight
deriving DecidableEq

/-- What no two edges share. -/
def EdgeRow.triple (e : EdgeRow) : Int × Int × EdgeType := (e.src, e.dst, e.type)

/-- The table `edges`. -/
structure Edges where
  table : AutoTable fun e : EdgeRow => e.id
  unique : (table.rows.map EdgeRow.triple).Nodup

namespace Edges

def empty : Edges := ⟨.empty, List.nodup_nil⟩

abbrev rows (t : Edges) : List EdgeRow := t.table.rows

/-- The edge between two items, of a type. -/
def find (t : Edges) (src dst : Int) (type : EdgeType) : Option EdgeRow :=
  t.rows.find? fun e => e.triple = (src, dst, type)

/-- The upsert of `linkWeighted`: an edge that is there keeps its weight where none is given. -/
def put (t : Edges) (src dst : Int) (type : EdgeType) (props : Text) (weight : Option Weight) :
    Edges × Int :=
  match h : t.find src dst type with
  | some e =>
      ({ table := t.table.updateWhere (fun r => r.id = e.id) (fun r => { r with weight := weight.or r.weight })
            fun _ => rfl
         unique := by
          have hsame : (t.table.updateWhere (fun r => r.id = e.id)
              (fun r => { r with weight := weight.or r.weight }) fun _ => rfl).rows.map EdgeRow.triple =
                t.rows.map EdgeRow.triple := by
            show (List.map _ (List.map _ _)) = _
            rw [List.map_map]
            refine List.map_congr_left fun r _ => ?_
            simp only [Function.comp_apply]
            split <;> rfl
          rw [hsame]
          exact t.unique }, e.id)
  | none =>
      ({ table := t.table.insertNext (fun id => { id, src, dst, type, props, weight }) fun _ => rfl
         unique := by
          show ((t.rows ++ [_]).map EdgeRow.triple).Nodup
          rw [List.map_append, List.nodup_append]
          refine ⟨t.unique, List.nodup_singleton _, ?_⟩
          intro a ha b hb
          obtain ⟨r, hr, rfl⟩ := List.mem_map.mp ha
          rw [List.map_singleton, List.mem_singleton] at hb
          have hnone := List.find?_eq_none.mp h r hr
          rw [hb]
          exact fun heq => hnone (decide_eq_true heq) }, t.table.nextKey)

/-- `DELETE` of the edge between two items, of a type. -/
def remove (t : Edges) (src dst : Int) (type : EdgeType) : Edges where
  table := t.table.deleteWhere fun e => e.triple = (src, dst, type)
  unique := t.unique.sublist (List.filter_sublist.map EdgeRow.triple)

/-- The targets of `a`'s edges of a type. -/
def successors (t : Edges) (type : EdgeType) (a : Int) : List Int :=
  (t.rows.filter fun e => e.src = a ∧ e.type = type).map (·.dst)

/-- The sources of the edges of a type into `b`. -/
def predecessors (t : Edges) (type : EdgeType) (b : Int) : List Int :=
  (t.rows.filter fun e => e.dst = b ∧ e.type = type).map (·.src)

/-- There is an edge of a type from `a` to `b`. -/
def Arc (t : Edges) (type : EdgeType) (a b : Int) : Prop :=
  ∃ e ∈ t.rows, e.src = a ∧ e.dst = b ∧ e.type = type

theorem mem_successors {t : Edges} {type : EdgeType} {a b : Int} :
    b ∈ t.successors type a ↔ t.Arc type a b := by
  simp only [successors, Arc, List.mem_map, List.mem_filter, decide_eq_true_eq]
  grind

theorem mem_predecessors {t : Edges} {type : EdgeType} {a b : Int} :
    a ∈ t.predecessors type b ↔ t.Arc type a b := by
  simp only [predecessors, Arc, List.mem_map, List.mem_filter, decide_eq_true_eq]
  grind

theorem dst_mem {t : Edges} {type : EdgeType} (a b : Int) (h : b ∈ t.successors type a) :
    b ∈ t.rows.map (·.dst) := by
  obtain ⟨e, he, -, rfl, -⟩ := mem_successors.mp h
  exact List.mem_map_of_mem he

theorem src_mem {t : Edges} {type : EdgeType} (b a : Int) (h : a ∈ t.predecessors type b) :
    a ∈ t.rows.map (·.src) := by
  obtain ⟨e, he, rfl, -, -⟩ := mem_predecessors.mp h
  exact List.mem_map_of_mem he

/-- Would `src depends_on dst` close a cycle? The walk is from `dst`'s own dependencies. -/
def createsCycle (t : Edges) (src dst : Int) : Bool :=
  src = dst || src ∈ Worklist.closure (t.successors .dependsOn) (t.rows.map (·.dst)) dst_mem
    (t.successors .dependsOn dst)

/-- Whether `ancestor` is `item` or one of its `parent_of` ancestors. -/
def isParentOrAbove (t : Edges) (ancestor item : Int) : Bool :=
  ancestor ∈ Worklist.closure (t.predecessors .parentOf) (t.rows.map (·.src)) src_mem [item]

/-- Whether `link` would refuse an edge because it closes a cycle of its type. -/
def closesCycle (t : Edges) (src dst : Int) : EdgeType → Bool
  | .dependsOn => t.createsCycle src dst
  | .parentOf => t.isParentOrAbove dst src
  | _ => false

end Edges

/-- An item's `uid`, or its id where it has no row. -/
def uidOf (items : Items) (id : Int) : Piece :=
  match items.find? id with
  | some i => .text (String.ofList i.uid)
  | none => id

/-- Create a typed edge with an optional weight, or change the weight of the one there is. -/
def linkWeighted (items : Items) (t : Edges) (src dst : Int) (type : EdgeType) (weight : Option Weight)
    (props : Text) : Except Fmt (Edges × Int) :=
  if type = .dependsOn ∧ t.closesCycle src dst type then
    .error ["depends_on ", src, " -> ", dst, " would create a cycle"]
  else if type = .parentOf ∧ t.closesCycle src dst type then
    if src = dst then .error ["`", uidOf items dst, "` cannot be its own parent"]
    else .error ["`", uidOf items dst, "` cannot go under `", uidOf items src, "`: `", uidOf items src,
      "` is inside `", uidOf items dst, "`, so `", uidOf items dst, "` would be its own ancestor"]
  else
    match weight with
    | some (.notFinite shown) => .error ["edge weight must be a finite number, got ", shown]
    | _ =>
        if (items.find? src).isNone ∨ (items.find? dst).isNone then
          .error ["FOREIGN KEY constraint failed"]
        else .ok (t.put src dst type props weight)

/-- Create a typed edge without a weight. -/
def link (items : Items) (t : Edges) (src dst : Int) (type : EdgeType) (props : Text) :
    Except Fmt (Edges × Int) :=
  linkWeighted items t src dst type none props

/-- Remove an edge; there may be none. -/
def unlink (t : Edges) (src dst : Int) (type : EdgeType) : Edges := t.remove src dst type

/-! ## what the walks find -/

namespace Edges

/-- The walk of `createsCycle` is exact. -/
theorem createsCycle_eq_true {t : Edges} {src dst : Int} :
    t.createsCycle src dst = true ↔ src = dst ∨ TransGen (t.Arc .dependsOn) dst src := by
  simp only [createsCycle, Bool.or_eq_true, decide_eq_true_eq, Worklist.mem_closure, Worklist.Reached,
    mem_successors, TransGen.head'_iff]

/-- The walk of `isParentOrAbove` is exact. -/
theorem isParentOrAbove_eq_true {t : Edges} {ancestor item : Int} :
    t.isParentOrAbove ancestor item = true ↔ ReflTransGen (t.Arc .parentOf) ancestor item := by
  have hrel : (fun x y => y ∈ t.predecessors .parentOf x) = Function.swap (t.Arc .parentOf) := by
    funext x y
    exact propext mem_predecessors
  rw [isParentOrAbove, decide_eq_true_eq, Worklist.mem_closure, Worklist.Reached, hrel,
    ← reflTransGen_swap]
  simp

/-! ## what the writes do -/

theorem find_eq_some {t : Edges} {src dst : Int} {type : EdgeType} {e : EdgeRow}
    (h : t.find src dst type = some e) : e ∈ t.rows ∧ e.src = src ∧ e.dst = dst ∧ e.type = type := by
  have htriple : e.triple = (src, dst, type) := by simpa using List.find?_some h
  simp only [EdgeRow.triple, Prod.mk.injEq] at htriple
  exact ⟨List.mem_of_find?_eq_some h, htriple⟩

/-- **An upsert** adds one arc, if it was not there. -/
theorem arc_put {t : Edges} {src dst : Int} {type : EdgeType} {props : Text} {weight : Option Weight}
    {ty : EdgeType} {a b : Int} :
    (t.put src dst type props weight).1.Arc ty a b ↔
      t.Arc ty a b ∨ (a = src ∧ b = dst ∧ ty = type) := by
  unfold put
  split
  · rename_i e hfind
    obtain ⟨he, hsrc, hdst, htype⟩ := find_eq_some hfind
    have hkeep : (∃ r ∈ (t.table.updateWhere (fun r => r.id = e.id)
          (fun r => { r with weight := weight.or r.weight }) fun _ => rfl).rows,
        r.src = a ∧ r.dst = b ∧ r.type = ty) ↔ t.Arc ty a b := by
      constructor
      · rintro ⟨r, hr, h⟩
        obtain ⟨r', hr', rfl⟩ := AutoTable.mem_updateWhere.mp hr
        refine ⟨r', hr', ?_⟩
        split at h <;> exact h
      · rintro ⟨r, hr, h⟩
        refine ⟨_, AutoTable.mem_updateWhere.mpr ⟨r, hr, rfl⟩, ?_⟩
        split <;> exact h
    refine hkeep.trans (iff_self_or.mpr ?_)
    rintro ⟨rfl, rfl, rfl⟩
    exact ⟨e, he, hsrc, hdst, htype⟩
  · constructor
    · rintro ⟨r, hr, h⟩
      rcases AutoTable.mem_insertNext.mp hr with hr | rfl
      · exact Or.inl ⟨r, hr, h⟩
      · exact Or.inr ⟨h.1.symm, h.2.1.symm, h.2.2.symm⟩
    · rintro (⟨r, hr, h⟩ | ⟨rfl, rfl, rfl⟩)
      · exact ⟨r, AutoTable.mem_insertNext.mpr (Or.inl hr), h⟩
      · exact ⟨_, AutoTable.mem_insertNext.mpr (Or.inr rfl), rfl, rfl, rfl⟩

/-- **A removal** takes one arc away. -/
theorem arc_remove {t : Edges} {src dst : Int} {type : EdgeType} {ty : EdgeType} {a b : Int} :
    (t.remove src dst type).Arc ty a b ↔ t.Arc ty a b ∧ ¬ (a = src ∧ b = dst ∧ ty = type) := by
  constructor
  · rintro ⟨r, hr, rfl, rfl, rfl⟩
    obtain ⟨hr, hne⟩ := AutoTable.mem_deleteWhere.mp hr
    exact ⟨⟨r, hr, rfl, rfl, rfl⟩, by simpa [EdgeRow.triple] using hne⟩
  · rintro ⟨⟨r, hr, rfl, rfl, rfl⟩, hne⟩
    exact ⟨r, AutoTable.mem_deleteWhere.mpr ⟨hr, by simpa [EdgeRow.triple] using hne⟩, rfl, rfl, rfl⟩

/-- An upsert leaves the other edges as they are. -/
theorem mem_rows_put {t : Edges} {src dst : Int} {type : EdgeType} {props : Text} {weight : Option Weight} {e : EdgeRow}
    (hne : e.triple ≠ (src, dst, type)) : e ∈ (t.put src dst type props weight).1.rows ↔ e ∈ t.rows := by
  unfold put
  split
  · rename_i r hfind
    obtain ⟨hr, hsrc, hdst, htype⟩ := find_eq_some hfind
    have htriple : r.triple = (src, dst, type) := by simp [EdgeRow.triple, hsrc, hdst, htype]
    have hsame : ∀ x ∈ t.rows, x.id = r.id → x = r := fun x hx hid => t.table.eq_of_key_eq hx hr hid
    refine AutoTable.mem_updateWhere.trans ⟨?_, fun he => ⟨e, he, ?_⟩⟩
    · rintro ⟨x, hx, rfl⟩
      by_cases hid : x.id = r.id
      · rw [hsame x hx hid] at hne
        exact absurd (by simpa [EdgeRow.triple] using htriple) hne
      · simpa [hid] using hx
    · rw [if_neg]
      rw [decide_eq_true_eq]
      exact fun hid => hne (by rw [hsame e he hid, htriple])
  · refine AutoTable.mem_insertNext.trans ⟨fun he => he.resolve_right ?_, Or.inl⟩
    rintro rfl
    exact hne rfl

/-- A removal leaves the other edges as they are. -/
theorem mem_rows_remove {t : Edges} {src dst : Int} {type : EdgeType} {e : EdgeRow} :
    e ∈ (t.remove src dst type).rows ↔ e ∈ t.rows ∧ e.triple ≠ (src, dst, type) := by
  refine AutoTable.mem_deleteWhere.trans ?_
  simp

/-- The graph's shape: no dependency leads back, and no item is above itself. -/
structure Shaped (t : Edges) : Prop where
  dependsOn : Acyclic (t.Arc .dependsOn)
  parentOf : Acyclic (t.Arc .parentOf)

theorem Shaped.mono {t t' : Edges} (h : t.Shaped) (hle : ∀ ty a b, t'.Arc ty a b → t.Arc ty a b) :
    t'.Shaped :=
  ⟨h.dependsOn.mono fun _ _ => hle _ _ _, h.parentOf.mono fun _ _ => hle _ _ _⟩

theorem Shaped.remove {t : Edges} (h : t.Shaped) (src dst : Int) (type : EdgeType) :
    (t.remove src dst type).Shaped := h.mono fun _ _ _ harc => (arc_remove.mp harc).1

end Edges

/-- What a link that is not refused has found, and what it leaves. -/
theorem linkWeighted_eq_ok {items : Items} {t t' : Edges} {src dst id : Int} {type : EdgeType}
    {weight : Option Weight} {props : Text}
    (h : linkWeighted items t src dst type weight props = .ok (t', id)) :
    t.closesCycle src dst type = false ∧ (items.find? src).isSome = true ∧
      (items.find? dst).isSome = true ∧
      ∀ ty a b, t'.Arc ty a b ↔ t.Arc ty a b ∨ (a = src ∧ b = dst ∧ ty = type) := by
  unfold linkWeighted at h
  split at h
  · cases h
  · rename_i hdepends
    split at h
    · split at h <;> cases h
    · rename_i hparent
      have hcycle : t.closesCycle src dst type = false := by
        cases htype : type with
        | dependsOn => simpa [htype] using hdepends
        | parentOf => simpa [htype] using hparent
        | _ => rfl
      split at h
      · cases h
      · split at h
        · cases h
        · rename_i hitems
          obtain ⟨rfl, -⟩ := Prod.mk.inj (Except.ok.inj h)
          simp only [not_or, Bool.not_eq_true, Option.isNone_eq_false_iff] at hitems
          exact ⟨hcycle, hitems.1, hitems.2, fun _ _ _ => Edges.arc_put⟩

/-- A link between two items that closes no cycle succeeds. -/
theorem link_of_closesCycle {items : Items} {t : Edges} {src dst : Int} {type : EdgeType} (props : Text)
    (hcycle : t.closesCycle src dst type = false) (hsrc : (items.find? src).isSome = true)
    (hdst : (items.find? dst).isSome = true) :
    link items t src dst type props = .ok (t.put src dst type props none) := by
  simp [link, linkWeighted, hcycle, Option.isSome_iff_ne_none.mp hsrc, Option.isSome_iff_ne_none.mp hdst]

/-- **A link keeps the graph's shape.** -/
theorem Edges.Shaped.linkWeighted {items : Items} {t t' : Edges} {src dst id : Int} {type : EdgeType}
    {weight : Option Weight} {props : Text} (hs : t.Shaped)
    (h : linkWeighted items t src dst type weight props = .ok (t', id)) : t'.Shaped := by
  obtain ⟨hcycle, -, -, harc⟩ := linkWeighted_eq_ok h
  constructor
  · by_cases htype : type = .dependsOn
    · subst htype
      have hback : ¬ ReflTransGen (t.Arc .dependsOn) dst src := by
        intro hpath
        have hcreates : t.createsCycle src dst = true := by
          rw [createsCycle_eq_true]
          rcases reflTransGen_iff_eq_or_transGen.mp hpath with heq | htrans
          · exact Or.inl heq
          · exact Or.inr htrans
        rw [closesCycle, hcreates] at hcycle
        cases hcycle
      refine (hs.dependsOn.insert hback).mono fun a b h => ?_
      exact ((harc _ _ _).mp h).imp_right fun h => ⟨h.1, h.2.1⟩
    · refine hs.dependsOn.mono fun a b h => ?_
      exact ((harc _ _ _).mp h).resolve_right fun h => htype h.2.2.symm
  · by_cases htype : type = .parentOf
    · subst htype
      have hback : ¬ ReflTransGen (t.Arc .parentOf) dst src := by
        intro hpath
        rw [closesCycle, isParentOrAbove_eq_true.mpr hpath] at hcycle
        cases hcycle
      refine (hs.parentOf.insert hback).mono fun a b h => ?_
      exact ((harc _ _ _).mp h).imp_right fun h => ⟨h.1, h.2.1⟩
    · refine hs.parentOf.mono fun a b h => ?_
      exact ((harc _ _ _).mp h).resolve_right fun h => htype h.2.2.symm

end Jkb.Edge
