import Jkb.Core.Ns
import Jkb.Tx

/-!
# Jkb.Core.Ns.Path

What the paths of namespaces say of the tree. A path is below another when it continues it with a slash, and
where every row's path is its parent's with one segment more (`Agrees`), the walk along the parents finds
exactly the paths below one (`mem_subtree`).
-/

namespace Jkb.Ns

open Jkb.Text Relation

/-! ## paths below a path -/

/-- Whether a path is another one with one segment more. -/
def ChildPath (parent path : Text) : Prop := ∃ segment, '/' ∉ segment ∧ path = parent ++ '/' :: segment

/-- Whether a path is `root` or begins with it and a slash. -/
def Within (root path : Text) : Prop := path = root ∨ root ++ ['/'] <+: path

instance (root path : Text) : Decidable (Within root path) := inferInstanceAs (Decidable (_ ∨ _))

/-- A path is within itself. -/
theorem Within.refl (p : Text) : Within p p := Or.inl rfl

/-- What comes after a slash is within. -/
theorem Within.append (p t : Text) : Within p (p ++ '/' :: t) := Or.inr ⟨t, by simp⟩

/-- What is within a path is the path, or comes after a slash of it. -/
theorem within_iff {root path : Text} : Within root path ↔ path = root ∨ ∃ t, path = root ++ '/' :: t := by
  refine or_congr_right ⟨?_, ?_⟩
  · rintro ⟨t, rfl⟩
    exact ⟨t, by simp⟩
  · rintro ⟨t, rfl⟩
    exact ⟨t, by simp⟩

/-- What is within what is within a path is within it. -/
theorem Within.trans {a b c : Text} (hab : Within a b) (hbc : Within b c) : Within a c := by
  rcases within_iff.mp hab with rfl | ⟨t, rfl⟩
  · exact hbc
  · rcases within_iff.mp hbc with rfl | ⟨u, rfl⟩
    · exact Within.append _ _
    · exact within_iff.mpr (Or.inr ⟨t ++ '/' :: u, by simp⟩)

/-- A child is within its parent. -/
theorem ChildPath.within {a b : Text} (h : ChildPath a b) : Within a b := by
  obtain ⟨segment, -, rfl⟩ := h
  exact Within.append _ _

/-- A path below another is it, or its own parent's path is below it. -/
theorem Within.parent {root a b : Text} (h : Within root b) (hb : ChildPath a b) :
    b = root ∨ Within root a := by
  refine (within_iff.mp h).imp id ?_
  rintro ⟨t, ht⟩
  obtain ⟨segment, hseg, rfl⟩ := hb
  rcases List.append_eq_append_iff.mp ht with ⟨u, rfl, hu⟩ | ⟨u, rfl, hu⟩
  · cases u with
    | nil => exact Within.refl _ |>.trans (by simp [Within])
    | cons c u =>
        obtain ⟨rfl, rfl⟩ := List.cons.inj hu
        exact absurd (by simp) hseg
  · cases u with
    | nil => exact Or.inl (by simp)
    | cons c u =>
        obtain ⟨rfl, -⟩ := List.cons.inj hu
        exact Within.append _ _

/-- A slash-free path is below none but itself. -/
theorem Within.eq_of_notMem {root path : Text} (h : Within root path) (hpath : '/' ∉ path) : path = root := by
  rcases within_iff.mp h with rfl | ⟨t, rfl⟩
  · rfl
  · exact absurd (by simp) hpath

/-! ## rows whose paths agree with their parents -/

/-- Whether rows have a namespace of this id, path and parent. -/
def At (rows : List Namespace) (id : Int) (path : Text) (parent : Option Int) : Prop :=
  ∃ r ∈ rows, r.id = id ∧ r.path = path ∧ r.parentId = parent

/-- Where a namespace may lie: without a parent at the top, with one a segment below the path it is at. -/
def Below (pathAt : Int → Text → Prop) (path : Text) : Option Int → Prop
  | none => '/' ∉ path
  | some parent => ∃ above, pathAt parent above ∧ ChildPath above path

/-- **Paths and parents agree**: each row's path is its parent's, a slash and one slash-free segment, or, of
a row without a parent, slash-free. -/
def Agrees (rows : List Namespace) : Prop :=
  ∀ r ∈ rows, Below (fun parent path => ∃ p ∈ rows, p.id = parent ∧ p.path = path) r.path r.parentId

/-- What is below a row is below it in every tree that has the row. -/
theorem Below.imp {f g : Int → Text → Prop} {path : Text} {parent : Option Int} (h : Below f path parent)
    (hfg : ∀ q t, f q t → g q t) : Below g path parent := by
  cases parent with
  | none => exact h
  | some q =>
      obtain ⟨above, hq, hchild⟩ := h
      exact ⟨above, hfg q above hq, hchild⟩

/-- Paths and parents agree if every row is below its parent's row. -/
theorem agrees_iff {rows : List Namespace} :
    Agrees rows ↔ ∀ id path parent, At rows id path parent →
      Below (fun q t => ∃ g, At rows q t g) path parent := by
  have hat : ∀ q t, (∃ p ∈ rows, p.id = q ∧ p.path = t) ↔ ∃ g, At rows q t g := by
    intro q t
    constructor
    · rintro ⟨p, hp, hq, ht⟩
      exact ⟨p.parentId, p, hp, hq, ht, rfl⟩
    · rintro ⟨g, p, hp, hq, ht, -⟩
      exact ⟨p, hp, hq, ht⟩
  constructor
  · rintro h _ _ _ ⟨r, hr, rfl, rfl, rfl⟩
    exact (h r hr).imp fun q t => (hat q t).mp
  · intro h r hr
    exact (h r.id r.path r.parentId ⟨r, hr, rfl, rfl, rfl⟩).imp fun q t => (hat q t).mpr

instance (parent path : Text) : Decidable (ChildPath parent path) :=
  decidable_of_iff ('/' ∉ path.drop (parent.length + 1) ∧ path = parent ++ '/' :: path.drop (parent.length + 1))
    ⟨fun h => ⟨_, h⟩, fun ⟨segment, hseg, hpath⟩ => by
      have hdrop : path.drop (parent.length + 1) = segment := by simp [hpath]
      rw [hdrop]
      exact ⟨hseg, hpath⟩⟩

instance (rows : List Namespace) : Decidable (Agrees rows) :=
  decidable_of_iff (∀ r ∈ rows, r.parentId = none ∧ '/' ∉ r.path ∨
      ∃ p ∈ rows, r.parentId = some p.id ∧ ChildPath p.path r.path) <|
    forall₂_congr fun r _ => by
      cases r.parentId with
      | none => simp [Below]
      | some q =>
          simp only [reduceCtorEq, false_and, false_or, Option.some.injEq, Below]
          constructor
          · rintro ⟨p, hp, rfl, hchild⟩
            exact ⟨p.path, ⟨p, hp, rfl, rfl⟩, hchild⟩
          · rintro ⟨_, ⟨p, hp, rfl, rfl⟩, hchild⟩
            exact ⟨p, hp, rfl, hchild⟩

/-- Whether a subtree is what lies below its path: the rows whose path is the root's, or begins with it and a
slash. -/
def SubtreeByPath (nfc : Text → Text) (rows : List Namespace) : Prop :=
  ∀ path root found, normalize nfc path = .ok root → subtree nfc rows path = .ok found →
    ∀ id t, (id, t) ∈ found ↔ (∃ r ∈ rows, r.id = id ∧ r.path = t) ∧ (t = root ∨ root ++ ['/'] <+: t)

/-! ## the walk down the parents -/

section Walk

variable {rows : List Namespace}

/-- A namespace is at one place. -/
theorem At.unique (hids : (rows.map (·.id)).Nodup) {id : Int} {a b : Text} {p q : Option Int}
    (ha : At rows id a p) (hb : At rows id b q) : a = b ∧ p = q := by
  obtain ⟨r, hr, rfl, rfl, rfl⟩ := ha
  obtain ⟨r', hr', hid, rfl, rfl⟩ := hb
  obtain rfl := List.inj_on_of_nodup_map hids hr hr' hid.symm
  exact ⟨rfl, rfl⟩

/-- The walk from the rows at a path reaches the rows whose path is below it. -/
theorem mem_walk (hids : (rows.map (·.id)).Nodup) (h : Agrees rows) {root : Text} {r : Namespace}
    (hr : r ∈ rows) : r.id ∈ walk rows root ↔ Within root r.path := by
  rw [walk, Worklist.mem_closure]
  constructor
  · rintro ⟨start, hstart, hreach⟩
    have hfound : ∃ path parent, At rows r.id path parent ∧ Within root path := by
      generalize r.id = id at hreach
      induction hreach with
      | refl =>
          obtain ⟨x, hx, rfl⟩ := List.mem_map.mp hstart
          obtain ⟨hx, hpath⟩ := List.mem_filter.mp hx
          exact ⟨_, _, ⟨x, hx, rfl, rfl, rfl⟩, Or.inl (of_decide_eq_true hpath)⟩
      | tail _ hchild ih =>
          obtain ⟨path, parent, hat, hwithin⟩ := ih
          obtain ⟨c, hc, hparent, rfl⟩ := mem_children.mp hchild
          obtain ⟨above, ⟨_, habove⟩, hstep⟩ := agrees_iff.mp h _ _ _ ⟨c, hc, rfl, rfl, hparent⟩
          obtain ⟨rfl, -⟩ := At.unique hids hat habove
          exact ⟨_, _, ⟨c, hc, rfl, rfl, rfl⟩, hwithin.trans hstep.within⟩
    obtain ⟨path, parent, hat, hwithin⟩ := hfound
    obtain ⟨rfl, -⟩ := At.unique hids hat ⟨r, hr, rfl, rfl, rfl⟩
    exact hwithin
  · intro hwithin
    -- up the parents, whose paths are shorter, to a row at the root
    generalize hn : r.path.length = n
    induction n using Nat.strong_induction_on generalizing r with
    | _ n ih =>
        subst hn
        by_cases hroot : r.path = root
        · exact ⟨r.id, List.mem_map_of_mem (by simp [hr, hroot]), .refl⟩
        · have hbelow := h r hr
          cases hparent : r.parentId with
          | none =>
              rw [hparent] at hbelow
              exact absurd (hwithin.eq_of_notMem hbelow) hroot
          | some q =>
              rw [hparent] at hbelow
              obtain ⟨_, ⟨p, hp, rfl, rfl⟩, hchild⟩ := hbelow
              have habove := (hwithin.parent hchild).resolve_left hroot
              have hshort : p.path.length < r.path.length := by
                obtain ⟨segment, -, hpath⟩ := hchild
                rw [hpath, List.length_append, List.length_cons]
                omega
              obtain ⟨s, hs, hreach⟩ := ih _ hshort hp habove rfl
              exact ⟨s, hs, hreach.tail (mem_children.mpr ⟨r, hr, hparent, rfl⟩)⟩

/-- **A subtree is what lies below its path**: where paths and parents agree, the walk along the parents
finds the rows whose path is the root's, or begins with it and a slash. -/
theorem mem_subtree {nfc : Text → Text} (hids : (rows.map (·.id)).Nodup) (h : Agrees rows)
    {path root : Text} (hroot : normalize nfc path = .ok root) {found : List (Int × Text)}
    (hfound : subtree nfc rows path = .ok found) {id : Int} {t : Text} :
    (id, t) ∈ found ↔ (∃ parent, At rows id t parent) ∧ Within root t := by
  rw [subtree, hroot] at hfound
  cases hfound
  rw [List.mem_mergeSort, List.mem_map]
  constructor
  · rintro ⟨r, hr, he⟩
    cases he
    obtain ⟨hr, hwalk⟩ := List.mem_filter.mp hr
    exact ⟨⟨_, r, hr, rfl, rfl, rfl⟩, (mem_walk hids h hr).mp (of_decide_eq_true hwalk)⟩
  · rintro ⟨⟨_, r, hr, rfl, rfl, -⟩, hwithin⟩
    exact ⟨r, List.mem_filter.mpr ⟨hr, decide_eq_true ((mem_walk hids h hr).mpr hwithin)⟩, rfl⟩

/-- The walk along the parents finds what the paths say. -/
theorem subtreeByPath {nfc : Text → Text} (hids : (rows.map (·.id)).Nodup) (h : Agrees rows) :
    SubtreeByPath nfc rows := by
  intro path root found hroot hfound id t
  rw [mem_subtree hids h hroot hfound]
  refine and_congr_left fun _ => ⟨?_, ?_⟩
  · rintro ⟨g, r, hr, hid, ht, -⟩
    exact ⟨r, hr, hid, ht⟩
  · rintro ⟨r, hr, hid, ht⟩
    exact ⟨r.parentId, r, hr, hid, ht, rfl⟩

/-- A subtree names no row twice. -/
theorem nodup_subtree {nfc : Text → Text} (hids : (rows.map (·.id)).Nodup) {path : Text}
    {found : List (Int × Text)} (hfound : subtree nfc rows path = .ok found) :
    (found.map (·.1)).Nodup := by
  obtain ⟨root, -, rfl⟩ := Tx.map_eq_ok.mp hfound
  refine ((List.mergeSort_perm _ _).map _).nodup_iff.mpr ?_
  rw [List.map_map]
  exact hids.sublist (List.filter_sublist.map _)

end Walk

/-! ## normalized paths -/

/-- What Unicode says of the canonical composition of a segment. -/
structure Composition (nfc : Text → Text) : Prop where
  separator : ∀ s, '/' ∉ s → '/' ∉ nfc s
  ne_nil : ∀ s, s ≠ [] → nfc s ≠ []
  idem : ∀ s, nfc (nfc s) = nfc s

/-- Whether a path's segments are composed, and none is empty. -/
def Normal (nfc : Text → Text) (path : Text) : Prop := ∀ s ∈ segments path, s ≠ [] ∧ nfc s = s

section Normal

variable {nfc : Text → Text}

/-- A segment that is accepted is composed, and was not empty. -/
theorem normalizeSegment_eq_ok {path segment s : Text} (h : normalizeSegment nfc path segment = .ok s) :
    segment ≠ [] ∧ s = nfc segment := by
  unfold normalizeSegment at h
  split at h
  · cases h
  · next hne =>
      split at h
      · cases h
      · split at h
        · cases h
        · cases h
          exact ⟨hne, rfl⟩

/-- A path that is accepted is its segments, composed. -/
theorem normalize_eq_ok {path p : Text} (h : normalize nfc path = .ok p) :
    p = joined ((segments path).map nfc) ∧ ∀ s ∈ segments path, s ≠ [] := by
  unfold normalize at h
  split at h
  · cases h
  · split at h
    · cases h
    · split at h
      · cases h
      · split at h
        · cases h
        · next segs hsegs =>
            split at h
            · cases h
            · cases h
              have hmap : List.Forall₂ (fun s t => nfc s = t) (segments path) segs :=
                (Tx.mapM_eq_ok.mp hsegs).imp fun _ _ hs => (normalizeSegment_eq_ok hs).2.symm
              rw [← List.forall₂_map_left_iff (R := Eq), List.forall₂_eq_eq_eq] at hmap
              refine ⟨by rw [hmap], fun s hs => ?_⟩
              obtain ⟨_, -, hok⟩ := Tx.exists_mem_of_mapM hsegs s hs
              exact (normalizeSegment_eq_ok hok).1

/-- What a path normalizes to is normal. -/
theorem normal_of_normalize (hn : Composition nfc) {path p : Text} (h : normalize nfc path = .ok p) :
    Normal nfc p := by
  obtain ⟨rfl, hne⟩ := normalize_eq_ok h
  have hsegs : segments (joined ((segments path).map nfc)) = (segments path).map nfc := by
    refine List.splitOn_intercalate _ (fun s hs => ?_) fun hnil => ?_
    · obtain ⟨piece, hpiece, rfl⟩ := List.mem_map.mp hs
      exact hn.separator _ (notMem_of_mem_splitOn hpiece)
    · exact List.splitOn_ne_nil '/' path (List.map_eq_nil_iff.mp hnil)
  intro s hs
  rw [hsegs] at hs
  obtain ⟨piece, hpiece, rfl⟩ := List.mem_map.mp hs
  exact ⟨hn.ne_nil _ (hne _ hpiece), hn.idem _⟩

/-- A normal path normalizes to itself, if to anything. -/
theorem Normal.eq {path p : Text} (hpath : Normal nfc path) (h : normalize nfc path = .ok p) : p = path := by
  obtain ⟨rfl, -⟩ := normalize_eq_ok h
  rw [List.map_congr_left fun s hs => (hpath s hs).2, List.map_id']
  exact List.intercalate_splitOn _

/-- The path before a slash of a normal path is normal. -/
theorem Normal.before {path segment : Text} (h : Normal nfc (path ++ '/' :: segment)) : Normal nfc path := by
  intro s hs
  refine h s ?_
  rw [segments, List.splitOn_append_cons_self]
  exact List.mem_append_left _ hs

end Normal

end Jkb.Ns
