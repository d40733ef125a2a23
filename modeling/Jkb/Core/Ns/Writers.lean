import Jkb.Core.Ns.Tree

/-!
# Jkb.Core.Ns.Writers

What the writers of the namespace tree leave. Each statement has one lemma that says which namespaces are where
afterwards, and each writer keeps every row's path its parent's with one segment more.
-/

namespace Jkb.Ns

open Jkb.Text

/-! ## what a statement leaves -/

section Statements

variable {s s' : Store}

/-- The check of a table leaves its rows. -/
theorem rows_of_checked {t : AutoTable fun n : Namespace => n.id} {n : Namespaces}
    (h : Namespaces.checked t = .ok n) : n.rows = t.rows := by
  unfold Namespaces.checked at h
  split at h
  · split at h
    · cases h
      rfl
    · cases h
  · cases h

/-- The namespaces are where they were, but for the updated one's new columns. -/
theorem at_update {id : Int} {columns : Columns} (h : s.update id columns = .ok s') {i : Int} {p : Text}
    {g : Option Int} :
    At s'.rows i p g ↔ ∃ p₀ g₀, At s.rows i p₀ g₀ ∧ p = (if i = id then columns.path.getD p₀ else p₀) ∧
      g = (if i = id then columns.parentId.getD g₀ else g₀) := by
  obtain ⟨n, hn, rfl⟩ := Tx.map_eq_ok.mp h
  simp only [At, Store.rows, rows_of_checked hn]
  constructor
  · rintro ⟨_, hr', rfl, rfl, rfl⟩
    obtain ⟨r, hr, rfl⟩ := AutoTable.mem_updateWhere.mp hr'
    refine ⟨r.path, r.parentId, ⟨r, hr, ?_, rfl, rfl⟩, ?_⟩ <;> by_cases hid : r.id = id <;>
      simp [hid, Namespace.set]
  · rintro ⟨p₀, g₀, ⟨r, hr, rfl, rfl, rfl⟩, rfl, rfl⟩
    refine ⟨_, AutoTable.mem_updateWhere.mpr ⟨r, hr, rfl⟩, ?_⟩
    by_cases hid : r.id = id <;> simp [hid, Namespace.set]

/-- Where every namespace is once one is made. -/
theorem at_insertNext {path now : Text} {parent : Option Int} {kind : Kind} {id : Int}
    (h : s.insertNext path parent kind now = .ok (s', id)) {i : Int} {p : Text} {g : Option Int} :
    At s'.rows i p g ↔ At s.rows i p g ∨ i = id ∧ p = path ∧ g = parent := by
  obtain ⟨n, hn, he⟩ := Tx.map_eq_ok.mp h
  cases he
  simp only [At, Store.rows, rows_of_checked hn, AutoTable.mem_insertNext]
  constructor
  · rintro ⟨r, hr | rfl, hi, hp, hg⟩
    · exact Or.inl ⟨r, hr, hi, hp, hg⟩
    · exact Or.inr ⟨hi.symm, hp.symm, hg.symm⟩
  · rintro (⟨r, hr, h⟩ | ⟨rfl, rfl, rfl⟩)
    · exact ⟨r, Or.inl hr, h⟩
    · exact ⟨_, Or.inr rfl, rfl, rfl, rfl⟩

/-- Where every namespace is once a row is put back. -/
theorem at_insertRow {r : Namespace} (h : s.insertRow r = .ok s') :
    (∀ p g, ¬ At s.rows r.id p g) ∧ ∀ i p g,
      (At s'.rows i p g ↔ At s.rows i p g ∨ i = r.id ∧ p = r.path ∧ g = r.parentId) := by
  unfold Store.insertRow at h
  split at h
  · cases h
  · next t ht =>
      obtain ⟨n, hn, rfl⟩ := Tx.map_eq_ok.mp h
      obtain ⟨hfree, hrows, -⟩ := AutoTable.tryRestore_eq_some ht
      refine ⟨fun p g => ?_, fun i p g => ?_⟩
      · rintro ⟨y, hy, hid, -⟩
        exact hfree y hy hid
      · simp only [At, Store.rows, rows_of_checked hn, hrows, List.mem_append, List.mem_singleton]
        constructor
        · rintro ⟨y, hy | rfl, rfl, rfl, rfl⟩
          · exact Or.inl ⟨y, hy, rfl, rfl, rfl⟩
          · exact Or.inr ⟨rfl, rfl, rfl⟩
        · rintro (⟨y, hy, h⟩ | ⟨rfl, rfl, rfl⟩)
          · exact ⟨y, Or.inl hy, h⟩
          · exact ⟨r, Or.inr rfl, rfl, rfl, rfl⟩

/-- Where every namespace is once one is deleted. -/
theorem at_deleteRow {id : Int} (h : s.deleteRow id = .ok s') {i : Int} {p : Text} {g : Option Int} :
    At s'.rows i p g ↔ At s.rows i p g ∧ i ≠ id := by
  obtain ⟨n, hn, rfl⟩ := Tx.map_eq_ok.mp h
  simp only [At, Store.rows, rows_of_checked hn, AutoTable.mem_deleteWhere]
  constructor
  · rintro ⟨r, ⟨hr, hne⟩, rfl, rfl, rfl⟩
    exact ⟨⟨r, hr, rfl, rfl, rfl⟩, of_decide_eq_false hne⟩
  · rintro ⟨⟨r, hr, rfl, rfl, rfl⟩, hne⟩
    exact ⟨r, ⟨hr, decide_eq_false hne⟩, rfl, rfl, rfl⟩

/-- A parent is there. -/
theorem exists_parent {i q : Int} {p : Text} (h : At s.rows i p (some q)) : ∃ t g, At s.rows q t g := by
  obtain ⟨r, hr, -, -, hparent⟩ := h
  obtain ⟨y, hy, hq⟩ := s.namespaces.linked r hr q hparent
  exact ⟨y.path, y.parentId, y, hy, hq, rfl, rfl⟩

end Statements

/-! ## what a writer leaves -/

section Paths

/-- The bytes of a text, from its first character. -/
theorem byteLen_cons (c : Char) (t : Text) : byteLen (c :: t) = c.utf8Size + byteLen t := by
  simp [byteLen, String.ofList_cons]

/-- What is after the bytes of a prefix is the rest. -/
theorem dropBytes_append (a b : Text) : dropBytes (byteLen a) (a ++ b) = .ok b := by
  induction a with
  | nil => simp [byteLen, dropBytes]
  | cons c a ih =>
      obtain ⟨n, hn⟩ : ∃ n, byteLen (c :: a) = n + 1 := by
        have hpos := c.utf8Size_pos
        exact Nat.exists_eq_add_one.mpr (by rw [byteLen_cons]; omega)
      rw [hn, List.cons_append, dropBytes, ← hn, byteLen_cons, if_pos (Nat.le_add_right _ _),
        Nat.add_sub_cancel_left, ih]

/-- Segments are joined by slashes. -/
theorem joined_cons (s : Text) (segs : List Text) :
    joined (s :: segs) = s ++ (segs.map ('/' :: ·)).flatten := by
  induction segs generalizing s with
  | nil => simp [joined]
  | cons t segs ih => rw [joined, List.intercalate_cons_cons, ← joined, ih t]; simp

/-- The first segment of a path. -/
theorem extend_nil (segment : Text) : extend [] segment = segment := rfl

/-- Every further one comes after a slash. -/
theorem extend_of_ne_nil {above : Text} (h : above ≠ []) (segment : Text) :
    extend above segment = above ++ '/' :: segment := by
  simp [extend, h]

/-- A path with many segments more. -/
theorem foldl_extend {above : Text} (h : above ≠ []) (segs : List Text) :
    segs.foldl extend above = above ++ (segs.map ('/' :: ·)).flatten := by
  induction segs generalizing above with
  | nil => simp
  | cons s segs ih => rw [List.foldl_cons, extend_of_ne_nil h, ih (by simp)]; simp

/-- It is within the path. -/
theorem within_foldl_extend {above : Text} (h : above ≠ []) (segs : List Text) :
    Within above (segs.foldl extend above) := by
  rw [foldl_extend h]
  cases segs with
  | nil => simp [Within.refl]
  | cons s segs => simpa using Within.append above (s ++ (segs.map ('/' :: ·)).flatten)

/-- A normal path is its segments, one after the other. -/
theorem Normal.foldl_extend {nfc : Text → Text} {path : Text} (h : Normal nfc path) :
    (segments path).foldl extend [] = path := by
  have hjoined : joined (segments path) = path := List.intercalate_splitOn _
  cases hsegs : segments path with
  | nil => exact absurd hsegs (List.splitOn_ne_nil _ _)
  | cons s segs =>
      have hne := (h s (hsegs ▸ List.mem_cons_self)).1
      rw [List.foldl_cons, extend_nil, Ns.foldl_extend hne, ← joined_cons, ← hsegs, hjoined]

end Paths

section Writers

variable {x : Outside} {s s' : Store}

/-- What making a path leaves: every namespace that was there, and new ones only on the way to it. -/
structure Grown (s s' : Store) (path : Text) : Prop where
  kept : ∀ i p g, At s.rows i p g → At s'.rows i p g
  new : ∀ i p g, At s'.rows i p g → At s.rows i p g ∨ Within p path

/-- A type that is stamped moves no namespace. -/
theorem at_seedReservedType {path : Text} {seeded : Bool}
    (h : seedReservedType x s path = .ok (s', seeded)) {i : Int} {p : Text} {g : Option Int} :
    At s'.rows i p g ↔ At s.rows i p g := by
  unfold seedReservedType at h
  split at h
  · split at h
    · cases h
      rfl
    · obtain ⟨t, ht, he⟩ := Tx.map_eq_ok.mp h
      cases he
      rw [at_update ht]
      simp
  · cases h
    rfl

/-- The namespace that `ensure` has reached at a path: none yet, at none. -/
def Stands (s : Store) (parent : Option Int) (path : Text) : Prop :=
  parent = none ∧ path = [] ∨ path ≠ [] ∧ ∃ id g, parent = some id ∧ At s.rows id path g

/-- Whether a tree agrees is read of where its namespaces are. -/
theorem agrees_congr {rows rows' : List Namespace} (h : ∀ i p g, At rows' i p g ↔ At rows i p g)
    (hrows : Agrees rows) : Agrees rows' := by
  rw [agrees_iff] at hrows ⊢
  simpa only [h] using hrows

/-- One segment that is ensured stands below the one before. -/
theorem ensureSegment_eq_ok {now segment above current : Text} {parent reached : Option Int}
    (h : ensureSegment x now (s, parent, above) segment = .ok (s', reached, current))
    (hseg : segment ≠ [] ∧ '/' ∉ segment) (hs : Agrees s.rows) (hstands : Stands s parent above) :
    current = extend above segment ∧ Agrees s'.rows ∧ Stands s' reached current ∧ Grown s s' current := by
  have hne : extend above segment ≠ [] := by simp [extend, hseg.1]
  unfold ensureSegment at h
  simp only at h
  split at h
  · next found hfound =>
      obtain ⟨⟨t, seeded⟩, ht, h⟩ := Tx.bind_eq_ok.mp h
      cases h
      have hsame : ∀ i p g, At (if seeded then
          t.logged (.update found.id { metadata := some found.metadata }) else t).rows i p g ↔
          At s.rows i p g := by
        intro i p g
        rw [← at_seedReservedType ht]
        cases seeded <;> rfl
      have hat : At s.rows found.id (extend above segment) found.parentId :=
        ⟨found, List.mem_of_find?_eq_some hfound, rfl, by simpa using List.find?_some hfound, rfl⟩
      refine ⟨rfl, agrees_congr hsame hs, Or.inr ⟨hne, _, _, rfl, (hsame _ _ _).mpr hat⟩, ?_⟩
      exact ⟨fun i p g => (hsame i p g).mpr, fun i p g hi => Or.inl ((hsame i p g).mp hi)⟩
  · obtain ⟨⟨t, id⟩, ht, h⟩ := Tx.bind_eq_ok.mp h
    obtain ⟨⟨u, seeded⟩, hu, h⟩ := Tx.bind_eq_ok.mp h
    cases h
    have hat : ∀ i p g, At u.rows i p g ↔
        At s.rows i p g ∨ i = id ∧ p = extend above segment ∧ g = parent := by
      intro i p g
      rw [at_seedReservedType hu, at_insertNext ht]
    have hnew : At u.rows id (extend above segment) parent := (hat _ _ _).mpr (Or.inr ⟨rfl, rfl, rfl⟩)
    refine ⟨rfl, ?_, Or.inr ⟨hne, id, parent, rfl, hnew⟩, fun i p g hi => (hat i p g).mpr (Or.inl hi),
      fun i p g hi => ?_⟩
    · rw [agrees_iff] at hs ⊢
      intro i p g hi
      rcases (hat i p g).mp hi with hi | ⟨rfl, rfl, rfl⟩
      · exact (hs i p g hi).imp fun q t ⟨g, hq⟩ => ⟨g, (hat q t g).mpr (Or.inl hq)⟩
      · rcases hstands with ⟨rfl, rfl⟩ | ⟨hne, q, g, rfl, hq⟩
        · exact hseg.2
        · exact ⟨above, ⟨g, (hat q above g).mpr (Or.inl hq)⟩, segment, hseg.2, extend_of_ne_nil hne segment⟩
    · rcases (hat i p g).mp hi with hi | ⟨-, rfl, -⟩
      · exact Or.inl hi
      · exact Or.inr (Within.refl _)

/-- So do many. -/
theorem ensureSegments_eq_ok {now : Text} {segs : List Text} {parent reached : Option Int}
    {above current : Text}
    (h : segs.foldlM (ensureSegment x now) (s, parent, above) = .ok (s', reached, current))
    (hsegs : ∀ t ∈ segs, t ≠ [] ∧ '/' ∉ t) (hs : Agrees s.rows) (hstands : Stands s parent above) :
    current = segs.foldl extend above ∧ Agrees s'.rows ∧ Stands s' reached current ∧ Grown s s' current := by
  induction segs generalizing s parent above with
  | nil =>
      cases h
      exact ⟨rfl, hs, hstands, fun _ _ _ => id, fun _ _ _ => Or.inl⟩
  | cons segment segs ih =>
      rw [List.foldlM_cons] at h
      obtain ⟨⟨t, at_, path⟩, ht, h⟩ := Tx.bind_eq_ok.mp h
      have hseg := hsegs segment List.mem_cons_self
      obtain ⟨rfl, hs, hstands, hgrown⟩ := ensureSegment_eq_ok ht hseg hs hstands
      obtain ⟨rfl, hs', hstands', hgrown'⟩ :=
        ih h (fun t ht => hsegs t (List.mem_cons_of_mem _ ht)) hs hstands
      have hne : extend above segment ≠ [] := by simp [extend, hseg.1]
      refine ⟨rfl, hs', hstands', fun i p g hi => hgrown'.kept i p g (hgrown.kept i p g hi),
        fun i p g hi => ?_⟩
      rcases hgrown'.new i p g hi with hi | hp
      · exact (hgrown.new i p g hi).imp_right fun hp => hp.trans (within_foldl_extend hne segs)
      · exact Or.inr hp

/-- `ensure` leaves the path's namespace there, and paths and parents in agreement. -/
theorem ensure_eq_ok (hn : Composition x.nfc) {now path : Text} {id : Int}
    (h : ensure x s now path = .ok (s', id)) (hs : Agrees s.rows) :
    ∃ p, normalize x.nfc path = .ok p ∧ Agrees s'.rows ∧ (∃ g, At s'.rows id p g) ∧ Grown s s' p := by
  obtain ⟨p, hp, h⟩ := Tx.bind_eq_ok.mp h
  obtain ⟨⟨t, reached, current⟩, ht, h⟩ := Tx.bind_eq_ok.mp h
  cases h
  have hnormal := normal_of_normalize hn hp
  obtain ⟨rfl, hs', hstands, hgrown⟩ := ensureSegments_eq_ok ht
    (fun t ht => ⟨(hnormal t ht).1, notMem_of_mem_splitOn ht⟩) hs (Or.inl ⟨rfl, rfl⟩)
  rw [hnormal.foldl_extend] at hstands hgrown
  refine ⟨p, hp, hs', ?_, hgrown⟩
  rcases hstands with ⟨-, rfl⟩ | ⟨-, id, g, rfl, hid⟩
  · exact absurd rfl (hnormal [] (by simp [segments])).1
  · exact ⟨g, hid⟩

/-- A path of a subtree, once the subtree is moved. -/
def rebase (source target path : Text) : Text := target ++ path.drop source.length

@[simp] theorem rebase_append (source target t : Text) : rebase source target (source ++ t) = target ++ t := by
  simp [rebase]

/-- A path below the source is rebased. -/
theorem newPathOf_eq {source target path : Text} (h : Within source path) :
    newPathOf source target path = .ok (rebase source target path) := by
  unfold newPathOf
  rcases within_iff.mp h with rfl | ⟨t, rfl⟩
  · simp [rebase]
  · rw [if_neg (by simp), dropBytes_append, rebase_append]
    rfl

/-- The rows of a move get their new paths, and the others keep theirs. -/
theorem moveRows_eq_ok {source target : Text} {root : Int} {oldParent : Option Int}
    {moved : List (Int × Text)} (h : moved.foldlM (moveRow source target root oldParent) s = .ok s')
    (hids : (moved.map (·.1)).Nodup) (hmoved : ∀ row ∈ moved, Within source row.2) (i : Int) (p : Text)
    (g : Option Int) :
    At s'.rows i p g ↔ ∃ old, At s.rows i old g ∧
      ((∃ row ∈ moved, row.1 = i ∧ p = rebase source target row.2) ∨
        (∀ row ∈ moved, row.1 ≠ i) ∧ p = old) := by
  induction moved generalizing s with
  | nil =>
      cases h
      simp
  | cons row moved ih =>
      rw [List.foldlM_cons] at h
      obtain ⟨t, ht, h⟩ := Tx.bind_eq_ok.mp h
      rw [List.map_cons, List.nodup_cons] at hids
      have hstep : ∀ i p g, At t.rows i p g ↔ ∃ old, At s.rows i old g ∧
          p = if i = row.1 then rebase source target row.2 else old := by
        unfold moveRow at ht
        obtain ⟨path, hpath, ht⟩ := Tx.bind_eq_ok.mp ht
        obtain ⟨u, hu, ht⟩ := Tx.bind_eq_ok.mp ht
        cases ht
        rw [newPathOf_eq (hmoved row List.mem_cons_self)] at hpath
        cases hpath
        intro i p g
        show At u.rows i p g ↔ _
        rw [at_update hu]
        simp
      rw [ih h hids.2 fun r hr => hmoved r (List.mem_cons_of_mem _ hr)]
      have hother : ∀ r ∈ moved, r.1 ≠ row.1 := fun r hr he => hids.1 (he ▸ List.mem_map_of_mem hr)
      simp only [hstep, List.mem_cons, exists_eq_or_imp, forall_eq_or_imp]
      by_cases hi : i = row.1
      · subst hi
        simp only [if_true]
        grind
      · simp only [if_neg hi]
        grind

/-- A look-up at a normal path finds the namespace at it. -/
theorem at_get {path : Text} (hpath : Normal x.nfc path) {id : Int}
    (h : get x.nfc s.rows path = .ok (some id)) : ∃ g, At s.rows id path g := by
  obtain ⟨p, hp, hfound⟩ := Tx.map_eq_ok.mp h
  obtain rfl := hpath.eq hp
  obtain ⟨r, hr, rfl⟩ := Option.map_eq_some_iff.mp hfound
  exact ⟨r.parentId, r, List.mem_of_find?_eq_some hr, rfl, by simpa using List.find?_some hr, rfl⟩

/-- The parent of a path is a segment above it. -/
theorem ensureParent_eq_ok (hn : Composition x.nfc) {now target : Text} {parent : Option Int}
    (h : ensureParent x s now target = .ok (s', parent)) (htarget : Normal x.nfc target) (hs : Agrees s.rows) :
    Agrees s'.rows ∧ Grown s s' target ∧ Below (fun q above => ∃ g, At s'.rows q above g) target parent := by
  unfold ensureParent at h
  split at h
  · next above segment hsplit =>
      obtain ⟨⟨t, id⟩, ht, he⟩ := Tx.map_eq_ok.mp h
      cases he
      obtain ⟨c, hc, rfl, hsegment⟩ := rsplitOnce_eq_some hsplit
      obtain rfl : c = '/' := of_decide_eq_true hc
      obtain ⟨p, hp, hs', ⟨g, hat⟩, hgrown⟩ := ensure_eq_ok hn ht hs
      obtain rfl := htarget.before.eq hp
      have hchild : ChildPath p (p ++ '/' :: segment) :=
        ⟨segment, fun hmem => by simpa using hsegment _ hmem, rfl⟩
      refine ⟨hs', ⟨hgrown.kept, fun i q g hi => ?_⟩, p, ⟨g, hat⟩, hchild⟩
      exact (hgrown.new i q g hi).imp_right fun hq => hq.trans hchild.within
  · next hnone =>
      cases h
      refine ⟨hs, ⟨fun _ _ _ => id, fun _ _ _ => Or.inl⟩, fun hmem => ?_⟩
      rw [rsplitOnce, if_pos (List.any_eq_true.mpr ⟨'/', hmem, by simp⟩)] at hnone
      cases hnone

/-- The path that a pass over the rows below the source gives a row. -/
theorem path_moved {moved : List (Int × Text)} {source target old q : Text} {i : Int}
    (hin : Within source old → (i, old) ∈ moved)
    (hrow : ∀ row ∈ moved, row.1 = i → row.2 = old ∧ Within source old) :
    ((∃ row ∈ moved, row.1 = i ∧ q = rebase source target row.2) ∨ (∀ row ∈ moved, row.1 ≠ i) ∧ q = old) ↔
      q = if Within source old then rebase source target old else old := by
  split
  · next hw =>
      refine ⟨?_, fun hq => Or.inl ⟨_, hin hw, rfl, hq⟩⟩
      rintro (⟨row, hmoved, hid, rfl⟩ | ⟨hnone, -⟩)
      · rw [(hrow row hmoved hid).1]
      · exact absurd rfl (hnone _ (hin hw))
  · next hw =>
      have hnone : ∀ row ∈ moved, row.1 ≠ i := fun row hmoved hid => hw (hrow row hmoved hid).2
      refine ⟨?_, fun hq => Or.inr ⟨hnone, hq⟩⟩
      rintro (⟨row, hmoved, hid, -⟩ | ⟨-, hq⟩)
      · exact absurd hid (hnone row hmoved)
      · exact hq

/-- What a move leaves: below the source the paths are rebased, and the source's row has the parent of the
target. -/
theorem moveSubtree_eq_ok (hn : Composition x.nfc) {now source target : Text} {count : Nat}
    (h : moveSubtree x s now source target = .ok (s', count)) (hs : Agrees s.rows) :
    ∃ (source target : Text) (t : Store) (root : Int) (parent : Option Int),
      ¬ Within source target ∧ Agrees t.rows ∧ (∃ g, At t.rows root source g) ∧
      Below (fun q above => ∃ g, At t.rows q above g) target parent ∧
      ∀ i p g, At s'.rows i p g ↔ ∃ old g₀, At t.rows i old g₀ ∧
        p = (if Within source old then rebase source target old else old) ∧
        g = if i = root then parent else g₀ := by
  obtain ⟨source, hsource, h⟩ := Tx.bind_eq_ok.mp h
  obtain ⟨target, htarget, h⟩ := Tx.bind_eq_ok.mp h
  have hsourceN := normal_of_normalize hn hsource
  have htargetN := normal_of_normalize hn htarget
  split at h
  · cases h
  · next hinto =>
      obtain ⟨found, hfound, h⟩ := Tx.bind_eq_ok.mp h
      split at h
      · cases h
      · next root =>
          obtain ⟨there, -, h⟩ := Tx.bind_eq_ok.mp h
          split at h
          · cases h
          · obtain ⟨moved, hmoved, h⟩ := Tx.bind_eq_ok.mp h
            obtain ⟨⟨⟩, -, h⟩ := Tx.bind_eq_ok.mp h
            obtain ⟨⟨t, parent⟩, ht, h⟩ := Tx.bind_eq_ok.mp h
            obtain ⟨u, hu, h⟩ := Tx.bind_eq_ok.mp h
            obtain ⟨v, hv, h⟩ := Tx.bind_eq_ok.mp h
            cases h
            obtain ⟨hst, hgrown, hparent⟩ := ensureParent_eq_ok hn ht htargetN hs
            have hsep : ¬ Within source target := fun hw => hinto hw
            obtain ⟨gRoot, hroot⟩ := at_get hsourceN hfound
            -- nothing new is below the source: the way to the target does not lead through it
            have hnew : ∀ i p g, At t.rows i p g → Within source p → At s.rows i p g := fun i p g hi hw =>
              (hgrown.new i p g hi).resolve_right fun hp => hsep (hw.trans hp)
            have hids : (s.rows.map (·.id)).Nodup := s.namespaces.nodup
            have hmem : ∀ i p, (i, p) ∈ moved ↔ (∃ g, At s.rows i p g) ∧ Within source p := by
              intro i p
              obtain ⟨p', hp', -⟩ := Tx.map_eq_ok.mp hmoved
              obtain rfl := hsourceN.eq hp'
              exact mem_subtree hids hs hp' hmoved
            have hat := moveRows_eq_ok hu (nodup_subtree hids hmoved) fun row hrow => ((hmem _ _).mp hrow).2
            refine ⟨source, target, t, root, parent, hsep, hst, ⟨gRoot, hgrown.kept _ _ _ hroot⟩, hparent,
              fun i p g => ?_⟩
            have hrow : ∀ {old g}, At t.rows i old g → ∀ row ∈ moved, row.1 = i →
                row.2 = old ∧ Within source old := by
              rintro old g hi ⟨j, q⟩ hmoved rfl
              obtain ⟨⟨g', hj⟩, hw⟩ := (hmem _ _).mp hmoved
              obtain ⟨rfl, -⟩ := At.unique t.namespaces.nodup (hgrown.kept _ _ _ hj) hi
              exact ⟨rfl, hw⟩
            have hpath : ∀ {old g q}, At t.rows i old g →
                (((∃ row ∈ moved, row.1 = i ∧ q = rebase source target row.2) ∨
                  (∀ row ∈ moved, row.1 ≠ i) ∧ q = old) ↔
                q = if Within source old then rebase source target old else old) := fun hi =>
              path_moved (fun hw => (hmem _ _).mpr ⟨⟨_, hnew _ _ _ hi hw⟩, hw⟩) (hrow hi)
            rw [at_update hv]
            simp only [hat, Option.getD_none, Option.getD_some, ite_self]
            constructor
            · rintro ⟨q, g₀, ⟨old, hi, hq⟩, rfl, rfl⟩
              exact ⟨old, g₀, hi, (hpath hi).mp hq, rfl⟩
            · rintro ⟨old, g₀, hi, hq, rfl⟩
              exact ⟨p, g₀, ⟨old, hi, (hpath hi).mpr hq⟩, rfl, rfl⟩

/-- A move keeps paths and parents in agreement. -/
theorem agrees_moveSubtree (hn : Composition x.nfc) {now source target : Text} {count : Nat}
    (h : moveSubtree x s now source target = .ok (s', count)) (hs : Agrees s.rows) : Agrees s'.rows := by
  obtain ⟨source, target, t, root, parent, hsep, ht, ⟨gRoot, hroot⟩, hparent, hat⟩ := moveSubtree_eq_ok hn h hs
  rw [agrees_iff] at ht ⊢
  intro i p g hafter
  obtain ⟨old, g₀, hi, rfl, rfl⟩ := (hat i p g).mp hafter
  by_cases hid : i = root
  · -- the root goes below the target's parent, which does not move
    subst hid
    obtain ⟨rfl, -⟩ := At.unique t.namespaces.nodup hroot hi
    rw [if_pos (Within.refl _), if_pos rfl]
    have hrebase : rebase source target source = target := by simp [rebase]
    rw [hrebase]
    cases parent with
    | none => exact hparent
    | some q =>
        obtain ⟨above, ⟨g, hq⟩, hchild⟩ := hparent
        have hstays : ¬ Within source above := fun hw => hsep (hw.trans hchild.within)
        exact ⟨above, ⟨_, (hat _ _ _).mpr ⟨above, g, hq, by rw [if_neg hstays], rfl⟩⟩, hchild⟩
  · rw [if_neg hid]
    have hne : old ≠ source := by
      rintro rfl
      obtain ⟨r, hr, rfl, hrpath, -⟩ := hi
      obtain ⟨r', hr', rfl, hrpath', -⟩ := hroot
      exact hid (by rw [List.inj_on_of_nodup_map t.namespaces.unique hr hr' (hrpath.trans hrpath'.symm)])
    cases g₀ with
    | none =>
        have hflat : '/' ∉ old := ht i old none hi
        have hstays : ¬ Within source old := fun hw => hne (hw.eq_of_notMem hflat)
        rw [if_neg hstays]
        exact hflat
    | some q =>
        obtain ⟨above, ⟨g, hq⟩, hchild⟩ := ht i old (some q) hi
        refine ⟨_, ⟨_, (hat _ _ _).mpr ⟨above, g, hq, rfl, rfl⟩⟩, ?_⟩
        by_cases hw : Within source above
        · rw [if_pos hw, if_pos (hw.trans hchild.within)]
          obtain ⟨segment, hseg, rfl⟩ := hchild
          obtain ⟨u, rfl⟩ : ∃ u, above = source ++ u := by
            rcases within_iff.mp hw with rfl | ⟨u, rfl⟩
            · exact ⟨[], by simp⟩
            · exact ⟨_, rfl⟩
          exact ⟨segment, hseg, by rw [List.append_assoc, rebase_append, rebase_append, List.append_assoc]⟩
        · have hstays : ¬ Within source old := fun hold => hw ((hold.parent hchild).resolve_left hne)
          rw [if_neg hw, if_neg hstays]
          exact hchild

/-- A removal takes a namespace that has none below it. -/
theorem agrees_remove {path : Text} (h : remove x s path = .ok s') (hs : Agrees s.rows) : Agrees s'.rows := by
  obtain ⟨p, -, h⟩ := Tx.bind_eq_ok.mp h
  obtain ⟨found, -, h⟩ := Tx.bind_eq_ok.mp h
  split at h
  · cases h
  · next id =>
      dsimp only at h
      split at h
      · cases h
      · split at h
        · cases h
        · split at h
          · cases h
          · obtain ⟨t, ht, rfl⟩ := Tx.map_eq_ok.mp h
            have hat : ∀ i p g, At t.rows i p g ↔ At s.rows i p g ∧ i ≠ id := fun i p g => at_deleteRow ht
            show Agrees t.rows
            rw [agrees_iff] at hs ⊢
            intro i p g hi
            have hbelow := hs i p g ((hat i p g).mp hi).1
            cases g with
            | none => exact hbelow
            | some q =>
                obtain ⟨above, ⟨g, hq⟩, hchild⟩ := hbelow
                obtain ⟨u, g', hu⟩ := exists_parent hi
                exact ⟨above, ⟨g, (hat _ _ _).mpr ⟨hq, ((hat _ _ _).mp hu).2⟩⟩, hchild⟩

/-- Every writer keeps paths and parents in agreement. -/
theorem agrees_write (hn : Composition x.nfc) {w : Write} (h : w.run x s = .ok s') (hs : Agrees s.rows) :
    Agrees s'.rows := by
  cases w with
  | ensure now path =>
      obtain ⟨⟨t, id⟩, ht, rfl⟩ := Tx.map_eq_ok.mp h
      obtain ⟨_, -, hs', -⟩ := ensure_eq_ok hn ht hs
      exact hs'
  | moveSubtree now source target =>
      obtain ⟨⟨t, count⟩, ht, rfl⟩ := Tx.map_eq_ok.mp h
      exact agrees_moveSubtree hn ht hs
  | remove path => exact agrees_remove h hs

/-- So do many. -/
theorem agrees_writes (hn : Composition x.nfc) {writes : List Write}
    (h : writes.foldlM (Write.run x) s = .ok s') (hs : Agrees s.rows) : Agrees s'.rows := by
  induction writes generalizing s with
  | nil =>
      cases h
      exact hs
  | cons w writes ih =>
      rw [List.foldlM_cons] at h
      obtain ⟨t, ht, h⟩ := Tx.bind_eq_ok.mp h
      exact ih h (agrees_write hn ht hs)

end Writers

end Jkb.Ns
