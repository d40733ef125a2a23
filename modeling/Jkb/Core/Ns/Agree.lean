import Jkb.Core.Ns.Writers

/-!
# Jkb.Core.Ns.Agree

Paths and parents agree, through writers and undo. An undo puts paths and parents back where its transaction's
before-states say, whatever has been made, moved or put back under them since, or done to the parents above
them. `agrees_iff_fits` says which undos leave the agreement, from the state before, and
`agrees_throughout_iff` is the agreement over runs.
-/

namespace Jkb.Ns

open Jkb.Text

/-! ## undo -/

/-- Where the before-states of a transaction's changes, oldest first, put a namespace: under the path and the
parent that the oldest names, and as it is where none does. -/
def recorded (s : Store) : List Change → Int → Option (Text × Option Int)
  | [], id => (s.namespaces.toTable.find? id).map fun r => (r.path, r.parentId)
  | .insert _ :: later, id => recorded s later id
  | .update target before :: later, id =>
      if target = id then
        (recorded s later id).map fun r => (before.path.getD r.1, before.parentId.getD r.2)
      else recorded s later id
  | .delete r :: later, id => if r.id = id then some (r.path, r.parentId) else recorded s later id

/-- Whether a namespace that a transaction made goes with its undo: nothing is placed or mounted on it, and
every namespace that the later changes leave under it goes too. -/
def Removes (s : Store) : List Change → Int → Prop
  | [], _ => False
  | .insert target :: later, id => Removes s later id ∨
      (target = id ∧ id ∉ s.placements ∧ id ∉ s.mounts ∧
        ∀ child path, recorded s later child = some (path, some id) → Removes s later child)
  | .update _ _ :: later, id => Removes s later id
  | .delete r :: later, id => r.id ≠ id ∧ Removes s later id

/-- Whether a change's before-state says where a namespace is. -/
def Change.Names (id : Int) : Change → Prop
  | .insert _ => False
  | .update target before => target = id ∧ (before.path.isSome ∨ before.parentId.isSome)
  | .delete r => r.id = id

/-- Whether a transaction moved or removed a namespace, so that its undo puts it back. -/
def Restores (changes : List Change) (id : Int) : Prop := ∃ e ∈ changes, e.Names id

/-- **Whether a transaction's before-states fit the tree.** Each namespace that it moved or removed goes back
a segment below where its parent goes back to, or is; and each that it did not, but which lies under one that
it moved, is a segment below where that one goes back to. -/
structure Fits (s : Store) (changes : List Change) : Prop where
  restored : ∀ id path parent, Restores changes id → ¬ Removes s changes id →
    recorded s changes id = some (path, parent) →
      Below (fun q above => ∃ g, recorded s changes q = some (above, g)) path parent
  kept : ∀ r ∈ s.rows, ¬ Restores changes r.id → ¬ Removes s changes r.id → ∀ q, r.parentId = some q →
    Restores changes q → ∀ above g, recorded s changes q = some (above, g) → ChildPath above r.path

section Undo

variable {s s' : Store}

/-- Where nothing is recorded, a namespace is where it is. -/
theorem recorded_nil {id : Int} {p : Text} {g : Option Int} :
    recorded s [] id = some (p, g) ↔ At s.rows id p g := by
  simp only [recorded, Option.map_eq_some_iff, Table.find?_eq_some, At, Store.rows, Prod.mk.injEq]
  constructor
  · rintro ⟨r, ⟨hr, hid⟩, hp, hg⟩
    exact ⟨r, hr, hid, hp, hg⟩
  · rintro ⟨r, hr, hid, hp, hg⟩
    exact ⟨r, ⟨hr, hid⟩, hp, hg⟩

/-- A namespace that no change names is recorded as it is. -/
theorem recorded_of_not_restores {changes : List Change} {id : Int} (h : ¬ Restores changes id) :
    recorded s changes id = recorded s [] id := by
  induction changes with
  | nil => rfl
  | cons e later ih =>
      have hlater := ih fun ⟨e, he, hn⟩ => h ⟨e, List.mem_cons_of_mem _ he, hn⟩
      have hnot : ¬ e.Names id := fun hn => h ⟨e, List.mem_cons_self, hn⟩
      cases e with
      | insert target => exact hlater
      | delete r =>
          have hne : ¬ r.id = id := hnot
          simp only [recorded, if_neg hne, hlater]
      | update target before =>
          simp only [recorded, hlater]
          split
          · next htarget =>
              obtain ⟨hpath, hparent⟩ := not_or.mp fun hn => hnot ⟨htarget, hn⟩
              rw [Option.not_isSome_iff_eq_none] at hpath hparent
              simp [hpath, hparent, Function.comp_def]
          · rfl

/-- Inverting one change leaves what the before-states say with it, of the later changes' being inverted. -/
theorem at_invert {t : Store} {e : Change} {later : List Change} (h : invert s e = .ok s')
    (hplaced : s.placements = t.placements ∧ s.mounts = t.mounts)
    (hat : ∀ i p g, At s.rows i p g ↔ recorded t later i = some (p, g) ∧ ¬ Removes t later i) :
    (s'.placements = t.placements ∧ s'.mounts = t.mounts) ∧
      ∀ i p g, At s'.rows i p g ↔ recorded t (e :: later) i = some (p, g) ∧ ¬ Removes t (e :: later) i := by
  cases e with
  | insert target =>
      have hoccupied : namespaceIsOccupied s target = true ↔
          target ∈ t.placements ∨ target ∈ t.mounts ∨
            ∃ c p, recorded t later c = some (p, some target) ∧ ¬ Removes t later c := by
        simp only [← hat, namespaceIsOccupied, Bool.or_eq_true, List.any_eq_true, decide_eq_true_eq,
          List.contains_iff_mem, hplaced.1, hplaced.2, At]
        grind
      rw [invert] at h
      split at h
      · next hocc =>
          cases h
          refine ⟨hplaced, fun i p g => (hat i p g).trans (and_congr_right fun _ => ?_)⟩
          rw [Removes, not_or, iff_self_and]
          rintro hgone ⟨rfl, hp, hm, hall⟩
          rcases hoccupied.mp hocc with h | h | ⟨c, p, hc, hleft⟩
          · exact hp h
          · exact hm h
          · exact hleft (hall c p hc)
      · next hocc =>
          have hfree := fun h => hocc (hoccupied.mpr h)
          obtain ⟨hp, hrest⟩ := not_or.mp hfree
          obtain ⟨hm, hall⟩ := not_or.mp hrest
          have hframe : s'.placements = s.placements.filter (· ≠ target) ∧
              s'.mounts = s.mounts.filter (· ≠ target) := by
            obtain ⟨n, -, rfl⟩ := Tx.map_eq_ok.mp h
            exact ⟨rfl, rfl⟩
          refine ⟨⟨?_, ?_⟩, fun i p g => ?_⟩
          · rw [hframe.1, hplaced.1, List.filter_eq_self]
            exact fun a ha => decide_eq_true fun he => hp (he ▸ ha)
          · rw [hframe.2, hplaced.2, List.filter_eq_self]
            exact fun a ha => decide_eq_true fun he => hm (he ▸ ha)
          · rw [at_deleteRow h, hat, recorded, Removes]
            grind
  | update target before =>
      rw [invert] at h
      split at h
      · have hframe : s'.placements = s.placements ∧ s'.mounts = s.mounts := by
          obtain ⟨n, -, rfl⟩ := Tx.map_eq_ok.mp h
          exact ⟨rfl, rfl⟩
        refine ⟨⟨hframe.1.trans hplaced.1, hframe.2.trans hplaced.2⟩, fun i p g => ?_⟩
        rw [at_update h, recorded, Removes]
        simp only [hat]
        by_cases hi : target = i
        · subst hi
          simp only [if_true, Option.map_eq_some_iff, Prod.mk.injEq, Prod.exists]
          grind
        · have hne : i ≠ target := fun he => hi he.symm
          simp only [if_neg hi, if_neg hne]
          grind
      · cases h
  | delete r =>
      rw [invert] at h
      have hframe : s'.placements = s.placements ∧ s'.mounts = s.mounts := by
        unfold Store.insertRow at h
        split at h
        · cases h
        · obtain ⟨n, -, rfl⟩ := Tx.map_eq_ok.mp h
          exact ⟨rfl, rfl⟩
      obtain ⟨hfree, hrows⟩ := at_insertRow h
      refine ⟨⟨hframe.1.trans hplaced.1, hframe.2.trans hplaced.2⟩, fun i p g => ?_⟩
      rw [hrows, recorded, Removes]
      by_cases hi : r.id = i
      · subst hi
        simp only [hfree, false_or, true_and, if_true, ne_eq, not_true_eq_false, false_and,
          not_false_eq_true, and_true, Option.some.injEq, Prod.mk.injEq]
        grind
      · have hne : i ≠ r.id := fun he => hi he.symm
        rw [if_neg hi, hat]
        simp only [hne, hi, false_and, or_false, ne_eq, not_false_eq_true, true_and]

/-- **What an undo leaves**: the namespaces that it does not remove, where the before-states put them. -/
theorem at_undo {changes : List Change} (h : changes.reverse.foldlM invert s = .ok s') (i : Int) (p : Text)
    (g : Option Int) :
    At s'.rows i p g ↔ recorded s changes i = some (p, g) ∧ ¬ Removes s changes i := by
  have hboth : (s'.placements = s.placements ∧ s'.mounts = s.mounts) ∧ ∀ i p g,
      At s'.rows i p g ↔ recorded s changes i = some (p, g) ∧ ¬ Removes s changes i := by
    induction changes generalizing s' with
    | nil =>
        cases h
        exact ⟨⟨rfl, rfl⟩, fun i p g => by simp [recorded_nil, Removes]⟩
    | cons e later ih =>
        rw [List.reverse_cons, List.foldlM_append] at h
        obtain ⟨t, ht, h⟩ := Tx.bind_eq_ok.mp h
        rw [List.foldlM_cons] at h
        obtain ⟨u, hu, h⟩ := Tx.bind_eq_ok.mp h
        cases h
        obtain ⟨hplaced, hat⟩ := ih ht
        exact at_invert hu hplaced hat
  exact hboth.2 i p g

/-- **Paths and parents agree after an undo if and only if it fits** the tree it is made in. -/
theorem agrees_iff_fits {changes : List Change} (h : changes.reverse.foldlM invert s = .ok s')
    (hs : Agrees s.rows) : Agrees s'.rows ↔ Fits s changes := by
  have hat := at_undo h
  -- a parent is there after the undo, so where it goes is what is recorded of it
  have hparent : ∀ i p q, At s'.rows i p (some q) → ∀ t g, recorded s changes q = some (t, g) →
      ∃ g, At s'.rows q t g := by
    intro i p q hi t g hq
    obtain ⟨t', g', hq'⟩ := exists_parent hi
    obtain ⟨rfl, rfl⟩ : t' = t ∧ g' = g := by simpa [((hat q t' g').mp hq').1] using hq
    exact ⟨_, hq'⟩
  constructor
  · intro hs'
    rw [agrees_iff] at hs'
    constructor
    · intro id path parent _ hleft hrec
      refine (hs' id path parent ((hat id path parent).mpr ⟨hrec, hleft⟩)).imp ?_
      rintro q t ⟨g, hq⟩
      exact ⟨g, ((hat q t g).mp hq).1⟩
    · intro r hr hnot hleft q hq _ above g habove
      have hrow : At s'.rows r.id r.path (some q) := by
        rw [hat, recorded_of_not_restores hnot, recorded_nil]
        exact ⟨⟨r, hr, rfl, rfl, hq⟩, hleft⟩
      obtain ⟨t, ⟨g', ht⟩, hchild⟩ := hs' _ _ _ hrow
      obtain ⟨rfl, -⟩ : t = above ∧ g' = g := by simpa [((hat q t g').mp ht).1] using habove
      exact hchild
  · intro hfits
    rw [agrees_iff]
    intro id path parent hid
    obtain ⟨hrec, hleft⟩ := (hat id path parent).mp hid
    by_cases hrest : Restores changes id
    · have hbelow := hfits.restored id path parent hrest hleft hrec
      cases parent with
      | none => exact hbelow
      | some q =>
          obtain ⟨above, ⟨g, hq⟩, hchild⟩ := hbelow
          exact ⟨above, hparent id path q hid above g hq, hchild⟩
    · rw [recorded_of_not_restores hrest, recorded_nil] at hrec
      have hbelow := agrees_iff.mp hs id path parent hrec
      cases parent with
      | none => exact hbelow
      | some q =>
          obtain ⟨above, ⟨g, hq⟩, hchild⟩ := hbelow
          by_cases hqrest : Restores changes q
          · obtain ⟨r, hr, rfl, rfl, hrq⟩ := hrec
            obtain ⟨t, g', ht⟩ := exists_parent hid
            exact ⟨t, ⟨g', ht⟩, hfits.kept r hr hrest hleft q hrq hqrest t g' ((hat q t g').mp ht).1⟩
          · rw [← recorded_nil, ← recorded_of_not_restores hqrest] at hq
            exact ⟨above, hparent id path q hid above g hq, hchild⟩

end Undo

/-! ## runs -/

/-- Whether an operation, where it undoes a transaction and is not refused, undoes one that fits. -/
def FitsStep (s : Sys) (o : Op) : Prop :=
  ∀ target, o.target s = some target → ∀ after, s.journal.undo invert s.store target = .ok after →
    Fits s.store (s.journal.changesOf target)

/-- **When an undo keeps the agreement**: it is refused, or what it puts back fits. -/
theorem agrees_undo_iff {s : Sys} {target : Nat} (hs : Agrees s.store.rows) :
    Agrees (s.undo target).store.rows ↔ ∀ after, s.journal.undo invert s.store target = .ok after →
      Fits s.store (s.journal.changesOf target) := by
  unfold Sys.undo
  split
  · next store journal hundo =>
      rw [agrees_iff_fits (Journal.undo_eq_ok hundo).1 hs]
      exact ⟨fun h _ _ => h, fun h => h _ hundo⟩
  · next hrefused =>
      refine iff_of_true hs fun after hafter => ?_
      rw [hafter] at hrefused
      cases hrefused

/-- A step keeps paths and parents in agreement if and only if it undoes nothing that does not fit. -/
theorem agrees_next_iff {x : Outside} (hn : Composition x.nfc) {s : Sys} {o : Op} (hs : Agrees s.store.rows) :
    Agrees (next x s o).store.rows ↔ FitsStep s o := by
  have hundo : ∀ target, o.target s = some target → next x s o = s.undo target →
      (Agrees (next x s o).store.rows ↔ FitsStep s o) := by
    intro target htarget hnext
    rw [hnext, agrees_undo_iff hs]
    exact ⟨fun h t ht => Option.some.inj (htarget.symm.trans ht) ▸ h, fun h => h target htarget⟩
  have hother : o.target s = none → Agrees (next x s o).store.rows →
      (Agrees (next x s o).store.rows ↔ FitsStep s o) := fun htarget h =>
    iff_of_true h fun t ht => absurd (htarget.symm.trans ht) (by simp)
  cases o with
  | txn writes =>
      refine hother rfl ?_
      simp only [next]
      split
      · next store hwrites => exact @agrees_writes x _ store hn writes hwrites hs
      · exact hs
  | undo target => exact hundo target rfl rfl
  | undoLast =>
      cases hlast : s.journal.lastTxn with
      | none =>
          have hnext : next x s .undoLast = s := by simp only [next, hlast, Option.map_none, Option.getD_none]
          exact hother hlast (by rwa [hnext])
      | some target => exact hundo target hlast (by simp only [next, hlast, Option.map_some, Option.getD_some])
  | occupy placements mounts => exact hother rfl hs

/-- **Paths and parents agree throughout a run, if and only if its undos fit.** Then a subtree, which is
walked along the parents, is the rows that begin with its path and a slash. -/
theorem agrees_throughout_iff {x : Outside} (hn : Composition x.nfc) {s : Sys} (hs : Agrees s.store.rows)
    (ops : List Op) :
    Run.Throughout (next x) (fun s => Agrees s.store.rows ∧ SubtreeByPath x.nfc s.store.rows) s ops ↔
      Run.EveryStep (next x) FitsStep s ops := by
  have hboth : ∀ s : Sys, Agrees s.store.rows →
      Agrees s.store.rows ∧ SubtreeByPath x.nfc s.store.rows := fun s hs =>
    ⟨hs, subtreeByPath s.store.namespaces.nodup hs⟩
  refine @Run.throughout_iff_everyStep _ _ (next x)
    (fun s => Agrees s.store.rows ∧ SubtreeByPath x.nfc s.store.rows) FitsStep (fun s o hs => ?_) s
    (hboth s hs) ops
  rw [← agrees_next_iff hn hs.1]
  exact ⟨And.left, hboth _⟩

/-! ## a store whose undos need not fit -/

/-- The namespaces that a new store has. -/
def seeded : Store where
  namespaces :=
    { rows := [
        ⟨1, "_sys".toList, none, .system, "\x7b\x7d".toList, []⟩,
        ⟨2, "_sys/transactions".toList, some 1, .system, "\x7b\x7d".toList, []⟩,
        ⟨3, "_sys/ingestions".toList, some 1, .system, "\x7b\x7d".toList, []⟩,
        ⟨4, "_sys/sync".toList, some 1, .system, "\x7b\x7d".toList, []⟩]
      nodup := by decide
      last := 4
      le_last := by decide
      unique := by decide
      linked := by decide }
  placements := []
  mounts := []
  log := []

/-- Texts that are composed as they are, and metadata that is typed. -/
def plain : Outside := ⟨id, fun _ => true, fun metadata _ => metadata⟩

theorem composition_plain : Composition plain.nfc := ⟨fun _ => id, fun _ => id, fun _ => rfl⟩

/-- A namespace is made and moved, another is made under it, and the move is undone. -/
def undoneMove : List Op := [
  .txn [.ensure [] "a".toList],
  .txn [.moveSubtree [] "a".toList "b".toList],
  .txn [.ensure [] "b/y".toList],
  .undo 2]

theorem agrees_throughout_undoneMove : Agrees seeded.rows ∧
    (Run.Throughout (next plain) (fun s => Agrees s.store.rows ∧ SubtreeByPath plain.nfc s.store.rows)
      ⟨seeded, .empty⟩ undoneMove ↔ Run.EveryStep (next plain) FitsStep ⟨seeded, .empty⟩ undoneMove) :=
  ⟨by decide, agrees_throughout_iff (s := ⟨seeded, .empty⟩) composition_plain (by decide) undoneMove⟩

/-- The namespace that was made under the moved one keeps the path it was made with, under the path the moved
one has back. -/
theorem undone_move_disagrees :
    ¬ Agrees (Run.run (next plain) ⟨seeded, .empty⟩ undoneMove).store.rows ∧
      (Run.run (next plain) ⟨seeded, .empty⟩ undoneMove).store.rows.map
        (fun r => (r.id, r.path, r.parentId)) =
        seeded.rows.map (fun r => (r.id, r.path, r.parentId)) ++
          [(5, "a".toList, none), (6, "b/y".toList, some 5)] := by
  decide +kernel

end Jkb.Ns
