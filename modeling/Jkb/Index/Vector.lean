import Jkb.Core.Item
import Jkb.Run
import Jkb.Text

/-!
# Jkb.Index.Vector

The vector index. An item waits for the embedder if it has no vector, or no record that its vector was computed
from the revision it is at; nothing is ever marked. Embedding is slow and runs outside any transaction, so an
item can be edited, removed or put back between being read for it and its vector being stored:
`upsertVector` stores nothing for an item that is not at the revision that was read.

`Fresh` is what every step keeps of the tables, of the changes that may still be undone, and of what embedding
runs have read: a revision of an item is never of two texts.
-/

namespace Jkb.Index

open Jkb.Text Jkb.Item

/-! ## the index -/

/-- The item kind of a whole source document. -/
def KIND_DOCUMENT : Text := "document".toList

section Index

variable {V : Type} (s : Store V)

/-- Whether an item needs a vector. **The** pending rule. -/
def pendingPredicate (i : ItemRow) : Bool :=
  i.content.isSome &&
    (!(s.vectors.rows.any fun v => v.itemId = i.id) ||
      !(s.sources.rows.any fun r => r.itemId = i.id && r.contentRev = i.contentRev))

/-- Forget which text every vector was computed from. -/
def forgetSources : Store V := { s with sources := .empty }

/-- Delete every vector, and forget where they were from. -/
def clear : Store V := forgetSources { s with vectors := .empty }

/-- Delete an item's vector. -/
def removeVector (id : Int) : Store V :=
  { s with vectors := s.vectors.deleteWhere (·.itemId = id) }

/-- Delete the vectors whose item is gone. -/
def dropOrphanVectors : Store V :=
  { s with vectors := s.vectors.deleteWhere fun v => (s.item? v.itemId).isNone }

/-- The next `seq`. -/
def nextSeq : Int := ((s.sources.rows.map (·.seq)).max?).getD 0 + 1

/-- Add or replace the vector of an item that is still at revision `rev`, and record where it is from. -/
def upsertVector (id rev : Int) (embedding : V) : Store V × Bool :=
  match s.item? id with
  | none => (s, false)
  | some i =>
      if i.contentRev = rev then
        let vectors := (s.vectors.deleteWhere (·.itemId = id)).insert ⟨id, embedding⟩ (by simp)
        let seq := nextSeq s
        let sources := s.sources.upsert ⟨id, rev, seq⟩ (fun _ => true)
          (fun r => { r with contentRev := rev, seq }) fun _ => rfl
        ({ s with vectors, sources }, true)
      else (s, false)

/-- The vectors stored for some items. -/
def vectorsFor (ids : List Int) : List (VectorRow V) := s.vectors.rows.filter fun v => v.itemId ∈ ids

end Index

/-- What an upsert leaves: the vector in its place, and where it is from. -/
theorem upsertVector_eq_true {V : Type} {s s' : Store V} {id rev : Int} {embedding : V}
    (h : upsertVector s id rev embedding = (s', true)) :
    (∃ i ∈ s.items.rows, i.id = id ∧ i.contentRev = rev) ∧ s'.items = s.items ∧ s'.edges = s.edges ∧
      s'.log = s.log ∧
      (∀ v, v ∈ s'.vectors.rows ↔ v ∈ s.vectors.rows ∧ v.itemId ≠ id ∨ v = ⟨id, embedding⟩) ∧
      (∀ r, r ∈ s'.sources.rows ↔ r ∈ s.sources.rows ∧ r.itemId ≠ id ∨ r = ⟨id, rev, nextSeq s⟩) := by
  unfold upsertVector at h
  split at h
  · cases h
  · next i hi =>
      split at h
      · next hrev =>
          cases h
          obtain ⟨hmem, hid⟩ := Table.find?_eq_some.mp hi
          refine ⟨⟨i, hmem, hid, hrev⟩, rfl, rfl, rfl, fun v => by simp, fun r => ?_⟩
          exact Table.mem_upsert_self fun y hy => by
            cases y
            cases hy
            rfl
      · cases h

/-- Neither the items nor the edges, nor the log, are touched. -/
theorem upsertVector_frame {V : Type} (s : Store V) (id rev : Int) (embedding : V) :
    (upsertVector s id rev embedding).1.items = s.items ∧
      (upsertVector s id rev embedding).1.edges = s.edges ∧
      (upsertVector s id rev embedding).1.log = s.log := by
  unfold upsertVector
  split
  · exact ⟨rfl, rfl, rfl⟩
  · split <;> exact ⟨rfl, rfl, rfl⟩

theorem removeVectors_frame {V : Type} (s : Store V) (ids : List Int) :
    (ids.foldl removeVector s).items = s.items ∧ (ids.foldl removeVector s).vectors.rows ⊆ s.vectors.rows ∧
      (ids.foldl removeVector s).sources = s.sources ∧ (ids.foldl removeVector s).log = s.log := by
  induction ids generalizing s with
  | nil => exact ⟨rfl, List.Subset.refl _, rfl, rfl⟩
  | cons id ids ih =>
      obtain ⟨hitems, hsub, hsources, hlog⟩ := ih (removeVector s id)
      exact ⟨hitems, fun v hv => (Table.mem_deleteWhere.mp (hsub hv)).1, hsources, hlog⟩

end Jkb.Index
