import Jkb.Text

/-!
# Jkb.Paths

Paths as the standard library of the language compares and joins them: by their components. An empty part, and a `.`
that is not the first, are no components, so they are not told apart from their absence.
-/

namespace Jkb

/-- A part of a path that names something. -/
structure Name where
  text : Text
  plain : text ≠ [] ∧ text ≠ ['.'] ∧ text ≠ ['.', '.'] ∧ '/' ∉ text
deriving Repr, DecidableEq

/-- A part of a path. The root is a first part only, and so is a `.`. -/
inductive Component where
  | rootDir
  | curDir
  | parentDir
  | normal (name : Name)
deriving Repr, DecidableEq

/-- A path, as its components. -/
abbrev Path := List Component

namespace Path

/-- What stands between two slashes: nothing, for an empty part and a `.`. -/
def component (t : Text) : Option Component :=
  if h : t ≠ [] ∧ t ≠ ['.'] ∧ t ≠ ['.', '.'] ∧ '/' ∉ t then some (.normal ⟨t, h⟩)
  else if t = ['.', '.'] then some .parentDir
  else none

/-- `Path::components`. -/
def ofText : Text → Path
  | '/' :: rest => .rootDir :: (rest.splitOn '/').filterMap component
  | t =>
      match t.splitOn '/' with
      | ['.'] :: parts => .curDir :: parts.filterMap component
      | parts => parts.filterMap component

def isAbsolute (p : Path) : Bool := p.head? = some .rootDir

/-- `Path::join`: an absolute path replaces what it is joined to. -/
def join (p q : Path) : Path :=
  if isAbsolute q || p.isEmpty then q else p ++ q.filter (· ≠ .curDir)

/-- Below a directory, and not the directory. -/
def Beneath (p dir : Path) : Prop := ∃ part rest, p = dir ++ part :: rest

/-- `Path::starts_with`, and not equal. -/
theorem beneath_iff {p dir : Path} : Beneath p dir ↔ dir.isPrefixOf p = true ∧ p ≠ dir := by
  rw [List.isPrefixOf_iff_prefix]
  constructor
  · rintro ⟨part, rest, rfl⟩
    exact ⟨List.prefix_append dir _, by simp⟩
  · rintro ⟨⟨rest, rfl⟩, hne⟩
    cases rest with
    | nil => exact absurd (List.append_nil dir) hne
    | cons part rest => exact ⟨part, rest, rfl⟩

instance (p dir : Path) : Decidable (Beneath p dir) := decidable_of_iff _ beneath_iff.symm

end Path

end Jkb
