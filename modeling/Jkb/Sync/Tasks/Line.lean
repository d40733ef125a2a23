import Jkb.Core.Dsl
import Jkb.Sync.Doc

/-!
# Jkb.Sync.Tasks.Line

The lines of a `tasks.md`: which are headers, which are task lines, and how the text after a checkbox
splits into a title, trailing modifiers and the task's own `^id`.
-/

namespace Jkb.Sync.Tasks

open Jkb.Text Jkb.Dsl

/-- What the serializer takes from elsewhere: the Unicode tables, and the digest of a text as
lowercase hexadecimal digits. -/
structure Lib extends Tables where
  hashHex : Text → Text
  hash_length : ∀ t, (hashHex t).length = 64
  hash_digits : ∀ t, ∀ c ∈ hashHex t, c.isLower || c.isDigit
  hash_ascii : ∀ t, ∀ c ∈ hashHex t, c.toNat < 128

/-- ASCII's tables, with a digest that tells no texts apart. -/
def asciiLib : Lib where
  toTables := asciiTables
  hashHex _ := List.replicate 64 '0'
  hash_length _ := List.length_replicate
  hash_digits _ c hc := by rw [List.eq_of_mem_replicate hc]; rfl
  hash_ascii _ c hc := by rw [List.eq_of_mem_replicate hc]; decide

variable (lib : Lib)

/-! ## modifiers -/

/-- A local id: not empty, dashes and slug characters only. -/
def isUriSafe (s : Text) : Bool := s ≠ [] && s.all fun c => c == '-' || lib.isSlugChar c

/-- A well-formed trailing modifier on a task line. -/
inductive Modifier where
  | priority (p : Int)
  | due (d : Text)
  | tag (facet value : Text)
  | mirror (ns : Text)
  | dep (id : Text)
  | own (id : Text)
deriving Repr, DecidableEq

/-- `needs:^`. -/
def needsPrefix : Text := ['n', 'e', 'e', 'd', 's', ':', '^']

/-- A tag's facet and value, both there. -/
def splitTag (v : Text) : Option Modifier :=
  match splitOnce '=' v with
  | some (facet, value) => if facet ≠ [] ∧ value ≠ [] then some (.tag facet value) else none
  | none => none

/-- Classify one token as a modifier, or as ordinary title text. -/
def classify (token : Text) : Option Modifier :=
  match stripPrefix ['!', 'p'] token with
  | some v => (parseI64 v).map .priority
  | none =>
    match stripPrefix needsPrefix token with
    | some v => if v ≠ [] then some (.dep v) else none
    | none =>
      match token with
      | '@' :: v => if v ≠ [] then some (.due v) else none
      | '#' :: v => splitTag v
      | '+' :: v => if v ≠ [] then some (.mirror v) else none
      | '^' :: v => if isUriSafe lib v then some (.own v) else none
      | _ => none

/-- A parsed task line's modifiers. -/
structure TaskTokens where
  title : Text
  priority : Option Int := none
  due : Option Text := none
  tags : List (Text × Text) := []
  mirrors : List Text := []
  deps : List Text := []
  ownId : Option Text := none
deriving Repr, DecidableEq

/-- Take one token's modifier in. -/
def TaskTokens.add (out : TaskTokens) : Option Modifier → TaskTokens
  | some (.priority p) => { out with priority := some p }
  | some (.due d) => { out with due := some d }
  | some (.tag f v) => { out with tags := out.tags ++ [(f, v)] }
  | some (.mirror m) => { out with mirrors := out.mirrors ++ [m] }
  | some (.dep d) => { out with deps := out.deps ++ [d] }
  | some (.own id) => { out with ownId := some id }
  | none => out

/-! ## the trailing anchor -/

/-- The last whitespace-delimited word of a text, and what stands before it. -/
def lastWord (head : Text) : Text × Text := (rsplitOnce isWhitespace head).getD ([], head)

/-- The id of an anchor `^id`. -/
def anchorId (word : Text) : Option Text :=
  match word with
  | '^' :: id => if isUriSafe lib id then some id else none
  | _ => none

/-- Peel trailing anchors, keeping the left-most. Each is at least two characters long, so the length
of the text is enough of them. -/
def peelAnchors : Nat → Text → Option Text → Text × Option Text
  | 0, head, anchor => (head, anchor)
  | fuel + 1, head, anchor =>
      match anchorId lib (lastWord head).2 with
      | some id => peelAnchors fuel (trimEnd (lastWord head).1) (some id)
      | none => (head, anchor)

/-- Peel every trailing anchor off a line: what is left of it, and the task's identity. -/
def splitTrailingAnchor (rest : Text) : Text × Option Text :=
  match peelAnchors lib rest.length (trimEnd rest) none with
  | (head, some id) => (head, some id)
  | (_, none) => (rest, none)

/-- Parse the text after a checkbox: the trailing run of modifiers is metadata, what stands before it
is the title. -/
def parseTaskTokens (rest : Text) : TaskTokens :=
  let (rest, anchor) := splitTrailingAnchor lib rest
  let tokens := tokenize rest
  let title := joinWords ((tokens.rdropWhile fun t => (classify lib t).isSome).map unquote)
  let out := (tokens.rtakeWhile fun t => (classify lib t).isSome).foldl
    (fun out t => out.add (classify lib t)) { title }
  if anchor.isSome then { out with ownId := anchor } else out

/-! ## lines -/

/-- A header line: one to six `#`, a space, and some text. -/
def header (line : Text) : Option (Nat × Text) :=
  let level := (line.takeWhile (· == '#')).length
  if 1 ≤ level ∧ level ≤ 6 then
    match line.drop level with
    | ' ' :: rest => if trim rest ≠ [] then some (level, trim rest) else none
    | _ => none
  else none

/-- One indentation is another followed by more. -/
def strictlyExtends (inner outer : Text) : Bool := inner.length > outer.length && outer <+: inner

/-- The status a checkbox's mark stands for. -/
def statusOf : Char → Option String
  | ' ' => some "open"
  | 'x' | 'X' => some "done"
  | '~' => some "in_progress"
  | '?' => some "needs_review"
  | '-' => some "cancelled"
  | _ => none

/-- Spaces and tabs, which indent a task line. -/
def isIndent (c : Char) : Bool := c == ' ' || c == '\t'

/-- Parse a task line: its indentation, its status, and what follows the checkbox. -/
def taskLine (line : Text) : Option (Text × String × Text) :=
  match line.dropWhile isIndent with
  | '-' :: ' ' :: '[' :: mark :: ']' :: body =>
      match statusOf mark, body with
      | some status, [] => some (line.takeWhile isIndent, status, [])
      | some status, c :: rest =>
          if isIndent c then some (line.takeWhile isIndent, status, rest) else none
      | none, _ => none
  | _ => none

/-- A blank line ends a task's body. -/
def endsTaskBody (line : Text) : Bool := trim line = []

/-! ## writing a line -/

/-- A modifier as a line writes it. -/
def Modifier.word : Modifier → Text
  | .priority p => '!' :: 'p' :: showInt p
  | .due d => '@' :: d
  | .tag facet value => '#' :: facet ++ '=' :: value
  | .mirror ns => '+' :: ns
  | .dep id => needsPrefix ++ id
  | .own id => '^' :: id

/-- The modifiers of a task in the order they are written. -/
def modifiers (priority : Option Int) (due : Option Text) (tags : List (Text × Text))
    (mirrors deps : List Text) : List Modifier :=
  (priority.map .priority).toList ++ (due.map .due).toList ++ tags.map (fun t => .tag t.1 t.2) ++
    mirrors.map .mirror ++ deps.map .dep

/-- The text after the checkbox of a task line. -/
def lineText (title : Text) (words : List Text) (id : Text) : Text :=
  joinWords (title :: words ++ ['^' :: id])

/-! ## reading a modifier back -/

/-- What `classify` makes: nothing in it is empty, and its number is in the machine's range. -/
def Modifier.Ok : Modifier → Prop
  | .priority p => i64Min ≤ p ∧ p ≤ i64Max
  | .due d => d ≠ []
  | .tag facet value => facet ≠ [] ∧ value ≠ [] ∧ '=' ∉ facet
  | .mirror ns => ns ≠ []
  | .dep id => id ≠ []
  | .own id => isUriSafe lib id = true

theorem stripPrefix_none_of_head {c d : Char} {pfx t : Text} (h : c ≠ d) :
    stripPrefix (c :: pfx) (d :: t) = none := by
  simp [stripPrefix, h]

/-- **A modifier reads back from the word it is written as.** -/
theorem classify_word {m : Modifier} (h : m.Ok lib) : classify lib m.word = some m := by
  cases m with
  | priority p =>
      have hstrip : stripPrefix ['!', 'p'] ('!' :: 'p' :: showInt p) = some (showInt p) :=
        stripPrefix_append ['!', 'p'] (showInt p)
      simp [classify, Modifier.word, hstrip, parseI64_showInt h.1 h.2]
  | due d =>
      have hd : d ≠ [] := h
      simp [classify, Modifier.word, needsPrefix, stripPrefix_none_of_head, hd]
  | tag facet value =>
      obtain ⟨hf, hv, heq⟩ := h
      have hsplit : splitTag (facet ++ '=' :: value) = some (.tag facet value) := by
        simp [splitTag, splitOnce_append heq, hf, hv]
      simp [classify, Modifier.word, needsPrefix, stripPrefix_none_of_head, hsplit]
  | mirror ns =>
      have hns : ns ≠ [] := h
      simp [classify, Modifier.word, needsPrefix, stripPrefix_none_of_head, hns]
  | dep id =>
      have hid : id ≠ [] := h
      have hstrip : stripPrefix needsPrefix (needsPrefix ++ id) = some id := stripPrefix_append _ _
      have hno : stripPrefix ['!', 'p'] (needsPrefix ++ id) = none :=
        stripPrefix_none_of_head (by decide)
      simp [classify, Modifier.word, hstrip, hno, hid]
  | own id =>
      have hid : isUriSafe lib id = true := h
      simp [classify, Modifier.word, needsPrefix, stripPrefix_none_of_head, hid]

theorem splitTag_eq_some {v : Text} {m : Modifier} (h : splitTag v = some m) :
    m.Ok lib ∧ m.word = '#' :: v := by
  by_cases hmem : '=' ∈ v
  · obtain ⟨facet, value, rfl, hfacet⟩ := List.eq_append_cons_of_mem hmem
    simp only [splitTag, splitOnce_append hfacet] at h
    split at h
    case isTrue hne =>
      obtain rfl := Option.some.inj h
      exact ⟨⟨hne.1, hne.2, hfacet⟩, rfl⟩
    case isFalse => cases h
  · simp [splitTag, splitOnce_eq_none hmem] at h

theorem parseI64_range {t : Text} {n : Int} (h : parseI64 t = some n) :
    i64Min ≤ n ∧ n ≤ i64Max := by
  simp only [parseI64, Option.filter_eq_some_iff, Bool.and_eq_true, decide_eq_true_eq] at h
  exact h.2

/-- **What `classify` makes of a token**: a modifier in range, written as the token was unless it is a
priority. -/
theorem classify_eq_some {token : Text} {m : Modifier} (h : classify lib token = some m) :
    m.Ok lib ∧ (m.word = token ∨ ∃ p, m = .priority p) := by
  unfold classify at h
  cases hp : stripPrefix ['!', 'p'] token with
  | some v =>
      simp only [hp, Option.map_eq_some_iff] at h
      obtain ⟨p, hparse, rfl⟩ := h
      exact ⟨parseI64_range hparse, Or.inr ⟨p, rfl⟩⟩
  | none =>
      simp only [hp] at h
      cases hn : stripPrefix needsPrefix token with
      | some v =>
          simp only [hn] at h
          split at h
          · obtain rfl := Option.some.inj h
            exact ⟨‹_›, Or.inl (stripPrefix_eq_some.mp hn).symm⟩
          · cases h
      | none =>
          simp only [hn] at h
          split at h
          · split at h
            · obtain rfl := Option.some.inj h
              exact ⟨‹_›, Or.inl rfl⟩
            · cases h
          · exact (splitTag_eq_some lib h).imp_right Or.inl
          · split at h
            · obtain rfl := Option.some.inj h
              exact ⟨‹_›, Or.inl rfl⟩
            · cases h
          · split at h
            · obtain rfl := Option.some.inj h
              exact ⟨‹_›, Or.inl rfl⟩
            · cases h
          · cases h

end Jkb.Sync.Tasks
