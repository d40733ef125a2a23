import Jkb.Core.Dsl.Escaped
import Jkb.Tx

/-!
# Jkb.Core.QuickAdd

The quick-add line of a task: words of its title, and modifiers in any order. `quickAdd_quoted` says that a title
whose words are quoted is read back as it was.
-/

namespace Jkb.Task

open Jkb.Dsl Jkb.Text

/-- What a quick-add line says of a task. -/
structure QuickAdd where
  title : Text := []
  priority : Option Int := none
  due : Option Text := none
  placements : List Text := []
  tags : List (Text × Text) := []
  dependsOn : List Text := []
deriving Repr, DecidableEq

/-- The refusal of a token. -/
def bad (token : Text) (expected : String) : Fmt :=
  ["invalid quick-add token `", .text (String.ofList token), "`: ", expected]

/-- Take a token, beside the words of the title. -/
def addToken (acc : QuickAdd × List Text) (token : Text) : Except Fmt (QuickAdd × List Text) :=
  let (qa, words) := acc
  match token with
  | '!' :: 'p' :: v =>
      match parseI64 v with
      | some n => .ok ({ qa with priority := some n }, words)
      | none => .error (bad token "`!p` takes an integer, e.g. `!p1`")
  | '@' :: v =>
      if v = [] then .error (bad token "`@` takes a date, e.g. `@2026-07-15`")
      else .ok ({ qa with due := some v }, words)
  | '+' :: v =>
      if v = [] then .error (bad token "`+` takes a namespace, e.g. `+repos/app`")
      else .ok ({ qa with placements := qa.placements ++ [v] }, words)
  | '#' :: v =>
      match splitOnce '=' v with
      | none => .error (bad token "`#` takes facet=value, e.g. `#size=small`")
      | some (facet, value) =>
          if facet = [] ∨ value = [] then .error (bad token "`#` takes a non-empty facet and value")
          else .ok ({ qa with tags := qa.tags ++ [(facet, value)] }, words)
  | '^' :: v =>
      if v = [] then .error (bad token "`^` takes a dependency uid, e.g. `^task:abc`")
      else .ok ({ qa with dependsOn := qa.dependsOn ++ [v] }, words)
  | _ => .ok (qa, words ++ [unquoteUnescape token])

/-- Parse a quick-add line. -/
def parseQuickAdd (input : Text) : Except Fmt QuickAdd :=
  if hasUnterminatedQuote input then .error (bad input "unterminated `\"` quote")
  else do
    let (qa, words) ← (tokenizeEscaped input).foldlM addToken ({}, [])
    if joinWords words = [] then .error (bad input "a task needs a title")
    else .ok { qa with title := joinWords words }

/-- Quoted tokens are words of the title. -/
theorem foldlM_quoted (qa : QuickAdd) (before words : List Text) :
    (words.map quoted).foldlM addToken (qa, before) = .ok (qa, before ++ words) := by
  induction words generalizing before with
  | nil => rw [List.append_nil]; rfl
  | cons w words ih =>
      have hword : addToken (qa, before) (quoted w) = .ok (qa, before ++ [w]) := by
        have hplain : addToken (qa, before) (quoted w) = .ok (qa, before ++ [unquoteUnescape (quoted w)]) := rfl
        rw [hplain, unquoteUnescape_quoted]
      rw [List.map_cons, List.foldlM_cons, hword]
      exact (ih (before ++ [w])).trans (by rw [List.append_assoc, List.singleton_append])

/-- **Quoted words are the title**, and nothing else is read of them. -/
theorem quickAdd_quoted {words : List Text} (h : joinWords words ≠ []) :
    parseQuickAdd (joinWords (words.map quoted)) = .ok { title := joinWords words } := by
  rw [parseQuickAdd, (tokenizeEscaped_quoted _).2, if_neg Bool.false_ne_true, (tokenizeEscaped_quoted _).1,
    foldlM_quoted, List.nil_append]
  exact if_neg h

/-- **Where escape-aware quoting is sound**: the strict formats split a text without a backslash as the lenient ones
do; a title whose words are quoted is read back; and on a line whose quotes are all closed, each token is read
rightly exactly if none starts with a quote and ends with an escaped one. -/
theorem quoting_sound (input : Text) (words : List Text) :
    ('\\' ∉ input → tokenizeEscaped input = tokenize input) ∧
    (joinWords words ≠ [] →
      parseQuickAdd (joinWords (words.map quoted)) = .ok { title := joinWords words }) ∧
    (hasUnterminatedQuote input = false →
      ((∀ token ∈ tokenizeEscaped input, unquoteUnescape token = decoded token) ↔
        ∀ token ∈ tokenizeEscaped input, ¬ EndsEscaped token)) :=
  ⟨tokenizeEscaped_eq, quickAdd_quoted,
    fun _ => forall_congr' fun token => imp_congr_right fun _ => unquoteUnescape_iff token⟩

/-- A quoted span with an escaped quote after it loses its first quote, and keeps a backslash. -/
theorem escaped_end_misread : ¬ ∀ input : Text, hasUnterminatedQuote input = false →
    ∀ token ∈ tokenizeEscaped input, unquoteUnescape token = decoded token := by
  intro h
  have htoken := h "\"a\"b\\\"".toList (by decide) "\"a\"b\\\"".toList (by decide)
  exact absurd htoken (by decide)

end Jkb.Task
