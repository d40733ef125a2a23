import Jkb.Core.Dsl.Escaped
import Jkb.Core.Query

/-!
# Jkb.Core.Query.Parse

The query language: a line of tokens into a query. Each token is one predicate, or a word of the full-text
term; `parse_written` says what of a query a line can write.
-/

namespace Jkb

open Jkb.Text Jkb.Ns

namespace Query

open Dsl

/-! ## the parser -/

/-- An error that names the token. -/
def bad (token : Text) (expected : Fmt) : Fmt :=
  ("invalid query token `" : Piece) :: shown token :: "`: " :: expected

/-- Require a value for a field. -/
def nonEmpty (value token : Text) (field : String) : Except Fmt Text :=
  if value = [] then .error (bad token [field, " needs a value"]) else .ok value

/-- The spellings of the operators, in the order they are tried. -/
def operators : List (Text × CmpOp) :=
  [(['<', '='], .le), (['>', '='], .ge), (['<'], .lt), (['>'], .gt), (['='], .eq), ([':'], .eq)]

/-- Peel a leading comparison operator off a text. -/
def leadingOp (s : Text) : Option (CmpOp × Text) :=
  operators.findSome? fun (pfx, op) => (stripPrefix pfx s).map fun rest => (op, rest)

/-- The operator and the value of a token `<keyword><op><value>`. -/
def stripKeywordOp (token keyword : Text) : Option (CmpOp × Text) :=
  (stripPrefix keyword token).bind leadingOp

/-- Parse the payload `facet<op>value` of a tag. -/
def parseTag (payload token : Text) : Except Fmt TagPred :=
  let isOp : Char → Bool := fun c => c = '=' || c = '<' || c = '>'
  let facet := payload.takeWhile fun c => !isOp c
  let rest := payload.dropWhile fun c => !isOp c
  if rest = [] then .error (bad token ["tag needs an operator, e.g. `tag:read_year=2025`"])
  else
    match leadingOp rest with
    | none => .error (bad token ["tag has a malformed operator"])
    | some (op, value) =>
        if facet = [] ∨ value = [] then .error (bad token ["tag needs both a facet and a value"])
        else .ok { facet, op, value }

/-- The parts of a comma list, of which none may be empty. -/
def parseList (value token : Text) (empty : String) : Except Fmt (List Text) :=
  (value.splitOn ',').mapM fun part => if part = [] then .error (bad token [empty]) else .ok part

/-- Parse a comma list of workflow phases. -/
def parsePhases (payload token : Text) : Except Fmt (List Text) := do
  let payload ← nonEmpty payload token "phase"
  (payload.splitOn ',').mapM fun part =>
    if part = [] then .error (bad token ["empty phase in `phase:a,b`"])
    else
      match phaseProblem part with
      | some why => .error (bad token why)
      | none => .ok part

/-- Parse a comma list of namespaces, each exact or a `/**` subtree. -/
def parseNs (payload token : Text) : Except Fmt (List Scope) :=
  (payload.splitOn ',').mapM fun part =>
    if part = [] then .error (bad token ["empty namespace in scope"])
    else .ok (match stripSuffix "/**".toList part with
      | some base => .subtree base
      | none => .exact part)

/-- A line being parsed: the query so far, the words of the full-text term, and the scopes. -/
structure Parsing where
  query : Query := {}
  ftsTerms : List Text := []
  scopes : List Scope := []

/-- Change the query so far. -/
def Parsing.set (p : Parsing) (f : Query → Query) : Parsing := { p with query := f p.query }

/-- Apply an `is:` predicate. -/
def parseIs (predicate token : Text) (p : Parsing) : Except Fmt Parsing :=
  if predicate = "ready".toList then .ok (p.set ({ · with ready := true }))
  else if predicate = "frontier".toList then
    .ok (p.set ({ · with frontier := true, claimed := some false }))
  else if predicate = "tombstone".toList then .ok (p.set ({ · with tombstone := true }))
  else if predicate = "claimed".toList then .ok (p.set ({ · with claimed := some true }))
  else if predicate = "unclaimed".toList then .ok (p.set ({ · with claimed := some false }))
  else .error (bad token
    ["the `is:` predicates are ready, frontier, tombstone, claimed, unclaimed"])

/-- The predicates that a prefix introduces, in the order they are tried, each with what it does to the
line with the rest of its token. -/
def prefixed : List (String × (Text → Text → Parsing → Except Fmt Parsing)) := [
  ("~", fun rest token p =>
    let term := unquoteUnescape rest
    if term = [] then .error (bad token ["expected a term after `~`, e.g. `~\"topic\"`"])
    else .ok (p.set ({ · with vector := some term }))),
  ("-kind:", fun v token p => do
    let v ← nonEmpty v token "kind"
    let kinds ← parseList v token "empty kind in `-kind:a,b`"
    return p.set fun q => { q with excludeKinds := q.excludeKinds ++ kinds }),
  ("kind:", fun v token p => do
    let v ← nonEmpty v token "kind"
    if ',' ∈ v then
      let kinds ← parseList v token "empty kind in `kind:a,b`"
      return p.set fun q => { q with kinds := q.kinds ++ kinds }
    else return p.set ({ · with kind := some v })),
  ("status:", fun v token p => do
    let v ← nonEmpty v token "status"
    return p.set ({ · with status := some v })),
  ("resolution:", fun v token p => do
    let v ← nonEmpty v token "resolution"
    if (Resolution.fromStrOpt (String.ofList v)).isNone then
      .error (bad token ["resolution is one of unresolved, success, dead_end, superseded, abandoned"])
    else return p.set ({ · with resolution := some v })),
  ("-phase:", fun v token p => do
    let phases ← parsePhases v token
    return p.set fun q => { q with excludePhases := q.excludePhases ++ phases }),
  ("phase:", fun v token p => do
    let phases ← parsePhases v token
    return p.set fun q => { q with phases := q.phases ++ phases }),
  ("-tag:", fun v token p => do
    let tag ← parseTag v token
    return p.set fun q => { q with excludeTags := q.excludeTags ++ [tag] }),
  ("tag:", fun v token p => do
    let tag ← parseTag v token
    return p.set fun q => { q with tags := q.tags ++ [tag] }),
  ("ns:", fun v token p => do
    let scopes ← parseNs v token
    return { p with scopes := p.scopes ++ scopes }),
  ("is:", fun v token p => parseIs v token p),
  ("blocks:", fun v token p => do
    let v ← nonEmpty v token "blocks"
    return p.set ({ · with blocks := some v }))]

/-- A token that no prefix introduces: a comparison of the priority or the due date, or a word. -/
def parseWord (token : Text) (p : Parsing) : Except Fmt Parsing :=
  match stripKeywordOp token "priority".toList with
  | some (op, val) =>
      match parseI64 val with
      | none => .error (bad token ["priority takes an integer, e.g. `priority<=2`"])
      | some n => .ok (p.set ({ · with priority := some (op, n) }))
  | none =>
      match stripKeywordOp token "due".toList with
      | some (op, val) =>
          if val = [] then .error (bad token ["due takes a date or `today`, e.g. `due<=2025-12-31`"])
          else .ok (p.set ({ · with
            due := some (op, if val = "today".toList then .today else .date val) }))
      | none => .ok { p with ftsTerms := p.ftsTerms ++ [unquoteUnescape token] }

/-- Parse one token. -/
def parseToken (p : Parsing) (token : Text) : Except Fmt Parsing :=
  match prefixed.findSome? fun (pfx, f) => (stripPrefix pfx.toList token).map (f · token p) with
  | some parsed => parsed
  | none => parseWord token p

/-- The scope that a line's scopes make. -/
def scopeOf : List Scope → Scope
  | [] => .all
  | [scope] => scope
  | scopes => .union scopes

/-- Parse a line into a query. -/
def parse (input : Text) : Except Fmt Query :=
  if hasUnterminatedQuote input then .error (bad input ["unterminated `\"` quote"])
  else do
    let p ← (tokenizeEscaped input).foldlM parseToken {}
    return { p.query with
      fts := if p.ftsTerms = [] then none else some (joinWords p.ftsTerms)
      scope := scopeOf p.scopes }

/-! ## what a line can write -/

/-- What a line writes of a query: no ids and no limit, no empty facet or value, a resolution that exists,
and only workflow phases. -/
structure Written (q : Query) : Prop where
  ids : q.ids = []
  limit : q.limit = none
  excludeTags : ∀ t ∈ q.excludeTags, t.value ≠ []
  resolution : ∀ r, q.resolution = some r →
    r ≠ [] ∧ (Resolution.fromStrOpt (String.ofList r)).isSome = true
  phases : ∀ p ∈ q.phases ++ q.excludePhases, phaseProblem p = none

theorem value_of_parseTag {payload token : Text} {tag : TagPred} (h : parseTag payload token = .ok tag) :
    tag.value ≠ [] := by
  simp only [parseTag] at h
  split at h
  · cases h
  · split at h
    · cases h
    · split at h
      · cases h
      · rename_i hnonempty
        obtain rfl := Except.ok.inj h
        exact (not_or.mp hnonempty).2

theorem phases_of_parsePhases {payload token : Text} {phases : List Text}
    (h : parsePhases payload token = .ok phases) : ∀ p ∈ phases, phaseProblem p = none := by
  obtain ⟨_, -, h⟩ := Tx.bind_eq_ok.mp h
  intro p hp
  obtain ⟨part, -, hpart⟩ := Tx.mem_of_mapM h p hp
  split at hpart
  · cases hpart
  · split at hpart
    · cases hpart
    · rename_i hnone
      obtain rfl := Except.ok.inj hpart
      exact hnone

/-- A change of fields that a line is not held to. -/
theorem Written.of_eq {q q' : Query} (h : Written q) (hids : q'.ids = q.ids) (hlimit : q'.limit = q.limit)
    (htags : q'.excludeTags = q.excludeTags) (hres : q'.resolution = q.resolution)
    (hphases : q'.phases = q.phases) (hex : q'.excludePhases = q.excludePhases) : Written q' where
  ids := hids.trans h.ids
  limit := hlimit.trans h.limit
  excludeTags := htags ▸ h.excludeTags
  resolution := hres ▸ h.resolution
  phases := by
    rw [hphases, hex]
    exact h.phases

theorem Written.parseIs {p p' : Parsing} {v token : Text} (h : Written p.query)
    (hp : parseIs v token p = .ok p') : Written p'.query := by
  simp only [Query.parseIs] at hp
  split at hp
  · cases hp
    exact h.of_eq rfl rfl rfl rfl rfl rfl
  split at hp
  · cases hp
    exact h.of_eq rfl rfl rfl rfl rfl rfl
  split at hp
  · cases hp
    exact h.of_eq rfl rfl rfl rfl rfl rfl
  split at hp
  · cases hp
    exact h.of_eq rfl rfl rfl rfl rfl rfl
  split at hp
  · cases hp
    exact h.of_eq rfl rfl rfl rfl rfl rfl
  · cases hp

theorem Written.parseWord {p p' : Parsing} {token : Text} (h : Written p.query)
    (hp : parseWord token p = .ok p') : Written p'.query := by
  simp only [Query.parseWord] at hp
  split at hp
  · split at hp
    · cases hp
    · cases hp
      exact h.of_eq rfl rfl rfl rfl rfl rfl
  · split at hp
    · split at hp
      · cases hp
      · cases hp
        exact h.of_eq rfl rfl rfl rfl rfl rfl
    · cases hp
      exact h

/-- **One prefixed predicate** writes what a line may. -/
theorem Written.prefixed {f : Text → Text → Parsing → Except Fmt Parsing} {pfx : String}
    (hf : (pfx, f) ∈ prefixed) {p p' : Parsing} {v token : Text} (h : Written p.query)
    (hp : f v token p = .ok p') : Written p'.query := by
  simp only [Query.prefixed, List.mem_cons, List.not_mem_nil, or_false, Prod.mk.injEq] at hf
  rcases hf with ⟨-, rfl⟩ | ⟨-, rfl⟩ | ⟨-, rfl⟩ | ⟨-, rfl⟩ | ⟨-, rfl⟩ | ⟨-, rfl⟩ | ⟨-, rfl⟩ | ⟨-, rfl⟩ |
    ⟨-, rfl⟩ | ⟨-, rfl⟩ | ⟨-, rfl⟩ | ⟨-, rfl⟩
  · dsimp only at hp
    split at hp
    · cases hp
    · cases hp
      exact h.of_eq rfl rfl rfl rfl rfl rfl
  · obtain ⟨_, -, hp⟩ := Tx.bind_eq_ok.mp hp
    obtain ⟨_, -, hp⟩ := Tx.bind_eq_ok.mp hp
    cases hp
    exact h.of_eq rfl rfl rfl rfl rfl rfl
  · obtain ⟨_, -, hp⟩ := Tx.bind_eq_ok.mp hp
    split at hp
    · obtain ⟨_, -, hp⟩ := Tx.bind_eq_ok.mp hp
      cases hp
      exact h.of_eq rfl rfl rfl rfl rfl rfl
    · cases hp
      exact h.of_eq rfl rfl rfl rfl rfl rfl
  · obtain ⟨_, -, hp⟩ := Tx.bind_eq_ok.mp hp
    cases hp
    exact h.of_eq rfl rfl rfl rfl rfl rfl
  · obtain ⟨r, hr, hp⟩ := Tx.bind_eq_ok.mp hp
    split at hp
    · cases hp
    · rename_i hsome
      cases hp
      refine { h with resolution := fun r' hr' => ?_ }
      obtain rfl := Option.some.inj hr'
      refine ⟨?_, Option.ne_none_iff_isSome.mp (by simpa using hsome)⟩
      rw [nonEmpty] at hr
      split at hr
      · cases hr
      · rename_i hne
        obtain rfl := Except.ok.inj hr
        exact hne
  · obtain ⟨phases, hphases, hp⟩ := Tx.bind_eq_ok.mp hp
    cases hp
    refine { h with phases := fun x hx => ?_ }
    rcases List.mem_append.mp hx with hx | hx
    · exact h.phases x (List.mem_append_left _ hx)
    · rcases List.mem_append.mp hx with hx | hx
      · exact h.phases x (List.mem_append_right _ hx)
      · exact phases_of_parsePhases hphases x hx
  · obtain ⟨phases, hphases, hp⟩ := Tx.bind_eq_ok.mp hp
    cases hp
    refine { h with phases := fun x hx => ?_ }
    rcases List.mem_append.mp hx with hx | hx
    · rcases List.mem_append.mp hx with hx | hx
      · exact h.phases x (List.mem_append_left _ hx)
      · exact phases_of_parsePhases hphases x hx
    · exact h.phases x (List.mem_append_right _ hx)
  · obtain ⟨tag, htag, hp⟩ := Tx.bind_eq_ok.mp hp
    cases hp
    refine { h with excludeTags := fun t ht => ?_ }
    rcases List.mem_append.mp ht with ht | ht
    · exact h.excludeTags t ht
    · rw [List.mem_singleton] at ht
      exact ht ▸ value_of_parseTag htag
  · obtain ⟨_, -, hp⟩ := Tx.bind_eq_ok.mp hp
    cases hp
    exact h.of_eq rfl rfl rfl rfl rfl rfl
  · obtain ⟨_, -, hp⟩ := Tx.bind_eq_ok.mp hp
    cases hp
    exact h
  · exact h.parseIs hp
  · obtain ⟨_, -, hp⟩ := Tx.bind_eq_ok.mp hp
    cases hp
    exact h.of_eq rfl rfl rfl rfl rfl rfl

theorem Written.parseToken {p p' : Parsing} {token : Text} (h : Written p.query)
    (hp : parseToken p token = .ok p') : Written p'.query := by
  unfold Query.parseToken at hp
  split at hp
  · rename_i parsed hfind
    obtain ⟨⟨pfx, f⟩, hf, hparsed⟩ := List.exists_of_findSome?_eq_some hfind
    obtain ⟨rest, -, rfl⟩ := Option.map_eq_some_iff.mp hparsed
    exact h.prefixed hf hp
  · exact h.parseWord hp

/-- **A line writes only what it may.** -/
theorem parse_written {input : Text} {q : Query} (h : parse input = .ok q) : Written q := by
  unfold parse at h
  split at h
  · cases h
  · obtain ⟨p, hp, h⟩ := Tx.bind_eq_ok.mp h
    obtain rfl := Except.ok.inj h
    have hfold : ∀ {tokens : List Text} {p₀ : Parsing}, Written p₀.query →
        tokens.foldlM parseToken p₀ = .ok p → Written p.query := by
      intro tokens
      induction tokens with
      | nil =>
          intro p₀ h₀ hp
          obtain rfl := Except.ok.inj hp
          exact h₀
      | cons token tokens ih =>
          intro p₀ h₀ hp
          rw [List.foldlM_cons] at hp
          obtain ⟨p₁, h₁, hp⟩ := Tx.bind_eq_ok.mp hp
          exact ih (h₀.parseToken h₁) hp
    have hstart : Written ({} : Parsing).query := by
      constructor <;> simp
    exact (hfold hstart hp).of_eq rfl rfl rfl rfl rfl rfl

/-- The two queues, as they are asked for. -/
example : parse "is:ready".toList = .ok { ready := true } ∧
    parse "is:frontier".toList = .ok { frontier := true, claimed := some false } := ⟨rfl, rfl⟩

end Query

end Jkb
