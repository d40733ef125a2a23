import Jkb.Core.Query.Parse
import Mathlib.Algebra.Order.BigOperators.Group.List

/-!
# Jkb.Core.Query.Conjoin

What a line of terms means, of what its terms mean. Each term of a line is read into the query on its own: a list
grows, a flag is set, and a field that holds one value is overwritten. `conjoins_iff` says when the items of a line
are those that all of its terms return.
-/

namespace Jkb.Query

open Jkb.Text Jkb.Ns Dsl

/-! ## a line, term by term -/

/-- What a token says on its own. -/
def term (token : Text) : Parsing := ((parseToken {} token).toOption).getD {}

/-- The query that a line makes. -/
def Parsing.toQuery (p : Parsing) : Query :=
  { p.query with
    fts := if p.ftsTerms = [] then none else some (joinWords p.ftsTerms)
    scope := scopeOf p.scopes }

/-- What is read after something else: lists grow, flags stay, and the later value of a field counts. -/
def Parsing.merge (p p' : Parsing) : Parsing where
  query := {
    kind := p'.query.kind.or p.query.kind
    kinds := p.query.kinds ++ p'.query.kinds
    excludeKinds := p.query.excludeKinds ++ p'.query.excludeKinds
    ids := p.query.ids ++ p'.query.ids
    status := p'.query.status.or p.query.status
    resolution := p'.query.resolution.or p.query.resolution
    priority := p'.query.priority.or p.query.priority
    due := p'.query.due.or p.query.due
    tags := p.query.tags ++ p'.query.tags
    excludeTags := p.query.excludeTags ++ p'.query.excludeTags
    phases := p.query.phases ++ p'.query.phases
    excludePhases := p.query.excludePhases ++ p'.query.excludePhases
    scope := p.query.scope
    ready := p'.query.ready || p.query.ready
    frontier := p'.query.frontier || p.query.frontier
    tombstone := p'.query.tombstone || p.query.tombstone
    claimed := p'.query.claimed.or p.query.claimed
    blocks := p'.query.blocks.or p.query.blocks
    fts := p.query.fts
    vector := p'.query.vector.or p.query.vector
    limit := p.query.limit }
  ftsTerms := p.ftsTerms ++ p'.ftsTerms
  scopes := p.scopes ++ p'.scopes

/-- A predicate does to a line what it does to an empty one. -/
def Merges (f : Parsing → Except Fmt Parsing) : Prop := ∀ p, f p = (f {}).map p.merge

/-- A change of the query that is read after any other. -/
theorem merges_set {g : Query → Query} (h : ∀ p : Parsing, p.set g = p.merge (({} : Parsing).set g)) :
    Merges fun p => .ok (p.set g) :=
  fun p => congrArg Except.ok (h p)

/-- A value read before a term does not change how the term merges. -/
theorem merges_bind {α : Type} {x : Except Fmt α} {f : α → Parsing → Except Fmt Parsing} (h : ∀ a, Merges (f a)) :
    Merges fun p => x >>= fun a => f a p := by
  intro p
  cases x with
  | error e => rfl
  | ok a => exact h a p

/-- An error merges. -/
theorem merges_error (e : Fmt) : Merges fun _ => .error e := fun _ => rfl

/-- A choice between terms that merge merges. -/
theorem merges_ite {c : Prop} [Decidable c] {f g : Parsing → Except Fmt Parsing} (hf : Merges f) (hg : Merges g) :
    Merges fun p => if c then f p else g p := by
  intro p
  by_cases h : c
  · simp only [if_pos h]
    exact hf p
  · simp only [if_neg h]
    exact hg p

/-- An `is:` term merges. -/
theorem merges_parseIs (v token : Text) : Merges (parseIs v token) := by
  unfold parseIs
  refine merges_ite (merges_set fun p => ?_) (merges_ite (merges_set fun p => ?_) (merges_ite (merges_set fun p => ?_)
    (merges_ite (merges_set fun p => ?_) (merges_ite (merges_set fun p => ?_) (merges_error _)))))
  all_goals simp [Parsing.merge, Parsing.set]

/-- Every term with a prefix merges. -/
theorem merges_prefixed {f : Text → Text → Parsing → Except Fmt Parsing} {pfx : String} (hf : (pfx, f) ∈ prefixed)
    (v token : Text) : Merges (f v token) := by
  simp only [prefixed, List.mem_cons, List.not_mem_nil, or_false, Prod.mk.injEq] at hf
  rcases hf with ⟨-, rfl⟩ | ⟨-, rfl⟩ | ⟨-, rfl⟩ | ⟨-, rfl⟩ | ⟨-, rfl⟩ | ⟨-, rfl⟩ | ⟨-, rfl⟩ | ⟨-, rfl⟩ |
    ⟨-, rfl⟩ | ⟨-, rfl⟩ | ⟨-, rfl⟩ | ⟨-, rfl⟩
  · refine merges_ite (merges_error _) (merges_set fun p => ?_)
    simp [Parsing.merge, Parsing.set]
  · refine merges_bind fun _ => merges_bind fun _ => merges_set fun p => ?_
    simp [Parsing.merge, Parsing.set]
  · refine merges_bind fun _ => merges_ite (merges_bind fun _ => merges_set fun p => ?_) (merges_set fun p => ?_)
    all_goals simp [Parsing.merge, Parsing.set]
  · refine merges_bind fun _ => merges_set fun p => ?_
    simp [Parsing.merge, Parsing.set]
  · refine merges_bind fun _ => merges_ite (merges_error _) (merges_set fun p => ?_)
    simp [Parsing.merge, Parsing.set]
  · refine merges_bind fun _ => merges_set fun p => ?_
    simp [Parsing.merge, Parsing.set]
  · refine merges_bind fun _ => merges_set fun p => ?_
    simp [Parsing.merge, Parsing.set]
  · refine merges_bind fun _ => merges_set fun p => ?_
    simp [Parsing.merge, Parsing.set]
  · refine merges_bind fun _ => merges_set fun p => ?_
    simp [Parsing.merge, Parsing.set]
  · refine merges_bind fun _ p => congrArg Except.ok ?_
    simp [Parsing.merge]
  · exact merges_parseIs v token
  · refine merges_bind fun _ => merges_set fun p => ?_
    simp [Parsing.merge, Parsing.set]

/-- A word merges. -/
theorem merges_parseWord (token : Text) : Merges (parseWord token) := by
  intro p
  unfold parseWord
  split
  · split
    · rfl
    · exact congrArg Except.ok (by simp [Parsing.merge, Parsing.set])
  · split
    · split
      · rfl
      · exact congrArg Except.ok (by simp [Parsing.merge, Parsing.set])
    · exact congrArg Except.ok (by simp [Parsing.merge])

/-- The predicate of a token is the first whose prefix it has, or else a word. -/
theorem parseToken_eq (p : Parsing) (token : Text) : parseToken p token =
    (prefixed.findSome? fun x => (stripPrefix x.1.toList token).map (x.2 · token p)).getD (parseWord token p) := by
  unfold parseToken
  generalize prefixed = table
  induction table with
  | nil => rfl
  | cons x table ih =>
      simp only [List.findSome?_cons]
      cases stripPrefix x.1.toList token with
      | none => exact ih
      | some v => rfl
/-- **A token is read after a line as it is read on its own.** -/
theorem merges_parseToken (token : Text) : Merges (parseToken · token) := by
  intro p
  have hfind : ∀ table : List (String × (Text → Text → Parsing → Except Fmt Parsing)),
      (∀ x ∈ table, ∀ v, Merges (x.2 v token)) →
        (table.findSome? fun x => (stripPrefix x.1.toList token).map (x.2 · token p)) =
          (table.findSome? fun x => (stripPrefix x.1.toList token).map (x.2 · token {})).map (·.map p.merge) := by
    intro table htable
    induction table with
    | nil => rfl
    | cons x table ih =>
        obtain ⟨hx, hrest⟩ := List.forall_mem_cons.mp htable
        rw [List.findSome?_cons, List.findSome?_cons]
        cases stripPrefix x.1.toList token with
        | none => exact ih hrest
        | some v => exact congrArg some (hx v p)
  show parseToken p token = (parseToken {} token).map p.merge
  rw [parseToken_eq, parseToken_eq, hfind prefixed fun x hx v => merges_prefixed hx v token, merges_parseWord token p]
  exact Option.getD_map _ _ _

/-- A line of tokens that are each read is their merge. -/
theorem foldlM_parseToken {tokens : List Text} (h : ∀ t ∈ tokens, ∃ p, parseToken {} t = .ok p) (p : Parsing) :
    tokens.foldlM parseToken p = .ok ((tokens.map term).foldl Parsing.merge p) := by
  induction tokens generalizing p with
  | nil => rfl
  | cons t tokens ih =>
      obtain ⟨⟨q, ht⟩, hrest⟩ := List.forall_mem_cons.mp h
      have hterm : term t = q := by
        rw [term, ht]
        rfl
      have hone : parseToken p t = .ok (p.merge q) := 
        (merges_parseToken t p).trans (congrArg (Except.map p.merge) ht)
      rw [List.foldlM_cons, hone, List.map_cons, List.foldl_cons, hterm]
      exact ih hrest _

/-- **A line of terms parses**, into the merge of what each of them says. -/
theorem parse_joinWords {tokens : List Text} (htokens : ∀ t ∈ tokens, Alone t)
    (h : ∀ t ∈ tokens, ∃ q, parse t = .ok q) :
    parse (joinWords tokens) = .ok ((tokens.map term).foldl Parsing.merge {}).toQuery ∧
      ∀ t ∈ tokens, parseToken {} t = .ok (term t) ∧ parse t = .ok (term t).toQuery := by
  have hread : ∀ t ∈ tokens, ∃ p, parseToken {} t = .ok p ∧ parse t = .ok p.toQuery := by
    intro t ht
    obtain ⟨q, hq⟩ := h t ht
    rw [parse, (htokens t ht).closed, if_neg Bool.false_ne_true, (htokens t ht).token, List.foldlM_cons] at hq
    obtain ⟨p, hp, -⟩ := Tx.bind_eq_ok.mp hq
    obtain ⟨p', hp', -⟩ := Tx.bind_eq_ok.mp hp
    refine ⟨p', hp', ?_⟩
    rw [parse, (htokens t ht).closed, if_neg Bool.false_ne_true, (htokens t ht).token, List.foldlM_cons, hp']
    rfl
  obtain ⟨hjoined, hclosed⟩ := tokenizeEscaped_joinWords htokens
  constructor
  · have hfold := foldlM_parseToken (fun t ht => (hread t ht).imp fun _ h => h.1) {}
    rw [parse, hclosed, if_neg Bool.false_ne_true, hjoined, hfold]
    rfl
  · intro t ht
    obtain ⟨p, hp, hq⟩ := hread t ht
    rw [term, hp]
    exact ⟨rfl, hq⟩

/-! ## what a term asks of an item -/

/-- The fields of a query that hold one value. -/
inductive Field where
  | kind
  | status
  | resolution
  | priority
  | due
  | claimed
  | blocks
deriving Repr, DecidableEq

section Terms

variable (nfc : Text → Text) (sys : Sqlite) (isToken : Text → Bool) (s : Store)

/-- What the value of a field asks of an item. -/
def bound (q : Query) : Field → Option (ItemRow → Bool)
  | .kind => q.kind.map fun kind i => i.kind = kind
  | .status => q.status.map fun status i => i.status.map (fun s => s.asStr.toList) = some status
  | .resolution => q.resolution.map fun resolution i =>
      if resolution = Resolution.unresolved.asStr.toList then unresolved i.resolution
      else i.resolution.map (fun r => r.asStr.toList) = some resolution
  | .priority => q.priority.map fun bound i => i.priority.any fun p => bound.1.holds p bound.2
  | .due => q.due.map fun bound i =>
      match bound.2 with
      | .today => (i.due.bind sys.date).any fun d => d = sys.today
      | .date d => (i.due.bind sys.date).any fun x => (sys.date d).any fun y => bound.1.holds x y
  | .claimed => q.claimed.map fun claimed i => i.claimantId.isSome = claimed
  | .blocks => q.blocks.map fun uid i => blocksClause s i uid

/-- What the lists that all have to hold and the flags ask of an item. -/
def fixedClauses (q : Query) (i : ItemRow) : Bool :=
  (q.excludeKinds.isEmpty || !q.excludeKinds.contains i.kind) &&
    (q.excludePhases.isEmpty || !q.excludePhases.contains (currentPhase s i)) && tagClauses s i q &&
    (!q.ready || readyClause s i) && (!q.frontier || frontierClause s i) && (!q.tombstone || tombstoneClause s i)

/-- A namespace scope covers an item. -/
def Covers (scope : Scope) (i : ItemRow) : Prop :=
  ∃ ids, resolveScope nfc s.namespaces scope = .ok (some ids) ∧ scopeClause s i (some ids) = true

/-- The words of a full-text term. -/
def words (text : Text) : List Text := (text.splitOnP isWhitespace).filter (· ≠ [])

/-- Words as an FTS5 expression. -/
def matchExpr (words : List Text) : Text :=
  [' '].intercalate (words.map fun w => '"' :: (w.flatMap fun c => if c = '"' then ['"', '"'] else [c]) ++ ['"'])

/-- The words of a full-text index match an item. -/
def Matches (words : List Text) (id : Int) : Prop := ∃ ids, sys.ftsMatch (matchExpr words) = .ok ids ∧ id ∈ ids

/-- **FTS5 takes words together**: the items that match some words are those that match each of them that it makes a
token of, if there is one; other words, and the empty phrase, match none. -/
structure AndsWords : Prop where
  ands : ∀ ws ≠ [], (∀ w ∈ ws, w ≠ [] ∧ ∀ c ∈ w, isWhitespace c = false) →
    ∃ ids, sys.ftsMatch (matchExpr ws) = .ok ids ∧
      ∀ id, id ∈ ids ↔ ws.filter isToken ≠ [] ∧ ∀ w ∈ ws.filter isToken, Matches sys [w] id
  empty : sys.ftsMatch ['"', '"'] = .ok []

/-- The words that a line asks for: those of its full-text terms that FTS5 makes a token of. -/
def Parsing.words (p : Parsing) : List Text := p.ftsTerms.flatMap fun text => (Query.words text).filter isToken

/-- The terms that join into one any-of set. -/
inductive Group where
  | kinds
  | phases
  | scopes
deriving Repr, DecidableEq

/-- A line asks for one of a group. -/
def Group.Asks (p : Parsing) : Group → Prop
  | .kinds => p.query.kinds ≠ []
  | .phases => p.query.phases ≠ []
  | .scopes => p.scopes ≠ []

/-- An item is one of those that a line asks for. -/
def Group.Holds (p : Parsing) (i : ItemRow) : Group → Prop
  | .kinds => i.kind ∈ p.query.kinds
  | .phases => currentPhase s i ∈ p.query.phases
  | .scopes => ∃ scope ∈ p.scopes, Covers nfc s scope i

/-- What a line says of an item. -/
structure Means (p : Parsing) (i : ItemRow) : Prop where
  fixed : fixedClauses s p.query i = true
  bounds : ∀ field b, bound sys s p.query field = some b → b i = true
  groups : ∀ g, Group.Asks p g → Group.Holds nfc s p i g
  worded : p.ftsTerms ≠ [] → p.words isToken ≠ []
  words : ∀ w ∈ p.words isToken, Matches sys [w] i.id

/-! ### what a line is for -/

/-- The set that a term belongs to, if it belongs to one. -/
def Parsing.group (p : Parsing) : Option Group :=
  if p.query.kinds ≠ [] then some .kinds
  else if p.query.phases ≠ [] then some .phases
  else if p.scopes ≠ [] then some .scopes
  else none

/-- A term is answered on its own. -/
def Answered (token : Text) : Prop := ∃ q ids, parse token = .ok q ∧ evaluate nfc sys s q = .ok ids

/-- A term returns an item on its own. -/
def Returned (token : Text) (id : Int) : Prop := ∃ q, parse token = .ok q ∧ Selects nfc sys s q id

/-- The intersection of what the terms return, where those of a group count as one. -/
def Meets (tokens : List Text) (id : Int) : Prop :=
  (∃ i ∈ s.items.rows, i.id = id) ∧
    (∀ t ∈ tokens, (term t).group = none → Returned nfc sys s t id) ∧
      ∀ g, (∃ t ∈ tokens, (term t).group = some g) → ∃ t ∈ tokens, (term t).group = some g ∧ Returned nfc sys s t id

/-- How many `tag:` and `-tag:` terms a line has. -/
def Parsing.tagTerms (p : Parsing) : Nat := p.query.tags.length + p.query.excludeTags.length

/-- **The terms conjoin**: side by side they parse, they are answered if each of them is, and they return what they
all return. -/
def Conjoins (tokens : List Text) : Prop :=
  ∃ q, parse (joinWords tokens) = .ok q ∧
    ((∃ ids, evaluate nfc sys s q = .ok ids) ↔ ∀ t ∈ tokens, Answered nfc sys s t) ∧
      ∀ ids, evaluate nfc sys s q = .ok ids → ∀ id, id ∈ ids ↔ Meets nfc sys s tokens id

/-- The values that the terms of a line give a field, as what they ask of an item. -/
def values (ps : List Parsing) (field : Field) : List (ItemRow → Bool) :=
  ps.filterMap fun p => bound sys s p.query field

/-- What counts of a line: of the values of a field the last one, and of the full-text terms their words. -/
structure Counts (ps : List Parsing) (i : ItemRow) : Prop where
  fixed : ∀ p ∈ ps, fixedClauses s p.query i = true
  bounds : ∀ field, ∀ b ∈ (values sys s ps field).getLast?, b i = true
  groups : ∀ g, (∃ p ∈ ps, Group.Asks p g) → ∃ p ∈ ps, Group.Holds nfc s p i g
  worded : (∃ p ∈ ps, p.ftsTerms ≠ []) → ∃ p ∈ ps, p.words isToken ≠ []
  words : ∀ p ∈ ps, ∀ w ∈ p.words isToken, Matches sys [w] i.id

/-- What is lost of a line: the other values of the fields, and the full-text terms without a word that is a token. -/
structure KeepsLost (ps : List Parsing) (i : ItemRow) : Prop where
  bounds : ∀ field, ∀ b ∈ values sys s ps field, b i = true
  worded : ∀ p ∈ ps, p.ftsTerms ≠ [] → p.words isToken ≠ []

end Terms

variable {nfc : Text → Text} {sys : Sqlite} {isToken : Text → Bool} {s : Store} {p p' : Parsing} {i : ItemRow}

/-! ### the words -/

/-- A word of a text is not empty, and has no blank in it. -/
theorem mem_words {text w : Text} (h : w ∈ words text) : w ≠ [] ∧ ∀ c ∈ w, isWhitespace c = false := by
  obtain ⟨hw, hne⟩ := List.mem_filter.mp h
  exact ⟨of_decide_eq_true hne, of_mem_splitOnP hw⟩

/-- The words of texts side by side are those of each. -/
theorem words_joinWords (texts : List Text) : words (joinWords texts) = texts.flatMap words := by
  induction texts with
  | nil => rfl
  | cons text texts ih =>
      by_cases hnil : texts = []
      · rw [hnil, joinWords_singleton, List.flatMap_singleton]
      · rw [joinWords_cons hnil, List.flatMap_cons, ← ih, words, List.splitOnP_append_cons _ _ (by decide),
          List.filter_append]
        rfl

/-- **The words of a line are looked up together.** -/
theorem matchFts_toQuery (h : AndsWords sys isToken) (p : Parsing) : ∃ fts, matchFts sys p.toQuery = .ok fts ∧
    ∀ id, (fts.all fun ids => ids.contains id) = true ↔
      (p.ftsTerms ≠ [] → p.words isToken ≠ []) ∧ ∀ w ∈ p.words isToken, Matches sys [w] id := by
  by_cases hterms : p.ftsTerms = []
  · refine ⟨none, by rw [matchFts, Parsing.toQuery, if_pos hterms], fun id => iff_of_true rfl ?_⟩
    simp [Parsing.words, hterms]
  · have hquery : matchFts sys p.toQuery = (sys.ftsMatch (fts5MatchExpr (joinWords p.ftsTerms))).map some := by
      rw [matchFts, Parsing.toQuery, if_neg hterms]
    have hsplit := words_joinWords p.ftsTerms
    have hwords : p.words isToken = (p.ftsTerms.flatMap words).filter isToken := List.filter_flatMap.symm
    have hspelled : ∀ w ∈ p.ftsTerms.flatMap words, w ≠ [] ∧ ∀ c ∈ w, isWhitespace c = false := fun w hw => by
      obtain ⟨text, -, hw⟩ := List.mem_flatMap.mp hw
      exact mem_words hw
    rw [words] at hsplit
    rw [hwords]
    cases hall : p.ftsTerms.flatMap words with
    | nil =>
        rw [hall] at hsplit
        have hexpr : fts5MatchExpr (joinWords p.ftsTerms) = ['"', '"'] := by rw [fts5MatchExpr, hsplit]
        refine ⟨some [], by rw [hquery, hexpr, h.empty]; rfl, fun id => ?_⟩
        simp [hterms]
    | cons w ws =>
        rw [hall] at hsplit hspelled
        obtain ⟨ids, hids, hmem⟩ := h.ands (w :: ws) (List.cons_ne_nil w ws) hspelled
        have hexpr : fts5MatchExpr (joinWords p.ftsTerms) = matchExpr (w :: ws) := by
          rw [fts5MatchExpr, hsplit]
          rfl
        refine ⟨some ids, by rw [hquery, hexpr, hids]; rfl, fun id => ?_⟩
        rw [Option.all_some, List.contains_iff_mem, hmem]
        exact and_congr_left' ⟨fun hsome _ => hsome, fun hsome => hsome hterms⟩

/-! ### the scopes -/

/-- A scope of a line is one namespace, or one subtree. -/
def Simple (scope : Scope) : Prop := ∃ path, scope = .exact path ∨ scope = .subtree path

/-- A simple scope resolves to items. -/
theorem Simple.resolve {scope : Scope} (h : Simple scope) {rows : List Namespace} {found : Option (List Int)}
    (hfound : resolveScope nfc rows scope = .ok found) : ∃ ids, found = some ids := by
  obtain ⟨path, rfl | rfl⟩ := h
  · rw [resolveScope] at hfound
    obtain ⟨id, -, rfl⟩ := Tx.map_eq_ok.mp hfound
    exact ⟨_, rfl⟩
  · rw [resolveScope] at hfound
    obtain ⟨found, -, rfl⟩ := Tx.map_eq_ok.mp hfound
    exact ⟨_, rfl⟩

/-- Scopes that are read one after another are all read, or refused. -/
theorem resolveScopes_ok {rows : List Namespace} {scopes : List Scope} (hsimple : ∀ scope ∈ scopes, Simple scope)
    (h : ∀ scope ∈ scopes, ∃ found, resolveScope nfc rows scope = .ok found) :
    ∃ ids, resolveScopes nfc rows scopes = .ok (some ids) ∧
      ∀ n, n ∈ ids ↔ ∃ scope ∈ scopes, ∃ ids, resolveScope nfc rows scope = .ok (some ids) ∧ n ∈ ids := by
  induction scopes with
  | nil => exact ⟨[], by rw [resolveScopes], by simp⟩
  | cons scope scopes ih =>
      obtain ⟨hone, hrest⟩ := List.forall_mem_cons.mp h
      obtain ⟨hsimple₁, hsimples⟩ := List.forall_mem_cons.mp hsimple
      obtain ⟨found, hfound⟩ := hone
      obtain ⟨ids, rfl⟩ := hsimple₁.resolve hfound
      obtain ⟨others, hothers, hmem⟩ := ih hsimples hrest
      refine ⟨ids ++ others, ?_, fun n => ?_⟩
      · rw [resolveScopes, hfound]
        show (resolveScopes nfc rows scopes >>= fun found => pure (found.map (ids ++ ·))) = _
        rw [hothers]
        rfl
      · rw [List.mem_append, hmem, List.exists_mem_cons_iff, hfound]
        refine or_congr_left ⟨fun hn => ⟨ids, rfl, hn⟩, ?_⟩
        rintro ⟨_, heq, hn⟩
        obtain rfl := Option.some.inj (Except.ok.inj heq)
        exact hn

/-- Where many simple scopes resolve, each does. -/
theorem of_resolveScopes {rows : List Namespace} {scopes : List Scope} (hsimple : ∀ scope ∈ scopes, Simple scope)
    {found : Option (List Int)} (h : resolveScopes nfc rows scopes = .ok found) :
    ∀ scope ∈ scopes, ∃ found, resolveScope nfc rows scope = .ok found := by
  induction scopes generalizing found with
  | nil => exact fun _ hmem => absurd hmem List.not_mem_nil
  | cons scope scopes ih =>
      obtain ⟨hsimple₁, hsimples⟩ := List.forall_mem_cons.mp hsimple
      rw [resolveScopes] at h
      obtain ⟨first, hfirst, h⟩ := Tx.bind_eq_ok.mp h
      obtain ⟨ids, rfl⟩ := hsimple₁.resolve hfirst
      obtain ⟨rest, hrest, -⟩ := Tx.bind_eq_ok.mp h
      exact List.forall_mem_cons.mpr ⟨⟨_, hfirst⟩, ih hsimples hrest⟩

/-- An item is placed in one of some namespaces. -/
theorem scopeClause_some {ids : List Int} : scopeClause s i (some ids) = true ↔
    ∃ p ∈ s.placements, p.itemId = i.id ∧ p.namespaceId ∈ ids := by
  simp [scopeClause]

/-- What namespaces that come from some scopes cover is what any of the scopes covers. -/
theorem scopeClause_union {scopes : List Scope} {ids : List Int} (hmem : ∀ n, n ∈ ids ↔
      ∃ scope ∈ scopes, ∃ ids, resolveScope nfc s.namespaces scope = .ok (some ids) ∧ n ∈ ids) (i : ItemRow) :
    scopeClause s i (some ids) = true ↔ ∃ scope ∈ scopes, Covers nfc s scope i := by
  simp only [scopeClause_some, Covers, hmem]
  constructor
  · rintro ⟨p, hp, hid, scope, hscope, ids, hids, hn⟩
    exact ⟨scope, hscope, ids, hids, p, hp, hid, hn⟩
  · rintro ⟨scope, hscope, ids, hids, p, hp, hid, hn⟩
    exact ⟨p, hp, hid, scope, hscope, ids, hids, hn⟩

/-- **The scopes of a line are read, or refused, one by one**, and what they cover together is what any covers. -/
theorem resolve_scopeOf {scopes : List Scope} (hsimple : ∀ scope ∈ scopes, Simple scope) :
    ((∃ found, resolveScope nfc s.namespaces (scopeOf scopes) = .ok found) ↔
      ∀ scope ∈ scopes, ∃ found, resolveScope nfc s.namespaces scope = .ok found) ∧
    ∀ found, resolveScope nfc s.namespaces (scopeOf scopes) = .ok found → ∀ i,
      (scopeClause s i found = true ↔ scopes = [] ∨ ∃ scope ∈ scopes, Covers nfc s scope i) := by
  rcases scopes with _ | ⟨first, _ | ⟨other, rest⟩⟩
  · have hall : resolveScope nfc s.namespaces (scopeOf []) = .ok none := by rw [scopeOf, resolveScope]
    refine ⟨iff_of_true ⟨_, hall⟩ fun _ hmem => absurd hmem List.not_mem_nil, fun found hfound i => ?_⟩
    obtain rfl := Except.ok.inj (hall.symm.trans hfound)
    exact iff_of_true rfl (Or.inl rfl)
  · have hone : scopeOf [first] = first := rfl
    refine ⟨by rw [List.forall_mem_singleton, hone], fun found hfound i => ?_⟩
    rw [hone] at hfound
    obtain ⟨ids, rfl⟩ := (hsimple first List.mem_cons_self).resolve hfound
    rw [or_iff_right (List.cons_ne_nil _ _)]
    refine scopeClause_union (fun n => ?_) i
    simp [hfound]
  · have hmany : ∀ found, resolveScope nfc s.namespaces (scopeOf (first :: other :: rest)) = .ok found ↔
        ∃ ids, resolveScopes nfc s.namespaces (first :: other :: rest) = .ok ids ∧
          ids.map (fun ids => dedup (ids.mergeSort fun a b => a ≤ b)) = found := by
      intro found
      rw [scopeOf, resolveScope, Tx.map_eq_ok]
      · exact List.cons_ne_nil _ _
      · intro _ h
        cases h
    have hread : (∃ found, resolveScope nfc s.namespaces (scopeOf (first :: other :: rest)) = .ok found) ↔
        ∀ scope ∈ first :: other :: rest, ∃ found, resolveScope nfc s.namespaces scope = .ok found := by
      constructor
      · rintro ⟨found, hfound⟩
        obtain ⟨ids, hids, -⟩ := (hmany found).mp hfound
        exact of_resolveScopes hsimple hids
      · intro hall
        obtain ⟨ids, hids, -⟩ := resolveScopes_ok hsimple hall
        exact ⟨_, (hmany _).mpr ⟨_, hids, rfl⟩⟩
    refine ⟨hread, fun found hfound i => ?_⟩
    obtain ⟨ids, hids, hmem⟩ := resolveScopes_ok hsimple (hread.mp ⟨found, hfound⟩)
    obtain ⟨_, hids', rfl⟩ := (hmany found).mp hfound
    obtain rfl := Except.ok.inj (hids.symm.trans hids')
    rw [or_iff_right (List.cons_ne_nil _ _)]
    refine scopeClause_union (fun n => ?_) i
    rw [mem_dedup, List.mem_mergeSort]
    exact hmem n

/-! ### what a line accepts -/

/-- What the fields ask, field by field. -/
theorem bounds_iff {q : Query} : (∀ field b, bound sys s q field = some b → b i = true) ↔
    ((bound sys s q .kind).all (· i) = true ∧ (bound sys s q .status).all (· i) = true ∧
      (bound sys s q .resolution).all (· i) = true ∧ (bound sys s q .priority).all (· i) = true ∧
        (bound sys s q .due).all (· i) = true ∧ (bound sys s q .claimed).all (· i) = true ∧
          (bound sys s q .blocks).all (· i) = true) := by
  simp only [Option.all_eq_true]
  constructor
  · intro h
    exact ⟨h .kind, h .status, h .resolution, h .priority, h .due, h .claimed, h .blocks⟩
  · rintro ⟨hkind, hstatus, hresolution, hpriority, hdue, hclaimed, hblocks⟩ field
    cases field <;> assumption

/-- **What a line accepts** is what it says of an item. -/
theorem accepts_toQuery (hfts : AndsWords sys isToken) (hids : p.query.ids = [])
    (hsimple : ∀ scope ∈ p.scopes, Simple scope)
    {scope fts : Option (List Int)} (hscope : resolveScope nfc s.namespaces p.toQuery.scope = .ok scope)
    (hmatch : matchFts sys p.toQuery = .ok fts) :
    accepts s i sys p.toQuery scope fts = true ↔ Means nfc sys isToken s p i := by
  obtain ⟨fts', hmatch', hwords⟩ := matchFts_toQuery hfts p
  obtain rfl := Except.ok.inj (hmatch.symm.trans hmatch')
  have hcovers := (resolve_scopeOf hsimple).2 scope hscope i
  have hany : ∀ (xs : List Text) x, (xs.isEmpty || xs.contains x) = true ↔ (xs ≠ [] → x ∈ xs) := by
    intro xs x
    cases xs <;> simp
  have hgroups : (∀ g, Group.Asks p g → Group.Holds nfc s p i g) ↔ (p.query.kinds ≠ [] → i.kind ∈ p.query.kinds) ∧
      (p.query.phases ≠ [] → currentPhase s i ∈ p.query.phases) ∧ scopeClause s i scope = true := by
    rw [hcovers, or_iff_not_imp_left]
    constructor
    · intro h
      exact ⟨h .kinds, h .phases, h .scopes⟩
    · rintro ⟨hkinds, hphases, hscopes⟩ g
      cases g <;> assumption
  simp only [accepts, columnClauses, graphClauses, Parsing.toQuery, hids, List.isEmpty_nil, Bool.true_or, Bool.and_true,
    Bool.and_eq_true, hany, hwords, and_assoc]
  constructor
  · rintro ⟨hkind, hk, hek, hstatus, hres, hprio, hph, heph, hdue, htags, hsc, hready, hfrontier, htomb, hclaimed,
      hblocks, hworded, hw⟩
    refine ⟨?_, bounds_iff.mpr ?_, hgroups.mpr ⟨hk, hph, hsc⟩, hworded, hw⟩
    · simp only [fixedClauses, Bool.and_eq_true, and_assoc]
      exact ⟨hek, heph, htags, hready, hfrontier, htomb⟩
    · simp only [bound, Option.all_map]
      exact ⟨hkind, hstatus, hres, hprio, hdue, hclaimed, hblocks⟩
  · rintro ⟨hfixed, hbounds, hgroup, hworded, hw⟩
    obtain ⟨hk, hph, hsc⟩ := hgroups.mp hgroup
    have hbounds := bounds_iff.mp hbounds
    simp only [bound, Option.all_map] at hbounds
    simp only [fixedClauses, Bool.and_eq_true, and_assoc] at hfixed
    obtain ⟨hkind, hstatus, hres, hprio, hdue, hclaimed, hblocks⟩ := hbounds
    obtain ⟨hek, heph, htags, hready, hfrontier, htomb⟩ := hfixed
    exact ⟨hkind, hk, hek, hstatus, hres, hprio, hph, heph, hdue, htags, hsc, hready, hfrontier, htomb, hclaimed,
      hblocks, hworded, hw⟩

/-! ### the fold of a line -/

/-- What two lines side by side have to meet, each for itself, a line has to meet term by term. -/
theorem foldl_merge_and {P : Parsing → Prop} (hP : ∀ p p', P (p.merge p') ↔ P p ∧ P p') (ps : List Parsing)
    (p : Parsing) : P (ps.foldl Parsing.merge p) ↔ P p ∧ ∀ q ∈ ps, P q := by
  induction ps generalizing p with
  | nil => simp
  | cons q ps ih => rw [List.foldl_cons, ih, hP, List.forall_mem_cons, and_assoc]

/-- What one of two lines side by side has to meet, one term of a line has to. -/
theorem foldl_merge_or {P : Parsing → Prop} (hP : ∀ p p', P (p.merge p') ↔ P p ∨ P p') (ps : List Parsing)
    (p : Parsing) : P (ps.foldl Parsing.merge p) ↔ P p ∨ ∃ q ∈ ps, P q := by
  induction ps generalizing p with
  | nil => simp
  | cons q ps ih => rw [List.foldl_cons, ih, hP, List.exists_mem_cons_iff, or_assoc]

/-- The clauses that do not depend on the scope or the full text. -/
theorem fixedClauses_iff {q : Query} : fixedClauses s q i = true ↔ i.kind ∉ q.excludeKinds ∧
    currentPhase s i ∉ q.excludePhases ∧ (∀ t ∈ q.tags, tagged s i t = true) ∧
      (∀ t ∈ q.excludeTags, tagged s i t = false) ∧ (q.ready = true → readyClause s i = true) ∧
        (q.frontier = true → frontierClause s i = true) ∧ (q.tombstone = true → tombstoneClause s i = true) := by
  have hnot : ∀ (xs : List Text) x, (xs.isEmpty || !xs.contains x) = true ↔ x ∉ xs := by
    intro xs x
    cases xs <;> simp
  have hflag : ∀ b c : Bool, (!b || c) = true ↔ (b = true → c = true) := by decide
  simp only [fixedClauses, tagClauses, Bool.and_eq_true, hnot, hflag, List.all_eq_true, Bool.not_eq_true', and_assoc]

/-- They hold of both terms or of neither. -/
theorem fixedClauses_merge : fixedClauses s (p.merge p').query i = true ↔
    fixedClauses s p.query i = true ∧ fixedClauses s p'.query i = true := by
  simp only [fixedClauses_iff, Parsing.merge, List.mem_append, or_imp, forall_and, not_or, Bool.or_eq_true]
  tauto

/-- Two terms ask of a field if one of them does. -/
theorem asks_merge (g : Group) (p p' : Parsing) : Group.Asks (p.merge p') g ↔ Group.Asks p g ∨ Group.Asks p' g := by
  cases g <;> simp only [Group.Asks, Parsing.merge, ne_eq, List.append_eq_nil_iff, not_and_or]

/-- A field of two terms holds where it holds of one. -/
theorem holds_merge (g : Group) (p p' : Parsing) :
    Group.Holds nfc s (p.merge p') i g ↔ Group.Holds nfc s p i g ∨ Group.Holds nfc s p' i g := by
  cases g <;> simp only [Group.Holds, Parsing.merge, List.mem_append, or_and_right, exists_or]

/-- The later value of a field counts. -/
theorem bound_merge (field : Field) :
    bound sys s (p.merge p').query field = (bound sys s p'.query field).or (bound sys s p.query field) := by
  cases field <;> simp only [bound, Parsing.merge, Option.map_or]

/-- **Of the values of a field the last counts.** -/
theorem bound_foldl (ps : List Parsing) (p : Parsing) (field : Field) :
    bound sys s (ps.foldl Parsing.merge p).query field =
      ((ps.filterMap fun q => bound sys s q.query field).getLast?).or (bound sys s p.query field) := by
  induction ps generalizing p with
  | nil => rfl
  | cons q ps ih =>
      rw [List.foldl_cons, ih, bound_merge, List.filterMap_cons]
      cases bound sys s q.query field with
      | none => rfl
      | some b =>
          rw [List.getLast?_cons]
          cases (ps.filterMap fun q => bound sys s q.query field).getLast? <;> rfl

/-- The words of two terms, one after the other. -/
theorem words_merge (p p' : Parsing) : (p.merge p').words isToken = p.words isToken ++ p'.words isToken :=
  List.flatMap_append

/-- **What a line says is what counts of it.** -/
theorem means_foldl (ps : List Parsing) :
    Means nfc sys isToken s (ps.foldl Parsing.merge {}) i ↔ Counts nfc sys isToken s ps i := by
  have hfixed := foldl_merge_and (P := fun p => fixedClauses s p.query i = true) (fun _ _ => fixedClauses_merge) ps {}
  rw [and_iff_right (by simp [fixedClauses, tagClauses])] at hfixed
  have hbounds : ∀ field, bound sys s (ps.foldl Parsing.merge {}).query field =
      (values sys s ps field).getLast? := by
    intro field
    have hempty : bound sys s ({} : Parsing).query field = none := by cases field <;> rfl
    rw [bound_foldl, hempty, Option.or_none, values]
  have hasks : ∀ g, Group.Asks (ps.foldl Parsing.merge {}) g ↔ ∃ p ∈ ps, Group.Asks p g := by
    intro g
    rw [foldl_merge_or (P := fun p => Group.Asks p g) (asks_merge g), or_iff_right]
    cases g <;> exact fun h => h rfl
  have hholds : ∀ g, Group.Holds nfc s (ps.foldl Parsing.merge {}) i g ↔ ∃ p ∈ ps, Group.Holds nfc s p i g := by
    intro g
    rw [foldl_merge_or (P := fun p => Group.Holds nfc s p i g) (holds_merge g), or_iff_right]
    cases g <;> simp [Group.Holds]
  have hterms := foldl_merge_or (P := fun p => p.ftsTerms ≠ [])
    (fun p p' => by simp only [Parsing.merge, ne_eq, List.append_eq_nil_iff, not_and_or]) ps {}
  have hworded := foldl_merge_or (P := fun p => p.words isToken ≠ [])
    (fun p p' => by simp only [words_merge, ne_eq, List.append_eq_nil_iff, not_and_or]) ps {}
  have hwords := foldl_merge_and (P := fun p => ∀ w ∈ p.words isToken, Matches sys [w] i.id)
    (fun p p' => by simp only [words_merge, List.mem_append, or_imp, forall_and]) ps {}
  have hnone : ({} : Parsing).words isToken = [] := rfl
  rw [or_iff_right fun h => h rfl] at hterms hworded
  rw [and_iff_right (by simp [hnone])] at hwords
  constructor
  · rintro ⟨hf, hb, hg, hsome, hw⟩
    refine ⟨hfixed.mp hf, fun field b h => hb field b ((hbounds field).trans h), fun g h => ?_, fun h => ?_,
      hwords.mp hw⟩
    · exact (hholds g).mp (hg g ((hasks g).mpr h))
    · exact hworded.mp (hsome (hterms.mpr h))
  · rintro ⟨hf, hb, hg, hsome, hw⟩
    refine ⟨hfixed.mpr hf, fun field b h => hb field b ((hbounds field).symm.trans h), fun g h => ?_, fun h => ?_,
      hwords.mpr hw⟩
    · exact (hholds g).mpr (hg g ((hasks g).mp h))
    · exact hworded.mpr (hsome (hterms.mp h))

/-! ### one term -/

/-- What one term says: a list of kinds, of phases or of namespaces and nothing else, or none of these. -/
inductive Shaped : Parsing → Prop
  | kinds (kinds : List Text) : Shaped { query := { kinds } }
  | phases (phases : List Text) : Shaped { query := { phases } }
  | scopes {scopes : List Scope} (h : ∀ scope ∈ scopes, Simple scope) : Shaped { scopes }
  | other {p : Parsing} (kinds : p.query.kinds = []) (phases : p.query.phases = []) (scopes : p.scopes = [])
      (ids : p.query.ids = []) : Shaped p

/-- The scopes of a namespace term are simple. -/
theorem simple_of_parseNs {payload token : Text} {scopes : List Scope} (h : parseNs payload token = .ok scopes) :
    ∀ scope ∈ scopes, Simple scope := by
  intro scope hscope
  obtain ⟨part, -, hpart⟩ := Tx.mem_of_mapM h scope hscope
  split at hpart
  · cases hpart
  · obtain rfl := Except.ok.inj hpart
    cases stripSuffix "/**".toList part with
    | none => exact ⟨part, Or.inl rfl⟩
    | some base => exact ⟨base, Or.inr rfl⟩

/-- A value that is read and set, and is no kind, phase or namespace. -/
theorem shaped_bind_set {α : Type} {x : Except Fmt α} {g : α → Query → Query}
    (h : (x >>= fun a => .ok (({} : Parsing).set (g a))) = .ok p)
    (hkinds : ∀ a, (g a {}).kinds = []) (hphases : ∀ a, (g a {}).phases = []) (hids : ∀ a, (g a {}).ids = []) :
    Shaped p := by
  obtain ⟨a, -, h⟩ := Tx.bind_eq_ok.mp h
  cases h
  exact .other (hkinds a) (hphases a) rfl (hids a)

/-- An `is:` term has the shape of a term. -/
theorem shaped_parseIs {v token : Text} (h : parseIs v token {} = .ok p) : Shaped p := by
  simp only [parseIs] at h
  split_ifs at h
  all_goals
    cases h
    exact .other rfl rfl rfl rfl

/-- So has every term with a prefix. -/
theorem shaped_prefixed {f : Text → Text → Parsing → Except Fmt Parsing} {pfx : String} (hf : (pfx, f) ∈ prefixed)
    {v token : Text} (h : f v token {} = .ok p) : Shaped p := by
  simp only [prefixed, List.mem_cons, List.not_mem_nil, or_false, Prod.mk.injEq] at hf
  rcases hf with ⟨-, rfl⟩ | ⟨-, rfl⟩ | ⟨-, rfl⟩ | ⟨-, rfl⟩ | ⟨-, rfl⟩ | ⟨-, rfl⟩ | ⟨-, rfl⟩ | ⟨-, rfl⟩ |
    ⟨-, rfl⟩ | ⟨-, rfl⟩ | ⟨-, rfl⟩ | ⟨-, rfl⟩
  · dsimp only at h
    split at h <;> cases h
    exact .other rfl rfl rfl rfl
  · obtain ⟨_, -, h⟩ := Tx.bind_eq_ok.mp h
    obtain ⟨_, -, h⟩ := Tx.bind_eq_ok.mp h
    cases h
    exact .other rfl rfl rfl rfl
  · obtain ⟨_, -, h⟩ := Tx.bind_eq_ok.mp h
    split at h
    · obtain ⟨kinds, -, h⟩ := Tx.bind_eq_ok.mp h
      cases h
      exact .kinds kinds
    · cases h
      exact .other rfl rfl rfl rfl
  · exact shaped_bind_set h (fun _ => rfl) (fun _ => rfl) fun _ => rfl
  · obtain ⟨_, -, h⟩ := Tx.bind_eq_ok.mp h
    split at h <;> cases h
    exact .other rfl rfl rfl rfl
  · exact shaped_bind_set h (fun _ => rfl) (fun _ => rfl) fun _ => rfl
  · obtain ⟨phases, -, h⟩ := Tx.bind_eq_ok.mp h
    cases h
    exact .phases phases
  · exact shaped_bind_set h (fun _ => rfl) (fun _ => rfl) fun _ => rfl
  · exact shaped_bind_set h (fun _ => rfl) (fun _ => rfl) fun _ => rfl
  · obtain ⟨scopes, hscopes, h⟩ := Tx.bind_eq_ok.mp h
    cases h
    exact .scopes (simple_of_parseNs hscopes)
  · exact shaped_parseIs h
  · exact shaped_bind_set h (fun _ => rfl) (fun _ => rfl) fun _ => rfl

/-- **One token says one thing.** -/
theorem shaped_parseToken {token : Text} (h : parseToken {} token = .ok p) : Shaped p := by
  rw [parseToken_eq] at h
  cases hfind : prefixed.findSome? fun x => (stripPrefix x.1.toList token).map (x.2 · token {}) with
  | some parsed =>
      rw [hfind, Option.getD_some] at h
      obtain ⟨x, hx, hparsed⟩ := List.exists_of_findSome?_eq_some hfind
      obtain ⟨v, -, rfl⟩ := Option.map_eq_some_iff.mp hparsed
      exact shaped_prefixed hx h
  | none =>
      rw [hfind, Option.getD_none, parseWord] at h
      split at h
      · split at h <;> cases h
        exact .other rfl rfl rfl rfl
      · split at h
        · split at h <;> cases h
          exact .other rfl rfl rfl rfl
        · cases h
          exact .other rfl rfl rfl rfl

/-- A term names no items. -/
theorem Shaped.ids (h : Shaped p) : p.query.ids = [] := by
  cases h with
  | kinds => rfl
  | phases => rfl
  | scopes => rfl
  | other _ _ _ hids => exact hids

/-- The scopes of a term are simple. -/
theorem Shaped.simple (h : Shaped p) : ∀ scope ∈ p.scopes, Simple scope := by
  cases h with
  | kinds => exact fun _ hmem => absurd hmem List.not_mem_nil
  | phases => exact fun _ hmem => absurd hmem List.not_mem_nil
  | scopes hsimple => exact hsimple
  | other _ _ hscopes _ =>
      rw [hscopes]
      exact fun _ hmem => absurd hmem List.not_mem_nil

/-- The group of a term is the one that it asks for. -/
theorem Shaped.group (h : Shaped p) (g : Group) : p.group = some g ↔ Group.Asks p g := by
  cases h with
  | kinds kinds => cases g <;> simp [Parsing.group, Group.Asks]
  | phases phases => cases g <;> simp [Parsing.group, Group.Asks]
  | scopes hsimple => cases g <;> simp [Parsing.group, Group.Asks]
  | other hkinds hphases hscopes _ => cases g <;> simp [Parsing.group, Group.Asks, hkinds, hphases, hscopes]

/-- A term of a group asks for nothing else. -/
theorem Shaped.nothing_else (h : Shaped p) {g : Group} (hg : Group.Asks p g) :
    fixedClauses s p.query i = true ∧ (∀ field, bound sys s p.query field = none) ∧
      (∀ g', Group.Asks p g' → g' = g) ∧ p.ftsTerms = [] := by
  have hnone : ∀ q : Query, q.kind = none → q.status = none → q.resolution = none → q.priority = none →
      q.due = none → q.claimed = none → q.blocks = none → ∀ field, bound sys s q field = none := by
    intro q hkind hstatus hresolution hpriority hdue hclaimed hblocks field
    cases field <;> simp only [bound, hkind, hstatus, hresolution, hpriority, hdue, hclaimed, hblocks, Option.map_none]
  cases h with
  | kinds kinds =>
      refine ⟨by simp [fixedClauses, tagClauses], hnone _ rfl rfl rfl rfl rfl rfl rfl, fun g' hg' => ?_, rfl⟩
      cases g <;> cases g' <;> simp_all [Group.Asks]
  | phases phases =>
      refine ⟨by simp [fixedClauses, tagClauses], hnone _ rfl rfl rfl rfl rfl rfl rfl, fun g' hg' => ?_, rfl⟩
      cases g <;> cases g' <;> simp_all [Group.Asks]
  | scopes hsimple =>
      refine ⟨by simp [fixedClauses, tagClauses], hnone _ rfl rfl rfl rfl rfl rfl rfl, fun g' hg' => ?_, rfl⟩
      cases g <;> cases g' <;> simp_all [Group.Asks]
  | other hkinds hphases hscopes _ =>
      cases g with
      | kinds => exact absurd hkinds hg
      | phases => exact absurd hphases hg
      | scopes => exact absurd hscopes hg

/-- What a term of a group says. -/
theorem Shaped.means (h : Shaped p) {g : Group} (hg : Group.Asks p g) :
    Means nfc sys isToken s p i ↔ Group.Holds nfc s p i g := by
  obtain ⟨hfixed, hbounds, honly, hterms⟩ := @Shaped.nothing_else sys s p i h g hg
  have hwords : p.words isToken = [] := by rw [Parsing.words, hterms, List.flatMap_nil]
  refine ⟨fun hmeans => hmeans.groups g hg, fun hholds => ⟨hfixed, fun field b hb => ?_, fun g' hg' => ?_,
    fun hne => absurd hterms hne, fun w hw => ?_⟩⟩
  · rw [hbounds field] at hb
    cases hb
  · rwa [honly g' hg']
  · rw [hwords] at hw
    exact absurd hw List.not_mem_nil

/-- **The terms of a line, each on its own and a group as one**: what counts of the line, and what is lost of it. -/
theorem means_each {ps : List Parsing} (hshaped : ∀ p ∈ ps, Shaped p) :
    ((∀ p ∈ ps, p.group = none → Means nfc sys isToken s p i) ∧
      ∀ g, (∃ p ∈ ps, p.group = some g) → ∃ p ∈ ps, p.group = some g ∧ Means nfc sys isToken s p i) ↔
      Counts nfc sys isToken s ps i ∧ KeepsLost sys isToken s ps i := by
  -- a term is in a group, or it is not
  have hcase : ∀ p ∈ ps, (∀ g, ¬ Group.Asks p g) ∨ ∃ g, p.group = some g ∧ Group.Asks p g := by
    intro p hp
    by_cases hg : ∃ g, Group.Asks p g
    · obtain ⟨g, hg⟩ := hg
      exact Or.inr ⟨g, ((hshaped p hp).group g).mpr hg, hg⟩
    · exact Or.inl (not_exists.mp hg)
  have hnone : ∀ p ∈ ps, (∀ g, ¬ Group.Asks p g) → p.group = none := by
    intro p hp hno
    cases hg : p.group with
    | none => rfl
    | some g => exact absurd (((hshaped p hp).group g).mp hg) (hno g)
  constructor
  · rintro ⟨hmeans, hgroups⟩
    have hparts : ∀ p ∈ ps, fixedClauses s p.query i = true ∧
        (∀ field b, bound sys s p.query field = some b → b i = true) ∧ (p.ftsTerms ≠ [] → p.words isToken ≠ []) ∧
          ∀ w ∈ p.words isToken, Matches sys [w] i.id := by
      intro p hp
      rcases hcase p hp with hno | ⟨g, -, hg⟩
      · have hp := hmeans p hp (hnone p hp hno)
        exact ⟨hp.fixed, hp.bounds, hp.worded, hp.words⟩
      · obtain ⟨hfixed, hbounds, -, hterms⟩ := @Shaped.nothing_else sys s p i (hshaped p hp) g hg
        have hwords : p.words isToken = [] := by rw [Parsing.words, hterms, List.flatMap_nil]
        refine ⟨hfixed, fun field b hb => ?_, fun hne => absurd hterms hne, fun w hw => ?_⟩
        · rw [hbounds field] at hb
          cases hb
        · rw [hwords] at hw
          exact absurd hw List.not_mem_nil
    have hbounds : ∀ field, ∀ b ∈ values sys s ps field, b i = true := by
      intro field b hb
      obtain ⟨p, hp, hb⟩ := List.mem_filterMap.mp hb
      exact (hparts p hp).2.1 field b hb
    refine ⟨⟨fun p hp => (hparts p hp).1, fun field b hb => hbounds field b (List.mem_of_getLast? hb), fun g h => ?_,
      fun h => ?_, fun p hp => (hparts p hp).2.2.2⟩, hbounds, fun p hp => (hparts p hp).2.2.1⟩
    · obtain ⟨p, hp, hg⟩ := h
      obtain ⟨q, hq, hgroup, hmeans⟩ := hgroups g ⟨p, hp, ((hshaped p hp).group g).mpr hg⟩
      exact ⟨q, hq, hmeans.groups g (((hshaped q hq).group g).mp hgroup)⟩
    · obtain ⟨p, hp, hne⟩ := h
      exact ⟨p, hp, (hparts p hp).2.2.1 hne⟩
  · rintro ⟨hcounts, hlost⟩
    refine ⟨fun p hp hgroup => ⟨hcounts.fixed p hp, fun field b hb => ?_, fun g hg => ?_, hlost.worded p hp,
      hcounts.words p hp⟩, fun g h => ?_⟩
    · exact hlost.bounds field b (List.mem_filterMap.mpr ⟨p, hp, hb⟩)
    · rw [((hshaped p hp).group g).mpr hg] at hgroup
      cases hgroup
    · obtain ⟨p, hp, hgroup⟩ := h
      obtain ⟨q, hq, hholds⟩ := hcounts.groups g ⟨p, hp, ((hshaped p hp).group g).mp hgroup⟩
      have hasks : Group.Asks q g := by
        cases g with
        | kinds => exact List.ne_nil_of_mem hholds
        | phases => exact List.ne_nil_of_mem hholds
        | scopes =>
            obtain ⟨scope, hscope, -⟩ := hholds
            exact List.ne_nil_of_mem hscope
      exact ⟨q, hq, ((hshaped q hq).group g).mpr hasks, ((hshaped q hq).means hasks).mpr hholds⟩

/-! ### a line is answered -/

/-- **A line is answered** if its scopes are read, with the items that it says so of. -/
theorem evaluate_toQuery (hfts : AndsWords sys isToken) (hwritten : Written p.toQuery)
    (htags : p.tagTerms ≤ maxTagTerms)
    (hsimple : ∀ scope ∈ p.scopes, Simple scope) :
    ((∃ ids, evaluate nfc sys s p.toQuery = .ok ids) ↔
      ∀ scope ∈ p.scopes, ∃ found, resolveScope nfc s.namespaces scope = .ok found) ∧
    ∀ ids, evaluate nfc sys s p.toQuery = .ok ids →
      ∀ id, id ∈ ids ↔ ∃ i ∈ s.items.rows, i.id = id ∧ Means nfc sys isToken s p i := by
  obtain ⟨fts, hmatch, -⟩ := matchFts_toQuery hfts p
  have hcheck : check p.toQuery = .ok () := by
    have hphases : (p.toQuery.phases ++ p.toQuery.excludePhases).findSome? phaseProblem = none :=
      List.findSome?_eq_none_iff.mpr hwritten.phases
    have hfew : ¬ maxTagTerms < p.toQuery.tags.length + p.toQuery.excludeTags.length := Nat.not_lt.mpr htags
    rw [check, if_neg hfew, hphases]
  refine ⟨?_, fun ids hids id => ?_⟩
  · rw [← (resolve_scopeOf hsimple).1]
    constructor
    · rintro ⟨ids, hids⟩
      obtain ⟨-, scope, -, hscope, -⟩ := mem_evaluate hids hwritten.limit
      exact ⟨scope, hscope⟩
    · rintro ⟨scope, hscope⟩
      have hscope : resolveScope nfc s.namespaces p.toQuery.scope = .ok scope := hscope
      rw [evaluate, hcheck, hscope, hmatch]
      exact ⟨_, rfl⟩
  · obtain ⟨-, scope, fts', hscope, hmatch', hmem⟩ := mem_evaluate hids hwritten.limit
    rw [hmem]
    refine exists_congr fun i => and_congr_right fun _ => ?_
    rw [accepts_toQuery hfts hwritten.ids hsimple hscope hmatch', and_comm]

/-- The tags that many terms set are those that each sets. -/
theorem tagTerms_foldl (ps : List Parsing) (p : Parsing) :
    (ps.foldl Parsing.merge p).tagTerms = p.tagTerms + (ps.map Parsing.tagTerms).sum := by
  induction ps generalizing p with
  | nil => rfl
  | cons q ps ih =>
      rw [List.foldl_cons, ih, List.map_cons, List.sum_cons]
      simp only [Parsing.tagTerms, Parsing.merge, List.length_append]
      omega

/-- What the terms of a line all return, where what a term returns is what it says. -/
theorem meets_iff {tokens : List Text} (hshaped : ∀ t ∈ tokens, Shaped (term t))
    (hreturned : ∀ t ∈ tokens, ∀ i ∈ s.items.rows,
      Returned nfc sys s t i.id ↔ Means nfc sys isToken s (term t) i) {id : Int} :
    Meets nfc sys s tokens id ↔ ∃ i ∈ s.items.rows, i.id = id ∧
      Counts nfc sys isToken s (tokens.map term) i ∧ KeepsLost sys isToken s (tokens.map term) i := by
  have hmap : ∀ p ∈ tokens.map term, Shaped p := List.forall_mem_map.mpr hshaped
  constructor
  · rintro ⟨⟨i, hi, rfl⟩, halone, hgroups⟩
    refine ⟨i, hi, rfl, (means_each hmap).mp ⟨List.forall_mem_map.mpr fun t ht hgroup => ?_, fun g h => ?_⟩⟩
    · exact (hreturned t ht i hi).mp (halone t ht hgroup)
    · obtain ⟨p, hp, hg⟩ := h
      obtain ⟨u, hu, rfl⟩ := List.mem_map.mp hp
      obtain ⟨t, ht, hgroup, hreturns⟩ := hgroups g ⟨u, hu, hg⟩
      exact ⟨term t, List.mem_map_of_mem ht, hgroup, (hreturned t ht i hi).mp hreturns⟩
  · rintro ⟨i, hi, rfl, hcounts⟩
    obtain ⟨halone, hgroups⟩ := (means_each hmap).mpr hcounts
    refine ⟨⟨i, hi, rfl⟩, fun t ht hgroup => ?_, fun g h => ?_⟩
    · exact (hreturned t ht i hi).mpr (halone _ (List.mem_map_of_mem ht) hgroup)
    · obtain ⟨u, hu, hg⟩ := h
      obtain ⟨p, hp, hgroup, hmeans⟩ := hgroups g ⟨term u, List.mem_map_of_mem hu, hg⟩
      obtain ⟨t, ht, rfl⟩ := List.mem_map.mp hp
      exact ⟨t, ht, hgroup, (hreturned t ht i hi).mpr hmeans⟩

/-- **The terms of a line conjoin exactly when nothing that is lost of it matters.** Of the values of a field only the
last one counts, and a full-text term without a word is lost beside one with words; where each term is answered, the
line returns the items that its terms all return, if and only if the items that meet what counts of it meet what is
lost. -/
theorem conjoins_iff (hfts : AndsWords sys isToken) {tokens : List Text} (htokens : ∀ t ∈ tokens, Alone t)
    (hparse : ∀ t ∈ tokens, ∃ q, parse t = .ok q)
    (htags : ((tokens.map term).map Parsing.tagTerms).sum ≤ maxTagTerms) :
    Conjoins nfc sys s tokens ↔ ((∀ t ∈ tokens, Answered nfc sys s t) → ∀ i ∈ s.items.rows,
      Counts nfc sys isToken s (tokens.map term) i → KeepsLost sys isToken s (tokens.map term) i) := by
  obtain ⟨hjoined, hterm⟩ := parse_joinWords htokens hparse
  have hshaped : ∀ t ∈ tokens, Shaped (term t) := fun t ht => shaped_parseToken (hterm t ht).1
  -- each term on its own
  have heach : ∀ t ∈ tokens, _ := fun t ht =>
    @evaluate_toQuery nfc sys isToken s (term t) hfts (parse_written (hterm t ht).2)
      ((List.single_le_sum (fun _ _ => Nat.zero_le _) _
        (List.mem_map_of_mem (List.mem_map_of_mem ht))).trans htags) (hshaped t ht).simple
  have hanswered : ∀ t ∈ tokens, Answered nfc sys s t ↔
      ∀ scope ∈ (term t).scopes, ∃ found, resolveScope nfc s.namespaces scope = .ok found := by
    intro t ht
    rw [← (heach t ht).1]
    constructor
    · rintro ⟨q, ids, hq, hids⟩
      obtain rfl := Except.ok.inj ((hterm t ht).2.symm.trans hq)
      exact ⟨ids, hids⟩
    · rintro ⟨ids, hids⟩
      exact ⟨_, ids, (hterm t ht).2, hids⟩
  -- the line
  have hsimple := (foldl_merge_and (P := fun p => ∀ scope ∈ p.scopes, Simple scope)
    (fun p p' => by simp only [Parsing.merge, List.mem_append, or_imp, forall_and]) (tokens.map term) {}).mpr
      ⟨fun _ hmem => absurd hmem List.not_mem_nil, List.forall_mem_map.mpr fun t ht => (hshaped t ht).simple⟩
  have hscopes := foldl_merge_and
    (P := fun p => ∀ scope ∈ p.scopes, ∃ found, resolveScope nfc s.namespaces scope = .ok found)
    (fun p p' => by simp only [Parsing.merge, List.mem_append, or_imp, forall_and]) (tokens.map term) {}
  rw [and_iff_right fun _ hmem => absurd hmem List.not_mem_nil, List.forall_mem_map] at hscopes
  have hfew : ((tokens.map term).foldl Parsing.merge {}).tagTerms ≤ maxTagTerms := by
    rw [tagTerms_foldl]
    exact (Nat.zero_add _).le.trans htags
  obtain ⟨hanswers, hline⟩ := evaluate_toQuery hfts (parse_written hjoined) hfew hsimple
  have hall : (∃ ids, evaluate nfc sys s ((tokens.map term).foldl Parsing.merge {}).toQuery = .ok ids) ↔
      ∀ t ∈ tokens, Answered nfc sys s t := by
    rw [hanswers, hscopes]
    exact forall₂_congr fun t ht => (hanswered t ht).symm
  have hmeets : (∀ t ∈ tokens, Answered nfc sys s t) → ∀ id, Meets nfc sys s tokens id ↔ ∃ i ∈ s.items.rows,
      i.id = id ∧ Counts nfc sys isToken s (tokens.map term) i ∧ KeepsLost sys isToken s (tokens.map term) i := by
    intro hans id
    refine meets_iff hshaped fun t ht i hi => ?_
    obtain ⟨ids, hids⟩ := (heach t ht).1.mpr ((hanswered t ht).mp (hans t ht))
    have hmem := (heach t ht).2 ids hids
    constructor
    · rintro ⟨q, hq, ids', hids', hid⟩
      obtain rfl := Except.ok.inj ((hterm t ht).2.symm.trans hq)
      obtain rfl := Except.ok.inj (hids.symm.trans hids')
      obtain ⟨k, hk, hkid, hmeans⟩ := (hmem i.id).mp hid
      rwa [s.items.toTable.eq_of_key_eq hk hi hkid] at hmeans
    · intro hmeans
      exact ⟨_, (hterm t ht).2, ids, hids, (hmem i.id).mpr ⟨i, hi, rfl, hmeans⟩⟩
  constructor
  · rintro ⟨q, hq, -, hconj⟩ hans i hi hcounts
    obtain rfl := Except.ok.inj (hjoined.symm.trans hq)
    obtain ⟨ids, hids⟩ := hall.mpr hans
    have hid := (hconj ids hids i.id).mp ((hline ids hids i.id).mpr ⟨i, hi, rfl, (means_foldl _).mpr hcounts⟩)
    obtain ⟨k, hk, hkid, -, hkeeps⟩ := (hmeets hans i.id).mp hid
    rwa [s.items.toTable.eq_of_key_eq hk hi hkid] at hkeeps
  · intro hkeeps
    refine ⟨_, hjoined, hall, fun ids hids id => ?_⟩
    have hans := hall.mp ⟨ids, hids⟩
    rw [hline ids hids, hmeets hans]
    refine exists_congr fun i => and_congr_right fun hi => and_congr_right fun _ => ?_
    rw [means_foldl]
    exact ⟨fun h => ⟨h, hkeeps hans i hi h⟩, And.left⟩

/-- **Where no two terms set one field, and no full-text term is without a word**, nothing is lost that matters, so the
terms conjoin. -/
theorem Counts.keepsLost {ps : List Parsing} (h : Counts nfc sys isToken s ps i)
    (honce : ∀ field, (values sys s ps field).length ≤ 1)
    (hworded : ∀ p ∈ ps, p.ftsTerms ≠ [] → p.words isToken ≠ []) : KeepsLost sys isToken s ps i := by
  refine ⟨fun field b hb => h.bounds field b ?_, hworded⟩
  have hone := honce field
  generalize values sys s ps field = bs at hb hone
  obtain _ | ⟨b', _ | ⟨b'', bs⟩⟩ := bs
  · cases hb
  · rw [List.mem_singleton.mp hb]
    rfl
  · simp at hone

/-! ## a bound that is lost -/

/-- Two bounds of the priority. -/
def priorityBounds : List Text := ["priority>=1".toList, "priority<=3".toList]

/-- A task of the priority 0. -/
def lowTask : ItemRow := { id := 1, uid := "t".toList, kind := "task".toList, priority := some 0 }

def lowTasks : Store where
  items :=
    { rows := [lowTask]
      nodup := by decide
      last := 1
      le_last := by decide }

/-- A database in which no words match. -/
def noMatch : Sqlite := ⟨some, [], fun _ => .ok []⟩

/-- There, words match together as they do one by one: never. -/
theorem andsWords_noMatch (isToken : Text → Bool) : AndsWords noMatch isToken where
  ands := by
    intro ws _ _
    refine ⟨[], rfl, fun id => iff_of_false List.not_mem_nil ?_⟩
    rintro ⟨hne, h⟩
    obtain ⟨w, hw⟩ := List.exists_mem_of_ne_nil _ hne
    obtain ⟨ids, hids, hid⟩ := h w hw
    obtain rfl := Except.ok.inj hids
    exact absurd hid List.not_mem_nil
  empty := rfl

/-- A bound of the priority beside a kind. -/
def taskBound : List Text := ["priority>=1".toList, "kind:task".toList]

/-- Those two conjoin: each sets a field of its own. -/
theorem conjoins_iff_taskBound : Conjoins id noMatch lowTasks taskBound := by
  have halone : ∀ t ∈ taskBound, Alone t :=
    List.forall_mem_cons.mpr ⟨⟨rfl, rfl⟩, List.forall_mem_singleton.mpr ⟨rfl, rfl⟩⟩
  have hparse : ∀ t ∈ taskBound, ∃ q, parse t = .ok q :=
    List.forall_mem_cons.mpr ⟨⟨{ priority := some (.ge, 1) }, rfl⟩,
      List.forall_mem_singleton.mpr ⟨{ kind := some "task".toList }, rfl⟩⟩
  have hterms : ∀ p ∈ taskBound.map term, p.ftsTerms = [] := by decide
  refine (conjoins_iff (andsWords_noMatch (· ≠ ['-'])) halone hparse (by decide)).mpr fun _ i _ hcounts => ?_
  exact hcounts.keepsLost (fun field => by cases field <;> decide) fun p hp hne => absurd (hterms p hp) hne

/-- **The lower bound is lost**: the two bounds return a task of the priority 0. -/
theorem priorityBounds_not_conjoin : ¬ Conjoins id noMatch lowTasks priorityBounds := by
  rintro ⟨q, hq, -, hconj⟩
  obtain rfl : { priority := some (.le, 3) } = q := Except.ok.inj hq
  have hmem : lowTask ∈ lowTasks.items.rows := List.mem_cons_self
  obtain ⟨ids, hids, hin⟩ : Selects id noMatch lowTasks { priority := some (.le, 3) } 1 :=
    (@selects_iff { priority := some (.le, 3) } id noMatch lowTasks lowTask hmem rfl rfl rfl rfl).mpr (by decide)
  obtain ⟨-, halone, -⟩ := (hconj ids hids 1).mp hin
  obtain ⟨q, hq, hselects⟩ := halone "priority>=1".toList List.mem_cons_self rfl
  obtain rfl : { priority := some (.ge, 1) } = q := Except.ok.inj hq
  have haccepts := (@selects_iff { priority := some (.ge, 1) } id noMatch lowTasks lowTask hmem rfl rfl rfl rfl).mp
    hselects
  exact absurd haccepts (by decide)

end Jkb.Query
