import Jkb.Core.Query.Parse

/-!
# Jkb.Search

Search: three routes that rank the same items. The structured part of a query is resolved to a set of
items first, and every route ranks within it; whether there is such a set is decided by a list of the
query's fields.

The vector table and the ranking of FTS5 are parameters, and a scaled score is an exact fraction.
-/

namespace Jkb.Search

open Jkb.Text Jkb.Ns Jkb.Query

/-! ## the indexes -/

/-- Above this many items in scope, the neighbours are over-fetched. -/
def exactScoringCap : Nat := 256

/-- The first over-fetch, as a multiple of what is asked for. -/
def overfetchMultiplier : Nat := 8

/-- The most candidates fetched while filtering to a scope. -/
def overfetchCap : Nat := 2048

/-- The largest page the vector table accepts. -/
def vec0KMax : Nat := 4096

/-- The reciprocal-rank-fusion constant. -/
def rrfK : Nat := 60

/-- Multiplication of `usize`, which wraps. -/
def usizeMul (a b : Nat) : Nat := a * b % 2 ^ 64

/-- Why an operation answers nothing: it failed, or it does not return. -/
inductive Halt where
  | failed (why : Fmt)
  | never

/-- The embedder, the vector table as a connection reads it, and how FTS5 ranks a row. -/
structure Index (V : Type) where
  embed : Text → Except Fmt V
  length : V → Nat
  dim : Nat
  stored : List (Int × V)
  cosine : V → V → Rat
  nearest : V → Nat → List (Int × Rat)
  bm25 : Text → Int → Rat

/-- Pairs of an item and a number, smallest number first. -/
def byRank (xs : List (Int × Rat)) : List (Int × Rat) := xs.mergeSort fun a b => decide (a.2 ≤ b.2)

/-- One scan of the vector table: the live rows, the orphans among what was scanned, and whether the table
ran out. -/
structure KnnPage where
  live : List (Int × Rat)
  dead : Nat
  scanned : Nat
  indexExhausted : Bool

section Routes

variable {V : Type} (x : Index V) (sys : Sqlite) (s : Query.Store)

/-- The refusal of a vector of the wrong length. -/
def checkLength (query : V) : Except Halt Unit :=
  if x.length query ≠ x.dim then
    .error (.failed ["query length ", x.length query, " does not match vec table dim ", x.dim])
  else .ok ()

/-- The neighbours whose item still exists. -/
def filterLive (hits : List (Int × Rat)) : List (Int × Rat) := hits.filter fun h => (s.item? h.1).isSome

/-- One scan at `fetch`. -/
def knnPage (query : V) (fetch : Nat) : Except Halt KnnPage := do
  checkLength x query
  let raw := x.nearest query (min fetch vec0KMax)
  let live := filterLive s raw
  return { live, dead := raw.length - live.length, scanned := raw.length,
           indexExhausted := raw.length < min fetch vec0KMax }

/-- Fetch pages, each twice the one before, until one is enough or the cap is reached. A page of nothing
stays one. -/
def grow {α : Type} (cap : Nat) (page : Nat → Except Halt α) (enough : α → Bool) (fetch : Nat) :
    Except Halt α :=
  match page fetch with
  | .error e => .error e
  | .ok p =>
      if enough p ∨ cap ≤ fetch then .ok p
      else if fetch = 0 then .error .never
      else grow cap page enough (min (2 * fetch) cap)
termination_by cap - fetch
decreasing_by omega

/-- The `k` nearest live neighbours. -/
def knnLive (query : V) (k : Nat) : Except Halt KnnPage := do
  let page ← grow vec0KMax (knnPage x s query) (fun p => k ≤ p.live.length || p.indexExhausted)
    (min k vec0KMax)
  return { page with
    live := page.live.take k
    indexExhausted := page.indexExhausted && page.live.length ≤ k }

/-- Exact distances to the given items. -/
def distancesFor (query : V) (ids : List Int) : Except Halt (List (Int × Rat)) := do
  checkLength x query
  return byRank ((x.stored.filter fun r => ids.contains r.1).map fun r => (r.1, x.cosine r.2 query))

/-- Keyword search, best first. -/
def ftsSearch (query : Text) (limit : Nat) : Except Halt (List (Int × Rat)) :=
  if i64Max < limit then .error (.failed ["limit ", limit, " too large"])
  else
    match sys.ftsMatch (fts5MatchExpr query) with
    | .error why => .error (.failed why)
    | .ok ids => .ok ((byRank (ids.map fun id => (id, x.bm25 query id))).take limit)

/-- Orphan vector rows that a search dropped, of those it scanned. -/
structure OrphanVectors where
  dropped : Nat := 0
  scanned : Nat := 0
deriving DecidableEq

def OrphanVectors.of (page : KnnPage) : OrphanVectors := ⟨page.dead, page.scanned⟩

/-- Rank the vector route: everything, exactly in a small scope, or over-fetched in a large one. -/
def vectorRanked (qvec : Option V) (scope : Option (List Int)) (k : Nat) :
    Except Halt (List (Int × Rat) × OrphanVectors) :=
  match qvec with
  | none => .ok ([], {})
  | some qv =>
      match scope with
      | none => do
          let page ← knnLive x s qv k
          return (page.live, .of page)
      | some [] => .ok ([], {})
      | some ids =>
          if ids.length ≤ exactScoringCap then do
            let scored ← distancesFor x qv ids
            return (scored.take k, {})
          else do
            let inScope (page : KnnPage) := (page.live.filter fun h => ids.contains h.1).take k
            let page ← grow overfetchCap (knnPage x s qv)
              (fun page => k ≤ (inScope page).length || page.indexExhausted)
              (min (usizeMul k overfetchMultiplier) overfetchCap)
            return (inScope page, .of page)

/-- Rank the full-text route. -/
def ftsRanked (text : Option Text) (scope : Option (List Int)) (k : Nat) :
    Except Halt (List (Int × Rat)) :=
  match text with
  | none => .ok []
  | some term =>
      if trim term = [] then .ok []
      else
        match scope with
        | none => ftsSearch x sys term k
        | some [] => .ok []
        | some ids => do
            let fetched ← ftsSearch x sys term overfetchCap
            return (fetched.filter fun h => ids.contains h.1).take k

end Routes

/-! ## fusing two rankings -/

/-- The contribution of a rank, counted from zero. -/
def recipRank (rank : Nat) : Rat := 1 / (rrfK + (rank + 1))

/-- What a ranking contributes to an item. -/
def contribution (ranked : List (Int × Rat)) (id : Int) : Rat :=
  (ranked.zipIdx.map fun (h, rank) => if h.1 = id then recipRank rank else 0).sum

/-- Reciprocal-rank fusion: each item with its score and its distance, ties broken by the id. -/
def rrfFuse (vector fts : List (Int × Rat)) (limit : Nat) : List (Int × Rat × Option Rat) :=
  let ids := ((vector ++ fts).map (·.1)).dedup
  let fused := ids.map fun id =>
    (id, contribution vector id + contribution fts id,
      ((vector.filter (·.1 = id)).getLast?).map (·.2))
  (fused.mergeSort fun a b => decide (b.2.1 < a.2.1 ∨ (a.2.1 = b.2.1 ∧ a.1 ≤ b.1))).take limit

/-! ## the search -/

/-- Which way a search ranks. -/
inductive Route where
  | vector
  | fts
  | hybrid
deriving Repr, DecidableEq

/-- One search result. -/
structure SearchHit where
  item : Int
  route : Route
  score : Rat
  distance : Option Rat
  namespacePath : Option Text
  sourceDocument : Option Int

/-- What a search answers. -/
structure Searched where
  hits : List SearchHit := []
  orphans : OrphanVectors := {}

/-- The query text for the vector routes. -/
def vectorText (q : Query) : Option Text := q.vector.or q.fts

/-- The query text for the full-text routes. -/
def ftsText (q : Query) : Option Text := q.fts.or q.vector

/-- Whether a query imposes a structural restriction, by the list of fields that are looked at. -/
def restricted (q : Query) : Bool :=
  q.kind.isSome || q.status.isSome || q.priority.isSome || q.due.isSome || !q.tags.isEmpty ||
    (match q.scope with | .all => false | _ => true) || q.ready || q.blocks.isSome

/-- A query without its ranking terms and its limit. -/
def structural (q : Query) : Query := { q with fts := none, vector := none, limit := none }

/-- The structural part of a query, or `none` where it imposes no restriction. -/
def scopeQuery (q : Query) : Option Query := if restricted q then some (structural q) else none

/-- The source document that a chunk was derived from. -/
def sourceDocument (s : Query.Store) (id : Int) : Option Int :=
  (s.edges.find? fun e => e.src = id ∧ e.type = .derivedFrom).map (·.dst)

/-- The path of an item's namespace, a primary placement before any other. -/
def namespacePath (s : Query.Store) (id : Int) : Option Text :=
  let placed := (s.placements.filter (·.itemId = id)).filterMap fun p =>
    (s.namespaces.find? (·.id = p.namespaceId)).map fun n => (p.role, n.path)
  ((placed.find? (·.1 = "primary".toList)).or placed.head?).map (·.2)

/-- Assemble a hit. -/
def buildHit (s : Query.Store) (id : Int) (route : Route) (score : Rat) (distance : Option Rat) : SearchHit :=
  { item := id, route, score, distance, namespacePath := namespacePath s id,
    sourceDocument := sourceDocument s id }

section Search

variable {V : Type} (x : Index V) (nfc : Text → Text) (sys : Sqlite) (s : Query.Store)

/-- Embed the query text, on the routes that rank by it. -/
def embedText (q : Query) (route : Route) : Except Halt (Option V) :=
  match route, vectorText q with
  | .fts, _ => .ok none
  | _, none => .ok none
  | _, some text =>
      match x.embed text with
      | .ok v => .ok (some v)
      | .error why => .error (.failed why)

/-- Resolve the structural part to the items in scope. -/
def resolveItems (q : Query) : Except Halt (Option (List Int)) :=
  match scopeQuery q with
  | none => .ok none
  | some q =>
      match evaluate nfc sys s q with
      | .ok ids => .ok (some ids)
      | .error why => .error (.failed why)

/-- Rank within a scope, by one of the routes. -/
def rank (q : Query) (route : Route) (limit : Nat) (qvec : Option V) (scope : Option (List Int)) :
    Except Halt Searched :=
  match route with
  | .vector => do
      let (ranked, orphans) ← vectorRanked x s qvec scope limit
      return { hits := ranked.map fun h => buildHit s h.1 .vector (-h.2) (some h.2), orphans }
  | .fts => do
      let ranked ← ftsRanked x sys (ftsText q) scope limit
      return { hits := ranked.map fun h => buildHit s h.1 .fts (-h.2) none }
  | .hybrid => do
      let depth := max 20 (min (usizeMul limit 2) overfetchCap)
      let (v, orphans) ← vectorRanked x s qvec scope depth
      let f ← ftsRanked x sys (ftsText q) scope depth
      return { hits := (rrfFuse v f limit).map fun h => buildHit s h.1 .hybrid h.2.1 h.2.2, orphans }

/-- Search by a route, for at most `limit` hits, best first. -/
def search (q : Query) (route : Route) (limit : Nat) : Except Halt Searched :=
  if limit = 0 then .ok {}
  else do
    let qvec ← embedText x q route
    let scope ← resolveItems nfc sys s q
    rank x sys s q route limit qvec scope

end Search

/-! ## where hits come from -/

/-- What `grow` answers is a page. -/
theorem page_of_grow {α : Type} {cap : Nat} {page : Nat → Except Halt α} {enough : α → Bool}
    {fetch : Nat} {p : α} (h : grow cap page enough fetch = .ok p) : ∃ n, page n = .ok p := by
  induction fetch using grow.induct cap page enough with
  | case1 fetch e hpage =>
      rw [grow, hpage] at h
      cases h
  | case2 fetch p' hpage hdone =>
      rw [grow, hpage] at h
      simp only [if_pos hdone] at h
      exact ⟨fetch, hpage.trans h⟩
  | case3 p' hpage hmore =>
      rw [grow, hpage] at h
      simp only [if_neg hmore, if_pos] at h
      cases h
  | case4 fetch p' hpage hmore hzero ih =>
      rw [grow, hpage] at h
      simp only [if_neg hmore, if_neg hzero] at h
      exact ih h

/-- FTS5 holds rows of items that exist: the triggers on `items` keep its content. -/
def FtsLive (sys : Sqlite) (s : Query.Store) : Prop :=
  ∀ expr ids, sys.ftsMatch expr = .ok ids → ∀ id ∈ ids, (s.item? id).isSome = true

/-- What a ranking holds: items in the scope, or items that exist where there is none. -/
def Within (s : Query.Store) (scope : Option (List Int)) (id : Int) : Prop :=
  match scope with
  | none => (s.item? id).isSome = true
  | some ids => id ∈ ids

section Hits

variable {V : Type} {x : Index V} {nfc : Text → Text} {sys : Sqlite} {s : Query.Store}

theorem live_of_knnPage {query : V} {fetch : Nat} {page : KnnPage}
    (h : knnPage x s query fetch = .ok page) : ∀ r ∈ page.live, (s.item? r.1).isSome = true := by
  obtain ⟨⟨⟩, -, h⟩ := Tx.bind_eq_ok.mp h
  obtain rfl := Except.ok.inj h
  intro r hr
  exact (List.mem_filter.mp hr).2

theorem within_of_vectorRanked {qvec : Option V} {scope : Option (List Int)} {k : Nat}
    {ranked : List (Int × Rat)} {orphans : OrphanVectors}
    (h : vectorRanked x s qvec scope k = .ok (ranked, orphans)) :
    ∀ r ∈ ranked, qvec.isSome = true ∧ Within s scope r.1 := by
  cases qvec with
  | none =>
      obtain ⟨rfl, -⟩ := Prod.mk.inj (Except.ok.inj h)
      exact fun r hr => absurd hr List.not_mem_nil
  | some qv =>
      intro r hr
      refine ⟨rfl, ?_⟩
      match scope, h with
      | none, h =>
          obtain ⟨page, hlive, h⟩ := Tx.bind_eq_ok.mp h
          obtain ⟨rfl, -⟩ := Prod.mk.inj (Except.ok.inj h)
          obtain ⟨full, hgrow, hpage⟩ := Tx.bind_eq_ok.mp hlive
          obtain rfl := Except.ok.inj hpage
          obtain ⟨n, hn⟩ := page_of_grow hgrow
          exact live_of_knnPage hn r (List.mem_of_mem_take hr)
      | some [], h =>
          obtain ⟨rfl, -⟩ := Prod.mk.inj (Except.ok.inj h)
          cases hr
      | some (i :: is), h =>
          simp only [vectorRanked] at h
          split at h
          · obtain ⟨scored, hscored, h⟩ := Tx.bind_eq_ok.mp h
            obtain ⟨rfl, -⟩ := Prod.mk.inj (Except.ok.inj h)
            obtain ⟨⟨⟩, -, hscored⟩ := Tx.bind_eq_ok.mp hscored
            obtain rfl := Except.ok.inj hscored
            have hmem := List.mem_mergeSort.mp (List.mem_of_mem_take hr)
            obtain ⟨row, hrow, rfl⟩ := List.mem_map.mp hmem
            simpa [Within] using (List.mem_filter.mp hrow).2
          · obtain ⟨page, -, h⟩ := Tx.bind_eq_ok.mp h
            obtain ⟨rfl, -⟩ := Prod.mk.inj (Except.ok.inj h)
            simpa [Within] using (List.mem_filter.mp (List.mem_of_mem_take hr)).2

theorem live_of_ftsSearch (hlive : FtsLive sys s) {query : Text} {limit : Nat}
    {ranked : List (Int × Rat)} (h : ftsSearch x sys query limit = .ok ranked) :
    ∀ r ∈ ranked, (s.item? r.1).isSome = true := by
  unfold ftsSearch at h
  split at h
  · cases h
  · split at h
    · cases h
    · rename_i ids hmatch
      obtain rfl := Except.ok.inj h
      intro r hr
      obtain ⟨id, hid, rfl⟩ := List.mem_map.mp (List.mem_mergeSort.mp (List.mem_of_mem_take hr))
      exact hlive _ ids hmatch id hid

theorem within_of_ftsRanked (hlive : FtsLive sys s) {text : Option Text} {scope : Option (List Int)}
    {k : Nat} {ranked : List (Int × Rat)} (h : ftsRanked x sys text scope k = .ok ranked) :
    ∀ r ∈ ranked, text.isSome = true ∧ Within s scope r.1 := by
  cases text with
  | none =>
      obtain rfl := Except.ok.inj h
      exact fun r hr => absurd hr List.not_mem_nil
  | some term =>
      intro r hr
      refine ⟨rfl, ?_⟩
      simp only [ftsRanked] at h
      split at h
      · obtain rfl := Except.ok.inj h
        cases hr
      · match scope, h with
        | none, h => exact live_of_ftsSearch hlive h r hr
        | some [], h =>
            obtain rfl := Except.ok.inj h
            cases hr
        | some (i :: is), h =>
            obtain ⟨fetched, -, h⟩ := Tx.bind_eq_ok.mp h
            obtain rfl := Except.ok.inj h
            simpa [Within] using (List.mem_filter.mp (List.mem_of_mem_take hr)).2

theorem mem_of_rrfFuse {v f : List (Int × Rat)} {limit : Nat} {r : Int × Rat × Option Rat}
    (h : r ∈ rrfFuse v f limit) : (∃ a ∈ v, a.1 = r.1) ∨ ∃ a ∈ f, a.1 = r.1 := by
  have hmem := List.mem_mergeSort.mp (List.mem_of_mem_take h)
  obtain ⟨id, hid, rfl⟩ := List.mem_map.mp hmem
  rw [List.mem_dedup, List.map_append, List.mem_append, List.mem_map, List.mem_map] at hid
  exact hid

/-- **Every hit of a ranking** is within the scope, whatever the route, and there are none without a query
text. -/
theorem within_of_rank (hlive : FtsLive sys s) {q : Query} {route : Route} {limit : Nat}
    {qvec : Option V} {scope : Option (List Int)} {out : Searched}
    (hvec : qvec.isSome = true → (vectorText q).isSome = true)
    (h : rank x sys s q route limit qvec scope = .ok out) :
    ∀ hit ∈ out.hits, Within s scope hit.item ∧ (q.vector.isSome = true ∨ q.fts.isSome = true) := by
  have htext : (vectorText q).isSome = true → q.vector.isSome = true ∨ q.fts.isSome = true := by
    simp [vectorText]
  have hfts : (ftsText q).isSome = true → q.vector.isSome = true ∨ q.fts.isSome = true := by
    simp [ftsText, or_comm]
  intro hit hmem
  cases route with
  | vector =>
      obtain ⟨⟨ranked, orphans⟩, hranked, h⟩ := Tx.bind_eq_ok.mp h
      obtain rfl := Except.ok.inj h
      obtain ⟨r, hr, rfl⟩ := List.mem_map.mp hmem
      obtain ⟨hsome, hin⟩ := within_of_vectorRanked hranked r hr
      exact ⟨hin, htext (hvec hsome)⟩
  | fts =>
      obtain ⟨ranked, hranked, h⟩ := Tx.bind_eq_ok.mp h
      obtain rfl := Except.ok.inj h
      obtain ⟨r, hr, rfl⟩ := List.mem_map.mp hmem
      obtain ⟨hsome, hin⟩ := within_of_ftsRanked hlive hranked r hr
      exact ⟨hin, hfts hsome⟩
  | hybrid =>
      obtain ⟨⟨v, orphans⟩, hv, h⟩ := Tx.bind_eq_ok.mp h
      obtain ⟨f, hf, h⟩ := Tx.bind_eq_ok.mp h
      obtain rfl := Except.ok.inj h
      obtain ⟨r, hr, rfl⟩ := List.mem_map.mp hmem
      rcases mem_of_rrfFuse hr with ⟨a, ha, hid⟩ | ⟨a, ha, hid⟩
      · obtain ⟨hsome, hin⟩ := within_of_vectorRanked hv a ha
        exact ⟨hid ▸ hin, htext (hvec hsome)⟩
      · obtain ⟨hsome, hin⟩ := within_of_ftsRanked hlive hf a ha
        exact ⟨hid ▸ hin, hfts hsome⟩

theorem text_of_embedText {q : Query} {route : Route} {qvec : Option V}
    (h : embedText x q route = .ok qvec) (hsome : qvec.isSome = true) :
    (vectorText q).isSome = true := by
  unfold embedText at h
  split at h
  · obtain rfl := Except.ok.inj h
    cases hsome
  · obtain rfl := Except.ok.inj h
    cases hsome
  · rename_i htext
    rw [htext]
    rfl

/-- **Every hit of a search** is within the scope that the structural part resolves to. -/
theorem within_of_search (hlive : FtsLive sys s) {q : Query} {route : Route} {limit : Nat}
    {out : Searched} (h : search x nfc sys s q route limit = .ok out) :
    ∀ hit ∈ out.hits, (q.vector.isSome = true ∨ q.fts.isSome = true) ∧
      ∃ scope, resolveItems nfc sys s q = .ok scope ∧ Within s scope hit.item := by
  intro hit hmem
  unfold search at h
  split at h
  · obtain rfl := Except.ok.inj h
    cases hmem
  · obtain ⟨qvec, hqvec, h⟩ := Tx.bind_eq_ok.mp h
    obtain ⟨scope, hscope, h⟩ := Tx.bind_eq_ok.mp h
    obtain ⟨hin, htext⟩ := within_of_rank hlive (text_of_embedText hqvec) h hit hmem
    exact ⟨htext, scope, hscope, hin⟩

end Hits

/-! ## when the filter is applied -/

/-- Whether a query has a predicate that the list of fields leaves out. -/
def Unlisted (q : Query) : Prop :=
  q.kinds ≠ [] ∨ q.excludeKinds ≠ [] ∨ q.ids ≠ [] ∨ q.resolution ≠ none ∨ q.excludeTags ≠ [] ∨
    q.phases ≠ [] ∨ q.excludePhases ≠ [] ∨ q.frontier = true ∨ q.tombstone = true ∨ q.claimed ≠ none

/-- A query whose filter is applied, or has nothing to apply to: a listed predicate is set, or no other
is, or there is nothing to rank by. -/
def Filtered (q : Query) : Prop :=
  restricted q = true ∨ ¬ Unlisted q ∨ (q.vector = none ∧ q.fts = none)

/-- Every hit of a search with this query is an item that the query, without its ranking terms and its
limit, selects: on every store, over every index, by every route and for every limit. -/
def Honoured (q : Query) : Prop :=
  ∀ (V : Type) (x : Index V) (nfc : Text → Text) (sys : Sqlite) (s : Query.Store) (route : Route) (limit : Nat)
    (out : Searched), FtsLive sys s → search x nfc sys s q route limit = .ok out →
      ∀ hit ∈ out.hits, Selects nfc sys s (structural q) hit.item

/-- A query of no predicate at all accepts every item. -/
theorem selects_of_unrestricted {nfc : Text → Text} {sys : Sqlite} {s : Query.Store} {q : Query}
    (hlisted : restricted q = false) (hunlisted : ¬ Unlisted q) {id : Int}
    (hid : (s.item? id).isSome = true) : Selects nfc sys s (structural q) id := by
  obtain ⟨i, hi⟩ := Option.isSome_iff_exists.mp hid
  obtain ⟨hmem, rfl⟩ := Table.find?_eq_some.mp hi
  simp only [restricted, Bool.or_eq_false_iff, Option.isSome_eq_false_iff, Option.isNone_iff_eq_none,
    Bool.not_eq_false', List.isEmpty_iff] at hlisted
  obtain ⟨⟨⟨⟨⟨⟨⟨hkind, hstatus⟩, hpriority⟩, hdue⟩, htags⟩, hscope⟩, hready⟩, hblocks⟩ := hlisted
  simp only [Unlisted, not_or, not_not, Bool.not_eq_true] at hunlisted
  obtain ⟨hkinds, hex, hids, hres, hextags, hphases, hexphases, hfrontier, htomb, hclaimed⟩ := hunlisted
  have hall : q.scope = .all := by
    split at hscope
    · assumption
    · cases hscope
  refine (selects_iff (q := structural q) hmem ?_ hall rfl rfl).mpr ?_
  · simp [check, structural, htags, hextags, hphases, hexphases]
  · simp [accepts, columnClauses, tagClauses, scopeClause, graphClauses, structural, hkind, hstatus,
      hpriority, hdue, htags, hready, hblocks, hkinds, hex, hids, hres, hextags, hphases, hexphases,
      hfrontier, htomb, hclaimed]

theorem honoured_of_filtered {q : Query} (h : Filtered q) : Honoured q := by
  intro V x nfc sys s route limit out hlive hsearch hit hmem
  obtain ⟨htext, scope, hscope, hin⟩ := within_of_search hlive hsearch hit hmem
  by_cases hlisted : restricted q = true
  · rw [resolveItems, scopeQuery, if_pos hlisted] at hscope
    cases heval : evaluate nfc sys s (structural q) with
    | error why => simp [heval] at hscope
    | ok ids =>
        simp only [heval] at hscope
        obtain rfl := Except.ok.inj hscope
        exact ⟨ids, heval, hin⟩
  · rw [resolveItems, scopeQuery, if_neg hlisted] at hscope
    obtain rfl := Except.ok.inj hscope
    rcases h with h | h | ⟨hvector, hfts⟩
    · exact absurd h hlisted
    · exact selects_of_unrestricted (Bool.eq_false_iff.mpr hlisted) h hin
    · simp [hvector, hfts] at htext

/-! ## where it is not -/

/-- A store of one item, with tags and phases of its own. -/
def oneItem (i : ItemRow) (tags : List TagApplication) (transitions : List PhaseRow) : Query.Store where
  items := { rows := [i], nodup := List.nodup_singleton _, last := i.id, le_last := by simp }
  tags := tags
  transitions := transitions

/-- An index in which every text is nearest to item 1. -/
def nearestOne : Index Unit where
  embed _ := .ok ()
  length _ := 0
  dim := 0
  stored := [(1, ())]
  cosine _ _ := 0
  nearest _ _ := [(1, 0)]
  bm25 _ _ := 0

/-- The engine of a store without full-text rows. -/
def plainSqlite : Sqlite where
  date := some
  today := []
  ftsMatch _ := .ok []

/-- The nearest live neighbour of any text is that item. -/
theorem knnLive_oneItem {i : ItemRow} (hid : i.id = 1) (tags : List TagApplication)
    (transitions : List PhaseRow) :
    knnLive nearestOne (oneItem i tags transitions) () 1 =
      .ok { live := [(1, 0)], dead := 0, scanned := 1, indexExhausted := false } := by
  have hitem : ((oneItem i tags transitions).item? 1).isSome = true := by
    simp [Store.item?, Table.find?, oneItem, hid]
  have hlive : filterLive (oneItem i tags transitions) [((1 : Int), (0 : Rat))] = [(1, 0)] := by
    simp [filterLive, hitem]
  have hpage : knnPage nearestOne (oneItem i tags transitions) () 1 =
      .ok { live := [(1, 0)], dead := 0, scanned := 1, indexExhausted := false } := by
    simp only [knnPage, checkLength, nearestOne, ne_eq, not_true_eq_false, if_false, bind, Except.bind,
      pure, Except.pure, hlive]
    rfl
  rw [knnLive, show min 1 vec0KMax = 1 from rfl, grow, hpage]
  rfl

/-- With no filter applied, a search by a text finds the one item, whatever it is. -/
theorem search_oneItem {q : Query} (hlisted : restricted q = false)
    (htext : (vectorText q).isSome = true) {i : ItemRow} (hid : i.id = 1) (tags : List TagApplication)
    (transitions : List PhaseRow) :
    search nearestOne id plainSqlite (oneItem i tags transitions) q .vector 1 =
      .ok { hits := [buildHit (oneItem i tags transitions) 1 .vector (-0) (some 0)],
            orphans := ⟨0, 1⟩ } := by
  obtain ⟨text, htext⟩ := Option.isSome_iff_exists.mp htext
  have hqvec : embedText nearestOne q .vector = .ok (some ()) := by
    simp [embedText, htext, nearestOne]
  have hscope : resolveItems id plainSqlite (oneItem i tags transitions) q = .ok none := by
    rw [resolveItems, scopeQuery, hlisted]
    rfl
  have hranked : vectorRanked nearestOne (oneItem i tags transitions) (some ()) none 1 =
      .ok ([(1, 0)], ⟨0, 1⟩) := by
    rw [vectorRanked, knnLive_oneItem hid]
    rfl
  rw [search, if_neg Nat.one_ne_zero, hqvec, hscope]
  simp only [bind, Except.bind, rank, hranked]
  rfl

/-- An item that a query accepts on no terms refutes a filter that is not applied. -/
theorem not_honoured {q : Query} (hlisted : restricted q = false)
    (htext : (vectorText q).isSome = true) {i : ItemRow} (hid : i.id = 1) (tags : List TagApplication)
    (transitions : List PhaseRow)
    (hno : ∀ scope fts, accepts (oneItem i tags transitions) i plainSqlite (structural q) scope fts = false) :
    ¬ Honoured q := by
  intro h
  have hsearch := search_oneItem hlisted htext hid tags transitions
  have hlive : FtsLive plainSqlite (oneItem i tags transitions) := by
    intro expr ids hids id hmem
    obtain rfl := Except.ok.inj hids
    cases hmem
  obtain ⟨ids, heval, hin⟩ := h Unit nearestOne id plainSqlite _ .vector 1 _ hlive hsearch _ List.mem_cons_self
  obtain ⟨-, scope, fts, -, -, hiff⟩ := mem_evaluate heval rfl
  obtain ⟨x, hx, haccepts, -⟩ := (hiff _).mp hin
  obtain rfl : x = i := List.mem_singleton.mp hx
  rw [hno] at haccepts
  cases haccepts

/-- An item of a kind. -/
def itemOf (kind : Text) : ItemRow := { id := 1, uid := [], kind }

/-- A text longer than each of a list is not one of them. -/
theorem longer_notMem (xs : List Text) : xs.flatten ++ ['x'] ∉ xs := by
  intro h
  have hle := (List.sublist_flatten_of_mem h).length_le
  simp at hle

/-- A value that a predicate with a non-empty operand holds of. -/
theorem exists_holds (op : CmpOp) {value : Text} (hne : value ≠ []) :
    ∃ v : Text, op.holds v value = true := by
  cases op with
  | eq => exact ⟨value, by simp [CmpOp.holds]⟩
  | lt =>
      obtain ⟨c, t, rfl⟩ := List.exists_cons_of_ne_nil hne
      exact ⟨[], by simp [CmpOp.holds]⟩
  | le => exact ⟨value, by simp [CmpOp.holds]⟩
  | gt =>
      refine ⟨value ++ ['x'], ?_⟩
      have hlt : value < value ++ ['x'] := by
        induction value with
        | nil => exact absurd rfl hne
        | cons c t ih =>
            rw [List.cons_append, List.cons_lt_cons_iff]
            refine Or.inr ⟨rfl, ?_⟩
            cases t with
            | nil => simp
            | cons d t => exact ih (by simp)
      simpa [CmpOp.holds] using hlt
  | ge => exact ⟨value, by simp [CmpOp.holds]⟩

/-- **A predicate that is left out** lets through what it excludes: for every query with one, there is an
item that the query does not accept, and that a search by a text finds. -/
theorem not_honoured_of_unlisted {q : Query} (hw : Written q) (hlisted : restricted q = false)
    (htext : (vectorText q).isSome = true) (h : Unlisted q) : ¬ Honoured q := by
  rcases h with h | h | h | h | h | h | h | h | h | h
  · refine not_honoured hlisted htext (i := itemOf (q.kinds.flatten ++ ['x'])) rfl [] [] fun scope fts => ?_
    have hnot := longer_notMem q.kinds
    simp [accepts, columnClauses, structural, itemOf, h, hnot]
  · obtain ⟨kind, kinds, hk⟩ := List.exists_cons_of_ne_nil h
    refine not_honoured hlisted htext (i := itemOf kind) rfl [] [] fun scope fts => ?_
    simp [accepts, columnClauses, structural, itemOf, hk]
  · exact absurd hw.ids h
  · obtain ⟨r, hr⟩ := Option.ne_none_iff_exists'.mp h
    by_cases hunresolved : r = Resolution.unresolved.asStr.toList
    · refine not_honoured hlisted htext (i := { itemOf [] with resolution := some .success }) rfl [] []
        fun scope fts => ?_
      simp [accepts, columnClauses, structural, itemOf, hr, hunresolved, unresolved]
    · refine not_honoured hlisted htext (i := itemOf []) rfl [] [] fun scope fts => ?_
      simp [accepts, columnClauses, structural, itemOf, hr, hunresolved]
  · obtain ⟨tag, tags, ht⟩ := List.exists_cons_of_ne_nil h
    obtain ⟨v, hv⟩ := exists_holds tag.op (hw.excludeTags tag (by rw [ht]; exact List.mem_cons_self))
    refine not_honoured hlisted htext (i := itemOf []) rfl [⟨1, tag.facet, v⟩] [] fun scope fts => ?_
    simp [accepts, tagClauses, tagged, structural, itemOf, oneItem, ht, hv]
  · refine not_honoured hlisted htext (i := itemOf []) rfl [] [⟨1, q.phases.flatten ++ ['x']⟩]
      fun scope fts => ?_
    have hnot := longer_notMem q.phases
    simp [accepts, columnClauses, currentPhase, structural, itemOf, oneItem, h, hnot]
  · obtain ⟨phase, phases, hp⟩ := List.exists_cons_of_ne_nil h
    refine not_honoured hlisted htext (i := itemOf []) rfl [] [⟨1, phase⟩] fun scope fts => ?_
    simp [accepts, columnClauses, currentPhase, structural, itemOf, oneItem, hp]
  · refine not_honoured hlisted htext (i := { itemOf [] with status := some .done }) rfl [] []
      fun scope fts => ?_
    simp [accepts, graphClauses, frontierClause, notTerminal, structural, h]
  · refine not_honoured hlisted htext (i := itemOf []) rfl [] [] fun scope fts => ?_
    simp [accepts, graphClauses, tombstoneClause, structural, itemOf, oneItem, h]
  · obtain ⟨claimed, hc⟩ := Option.ne_none_iff_exists'.mp h
    refine not_honoured hlisted htext
      (i := { itemOf [] with claimantId := if claimed then none else some [] }) rfl [] []
      fun scope fts => ?_
    cases claimed <;> simp [accepts, graphClauses, structural, hc]

/-- **Which queries a search honours**: those with a listed predicate, those with no other, and those with
nothing to rank by. -/
theorem honoured_iff {input : Text} {q : Query} (h : parse input = .ok q) : Honoured q ↔ Filtered q := by
  refine ⟨fun hhonoured => ?_, honoured_of_filtered⟩
  by_contra hnot
  simp only [Filtered, not_or, not_not, Bool.not_eq_true, not_and] at hnot
  obtain ⟨hlisted, hunlisted, htext⟩ := hnot
  refine not_honoured_of_unlisted (parse_written h) hlisted ?_ hunlisted hhonoured
  cases hvector : q.vector with
  | none =>
      obtain ⟨term, hterm⟩ := Option.ne_none_iff_exists'.mp (htext hvector)
      simp [vectorText, hvector, hterm]
  | some term => simp [vectorText, hvector]

/-- A search for a word among what is not a reflection. -/
theorem honoured_iff_word : Honoured { fts := some "x".toList, excludeKinds := ["r".toList] } ↔
    Filtered { fts := some "x".toList, excludeKinds := ["r".toList] } :=
  @honoured_iff "-kind:r x".toList _ rfl

/-- Such a search is not kept to what the query selects. -/
theorem search_ignores_exclusion : ¬ ∀ input q, parse input = .ok q → Honoured q := by
  intro h
  refine not_honoured (q := { fts := some "x".toList, excludeKinds := ["r".toList] }) rfl rfl
    (i := itemOf "r".toList) rfl [] [] (fun scope fts => ?_) (h "-kind:r x".toList _ rfl)
  simp [accepts, columnClauses, structural, itemOf]

end Jkb.Search
