import Jkb.Core.Ns
import Jkb.Core.Phase
import Jkb.Core.TaskStatus
import Jkb.Sync.Doc
import Jkb.Tx
import Mathlib.Data.List.Sort

/-!
# Jkb.Core.Query

The typed query over the item substrate, and which items it selects. A query is a conjunction of clauses,
each over one item: its own columns, its tags, its placements, and the edges and containment around it.

SQLite's `date` and the FTS5 `MATCH` are parameters, as is Unicode's canonical composition.
-/

namespace Jkb

open Jkb.Text Jkb.Ns

namespace Query

/-! ## what is queried -/

/-- A row of `items`. -/
structure ItemRow where
  id : Int
  uid : Text
  kind : Text
  status : Option TaskStatus := none
  priority : Option Int := none
  due : Option Text := none
  claimantId : Option Text := none
  resolution : Option Resolution := none
deriving Repr, DecidableEq

/-- A row of `edges`. -/
structure EdgeRow where
  src : Int
  dst : Int
  type : EdgeType
deriving Repr, DecidableEq

/-- A row of `containment`. -/
structure Contained where
  child : Int
  parent : Int
deriving Repr, DecidableEq

/-- A row of `placements`. -/
structure Placement where
  itemId : Int
  namespaceId : Int
  role : Text
deriving Repr, DecidableEq

/-- A row of `tag_applications`. -/
structure TagApplication where
  itemId : Int
  facet : Text
  value : Text
deriving Repr, DecidableEq

/-- A row of `workflow_transitions`, as far as a query reads it. -/
structure PhaseRow where
  itemId : Int
  toPhase : Text
deriving Repr, DecidableEq

/-- The tables a query reads, each in the order of its row ids. -/
structure Store where
  items : AutoTable fun i : ItemRow => i.id
  edges : List EdgeRow := []
  containment : List Contained := []
  placements : List Placement := []
  tags : List TagApplication := []
  namespaces : List Namespace := []
  transitions : List PhaseRow := []

namespace Store

/-- The item with an id. -/
def item? (s : Store) (id : Int) : Option ItemRow := s.items.toTable.find? id

end Store

/-- What SQLite answers: the date a text reads as, today's date, and the rows that an FTS5 expression
matches. -/
structure Sqlite where
  date : Text → Option Text
  today : Text
  ftsMatch : Text → Except Fmt (List Int)

/-! ## queries -/

/-- A comparison operator. -/
inductive CmpOp where
  | eq
  | lt
  | le
  | gt
  | ge
deriving Repr, DecidableEq

/-- What an operator says of two values. -/
def CmpOp.holds {α : Type*} [DecidableEq α] [LT α] [DecidableLT α] (op : CmpOp) (a b : α) : Bool :=
  match op with
  | .eq => a = b
  | .lt => a < b
  | .le => a < b || a = b
  | .gt => b < a
  | .ge => b < a || a = b

/-- A `due` operand. -/
inductive DueValue where
  | today
  | date (d : Text)
deriving Repr, DecidableEq

/-- A tag predicate. -/
structure TagPred where
  facet : Text
  op : CmpOp
  value : Text
deriving Repr, DecidableEq

/-- A namespace scope. -/
inductive Scope where
  | all
  | exact (path : Text)
  | subtree (path : Text)
  | union (scopes : List Scope)
deriving Repr

end Query

/-- A typed query over the item substrate. -/
structure Query where
  kind : Option Text := none
  kinds : List Text := []
  excludeKinds : List Text := []
  ids : List Int := []
  status : Option Text := none
  resolution : Option Text := none
  priority : Option (Query.CmpOp × Int) := none
  due : Option (Query.CmpOp × Query.DueValue) := none
  tags : List Query.TagPred := []
  excludeTags : List Query.TagPred := []
  phases : List Text := []
  excludePhases : List Text := []
  scope : Query.Scope := .all
  ready : Bool := false
  frontier : Bool := false
  tombstone : Bool := false
  claimed : Option Bool := none
  blocks : Option Text := none
  fts : Option Text := none
  vector : Option Text := none
  limit : Option Nat := none
deriving Repr

namespace Query

/-- The most `tag:` and `-tag:` terms one query evaluates. -/
def maxTagTerms : Nat := 64

/-- Why a name is not a workflow phase, if it is not. -/
def phaseProblem (name : Text) : Option Fmt :=
  if (Phase.parse (String.ofList name)).isSome then none
  else some ["`", shown name, "` is not a workflow phase: a phase is one of ",
    ", ".intercalate (Phase.all.map Phase.name)]

/-! ## what is asked of one item -/

section Clauses

variable (s : Store) (i : ItemRow)

/-- The NULL-safe "not terminal" of a status column. -/
def notTerminal (status : Option TaskStatus) : Bool := status ≠ some .done && status ≠ some .cancelled

/-- The NULL-safe "unresolved" of a resolution column. -/
def unresolved (resolution : Option Resolution) : Bool :=
  resolution = none || resolution = some .unresolved

/-- The items that `i` depends on, through its `depends_on` edges. -/
def dependencies : List ItemRow :=
  (s.edges.filter fun e => e.src = i.id ∧ e.type = .dependsOn).filterMap fun e => s.item? e.dst

/-- The items that `i` contains. -/
def contents : List ItemRow :=
  (s.containment.filter fun c => c.parent = i.id).filterMap fun c => s.item? c.child

/-- A unit with an unfinished subtask is not itself workable. -/
def subtaskClause : Bool := !(contents s i).any fun c => notTerminal c.status

/-- The current workflow phase, by its stored name. -/
def currentPhase : Text :=
  (((s.transitions.filter fun t => t.itemId = i.id).getLast?).map (·.toPhase)).getD
    Phase.design.name.toList

/-- Predicates over the item's own columns, and the workflow phase. -/
def columnClauses (sys : Sqlite) (q : Query) : Bool :=
  q.kind.all (fun kind => i.kind = kind) &&
    (q.kinds.isEmpty || q.kinds.contains i.kind) &&
    (q.excludeKinds.isEmpty || !q.excludeKinds.contains i.kind) &&
    (q.ids.isEmpty || q.ids.contains i.id) &&
    q.status.all (fun status => i.status.map (fun s => s.asStr.toList) = some status) &&
    q.resolution.all (fun resolution =>
      if resolution = Resolution.unresolved.asStr.toList then unresolved i.resolution
      else i.resolution.map (fun r => r.asStr.toList) = some resolution) &&
    q.priority.all (fun (op, n) => i.priority.any fun p => op.holds p n) &&
    (q.phases.isEmpty || q.phases.contains (currentPhase s i)) &&
    (q.excludePhases.isEmpty || !q.excludePhases.contains (currentPhase s i)) &&
    q.due.all fun (op, due) =>
      match due with
      -- the operator is not looked at
      | .today => (i.due.bind sys.date).any fun d => d = sys.today
      | .date d => (i.due.bind sys.date).any fun x => (sys.date d).any fun y => op.holds x y

/-- Whether a tag of the item satisfies a predicate. -/
def tagged (tag : TagPred) : Bool :=
  s.tags.any fun t => t.itemId = i.id && t.facet = tag.facet && tag.op.holds t.value tag.value

/-- Positive and negated facet predicates. -/
def tagClauses (q : Query) : Bool :=
  q.tags.all (fun tag => tagged s i tag) && q.excludeTags.all fun tag => !tagged s i tag

/-- The namespace-scope predicate, of a scope that is resolved. -/
def scopeClause (scope : Option (List Int)) : Bool :=
  scope.all fun ids => s.placements.any fun p => p.itemId = i.id && ids.contains p.namespaceId

/-- `is:ready`. -/
def readyClause : Bool :=
  i.claimantId.isNone && notTerminal i.status &&
    !((dependencies s i).any fun d => notTerminal d.status) && subtaskClause s i

/-- `is:frontier`, without the claim. -/
def frontierClause : Bool :=
  notTerminal i.status && unresolved i.resolution &&
    !((dependencies s i).any fun d => notTerminal d.status && unresolved d.resolution) &&
    subtaskClause s i

/-- `is:tombstone`. -/
def tombstoneClause : Bool :=
  i.resolution = some .deadEnd || i.resolution = some .superseded ||
    s.edges.any fun e => e.dst = i.id && (e.type = .refutes || e.type = .rulesOut)

/-- `blocks:`. -/
def blocksClause (uid : Text) : Bool :=
  s.edges.any fun e => e.dst = i.id && e.type = .dependsOn && (s.item? e.src).any fun x => x.uid = uid

/-- Predicates over the edge graph and the claim. -/
def graphClauses (q : Query) : Bool :=
  (!q.ready || readyClause s i) && (!q.frontier || frontierClause s i) &&
    (!q.tombstone || tombstoneClause s i) &&
    q.claimed.all (fun claimed => i.claimantId.isSome = claimed) &&
    q.blocks.all fun uid => blocksClause s i uid

/-- Every clause of a query, with its scope and its FTS term resolved. -/
def accepts (sys : Sqlite) (q : Query) (scope fts : Option (List Int)) : Bool :=
  columnClauses s i sys q && tagClauses s i q && scopeClause s i scope && graphClauses s i q &&
    fts.all fun ids => ids.contains i.id

end Clauses

/-! ## evaluation -/

/-- A text of words as an FTS5 expression: each word a quoted string. -/
def fts5MatchExpr (text : Text) : Text :=
  match (text.splitOnP isWhitespace).filter (· ≠ []) with
  | [] => ['"', '"']
  | words => [' '].intercalate (words.map fun w =>
      '"' :: (w.flatMap fun c => if c = '"' then ['"', '"'] else [c]) ++ ['"'])

section Evaluate

variable (nfc : Text → Text) (sys : Sqlite)

mutual

/-- The namespaces that a scope covers: `none` is all of them. -/
def resolveScope (rows : List Namespace) : Scope → Except Fmt (Option (List Int))
  | .all => .ok none
  | .exact path => (Ns.get nfc rows path).map fun id => some id.toList
  | .subtree path => (Ns.subtree nfc rows path).map fun rows => some (rows.map (·.1))
  | .union scopes =>
      (resolveScopes rows scopes).map (·.map fun ids => dedup (ids.mergeSort fun a b => a ≤ b))

/-- The namespaces that any of some scopes covers; with one that covers all, the rest is not read. -/
def resolveScopes (rows : List Namespace) : List Scope → Except Fmt (Option (List Int))
  | [] => .ok (some [])
  | scope :: scopes => do
      match ← resolveScope rows scope with
      | none => return none
      | some ids => return (← resolveScopes rows scopes).map (ids ++ ·)

end

/-- Refuse a query with too many tag terms, or with a name that is no workflow phase. -/
def check (q : Query) : Except Fmt Unit :=
  let tagTerms := q.tags.length + q.excludeTags.length
  if maxTagTerms < tagTerms then
    .error ["a query of at most ", maxTagTerms, " tag terms (", tagTerms, " given)"]
  else
    match (q.phases ++ q.excludePhases).findSome? phaseProblem with
    | some why => .error why
    | none => .ok ()

/-- The rows that the FTS term matches. -/
def matchFts (q : Query) : Except Fmt (Option (List Int)) :=
  match q.fts with
  | none => .ok none
  | some term => (sys.ftsMatch (fts5MatchExpr term)).map some

/-- The ids of the items a query selects, in order. -/
def evaluate (s : Store) (q : Query) : Except Fmt (List Int) := do
  check q
  let scope ← resolveScope nfc s.namespaces q.scope
  let fts ← matchFts sys q
  let ids := ((s.items.rows.filter fun i => accepts s i sys q scope fts).map (·.id)).mergeSort
    fun a b => a ≤ b
  return match q.limit with
    | none => ids
    | some n => ids.take (min n i64Max.toNat)

/-- A query selects an item. -/
def Selects (s : Store) (q : Query) (id : Int) : Prop :=
  ∃ ids, evaluate nfc sys s q = .ok ids ∧ id ∈ ids

end Evaluate

/-- What a query without a limit selects, when it is not refused. -/
theorem mem_evaluate {nfc : Text → Text} {sys : Sqlite} {s : Store} {q : Query} {ids : List Int}
    (h : evaluate nfc sys s q = .ok ids) (hlimit : q.limit = none) :
    check q = .ok () ∧ ∃ scope fts, resolveScope nfc s.namespaces q.scope = .ok scope ∧
      matchFts sys q = .ok fts ∧
      ∀ id, id ∈ ids ↔ ∃ i ∈ s.items.rows, accepts s i sys q scope fts = true ∧ i.id = id := by
  obtain ⟨⟨⟩, hcheck, h⟩ := Tx.bind_eq_ok.mp h
  obtain ⟨scope, hscope, h⟩ := Tx.bind_eq_ok.mp h
  obtain ⟨fts, hfts, h⟩ := Tx.bind_eq_ok.mp h
  refine ⟨hcheck, scope, fts, hscope, hfts, fun id => ?_⟩
  rw [hlimit] at h
  obtain rfl := Except.ok.inj h
  simp [List.mem_mergeSort, and_assoc]

/-- A query whose scope is resolved, and that asks for no words, is answered. -/
theorem exists_evaluate {nfc : Text → Text} {sys : Sqlite} {s : Store} {q : Query} {scope}
    (hcheck : check q = .ok ()) (hscope : resolveScope nfc s.namespaces q.scope = .ok scope)
    (hfts : q.fts = none) : ∃ ids, evaluate nfc sys s q = .ok ids := by
  have hmatch : matchFts sys q = .ok none := by
    rw [matchFts, hfts]
  rw [evaluate, hcheck, hscope, hmatch]
  exact ⟨_, rfl⟩

/-- A query of clauses over edges and claims selects what these accept. -/
theorem selects_iff {q : Query} {nfc : Text → Text} {sys : Sqlite} {s : Store} {i : ItemRow}
    (hi : i ∈ s.items.rows) (hcheck : check q = .ok ())
    (hscope : q.scope = .all) (hfts : q.fts = none) (hlimit : q.limit = none) :
    Selects nfc sys s q i.id ↔ accepts s i sys q none none = true := by
  have hres : resolveScope nfc s.namespaces q.scope = .ok none := by
    rw [hscope]
    rfl
  have hmatch : matchFts sys q = .ok none := by
    rw [matchFts, hfts]
  constructor
  · rintro ⟨ids, hids, hmem⟩
    obtain ⟨-, scope, fts, hs, hf, hiff⟩ := mem_evaluate hids hlimit
    obtain rfl := Except.ok.inj (hres.symm.trans hs)
    obtain rfl := Except.ok.inj (hmatch.symm.trans hf)
    obtain ⟨x, hx, haccepts, hid⟩ := (hiff _).mp hmem
    rwa [s.items.toTable.eq_of_key_eq hx hi hid] at haccepts
  · intro haccepts
    obtain ⟨ids, hids⟩ := @exists_evaluate nfc sys s q none hcheck hres hfts
    obtain ⟨-, scope, fts, hs, hf, hiff⟩ := mem_evaluate hids hlimit
    obtain rfl := Except.ok.inj (hres.symm.trans hs)
    obtain rfl := Except.ok.inj (hmatch.symm.trans hf)
    exact ⟨ids, hids, (hiff _).mpr ⟨i, hi, haccepts, rfl⟩⟩

end Query

end Jkb
