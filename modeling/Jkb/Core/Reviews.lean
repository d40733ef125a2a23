import Jkb.Core.Query

/-!
# Jkb.Core.Reviews

A task's review record: which review rounds were recorded against it, at which head, and whether a landing
waived the gate. A round is snapshotted when it is first recorded: which findings it holds, which of them
were must-fix, and the file each names. Everything that asks about a round reads the snapshot, never the
findings' live priority, placement or tags.

The record only grows: `Grown` is what every operation keeps of it, and `Kept` is what the rows of its
tables say of each other.
-/

namespace Jkb.Reviews

open Jkb.Text Jkb.Query

/-! ## the tables -/

/-- What a row of `reviews` records. -/
inductive Kind where
  | recorded
  | waived
  | gateOnHost
deriving Repr, DecidableEq

/-- A row of `reviews`. -/
structure Review where
  id : Int
  itemId : Int
  kind : Kind
  ns : Option Text
  sha : Text
  actor : Text
deriving Repr, DecidableEq

/-- A row of `review_filings`. -/
structure Filing where
  ns : Text
  itemId : Int
  filedBy : Text
deriving Repr, DecidableEq

/-- A row of `review_rounds`. -/
structure RoundRow where
  id : Int
  ns : Text
  actor : Text
deriving Repr, DecidableEq

/-- A row of `review_round_findings`. -/
structure RoundFinding where
  roundId : Int
  itemId : Int
  mustFix : Bool
  area : Option Text
deriving Repr, DecidableEq

/-- The table `review_rounds`: ids are never reissued, and `ns` is unique. -/
structure Rounds where
  table : AutoTable fun r : RoundRow => r.id
  unique : (table.rows.map (·.ns)).Nodup

namespace Rounds

def empty : Rounds := ⟨.empty, List.nodup_nil⟩

/-- The rows, in the order they were recorded. -/
abbrev rows (t : Rounds) : List RoundRow := t.table.rows

/-- The round recorded under a namespace. -/
def find (t : Rounds) (ns : Text) : Option RoundRow := t.rows.find? fun r => r.ns = ns

/-- `INSERT` of a round, and its id. -/
def add (t : Rounds) (ns actor : Text) : Except Fmt (Rounds × Int) :=
  if h : t.find ns = none then
    .ok ({ table := t.table.insertNext (fun id => { id, ns, actor }) fun _ => rfl
           unique := by
            show ((t.rows ++ [_]).map fun r : RoundRow => r.ns).Nodup
            rw [List.map_append, List.nodup_append]
            refine ⟨t.unique, List.nodup_singleton _, ?_⟩
            intro a ha b hb
            obtain ⟨r, hr, rfl⟩ := List.mem_map.mp ha
            rw [List.map_singleton, List.mem_singleton] at hb
            rw [hb]
            exact fun heq => List.find?_eq_none.mp h r hr (decide_eq_true heq) },
      t.table.nextKey)
  else .error ["UNIQUE constraint failed: review_rounds.ns"]

/-- A round that is found is the one of its namespace. -/
theorem find_eq_some {t : Rounds} {ns : Text} {r : RoundRow} :
    t.find ns = some r ↔ r ∈ t.rows ∧ r.ns = ns := by
  constructor
  · intro h
    exact ⟨List.mem_of_find?_eq_some h, by simpa using List.find?_some h⟩
  · rintro ⟨hr, rfl⟩
    cases hf : t.find r.ns with
    | none => exact absurd (decide_eq_true rfl) (List.find?_eq_none.mp hf r hr)
    | some x =>
        have hx := List.mem_of_find?_eq_some hf
        have hns : x.ns = r.ns := by simpa using List.find?_some hf
        rw [List.inj_on_of_nodup_map t.unique hx hr hns]

/-- A round that is added is new, and the last. -/
theorem add_eq_ok {t t' : Rounds} {ns actor : Text} {id : Int} (h : t.add ns actor = .ok (t', id)) :
    id = t.table.nextKey ∧ t'.rows = t.rows ++ [⟨id, ns, actor⟩] ∧ t'.table.last = id := by
  unfold add at h
  split at h
  · cases h
    exact ⟨rfl, rfl, rfl⟩
  · cases h

end Rounds

/-- The review record, beside the items it is about. -/
structure Store where
  base : Query.Store
  content : Int → Option Text
  reviews : AutoTable fun r : Review => r.id
  filings : Table fun f : Filing => (f.ns, f.itemId)
  rounds : Rounds
  findings : Table fun f : RoundFinding => (f.roundId, f.itemId)

/-! ## what a finding is -/

/-- The facet a finding's area is recorded under. -/
def FACET_AREA : Text := "area".toList

/-- The facets and values of an item's tags, in order. -/
def applications (s : Query.Store) (item : Int) : List (Text × Text) :=
  ((s.tags.filter fun t => t.itemId = item).map fun t => (t.facet, t.value)).insertionSort fun a b =>
    a.1 < b.1 ∨ (a.1 = b.1 ∧ a.2 ≤ b.2)

/-- The first non-blank line of a content, without the blanks around it. -/
def firstNonblank (content : Text) : Text :=
  -- a line's own `\r` goes with the blanks
  (((content.splitOn '\n').map trim).find? (· ≠ [])).getD []

/-- The title of an item: its first non-blank line, or its uid. -/
def titleOf (s : Store) (i : ItemRow) : Text :=
  match (s.content i.id).map firstNonblank with
  | some (c :: line) => c :: line
  | _ => i.uid

/-- The area a finding names: its `area=` facet, or the file that its title ends with. -/
def areaOf (s : Store) (i : ItemRow) : Option Text :=
  match (applications s.base i.id).find? fun t => t.1 = FACET_AREA with
  | some (_, v) => some v
  | none =>
      (rsplitOnceText " — ".toList (titleOf s i)).bind fun (_, tail) =>
        let file :=
          match rsplitOnce (· = ':') tail with
          | some (f, line) => if line.all Char.isDigit ∧ line ≠ [] then f else tail
          | none => tail
        if file ≠ [] ∧ ' ' ∉ file then some file else none

/-- What a snapshot of a round keeps of an item, if the item is there. -/
def finding (s : Store) (round id : Int) : Option RoundFinding :=
  (s.base.item? id).map fun i =>
    { roundId := round, itemId := id, mustFix := i.priority.any (· ≤ 1), area := areaOf s i }

/-! ## names -/

/-- The root namespace of the tasks. -/
def DEFAULT_ROOT : Text := "tasks".toList

/-- The `tasks/` mirror of a home, unless it is under `tasks/` itself. -/
def tasksMirrorNs (home : Text) : Option Text :=
  if home = DEFAULT_ROOT ∨ DEFAULT_ROOT ++ ['/'] <+: home then none
  else some (DEFAULT_ROOT ++ '/' :: (stripPrefix "repos/".toList home).getD home)

/-- Every name a namespace goes by across the `tasks/` mirror. -/
def mirrorForms (ns : Text) : List Text :=
  let mirror := (tasksMirrorNs ns).getD ns
  let homes :=
    match stripPrefix (DEFAULT_ROOT ++ ['/']) mirror with
    | some rest => ["repos/".toList ++ rest, rest].filter fun home => tasksMirrorNs home = some mirror
    | none => []
  dedup ((ns :: mirror :: homes).insertionSort (· ≤ ·))

/-- One namespace is the other, or lies inside it. -/
def isOrInside (inner outer : Text) : Bool := inner = outer || (outer ++ ['/']).isPrefixOf inner

/-- The recorded round that a namespace is, lies inside or contains, if any. -/
def roundOverlapping (t : Rounds) (ns : Text) : Option Text :=
  (mirrorForms ns).findSome? fun candidate =>
    (t.rows.find? fun r => isOrInside candidate r.ns || isOrInside r.ns candidate).map (·.ns)

/-! ## writes -/

/-- Which namespaces a caller may record as a round. -/
inductive RoundSource where
  /-- only one that this principal filed -/
  | filed (by_ : Text)
  | anyNamespace
deriving Repr, DecidableEq

/-- The longest text a record keeps, in bytes. -/
def maxText : Nat := 1024

/-- A text of 1 to `maxText` bytes. -/
def check (what : String) (v : Text) : Except Fmt Unit :=
  if v = [] ∨ maxText < Ns.byteLen v then .error ["a ", what, " of 1 to ", maxText, " bytes"] else .ok ()

/-- `INSERT` of what a snapshot keeps of each item, in order. -/
def insertFindings (s : Store) (round : Int) :
    List Int → (Table fun f : RoundFinding => (f.roundId, f.itemId)) →
      Except Fmt (Table fun f : RoundFinding => (f.roundId, f.itemId))
  | [], t => .ok t
  | id :: ids, t =>
      match finding s round id with
      | none => insertFindings s round ids t
      | some f =>
          match t.tryInsert f with
          | some t => insertFindings s round ids t
          | none => .error ["UNIQUE constraint failed: review_round_findings"]

section Record

variable (nfc : Text → Text) (sys : Sqlite)

/-- The items that a round of a namespace holds: what was filed there, or the tasks under it. -/
def heldIds (s : Store) (ns : Text) (filed : List Int) : Except Fmt (List Int) :=
  if filed = [] then
    evaluate nfc sys s.base { kind := some "task".toList, scope := .subtree ns }
  else .ok filed

/-- Whether a caller may record what was filed under a namespace. -/
def checkSource (ns : Text) (filings : List Filing) : RoundSource → Except Fmt Unit
  | .anyNamespace => .ok ()
  | .filed by_ =>
      if filings = [] ∨ filings.any fun f => f.filedBy ≠ by_ then
        .error ["`", Ns.shown ns, "` is not a namespace this caller filed with `jkb task review file` — ",
          "only the operator records a review someone else filed, or whose findings reached the KB ",
          "another way (a mounted `/review-log` folder), because the round a task records decides which ",
          "tasks its workers may write. Record it on the host: `jkb task review record --branch <branch> ",
          "--findings ", Ns.shown ns, "`"]
      else .ok ()

/-- Snapshot the round of a namespace if no recording has yet; its id is its recording order. -/
def snapshotRound (s : Store) (ns actor : Text) (source : RoundSource) : Except Fmt (Store × Int) := do
  let filings := (s.filings.rows.filter fun f => f.ns = ns).insertionSort fun a b => a.itemId ≤ b.itemId
  -- also for a round that is recorded already
  checkSource ns filings source
  match s.rounds.find ns with
  | some r => return (s, r.id)
  | none =>
      match roundOverlapping s.rounds ns with
      | some round =>
          .error ["`", Ns.shown ns, "` is, or lies in or around, the round already recorded as `",
            Ns.shown round, "` — record `", Ns.shown round, "` itself; a finding that matters after a ",
          "round is recorded is another round"]
      | none =>
          let ids ← heldIds nfc sys s ns (filings.map (·.itemId))
          let (rounds, id) ← s.rounds.add ns actor
          let findings ← insertFindings s id ids s.findings
          return ({ s with rounds, findings }, id)

/-- `INSERT` into `reviews`. -/
def insert (s : Store) (task : Int) (kind : Kind) (ns : Option Text) (sha actor : Text) : Store :=
  let reviews := s.reviews.insertNext (fun id => { id, itemId := task, kind, ns, sha, actor }) fun _ => rfl
  { s with reviews }

/-- Record that a review of a task ran at `sha`, filing its findings under `ns`. Recording the same round
twice is a no-op. -/
def record (s : Store) (task : Int) (ns sha actor : Text) (source : RoundSource) : Except Fmt Store := do
  check "findings namespace" ns
  check "sha" sha
  let (s, _) ← snapshotRound nfc sys s ns actor source
  if s.reviews.rows.any fun r =>
      r.itemId = task && r.kind = .recorded && r.ns = some ns && r.sha = sha then
    return s
  else return insert s task .recorded (some ns) sha actor

/-- Record that a task landed at `sha` with the review gate waived. -/
def waive (s : Store) (task : Int) (sha actor : Text) : Except Fmt Store := do
  check "sha" sha
  return insert s task .waived none sha actor

/-- Record that a landing of a task at `sha` ran its gate on the host. -/
def gateOnHost (s : Store) (task : Int) (sha actor : Text) : Except Fmt Store := do
  check "sha" sha
  return insert s task .gateOnHost none sha actor

/-- Record that `filedBy` filed some items into a new namespace. -/
def recordFiling (s : Store) (ns : Text) (items : List Int) (filedBy : Text) : Except Fmt Store := do
  check "findings namespace" ns
  return { s with filings := items.foldl (fun t id => (t.insertOrIgnore ⟨ns, id, filedBy⟩).1) s.filings }

end Record

/-! ## what a recording does -/

/-- The findings of a round are those of the items that it is made of. -/
theorem insertFindings_eq_ok {s : Store} {round : Int} {ids : List Int} {t t'}
    (h : insertFindings s round ids t = .ok t') :
    t'.rows = t.rows ++ ids.filterMap (finding s round) := by
  induction ids generalizing t with
  | nil =>
      cases h
      simp
  | cons id ids ih =>
      unfold insertFindings at h
      cases hf : finding s round id with
      | none =>
          rw [hf] at h
          rw [ih h, List.filterMap_cons_none hf]
      | some f =>
          rw [hf] at h
          dsimp only at h
          cases hins : t.tryInsert f with
          | none =>
              rw [hins] at h
              cases h
          | some u =>
              rw [hins] at h
              rw [ih h, Table.rows_of_tryInsert hins, List.filterMap_cons_some hf, List.append_assoc]
              rfl

/-- A recording of a namespace that has no round adds one, with what each item it holds is now. -/
structure Snapshots (s : Store) (ns actor : Text) (s' : Store) : Prop where
  fresh : s.rounds.find ns = none
  rounds : s'.rounds.rows = s.rounds.rows ++ [⟨s.rounds.table.nextKey, ns, actor⟩]
  last : s'.rounds.table.last = s.rounds.table.nextKey
  findings : ∃ ids : List Int,
    s'.findings.rows = s.findings.rows ++ ids.filterMap (finding s s.rounds.table.nextKey)
  frame : s'.base = s.base ∧ s'.content = s.content ∧ s'.reviews = s.reviews ∧ s'.filings = s.filings

/-- A snapshot that goes through finds the round, or makes it. -/
theorem snapshotRound_eq_ok {nfc : Text → Text} {sys : Sqlite} {s s' : Store} {ns actor : Text}
    {source : RoundSource} {id : Int} (h : snapshotRound nfc sys s ns actor source = .ok (s', id)) :
    (s' = s ∧ ∃ r, s.rounds.find ns = some r ∧ r.id = id) ∨
      (Snapshots s ns actor s' ∧ id = s.rounds.table.nextKey) := by
  unfold snapshotRound at h
  obtain ⟨⟨⟩, -, h⟩ := Tx.bind_eq_ok.mp h
  cases hfind : s.rounds.find ns with
  | some r =>
      rw [hfind] at h
      cases h
      exact Or.inl ⟨rfl, r, rfl, rfl⟩
  | none =>
      rw [hfind] at h
      dsimp only at h
      cases hover : roundOverlapping s.rounds ns with
      | some round =>
          rw [hover] at h
          cases h
      | none =>
          rw [hover] at h
          obtain ⟨ids, -, h⟩ := Tx.bind_eq_ok.mp h
          obtain ⟨⟨rounds, new⟩, hadd, h⟩ := Tx.bind_eq_ok.mp h
          obtain ⟨findings, hins, h⟩ := Tx.bind_eq_ok.mp h
          cases h
          obtain ⟨rfl, hrows, hlast⟩ := Rounds.add_eq_ok hadd
          exact Or.inr ⟨⟨hfind, hrows, hlast, ⟨ids, insertFindings_eq_ok hins⟩, rfl, rfl, rfl, rfl⟩, rfl⟩

/-- After a recording its namespace has a round. -/
theorem Snapshots.find {s s' : Store} {ns actor : Text} (h : Snapshots s ns actor s') :
    s'.rounds.find ns = some ⟨s.rounds.table.nextKey, ns, actor⟩ :=
  Rounds.find_eq_some.mpr ⟨by rw [h.rounds]; simp, rfl⟩

/-- **What a recording does**: it snapshots the round if nobody has, and says once that this task was
reviewed at this head. -/
theorem record_eq_ok {nfc : Text → Text} {sys : Sqlite} {s s' : Store} {task : Int} {ns sha actor : Text}
    {source : RoundSource} (h : record nfc sys s task ns sha actor source = .ok s') :
    ∃ t, (t = s ∧ (s.rounds.find ns).isSome ∨ Snapshots s ns actor t) ∧
      (s' = t ∧ (∃ r ∈ s.reviews.rows, r.itemId = task ∧ r.kind = .recorded ∧ r.ns = some ns ∧ r.sha = sha) ∨
        s' = insert t task .recorded (some ns) sha actor) := by
  obtain ⟨⟨⟩, -, h⟩ := Tx.bind_eq_ok.mp h
  obtain ⟨⟨⟩, -, h⟩ := Tx.bind_eq_ok.mp h
  obtain ⟨⟨t, id⟩, hsnap, h⟩ := Tx.bind_eq_ok.mp h
  have hsame : t.reviews = s.reviews := by
    rcases snapshotRound_eq_ok hsnap with ⟨rfl, -⟩ | ⟨hs, -⟩
    · rfl
    · exact hs.frame.2.2.1
  refine ⟨t, ?_, ?_⟩
  · rcases snapshotRound_eq_ok hsnap with ⟨rfl, r, hr, -⟩ | ⟨hs, -⟩
    · exact Or.inl ⟨rfl, by rw [hr]; rfl⟩
    · exact Or.inr hs
  · dsimp only at h
    split at h
    · next hany =>
        cases h
        rw [hsame] at hany
        refine Or.inl ⟨rfl, ?_⟩
        simpa [and_assoc] using hany
    · cases h
      exact Or.inr rfl

/-! ## reading the record -/

/-- What the snapshot of a round holds as must-fix. -/
def mustFixes (s : Store) (round : Int) : List RoundFinding :=
  s.findings.rows.filter fun f => f.roundId = round && f.mustFix

/-- One review round, as it stood when it was first recorded. -/
structure Round where
  ns : Text
  filed : Int
  mustFix : Nat
  areas : List Text
deriving Repr, DecidableEq

/-- A round as it is reported. -/
def report (s : Store) (r : RoundRow) : Round where
  ns := r.ns
  filed := r.id
  mustFix := (mustFixes s r.id).length
  areas := dedup (((mustFixes s r.id).filterMap (·.area)).insertionSort (· ≤ ·))

/-- The round recorded under a namespace, as it is reported. -/
def roundOf (s : Store) (ns : Text) : Option Round := (s.rounds.find ns).map (report s)

/-- The rounds recorded under some namespaces, oldest recording first. -/
def roundsIn (s : Store) (namespaces : List Text) : List Round :=
  (namespaces.filterMap (roundOf s)).insertionSort fun a b => a.filed ≤ b.filed

/-- The findings that the rounds of some namespaces held as must-fix when they were recorded. -/
def mustFixFindings (s : Store) (namespaces : List Text) : List Int :=
  dedup ((namespaces.flatMap fun ns =>
    (s.rounds.find ns).toList.flatMap fun r => (mustFixes s r.id).map (·.itemId)).insertionSort
      (· ≤ ·))

/-- What the land gate reads about a task's reviews. -/
structure ReviewState where
  reviewed : Option Text := none
  namespaces : List Text := []
  waived : Option Text := none
  gateOnHost : Option Text := none
deriving Repr, DecidableEq

/-- `push`, of what is not there already. -/
def pushNew {α : Type} [DecidableEq α] (xs : List α) (x : α) : List α := if x ∈ xs then xs else xs ++ [x]

@[simp] theorem mem_pushNew {α : Type} [DecidableEq α] {xs : List α} {x y : α} :
    y ∈ pushNew xs x ↔ y ∈ xs ∨ y = x := by
  unfold pushNew
  split
  · next hx =>
      constructor
      · exact Or.inl
      · rintro (hy | rfl)
        · exact hy
        · exact hx
  · simp

/-- What one row of the record says. -/
def ReviewState.add (st : ReviewState) (r : Review) : ReviewState :=
  match r.kind with
  | .waived => { st with waived := some r.sha }
  | .gateOnHost => { st with gateOnHost := some r.sha }
  | .recorded =>
      { st with
        reviewed := some r.sha
        namespaces := r.ns.elim st.namespaces (pushNew st.namespaces) }

/-- A task's review state. -/
def state (s : Store) (task : Int) : ReviewState :=
  (s.reviews.rows.filter fun r => r.itemId = task).foldl .add {}

/-- The review states of some tasks, of those with a record. -/
def stateFor (s : Store) (tasks : List Int) : List (Int × ReviewState) :=
  (tasks.dedup.filter fun task => s.reviews.rows.any fun r => r.itemId = task).map fun task =>
    (task, state s task)

/-! ## what the readers say -/

section Readers

variable {s : Store} {nss : List Text} {task : Int}

/-- The findings of a round that must be fixed. -/
theorem mem_mustFixes {round : Int} {f : RoundFinding} :
    f ∈ mustFixes s round ↔ f ∈ s.findings.rows ∧ f.roundId = round ∧ f.mustFix = true := by
  simp [mustFixes]

/-- The items that some round of the namespaces says must be fixed. -/
theorem mem_mustFixFindings {id : Int} :
    id ∈ mustFixFindings s nss ↔
      ∃ ns ∈ nss, ∃ r, s.rounds.find ns = some r ∧ ∃ f ∈ mustFixes s r.id, f.itemId = id := by
  simp [mustFixFindings, mem_dedup, List.mem_insertionSort]

/-- The rounds that the namespaces have. -/
theorem mem_roundsIn {x : Round} :
    x ∈ roundsIn s nss ↔ ∃ ns ∈ nss, ∃ r, s.rounds.find ns = some r ∧ report s r = x := by
  simp [roundsIn, roundOf, List.mem_insertionSort]

/-- A task's recordings, in order. -/
def recordings (s : Store) (task : Int) : List Review :=
  s.reviews.rows.filter fun r => r.itemId = task && r.kind = .recorded

/-- The recordings of a task. -/
theorem mem_recordings {r : Review} :
    r ∈ recordings s task ↔ r ∈ s.reviews.rows ∧ r.itemId = task ∧ r.kind = .recorded := by
  simp [recordings]

/-- The namespaces that the reviews name are those of the recordings. -/
theorem namespaces_foldl_add (rows : List Review) (st : ReviewState) (ns : Text) :
    ns ∈ (rows.foldl .add st).namespaces ↔
      ns ∈ st.namespaces ∨ ∃ r ∈ rows, r.kind = .recorded ∧ r.ns = some ns := by
  induction rows generalizing st with
  | nil => simp
  | cons r rows ih =>
      have hadd : ns ∈ (st.add r).namespaces ↔
          ns ∈ st.namespaces ∨ (r.kind = .recorded ∧ r.ns = some ns) := by
        unfold ReviewState.add
        cases hk : r.kind with
        | recorded => cases hns : r.ns <;> simp [eq_comm]
        | waived => simp
        | gateOnHost => simp
      rw [List.foldl_cons, ih, hadd, List.exists_mem_cons_iff, or_assoc]

/-- The namespaces of a task's state are those of its recordings. -/
theorem mem_namespaces_state {ns : Text} :
    ns ∈ (state s task).namespaces ↔ ∃ r ∈ recordings s task, r.ns = some ns := by
  rw [state, namespaces_foldl_add]
  simp [recordings, and_assoc]

/-- A fold's newest record of a kind, of a field that only rows of that kind set. -/
theorem foldl_add_last {field : ReviewState → Option Text} {kind : Kind}
    (hadd : ∀ st r, field (ReviewState.add st r) = if r.kind = kind then some r.sha else field st)
    (rows : List Review) (st : ReviewState) :
    field (rows.foldl .add st) =
      ((rows.filter fun r => r.kind = kind).getLast?.map (·.sha)).or (field st) := by
  induction rows using List.reverseRecOn with
  | nil => rfl
  | append_singleton rows r ih =>
      rw [List.foldl_append, List.foldl_cons, List.foldl_nil, hadd, List.filter_append]
      by_cases hk : r.kind = kind
      · simp [hk]
      · simp [hk, ih]

/-- The head that a task's newest recording ran against. -/
theorem reviewed_state : (state s task).reviewed = (recordings s task).getLast?.map (·.sha) := by
  have hadd : ∀ (st : ReviewState) (r : Review),
      (st.add r).reviewed = if r.kind = .recorded then some r.sha else st.reviewed := by
    intro st r
    unfold ReviewState.add
    cases hk : r.kind <;> simp
  rw [state, foldl_add_last hadd]
  simp [recordings, List.filter_filter, Bool.and_comm]

/-- A task's waiver is of a head that one was recorded for. -/
theorem waived_state {sha : Text} (h : (state s task).waived = some sha) :
    ∃ r ∈ s.reviews.rows, r.itemId = task ∧ r.kind = .waived ∧ r.sha = sha := by
  have hadd : ∀ (st : ReviewState) (r : Review),
      (st.add r).waived = if r.kind = .waived then some r.sha else st.waived := by
    intro st r
    unfold ReviewState.add
    cases hk : r.kind <;> simp
  rw [state, foldl_add_last hadd, Option.or_none, Option.map_eq_some_iff] at h
  obtain ⟨r, hr, hsha⟩ := h
  have hmem := List.mem_of_getLast? hr
  simp only [List.filter_filter, List.mem_filter, Bool.and_eq_true, decide_eq_true_eq] at hmem
  exact ⟨r, hmem.1, hmem.2.2, hmem.2.1, hsha⟩

/-- The states that are read are those of the tasks with a record. -/
theorem mem_stateFor {tasks : List Int} {st : ReviewState} :
    st ∈ (stateFor s tasks).map (·.2) ↔
      ∃ task ∈ tasks, (∃ r ∈ s.reviews.rows, r.itemId = task) ∧ state s task = st := by
  simp [stateFor, and_assoc]

end Readers

/-! ## rounds recorded for tasks -/

section

variable (s : Store)

/-- A round that was recorded for one of some tasks. -/
def RecordedFor (tasks : List Int) (round : RoundRow) : Prop :=
  round ∈ s.rounds.rows ∧ ∃ task ∈ tasks, ∃ r ∈ recordings s task, r.ns = some round.ns

/-- A round that held no must-fix when it was snapshotted. -/
def Clean (round : RoundRow) : Prop := mustFixes s round.id = []

/-- The newest of the rounds recorded for some tasks. -/
def Newest (tasks : List Int) (round : RoundRow) : Prop :=
  RecordedFor s tasks round ∧ ∀ other, RecordedFor s tasks other → other.id ≤ round.id

end

/-- The last of some rounds in order is one of them, and none is newer. -/
theorem getLast_insertionSort {rounds : List Round} {last : Round}
    (h : (rounds.insertionSort fun a b => a.filed ≤ b.filed).getLast? = some last) :
    last ∈ rounds ∧ ∀ x ∈ rounds, x.filed ≤ last.filed := by
  have hsorted := List.pairwise_insertionSort (r := fun a b : Round => a.filed ≤ b.filed) rounds
  obtain ⟨init, hinit⟩ := List.getLast?_eq_some_iff.mp h
  have hmem : ∀ x, x ∈ rounds ↔ x ∈ init ++ [last] := fun x => by
    rw [← hinit, List.mem_insertionSort]
  refine ⟨(hmem last).mpr (by simp), fun x hx => ?_⟩
  rw [hinit, List.pairwise_append] at hsorted
  rcases List.mem_append.mp ((hmem x).mp hx) with hx | hx
  · simpa using hsorted.2.2 x hx last (by simp)
  · rw [List.mem_singleton.mp hx]

/-! ## runs -/

section Runs

variable (nfc : Text → Text) (sys : Sqlite)

/-- The operations on the record, and any other writer's change of the items, their tags and their
placements that removes no item. -/
inductive Op where
  | record (task : Int) (ns sha actor : Text) (source : RoundSource)
  | waive (task : Int) (sha actor : Text)
  | gateOnHost (task : Int) (sha actor : Text)
  | recordFiling (ns : Text) (items : List Int) (filedBy : Text)
  | edit (base : Query.Store) (content : Int → Option Text)

/-- Carry out one operation; a refused one changes nothing. -/
def next (s : Store) : Op → Store
  | .record task ns sha actor source => Tx.commit (record nfc sys s task ns sha actor source) s
  | .waive task sha actor => Tx.commit (waive s task sha actor) s
  | .gateOnHost task sha actor => Tx.commit (gateOnHost s task sha actor) s
  | .recordFiling ns items filedBy => Tx.commit (recordFiling s ns items filedBy) s
  | .edit base content =>
      if s.base.items.rows.all fun i => (base.item? i.id).isSome then { s with base, content } else s

/-- No review is filed or recorded yet. -/
def start (base : Query.Store) (content : Int → Option Text) : Store :=
  { base, content, reviews := .empty, filings := .empty, rounds := .empty, findings := .empty }

/-- What one state of the record says is said by a later one: no row goes, and a round's snapshot is what it
was. -/
structure Grown (s s' : Store) : Prop where
  reviews : s.reviews.rows <+: s'.reviews.rows
  rounds : s.rounds.rows <+: s'.rounds.rows
  findings : ∃ new, s'.findings.rows = s.findings.rows ++ new ∧
    ∀ f ∈ new, s.rounds.table.last < f.roundId
  last : s.rounds.table.last ≤ s'.rounds.table.last

/-- A store that nothing is written to has not grown. -/
theorem Grown.refl (s : Store) : Grown s s :=
  ⟨List.prefix_rfl, List.prefix_rfl, ⟨[], by simp⟩, le_rfl⟩

/-- What grows twice grows. -/
theorem Grown.trans {a b c : Store} (hab : Grown a b) (hbc : Grown b c) : Grown a c := by
  obtain ⟨new₁, h₁, hlt₁⟩ := hab.findings
  obtain ⟨new₂, h₂, hlt₂⟩ := hbc.findings
  refine ⟨hab.reviews.trans hbc.reviews, hab.rounds.trans hbc.rounds, ⟨new₁ ++ new₂, ?_, ?_⟩,
    hab.last.trans hbc.last⟩
  · rw [h₂, h₁, List.append_assoc]
  · intro f hf
    rcases List.mem_append.mp hf with hf | hf
    · exact hlt₁ f hf
    · exact lt_of_le_of_lt hab.last (hlt₂ f hf)

/-- What a recorded round held as must-fix is never anything else. -/
theorem Grown.mustFixes {s s' : Store} (h : Grown s s') {r : RoundRow} (hr : r ∈ s.rounds.rows) :
    mustFixes s' r.id = mustFixes s r.id := by
  obtain ⟨new, hrows, hlt⟩ := h.findings
  have hnone : (new.filter fun f => f.roundId = r.id && f.mustFix) = [] := by
    refine List.filter_eq_nil_iff.mpr fun f hf => ?_
    have hbelow := s.rounds.table.le_last r hr
    have habove := hlt f hf
    have hne : f.roundId ≠ r.id := by omega
    simp [hne]
  rw [Reviews.mustFixes, hrows, List.filter_append, hnone, List.append_nil]
  rfl

/-- A snapshot only adds. -/
theorem Snapshots.grown {s s' : Store} {ns actor : Text} (h : Snapshots s ns actor s') : Grown s s' := by
  obtain ⟨ids, hids⟩ := h.findings
  refine ⟨by rw [h.frame.2.2.1], ⟨_, h.rounds.symm⟩, ⟨_, hids, fun f hf => ?_⟩, ?_⟩
  · obtain ⟨id, -, hf⟩ := List.mem_filterMap.mp hf
    obtain ⟨i, -, rfl⟩ := Option.map_eq_some_iff.mp hf
    exact Int.lt_succ _
  · rw [h.last]
    exact (Int.lt_succ _).le

/-- So does a review. -/
theorem grown_insert (s : Store) (task : Int) (kind : Kind) (ns : Option Text) (sha actor : Text) :
    Grown s (insert s task kind ns sha actor) :=
  ⟨List.prefix_append _ _, List.prefix_rfl, ⟨[], by simp [insert]⟩, le_rfl⟩

/-- So does every operation. -/
theorem grown_next (s : Store) (op : Op) : Grown s (next nfc sys s op) := by
  cases op with
  | record task ns sha actor source =>
      refine Tx.commit_rel (Grown.refl s) fun s' h => ?_
      obtain ⟨t, ht, hs'⟩ := record_eq_ok h
      have hgrown : Grown s t := by
        rcases ht with ⟨rfl, -⟩ | ht
        · exact Grown.refl _
        · exact ht.grown
      rcases hs' with ⟨rfl, -⟩ | rfl
      · exact hgrown
      · exact hgrown.trans (grown_insert ..)
  | waive task sha actor =>
      refine Tx.commit_rel (Grown.refl s) fun s' h => ?_
      obtain ⟨⟨⟩, -, h⟩ := Tx.bind_eq_ok.mp h
      cases h
      exact grown_insert ..
  | gateOnHost task sha actor =>
      refine Tx.commit_rel (Grown.refl s) fun s' h => ?_
      obtain ⟨⟨⟩, -, h⟩ := Tx.bind_eq_ok.mp h
      cases h
      exact grown_insert ..
  | recordFiling ns items filedBy =>
      refine Tx.commit_rel (Grown.refl s) fun s' h => ?_
      obtain ⟨⟨⟩, -, h⟩ := Tx.bind_eq_ok.mp h
      cases h
      exact ⟨List.prefix_rfl, List.prefix_rfl, ⟨[], by simp⟩, le_rfl⟩
  | edit base content =>
      simp only [next]
      split
      · exact ⟨List.prefix_rfl, List.prefix_rfl, ⟨[], by simp⟩, le_rfl⟩
      · exact Grown.refl s

/-- **What the rows say of each other**: a recording names a namespace that has a round, and a round's
findings are items. -/
structure Kept (s : Store) : Prop where
  recorded : ∀ r ∈ s.reviews.rows, r.kind = .recorded →
    ∃ ns, r.ns = some ns ∧ (s.rounds.find ns).isSome
  there : ∀ f ∈ s.findings.rows, (s.base.item? f.itemId).isSome

/-- A database without reviews keeps what its rows say of each other. -/
theorem kept_start (base : Query.Store) (content : Int → Option Text) : Kept (start base content) :=
  ⟨fun _ hr => absurd hr List.not_mem_nil, fun _ hf => absurd hf List.not_mem_nil⟩

/-- A round that is there is there once more are added. -/
theorem find_of_prefix {s s' : Store} (h : s.rounds.rows <+: s'.rounds.rows) {ns : Text}
    (hns : (s.rounds.find ns).isSome) : (s'.rounds.find ns).isSome := by
  obtain ⟨r, hr⟩ := Option.isSome_iff_exists.mp hns
  obtain ⟨hmem, hrns⟩ := Rounds.find_eq_some.mp hr
  rw [Rounds.find_eq_some.mpr ⟨h.subset hmem, hrns⟩]
  rfl

/-- A review may be added if its namespace has a round. -/
theorem Kept.insert {s : Store} (h : Kept s) {task : Int} {kind : Kind} {ns : Option Text}
    {sha actor : Text} (hns : kind = .recorded → ∃ n, ns = some n ∧ (s.rounds.find n).isSome) :
    Kept (insert s task kind ns sha actor) := by
  refine ⟨fun r hr hk => ?_, h.there⟩
  rcases AutoTable.mem_insertNext.mp hr with hr | rfl
  · exact h.recorded r hr hk
  · exact hns hk

/-- A snapshot may be added. -/
theorem Snapshots.kept {s s' : Store} {ns actor : Text} (h : Snapshots s ns actor s') (hs : Kept s) :
    Kept s' := by
  obtain ⟨ids, hids⟩ := h.findings
  refine ⟨fun r hr hk => ?_, fun f hf => ?_⟩
  · rw [h.frame.2.2.1] at hr
    obtain ⟨n, hn, hfind⟩ := hs.recorded r hr hk
    exact ⟨n, hn, find_of_prefix h.grown.rounds hfind⟩
  · rw [h.frame.1]
    rw [hids] at hf
    rcases List.mem_append.mp hf with hf | hf
    · exact hs.there f hf
    · obtain ⟨id, -, hf⟩ := List.mem_filterMap.mp hf
      obtain ⟨i, hi, rfl⟩ := Option.map_eq_some_iff.mp hf
      rw [hi]
      rfl

/-- Every operation keeps what the rows say of each other. -/
theorem kept_next (s : Store) (op : Op) (hs : Kept s) : Kept (next nfc sys s op) := by
  cases op with
  | record task ns sha actor source =>
      refine @Tx.commit_rel _ _ (fun s s' => Kept s → Kept s') _ _ id (fun s' h hs => ?_) hs
      obtain ⟨t, ht, hs'⟩ := record_eq_ok h
      have hkept : Kept t ∧ (t.rounds.find ns).isSome := by
        rcases ht with ⟨rfl, hfind⟩ | ht
        · exact ⟨hs, hfind⟩
        · exact ⟨ht.kept hs, by rw [ht.find]; rfl⟩
      rcases hs' with ⟨rfl, -⟩ | rfl
      · exact hkept.1
      · exact hkept.1.insert fun _ => ⟨ns, rfl, hkept.2⟩
  | waive task sha actor =>
      refine @Tx.commit_rel _ _ (fun s s' => Kept s → Kept s') _ _ id (fun s' h hs => ?_) hs
      obtain ⟨⟨⟩, -, h⟩ := Tx.bind_eq_ok.mp h
      cases h
      exact hs.insert fun h => nomatch h
  | gateOnHost task sha actor =>
      refine @Tx.commit_rel _ _ (fun s s' => Kept s → Kept s') _ _ id (fun s' h hs => ?_) hs
      obtain ⟨⟨⟩, -, h⟩ := Tx.bind_eq_ok.mp h
      cases h
      exact hs.insert fun h => nomatch h
  | recordFiling ns items filedBy =>
      refine @Tx.commit_rel _ _ (fun s s' => Kept s → Kept s') _ _ id (fun s' h hs => ?_) hs
      obtain ⟨⟨⟩, -, h⟩ := Tx.bind_eq_ok.mp h
      cases h
      exact ⟨hs.recorded, hs.there⟩
  | edit base content =>
      simp only [next]
      split
      · next hall =>
          refine ⟨hs.recorded, fun f hf => ?_⟩
          obtain ⟨i, hi⟩ := Option.isSome_iff_exists.mp (hs.there f hf)
          obtain ⟨hmem, hid⟩ := Table.find?_eq_some.mp hi
          have hkept := List.all_eq_true.mp hall i hmem
          rwa [hid] at hkept
      · exact hs

/-- **The tables agree in every state**. -/
theorem kept_run {s : Store} (hs : Kept s) (ops : List Op) : Kept (Run.run (next nfc sys) s ops) :=
  Run.run_invariant (kept_next nfc sys) hs ops

/-- The recordings once one has been added. -/
theorem mem_recordings_insert {s : Store} {task : Int} {kind : Kind} {ns : Option Text} {sha actor : Text}
    {t : Int} {r : Review} (h : r ∈ recordings (insert s task kind ns sha actor) t) :
    r ∈ recordings s t ∨ (task = t ∧ kind = .recorded ∧ r.ns = ns) := by
  obtain ⟨hrow, hid, hkind⟩ := mem_recordings.mp h
  rcases AutoTable.mem_insertNext.mp hrow with hrow | rfl
  · exact Or.inl (mem_recordings.mpr ⟨hrow, hid, hkind⟩)
  · exact Or.inr ⟨hid, hkind, rfl⟩

/-- A recording of a task is there already, or is what an operation that is not refused records. -/
theorem mem_recordings_next {s : Store} {op : Op} {task : Int} {r : Review}
    (h : r ∈ recordings (next nfc sys s op) task) :
    r ∈ recordings s task ∨ ∃ ns sha actor source, op = .record task ns sha actor source ∧
      (∃ s', record nfc sys s task ns sha actor source = .ok s') ∧ r.ns = some ns := by
  have hsame : ∀ {u : Store}, u.reviews = s.reviews → r ∈ recordings u task → r ∈ recordings s task := by
    intro u hu hr
    rwa [recordings, hu] at hr
  have hother : ∀ {x : Except Fmt Store} {k : Kind} {t : Int} {sha actor : Text}, k ≠ .recorded →
      (∀ s', x = .ok s' → s' = insert s t k none sha actor) →
        r ∈ recordings (Tx.commit x s) task → r ∈ recordings s task := by
    intro x k t sha actor hkind hx hr
    cases x with
    | error e => exact hr
    | ok s' =>
        obtain rfl := hx s' rfl
        exact (mem_recordings_insert hr).resolve_right fun hc => hkind hc.2.1
  cases op with
  | record t ns sha actor source =>
      simp only [next] at h
      cases hrec : record nfc sys s t ns sha actor source with
      | error e =>
          rw [hrec] at h
          exact Or.inl h
      | ok s' =>
          rw [hrec] at h
          obtain ⟨u, hu, hs'⟩ := record_eq_ok hrec
          have hreviews : u.reviews = s.reviews := by
            rcases hu with ⟨rfl, -⟩ | hu
            · rfl
            · exact hu.frame.2.2.1
          rcases hs' with ⟨rfl, -⟩ | rfl
          · exact Or.inl (hsame hreviews h)
          · rcases mem_recordings_insert h with hr | ⟨rfl, -, hns⟩
            · exact Or.inl (hsame hreviews hr)
            · exact Or.inr ⟨ns, sha, actor, source, rfl, ⟨_, hrec⟩, hns⟩
  | waive t sha actor =>
      refine Or.inl (@hother (waive s t sha actor) .waived t sha actor (by decide) (fun s' hs' => ?_) h)
      obtain ⟨⟨⟩, -, hs'⟩ := Tx.bind_eq_ok.mp hs'
      exact (Except.ok.inj hs').symm
  | gateOnHost t sha actor =>
      refine Or.inl
        (@hother (gateOnHost s t sha actor) .gateOnHost t sha actor (by decide) (fun s' hs' => ?_) h)
      obtain ⟨⟨⟩, -, hs'⟩ := Tx.bind_eq_ok.mp hs'
      exact (Except.ok.inj hs').symm
  | recordFiling ns items filedBy =>
      refine Or.inl (hsame ?_ h)
      refine @Tx.commit_rel _ _ (fun s s' : Store => s'.reviews = s.reviews) _ _ rfl fun s' hs' => ?_
      obtain ⟨⟨⟩, -, hs'⟩ := Tx.bind_eq_ok.mp hs'
      cases hs'
      rfl
  | edit base content =>
      refine Or.inl (hsame ?_ h)
      simp only [next]
      split <;> rfl

/-- A round recorded for a task stays recorded for it. -/
theorem RecordedFor.mono {s s' : Store} (h : Grown s s') {tasks : List Int} {round : RoundRow}
    (hround : RecordedFor s tasks round) : RecordedFor s' tasks round := by
  obtain ⟨hin, task, ht, r, hr, hns⟩ := hround
  obtain ⟨hrow, hid, hkind⟩ := mem_recordings.mp hr
  exact ⟨h.rounds.subset hin, task, ht, r, mem_recordings.mpr ⟨h.reviews.subset hrow, hid, hkind⟩, hns⟩

/-- A round that is the newest and was recorded before was the newest before. -/
theorem Newest.of_grown {s s' : Store} (h : Grown s s') {tasks : List Int} {round : RoundRow}
    (hnewest : Newest s' tasks round) (hround : RecordedFor s tasks round) : Newest s tasks round :=
  ⟨hround, fun other hother => hnewest.2 other (hother.mono h)⟩

/-- **What becomes a task's round**: one that a recording for it names, which is there already or is
snapshotted by it. -/
theorem recordedFor_next {s : Store} (hs : Kept s) {op : Op} {task : Int} {round : RoundRow}
    (h : RecordedFor (next nfc sys s op) [task] round) :
    RecordedFor s [task] round ∨ ∃ ns sha actor source, op = .record task ns sha actor source ∧
      (∃ s', record nfc sys s task ns sha actor source = .ok s') ∧
      (s.rounds.find ns = some round ∨ round ∉ s.rounds.rows) := by
  obtain ⟨hin, t, ht, r, hr, hns⟩ := h
  obtain rfl := List.mem_singleton.mp ht
  -- a round of that name that is there is this one
  have hfind : ∀ old, s.rounds.find round.ns = some old → old = round := by
    intro old hold
    obtain ⟨hmem, hname⟩ := Rounds.find_eq_some.mp hold
    exact List.inj_on_of_nodup_map (next nfc sys s op).rounds.unique
      ((grown_next nfc sys s op).rounds.subset hmem) hin hname
  rcases mem_recordings_next nfc sys hr with hr | ⟨ns, sha, actor, source, rfl, hok, hns'⟩
  · obtain ⟨hrow, -, hkind⟩ := mem_recordings.mp hr
    obtain ⟨n, hn, hsome⟩ := hs.recorded r hrow hkind
    obtain rfl : round.ns = n := Option.some.inj (hns.symm.trans hn)
    obtain ⟨old, hold⟩ := Option.isSome_iff_exists.mp hsome
    obtain rfl := hfind old hold
    exact Or.inl ⟨(Rounds.find_eq_some.mp hold).1, t, ht, r, hr, hns⟩
  · obtain rfl : round.ns = ns := Option.some.inj (hns.symm.trans hns')
    refine Or.inr ⟨_, sha, actor, source, rfl, hok, ?_⟩
    by_cases hmem : round ∈ s.rounds.rows
    · exact Or.inl (Rounds.find_eq_some.mpr ⟨hmem, rfl⟩)
    · exact Or.inr hmem

end Runs

end Jkb.Reviews
