import Jkb.Core.Subtask

/-!
# Jkb.Sync.Needs

Parked needs. A task's line may name a task that its file does not define yet; the need is parked on the item, and
is turned into a dependency once the file's document holds the task it names. Resolving reads the store and the
document and decides; recording writes what was decided. `resolveParkedNeeds_spec` says that no need is lost on the
way, and that what is recorded closes no cycle.
-/

namespace Jkb.Sync.Needs

open Jkb.Edge Jkb.Graph Jkb.Text Jkb.Tx Relation

/-- The tables that parked needs are read from and recorded in; an item's `metadata` may be unreadable. -/
structure Store where
  items : Items
  edges : Edges
  needs : Int → Except Fmt (List Text)

/-- A task whose parked needs name tasks that its file now defines: the dependencies to record, and the needs that
stay parked. -/
structure ResolvedNeeds where
  item : Int
  link : List Int
  stillParked : List Text
deriving Repr, DecidableEq

/-- What a pass has concluded so far: the edges of the document that it adds, the same as pairs of items, what the
store must record, and the warnings. -/
structure Pass where
  newEdges : List SyncEdge := []
  pending : List (Int × Int) := []
  heals : List ResolvedNeeds := []
  warnings : List Fmt := []

/-- What the turn of an item has come to. -/
structure Turn where
  pass : Pass
  link : List Int := []
  still : List Text := []
  resolvedAny : Bool := false

section Resolving

variable (edges : Edges) (docEdges : List SyncEdge) (inDoc : Text → Option Int)

/-- What an item depends on, in the store or by what is pending. -/
def next (pending : List (Int × Int)) (at_ : Int) : List Int :=
  edges.successors .dependsOn at_ ++ (pending.filter fun p => p.1 = at_).map (·.2)

/-- What an item leads to is an end of an edge or of a need. -/
theorem next_mem {pending : List (Int × Int)} (a b : Int) (h : b ∈ next edges pending a) :
    b ∈ edges.rows.map (·.dst) ++ pending.map (·.2) := by
  rcases List.mem_append.mp h with h | h
  · exact List.mem_append_left _ (Edges.dst_mem a b h)
  · obtain ⟨p, hp, rfl⟩ := List.mem_map.mp h
    exact List.mem_append_right _ (List.mem_map_of_mem (List.mem_of_mem_filter hp))

/-- Whether `dst` can be reached from `src` along dependencies, the store's and what is pending. -/
def reaches (pending : List (Int × Int)) (src dst : Int) : Bool :=
  dst ∈ Worklist.closure (next edges pending) (edges.rows.map (·.dst) ++ pending.map (·.2)) (next_mem edges) [src]

/-- The dependency of one of a document's items on another. -/
def dependency (src dst : Text) : SyncEdge := ⟨src, dst, .dependsOn⟩

/-- What is said of a need that would close a cycle. -/
def cycleWarning (localId dep : Text) : Fmt :=
  ["task `^", Subtask.shown localId, "`: `needs:^", Subtask.shown dep, "` would close a dependency cycle, so no " ++
    "dependency was recorded; the line keeps it until the cycle is broken"]

/-- Decide a parked need of an item. -/
def resolveNeed (localId : Text) (src : Int) (t : Turn) (dep : Text) : Turn :=
  match (inDoc dep).filter fun _ => dep ≠ localId with
  | none => { t with still := t.still ++ [dep] }
  | some dst =>
      if dependency localId dep ∈ docEdges ∨ dependency localId dep ∈ t.pass.newEdges then
        { t with resolvedAny := true }
      else if reaches edges t.pass.pending dst src then
        { t with
          still := t.still ++ [dep]
          pass := { t.pass with warnings := t.pass.warnings ++ [cycleWarning localId dep] } }
      else
        { t with
          link := t.link ++ [dst]
          resolvedAny := true
          pass := { t.pass with
            newEdges := t.pass.newEdges ++ [dependency localId dep]
            pending := t.pass.pending ++ [(src, dst)] } }

/-- The turn of an item, over some of its needs. -/
def turn (p : Pass) (localId : Text) (src : Int) (needs : List Text) : Turn :=
  needs.foldl (resolveNeed edges docEdges inDoc localId src) { pass := p }

/-- Resolve the parked needs of an item. -/
def resolveItem (p : Pass) (item : SyncItem) : Pass × SyncItem :=
  if item.unresolvedNeeds = [] then (p, item)
  else
    match inDoc item.localId with
    | none => (p, item)
    | some src =>
        let t := turn edges docEdges inDoc p item.localId src item.unresolvedNeeds
        (if t.resolvedAny then { t.pass with heals := t.pass.heals ++ [⟨src, t.link, t.still⟩] } else t.pass,
          { item with unresolvedNeeds := t.still })

/-- Resolve the parked needs of the items, one after the other. -/
def resolveItems : Pass → List SyncItem → Pass × List SyncItem
  | p, [] => (p, [])
  | p, item :: items =>
      let (p, item) := resolveItem edges docEdges inDoc p item
      let (p, items) := resolveItems p items
      (p, item :: items)

end Resolving

/-- Turn each parked need that names an item of the document into a dependency of the document, and answer with
what the store must record. -/
def resolveParkedNeeds (edges : Edges) (inDoc : Text → Option Int) (doc : SyncDoc) : Pass × SyncDoc :=
  let (p, items) := resolveItems edges doc.edges inDoc {} doc.items
  (p, { doc with items, edges := doc.edges ++ p.newEdges })

/-- Set an item's parked needs. -/
def setUnresolvedNeeds (s : Store) (item : Int) (needs : List Text) : Except Fmt Store :=
  (s.needs item).map fun now =>
    if now = needs then s else { s with needs := Function.update s.needs item (.ok needs) }

/-- Record a new dependency. -/
def recordLink (s : Store) (item dst : Int) : Except Fmt Store :=
  (link s.items s.edges item dst .dependsOn Subtask.noProps).map fun r => { s with edges := r.1 }

/-- Record what was resolved of an item. -/
def recordHeal (s : Store) (heal : ResolvedNeeds) : Except Fmt Store := do
  let s ← heal.link.foldlM (fun s dst => recordLink s heal.item dst) s
  setUnresolvedNeeds s heal.item heal.stillParked

/-- Record what was resolved. -/
def recordResolvedNeeds (s : Store) (heals : List ResolvedNeeds) : Except Fmt Store := heals.foldlM recordHeal s

/-! ## the graph -/

section Graph

variable {edges : Edges} {docEdges : List SyncEdge} {inDoc : Text → Option Int}

/-- The store's dependencies, and some more. -/
def With (edges : Edges) (pending : List (Int × Int)) (a b : Int) : Prop :=
  edges.Arc .dependsOn a b ∨ (a, b) ∈ pending

/-- The search of `reaches` is exact, on every graph. -/
theorem reaches_eq_true {pending : List (Int × Int)} {src dst : Int} :
    reaches edges pending src dst = true ↔ ReflTransGen (With edges pending) src dst := by
  have hrel : (fun a b => b ∈ next edges pending a) = With edges pending := by
    funext a b
    simp [next, With, Edges.mem_successors]
  rw [reaches, decide_eq_true_eq, Worklist.mem_closure, Worklist.Reached, hrel]
  simp

/-- A link that closes no cycle, put after the others. -/
theorem acyclic_append {pending : List (Int × Int)} {src dst : Int} (h : Acyclic (With edges pending))
    (hback : ¬ ReflTransGen (With edges pending) dst src) : Acyclic (With edges (pending ++ [(src, dst)])) := by
  refine (h.insert hback).mono fun a b hab => ?_
  simpa [With, or_assoc] using hab

/-- The links of what is recorded. -/
def links (heals : List ResolvedNeeds) : List (Int × Int) := heals.flatMap fun h => h.link.map (h.item, ·)

end Graph

/-! ## the turn of an item -/

section Turns

variable {edges : Edges} {docEdges : List SyncEdge} {inDoc : Text → Option Int}

/-- What holds of a pass: no cycle, and each new edge of the document once, beside the link it stands for. -/
structure PassOk (edges : Edges) (docEdges : List SyncEdge) (inDoc : Text → Option Int) (p : Pass) : Prop where
  acyclic : Acyclic (With edges p.pending)
  nodup : p.newEdges.Nodup
  fresh : ∀ e ∈ p.newEdges, e ∉ docEdges ∧ e.edgeType = .dependsOn
  ends : p.newEdges.map (fun e => (inDoc e.src, inDoc e.dst)) = p.pending.map fun l => (some l.1, some l.2)

/-- What holds of the turn of an item over some of its needs, from a pass on. -/
structure TurnOk (edges : Edges) (docEdges : List SyncEdge) (inDoc : Text → Option Int) (p : Pass) (localId : Text)
    (src : Int) (needs : List Text) (t : Turn) : Prop where
  pass : PassOk edges docEdges inDoc t.pass
  heals : t.pass.heals = p.heals
  pending : t.pass.pending = p.pending ++ t.link.map (src, ·)
  any : t.resolvedAny = false → t.link = []
  newEdges : p.newEdges ⊆ t.pass.newEdges
  still : t.still.Sublist needs
  kept : ∀ d ∈ needs, d ∈ t.still ∨ dependency localId d ∈ docEdges ++ t.pass.newEdges

/-- Why a need stays parked: it names its own item, or nothing in the document, or its dependency would close a
cycle with what there is. -/
def StaysParked (edges : Edges) (inDoc : Text → Option Int) (localId : Text) (src : Int) (pending : List (Int × Int))
    (dep : Text) : Prop :=
  dep = localId ∨ inDoc dep = none ∨ ∃ dst, inDoc dep = some dst ∧ ReflTransGen (With edges pending) dst src

/-- **Deciding a need** keeps the turn, and a need stays parked only for a reason. -/
theorem TurnOk.resolveNeed {p : Pass} {localId : Text} {src : Int} {needs : List Text} {t : Turn}
    (h : TurnOk edges docEdges inDoc p localId src needs t) (hsrc : inDoc localId = some src) (dep : Text) :
    TurnOk edges docEdges inDoc p localId src (needs ++ [dep]) (resolveNeed edges docEdges inDoc localId src t dep) ∧
      ∀ d ∈ (Needs.resolveNeed edges docEdges inDoc localId src t dep).still,
        d ∈ t.still ∨ (d = dep ∧ StaysParked edges inDoc localId src t.pass.pending dep) := by
  have hparked : ∀ t' : Turn, PassOk edges docEdges inDoc t'.pass → t'.pass.heals = t.pass.heals →
      t'.pass.pending = t.pass.pending → t'.pass.newEdges = t.pass.newEdges → t'.link = t.link →
      t'.resolvedAny = t.resolvedAny → t'.still = t.still ++ [dep] →
        TurnOk edges docEdges inDoc p localId src (needs ++ [dep]) t' := by
    intro t' hpass hheals hpending hnew hlink hany hstill
    refine ⟨hpass, hheals.trans h.heals, by rw [hpending, h.pending, hlink], fun ha => ?_, ?_, ?_, fun d hd => ?_⟩
    · rw [hlink]
      exact h.any (hany ▸ ha)
    · rw [hnew]
      exact h.newEdges
    · rw [hstill]
      exact h.still.append (List.Sublist.refl _)
    · rw [hstill, hnew]
      rcases List.mem_append.mp hd with hd | hd
      · exact (h.kept d hd).imp_left fun h => List.mem_append_left _ h
      · exact Or.inl (List.mem_append_right _ hd)
  have hlast : StaysParked edges inDoc localId src t.pass.pending dep → ∀ d ∈ t.still ++ [dep],
      d ∈ t.still ∨ (d = dep ∧ StaysParked edges inDoc localId src t.pass.pending dep) :=
    fun hwhy d hd => (List.mem_append.mp hd).imp_right fun hd => ⟨List.mem_singleton.mp hd, hwhy⟩
  unfold Needs.resolveNeed
  split
  · rename_i hnone
    refine ⟨hparked _ h.pass rfl rfl rfl rfl rfl rfl, hlast ?_⟩
    by_cases hself : dep = localId
    · exact Or.inl hself
    · cases hdep : inDoc dep with
      | none => exact Or.inr (Or.inl hdep)
      | some dst => simp [hdep, hself] at hnone
  · rename_i dst hsome
    obtain ⟨hdst, -⟩ := Option.filter_eq_some_iff.mp hsome
    split_ifs with hhas hreaches
    · refine ⟨⟨h.pass, h.heals, h.pending, fun hany => (by cases hany), h.newEdges, ?_, fun d hd => ?_⟩,
        fun d hd => Or.inl hd⟩
      · exact h.still.trans (List.sublist_append_left _ _)
      · rcases List.mem_append.mp hd with hd | hd
        · exact h.kept d hd
        · rw [List.mem_singleton.mp hd]
          exact Or.inr (List.mem_append.mpr hhas)
    · exact ⟨hparked _ ⟨h.pass.acyclic, h.pass.nodup, h.pass.fresh, h.pass.ends⟩ rfl rfl rfl rfl rfl rfl,
        hlast (Or.inr (Or.inr ⟨dst, hdst, reaches_eq_true.mp hreaches⟩))⟩
    · rw [not_or] at hhas
      refine ⟨⟨⟨?_, ?_, fun e he => ?_, ?_⟩, h.heals, ?_, fun hany => (by cases hany), ?_, ?_, fun d hd => ?_⟩,
        fun d hd => Or.inl hd⟩
      · exact acyclic_append h.pass.acyclic fun hpath => hreaches (reaches_eq_true.mpr hpath)
      · rw [List.nodup_append]
        refine ⟨h.pass.nodup, List.nodup_singleton _, fun a ha b hb hab => hhas.2 ?_⟩
        rw [← List.mem_singleton.mp hb, ← hab]
        exact ha
      · rcases List.mem_append.mp he with he | he
        · exact h.pass.fresh e he
        · rw [List.mem_singleton.mp he]
          exact ⟨hhas.1, rfl⟩
      · rw [List.map_append, List.map_append, h.pass.ends]
        simp [dependency, hsrc, hdst]
      · simp [h.pending]
      · exact fun e he => List.mem_append_left _ (h.newEdges he)
      · exact h.still.trans (List.sublist_append_left _ _)
      · rcases List.mem_append.mp hd with hd | hd
        · refine (h.kept d hd).imp_right fun h => ?_
          rw [← List.append_assoc]
          exact List.mem_append_left _ h
        · rw [List.mem_singleton.mp hd]
          exact Or.inr (by simp)

/-- The turn of an item, before any of its needs. -/
theorem TurnOk.start {p : Pass} (h : PassOk edges docEdges inDoc p) (localId : Text) (src : Int) :
    TurnOk edges docEdges inDoc p localId src [] { pass := p } :=
  ⟨h, rfl, by simp, fun _ => rfl, fun _ h => h, List.Sublist.refl _, nofun⟩

/-- Needs are resolved one after another. -/
theorem turn_append (p : Pass) (localId : Text) (src : Int) (ds : List Text) (d : Text) :
    turn edges docEdges inDoc p localId src (ds ++ [d]) =
      resolveNeed edges docEdges inDoc localId src (turn edges docEdges inDoc p localId src ds) d :=
  List.foldl_append

/-- **The turn of an item** over all its needs, and why those that it leaves stay parked. -/
theorem TurnOk.turn {p : Pass} (h : PassOk edges docEdges inDoc p) {localId : Text} {src : Int}
    (hsrc : inDoc localId = some src) (needs : List Text) :
    TurnOk edges docEdges inDoc p localId src needs (turn edges docEdges inDoc p localId src needs) ∧
      ∀ d ∈ (Needs.turn edges docEdges inDoc p localId src needs).still, ∃ ds es, needs = ds ++ d :: es ∧
        StaysParked edges inDoc localId src (Needs.turn edges docEdges inDoc p localId src ds).pass.pending d := by
  induction needs using List.reverseRecOn with
  | nil => exact ⟨.start h localId src, nofun⟩
  | append_singleton needs dep ih =>
      obtain ⟨hturn, hwhy⟩ := ih
      obtain ⟨hnext, hstill⟩ := hturn.resolveNeed hsrc dep
      rw [turn_append]
      refine ⟨hnext, fun d hd => ?_⟩
      rcases hstill d hd with hd | ⟨rfl, hpark⟩
      · obtain ⟨ds, es, rfl, hpark⟩ := hwhy d hd
        exact ⟨ds, es ++ [dep], by simp, hpark⟩
      · exact ⟨needs, [], rfl, hpark⟩

end Turns

/-! ## the pass over the items -/

section Items

variable {edges : Edges} {docEdges : List SyncEdge} {inDoc : Text → Option Int}

/-- What holds of a pass where an item is done: its links are those of what it records, each item of which had
parked needs. -/
structure Settled (edges : Edges) (docEdges : List SyncEdge) (inDoc : Text → Option Int) (seen : List SyncItem)
    (p : Pass) : Prop where
  pass : PassOk edges docEdges inDoc p
  pending : p.pending = links p.heals
  heals : ∀ heal ∈ p.heals, ∃ item ∈ seen, item.unresolvedNeeds ≠ [] ∧ inDoc item.localId = some heal.item

/-- What becomes of an item: a need that does not stay parked is a dependency, and the rest is left alone. -/
def Decided (edges : List SyncEdge) (item item' : SyncItem) : Prop :=
  item' = { item with unresolvedNeeds := item'.unresolvedNeeds } ∧
    item'.unresolvedNeeds.Sublist item.unresolvedNeeds ∧
    ∀ d ∈ item.unresolvedNeeds, d ∈ item'.unresolvedNeeds ∨ dependency item.localId d ∈ edges

/-- What is decided stays so when the document has more edges. -/
theorem Decided.mono {es es' : List SyncEdge} {item item' : SyncItem} (h : Decided es item item') (hle : es ⊆ es') :
    Decided es' item item' :=
  ⟨h.1, h.2.1, fun d hd => (h.2.2 d hd).imp_right fun h => hle h⟩

/-- An item whose needs are left is decided. -/
theorem Decided.refl (es : List SyncEdge) (item : SyncItem) : Decided es item item :=
  ⟨rfl, List.Sublist.refl _, fun _ hd => Or.inl hd⟩

/-- The links of heals, one after another. -/
theorem links_append (heals : List ResolvedNeeds) (heal : ResolvedNeeds) :
    links (heals ++ [heal]) = links heals ++ heal.link.map (heal.item, ·) := by
  simp [links]

/-- **Resolving an item** keeps the pass settled. -/
theorem Settled.resolveItem {seen : List SyncItem} {p : Pass} (h : Settled edges docEdges inDoc seen p)
    (item : SyncItem) :
    let r := resolveItem edges docEdges inDoc p item
    Settled edges docEdges inDoc (seen ++ [item]) r.1 ∧ p.newEdges ⊆ r.1.newEdges ∧
      Decided (docEdges ++ r.1.newEdges) item r.2 ∧
      ∀ src, inDoc item.localId = some src → ∀ d ∈ r.2.unresolvedNeeds, ∃ ds es, item.unresolvedNeeds = ds ++ d :: es ∧
        StaysParked edges inDoc item.localId src (turn edges docEdges inDoc p item.localId src ds).pass.pending d := by
  have hseen : ∀ heal ∈ p.heals, ∃ i ∈ seen ++ [item], i.unresolvedNeeds ≠ [] ∧ inDoc i.localId = some heal.item :=
    fun heal hheal => (h.heals heal hheal).imp fun i hi => ⟨List.mem_append_left _ hi.1, hi.2⟩
  simp only [Needs.resolveItem]
  split_ifs with hnone
  · exact ⟨⟨h.pass, h.pending, hseen⟩, fun _ he => he, .refl _ _, fun _ _ d hd => by simp [hnone] at hd⟩
  · cases hsrc : inDoc item.localId with
    | none => exact ⟨⟨h.pass, h.pending, hseen⟩, fun _ he => he, .refl _ _, fun _ hsome => (by cases hsome)⟩
    | some src =>
        obtain ⟨hturn, hwhy⟩ := TurnOk.turn h.pass hsrc item.unresolvedNeeds
        have hwhy' : ∀ src', some src = some src' → ∀ d ∈ (turn edges docEdges inDoc p item.localId src
            item.unresolvedNeeds).still, ∃ ds es, item.unresolvedNeeds = ds ++ d :: es ∧ StaysParked edges inDoc
              item.localId src' (turn edges docEdges inDoc p item.localId src' ds).pass.pending d := by
          rintro _ ⟨rfl⟩
          exact hwhy
        dsimp only
        cases hany : (turn edges docEdges inDoc p item.localId src item.unresolvedNeeds).resolvedAny with
        | false =>
            refine ⟨⟨hturn.pass, ?_, ?_⟩, hturn.newEdges, ⟨rfl, hturn.still, hturn.kept⟩, hwhy'⟩
            · rw [if_neg Bool.false_ne_true, hturn.pending, hturn.any hany, hturn.heals, h.pending]
              exact List.append_nil _
            · rw [if_neg Bool.false_ne_true, hturn.heals]
              exact hseen
        | true =>
            refine ⟨⟨⟨hturn.pass.acyclic, hturn.pass.nodup, hturn.pass.fresh, hturn.pass.ends⟩, ?_, ?_⟩,
              hturn.newEdges, ⟨rfl, hturn.still, hturn.kept⟩, hwhy'⟩
            · rw [if_pos rfl, links_append, hturn.heals, ← h.pending]
              exact hturn.pending
            · intro heal hheal
              rw [if_pos rfl] at hheal
              rcases List.mem_append.mp hheal with hheal | hheal
              · exact hseen heal (hturn.heals ▸ hheal)
              · rw [List.mem_singleton.mp hheal]
                exact ⟨item, by simp, hnone, hsrc⟩

/-- **Resolving the items**, one after the other. -/
theorem Settled.resolveItems {seen : List SyncItem} {p : Pass} (h : Settled edges docEdges inDoc seen p)
    (items : List SyncItem) :
    let r := resolveItems edges docEdges inDoc p items
    Settled edges docEdges inDoc (seen ++ items) r.1 ∧ p.newEdges ⊆ r.1.newEdges ∧
      List.Forall₂ (Decided (docEdges ++ r.1.newEdges)) items r.2 := by
  induction items generalizing seen p with
  | nil =>
      refine ⟨?_, fun _ he => he, .nil⟩
      rw [List.append_nil]
      exact h
  | cons item items ih =>
      obtain ⟨hitem, hnew, hdecided, -⟩ := h.resolveItem item
      obtain ⟨hrest, hmore, hforall⟩ := ih hitem
      rw [List.append_assoc] at hrest
      refine ⟨hrest, fun e he => hmore (hnew he), .cons (hdecided.mono fun e he => ?_) hforall⟩
      rw [List.mem_append] at he ⊢
      exact he.imp_right fun he => hmore he

/-- Items are resolved one after another. -/
theorem resolveItems_append (p : Pass) (xs ys : List SyncItem) :
    (resolveItems edges docEdges inDoc p (xs ++ ys)).2 =
      (resolveItems edges docEdges inDoc p xs).2 ++
        (resolveItems edges docEdges inDoc (resolveItems edges docEdges inDoc p xs).1 ys).2 := by
  induction xs generalizing p with
  | nil => rfl
  | cons x xs ih => exact congrArg (_ :: ·) (ih _)

end Items

/-! ## the record -/

/-- What a record has done: some links are dependencies now, and an item that could be read still can. -/
structure Recorded (s s' : Store) (ls : List (Int × Int)) : Prop where
  items : s'.items = s.items
  arcs : ∀ ty a b, s'.edges.Arc ty a b ↔ s.edges.Arc ty a b ∨ ((a, b) ∈ ls ∧ ty = .dependsOn)
  readable : ∀ i needs, s.needs i = .ok needs → ∃ needs', s'.needs i = .ok needs'

/-- Where nothing is recorded, the store is as it was. -/
theorem Recorded.refl (s : Store) : Recorded s s [] := ⟨rfl, by simp, fun _ needs h => ⟨needs, h⟩⟩

/-- What is recorded twice, one after the other. -/
theorem Recorded.trans {s s' s'' : Store} {ls ls' : List (Int × Int)} (h : Recorded s s' ls)
    (h' : Recorded s' s'' ls') : Recorded s s'' (ls ++ ls') := by
  refine ⟨h'.items.trans h.items, fun ty a b => ?_, fun i needs hneeds => ?_⟩
  · rw [h'.arcs, h.arcs, List.mem_append]
    tauto
  · obtain ⟨needs', hneeds'⟩ := h.readable i needs hneeds
    exact h'.readable i needs' hneeds'

/-- What is recorded is not pending any more. -/
theorem Recorded.acyclic {s s' : Store} {ls rest : List (Int × Int)} (h : Recorded s s' ls)
    (hac : Acyclic (With s.edges (ls ++ rest))) : Acyclic (With s'.edges rest) := by
  refine hac.mono fun a b hab => ?_
  rw [With, h.arcs] at hab
  rw [With, List.mem_append]
  tauto

/-- A record of several steps, each of which succeeds where its links close no cycle. -/
theorem exists_record {γ : Type} (f : Store → γ → Except Fmt Store) (ls : γ → List (Int × Int))
    (ready : Store → γ → Prop) (hkeep : ∀ s s' done x, Recorded s s' done → ready s x → ready s' x)
    (hstep : ∀ s x, ready s x → Acyclic (With s.edges (ls x)) → ∃ s', f s x = .ok s' ∧ Recorded s s' (ls x))
    (xs : List γ) (s : Store) (hready : ∀ x ∈ xs, ready s x) (hac : Acyclic (With s.edges (xs.flatMap ls))) :
    ∃ s', xs.foldlM f s = .ok s' ∧ Recorded s s' (xs.flatMap ls) := by
  induction xs generalizing s with
  | nil => exact ⟨s, rfl, .refl s⟩
  | cons x xs ih =>
      obtain ⟨hx, hxs⟩ := List.forall_mem_cons.mp hready
      rw [List.flatMap_cons] at hac ⊢
      obtain ⟨s₁, hs₁, hdone⟩ := hstep s x hx (hac.mono fun a b => Or.imp_right (List.mem_append_left _))
      obtain ⟨s₂, hs₂, hrest⟩ := ih s₁ (fun y hy => hkeep s s₁ _ y hdone (hxs y hy)) (hdone.acyclic hac)
      rw [List.foldlM_cons]
      exact ⟨s₂, bind_eq_ok.mpr ⟨s₁, hs₁, hs₂⟩, hdone.trans hrest⟩

/-- **A link that closes no cycle is recorded.** -/
theorem exists_recordLink {s : Store} {src dst : Int} (hsrc : (s.items.find? src).isSome = true)
    (hdst : (s.items.find? dst).isSome = true) (hac : Acyclic (With s.edges [(src, dst)])) :
    ∃ s', recordLink s src dst = .ok s' ∧ Recorded s s' [(src, dst)] := by
  have hcycle : s.edges.closesCycle src dst .dependsOn = false := by
    refine Bool.eq_false_iff.mpr fun hcreates => ?_
    have hlink : With s.edges [(src, dst)] src dst := Or.inr List.mem_cons_self
    rcases Edges.createsCycle_eq_true.mp hcreates with rfl | hback
    · exact hac src (.single hlink)
    · exact hac src (.head hlink (TransGen.mono (fun _ _ => Or.inl) _ _ hback))
  refine ⟨{ s with edges := (s.edges.put src dst .dependsOn Subtask.noProps none).1 }, ?_, rfl, ?_,
    fun _ needs h => ⟨needs, h⟩⟩
  · rw [recordLink, link_of_closesCycle _ hcycle hsrc hdst]
    rfl
  · intro ty a b
    rw [Edges.arc_put]
    simp [and_assoc]

/-- The needs of an item can be written. -/
theorem exists_setUnresolvedNeeds {s : Store} {item : Int} {now : List Text} (h : s.needs item = .ok now)
    (needs : List Text) : ∃ s', setUnresolvedNeeds s item needs = .ok s' ∧ Recorded s s' [] := by
  rw [setUnresolvedNeeds, h, Except.map]
  refine ⟨_, rfl, ?_⟩
  split_ifs with hsame
  · exact .refl s
  · refine ⟨rfl, by simp, fun i needs' hi => ?_⟩
    by_cases hitem : i = item
    · exact ⟨needs, by simp [hitem]⟩
    · exact ⟨needs', by simp [hitem, hi]⟩

/-- What recording an item's links asks for: the items are there, and the parked needs can be read. -/
def Ready (s : Store) (heal : ResolvedNeeds) : Prop :=
  (s.items.find? heal.item).isSome = true ∧ (∀ dst ∈ heal.link, (s.items.find? dst).isSome = true) ∧
    ∃ needs, s.needs heal.item = .ok needs

/-- **What is resolved of an item is recorded.** -/
theorem exists_recordHeal {s : Store} {heal : ResolvedNeeds} (h : Ready s heal)
    (hac : Acyclic (With s.edges (heal.link.map (heal.item, ·)))) :
    ∃ s', recordHeal s heal = .ok s' ∧ Recorded s s' (heal.link.map (heal.item, ·)) := by
  obtain ⟨hitem, hlink, needs, hneeds⟩ := h
  have hls : heal.link.flatMap (fun dst => [(heal.item, dst)]) = heal.link.map (heal.item, ·) := by
    induction heal.link with
    | nil => rfl
    | cons _ _ ih => simp [ih]
  rw [← hls] at hac ⊢
  obtain ⟨s₁, hs₁, hlinked⟩ := exists_record (fun s dst => recordLink s heal.item dst) _
    (fun s dst => (s.items.find? heal.item).isSome = true ∧ (s.items.find? dst).isSome = true)
    (fun s s' done x hdone => by rw [hdone.items]; exact id)
    (fun s dst hready => exists_recordLink hready.1 hready.2) heal.link s
    (fun dst hdst => ⟨hitem, hlink dst hdst⟩) hac
  obtain ⟨needs', hneeds'⟩ := hlinked.readable _ _ hneeds
  obtain ⟨s₂, hs₂, hset⟩ := exists_setUnresolvedNeeds hneeds' heal.stillParked
  refine ⟨s₂, bind_eq_ok.mpr ⟨s₁, hs₁, hs₂⟩, ?_⟩
  have hdone := hlinked.trans hset
  rw [List.append_nil] at hdone
  exact hdone

/-- **What is resolved is recorded**, where it closes no cycle. -/
theorem exists_recordResolvedNeeds {s : Store} {heals : List ResolvedNeeds} (h : ∀ heal ∈ heals, Ready s heal)
    (hac : Acyclic (With s.edges (links heals))) :
    ∃ s', recordResolvedNeeds s heals = .ok s' ∧ Recorded s s' (links heals) := by
  refine exists_record recordHeal (fun heal => heal.link.map (heal.item, ·)) Ready
    (fun s s' done heal hdone hready => ⟨?_, ?_, ?_⟩) (fun s heal => exists_recordHeal) heals s h hac
  · exact hdone.items ▸ hready.1
  · exact hdone.items ▸ hready.2.1
  · obtain ⟨needs, hneeds⟩ := hready.2.2
    exact hdone.readable _ _ hneeds

/-! ## parked needs -/

/-- What a document that is put together from the store promises: `inDoc` gives each of its items an item of the
store, and an item with parked needs is one whose `metadata` can be read. -/
structure Assembled (s : Store) (inDoc : Text → Option Int) (doc : SyncDoc) : Prop where
  mem : ∀ l, (inDoc l).isSome = true ↔ l ∈ doc.ids
  row : ∀ l id, inDoc l = some id → (s.items.find? id).isSome = true
  read : ∀ item ∈ doc.items, item.unresolvedNeeds ≠ [] → ∀ id, inDoc item.localId = some id →
    ∃ needs, s.needs id = .ok needs

/-- What resolving a document's parked needs comes to. -/
structure Resolves (s : Store) (inDoc : Text → Option Int) (doc doc' : SyncDoc) (p : Pass) : Prop where
  /-- No need closes a cycle. -/
  acyclic : Acyclic (With s.edges (links p.heals))
  /-- So what is resolved is recorded. -/
  recorded : ∃ s', recordResolvedNeeds s p.heals = .ok s' ∧ Recorded s s' (links p.heals)
  /-- No need is lost, and no item is changed elsewhere. -/
  items : List.Forall₂ (Decided doc'.edges) doc.items doc'.items
  /-- The document has the new dependencies, and is as it was elsewhere. -/
  rest : doc' = { doc with items := doc'.items, edges := doc.edges ++ p.newEdges }
  /-- A dependency is new once, -/
  nodup : p.newEdges.Nodup
  /-- and was not there before. -/
  fresh : ∀ e ∈ p.newEdges, e ∉ doc.edges ∧ e.edgeType = .dependsOn
  /-- The new dependencies are the links. -/
  ends : p.newEdges.map (fun e => (inDoc e.src, inDoc e.dst)) = (links p.heals).map fun l => (some l.1, some l.2)
  /-- A need that stays parked names its own item, or no item of the document, or something that depends on its
  item already, by the store or by what was resolved before. -/
  parked : ∀ before item after item', doc.items = before ++ item :: after →
    doc'.items[before.length]? = some item' → ∀ d ∈ item'.unresolvedNeeds, ∃ ds es src,
      item.unresolvedNeeds = ds ++ d :: es ∧ inDoc item.localId = some src ∧
        (d = item.localId ∨ d ∉ doc.ids ∨ ∃ dst, inDoc d = some dst ∧ ReflTransGen (With s.edges
          (turn s.edges doc.edges inDoc (resolveItems s.edges doc.edges inDoc {} before).1 item.localId src
            ds).pass.pending) dst src)

section Spec

variable {s : Store} {inDoc : Text → Option Int} {doc : SyncDoc}

/-- A pass starts with nothing decided. -/
theorem Settled.start (docEdges : List SyncEdge) (inDoc : Text → Option Int)
    (hac : Acyclic (s.edges.Arc .dependsOn)) : Settled s.edges docEdges inDoc [] {} := by
  refine ⟨⟨hac.mono fun a b hab => ?_, List.nodup_nil, nofun, rfl⟩, rfl, nofun⟩
  simpa [With] using hab

/-- What a pass over a document's items records is ready to be. -/
theorem Assembled.ready (ha : Assembled s inDoc doc) {p : Pass} (hp : Settled s.edges doc.edges inDoc doc.items p) :
    ∀ heal ∈ p.heals, Ready s heal := by
  intro heal hheal
  obtain ⟨item, hitem, hneeds, hsrc⟩ := hp.heals heal hheal
  refine ⟨ha.row _ _ hsrc, fun dst hdst => ?_, ha.read item hitem hneeds _ hsrc⟩
  have hlink : (heal.item, dst) ∈ p.pending := by
    rw [hp.pending]
    exact List.mem_flatMap.mpr ⟨heal, hheal, List.mem_map_of_mem hdst⟩
  have hend : (some heal.item, some dst) ∈ p.newEdges.map fun e => (inDoc e.src, inDoc e.dst) := by
    rw [hp.pass.ends]
    exact List.mem_map_of_mem (f := fun l : Int × Int => (some l.1, some l.2)) hlink
  obtain ⟨e, -, he⟩ := List.mem_map.mp hend
  exact ha.row _ _ (congrArg Prod.snd he)

/-- **Parked needs** are resolved without a cycle, and none is lost. -/
theorem resolveParkedNeeds_spec (hac : Acyclic (s.edges.Arc .dependsOn)) (ha : Assembled s inDoc doc) :
    Resolves s inDoc doc (resolveParkedNeeds s.edges inDoc doc).2 (resolveParkedNeeds s.edges inDoc doc).1 := by
  obtain ⟨hp, -, hdecided⟩ := (Settled.start doc.edges inDoc hac).resolveItems doc.items
  have hacyclic := hp.pass.acyclic
  have hends := hp.pass.ends
  rw [hp.pending] at hacyclic hends
  refine ⟨hacyclic, exists_recordResolvedNeeds (ha.ready hp) hacyclic, hdecided, rfl, hp.pass.nodup, hp.pass.fresh,
    hends, fun before item after item' hitems hitem' d hd => ?_⟩
  obtain ⟨src, hsrc⟩ := Option.isSome_iff_exists.mp ((ha.mem item.localId).mpr
    (List.mem_map_of_mem (hitems ▸ List.mem_append_right _ List.mem_cons_self)))
  obtain ⟨hbefore, -, hforall⟩ := (Settled.start doc.edges inDoc hac).resolveItems before
  obtain ⟨-, -, -, hwhy⟩ := hbefore.resolveItem item
  have hat : (resolveItem s.edges doc.edges inDoc (resolveItems s.edges doc.edges inDoc {} before).1 item).2 =
      item' := by
    rw [resolveParkedNeeds, hitems] at hitem'
    simp only [resolveItems_append, hforall.length_eq, List.getElem?_append_right le_rfl, Nat.sub_self] at hitem'
    exact Option.some.inj hitem'
  rw [← hat] at hd
  obtain ⟨ds, es, hneeds, hpark⟩ := hwhy src hsrc d hd
  refine ⟨ds, es, src, hneeds, hsrc, hpark.imp_right (Or.imp_left fun hnone hmem => ?_)⟩
  rw [← ha.mem, hnone] at hmem
  exact Bool.false_ne_true hmem

end Spec

section Mutual

/-- Two tasks with no dependencies. -/
def twoTasks : Store where
  items := ⟨[⟨1, "a".toList, "task".toList⟩, ⟨2, "b".toList, "task".toList⟩], by decide⟩
  edges := .empty
  needs := fun _ => .ok []

/-- The items of a file that names both. -/
def inTwoTasks (l : Text) : Option Int := if l = "a".toList then some 1 else if l = "b".toList then some 2 else none

/-- Two lines that name each other, one of them twice, and themselves, and a task that is not there. -/
def mutualNeeds : SyncDoc where
  items := [
    { localId := "a".toList, kind := "task", content := [], unresolvedNeeds := ["b".toList, "a".toList, "b".toList] },
    { localId := "b".toList, kind := "task", content := [], unresolvedNeeds := ["a".toList, "ghost".toList] }]

/-- Of two needs that would make a cycle, one stays parked. -/
theorem resolveParkedNeeds_spec_mutual :
    Resolves twoTasks inTwoTasks mutualNeeds (resolveParkedNeeds twoTasks.edges inTwoTasks mutualNeeds).2
      (resolveParkedNeeds twoTasks.edges inTwoTasks mutualNeeds).1 := by
  refine resolveParkedNeeds_spec ?_ ⟨fun l => ?_, fun l id hid => ?_, fun _ _ _ id _ => ⟨[], rfl⟩⟩
  · exact acyclic_of_rank (fun _ => 0) fun a b ⟨_, he, _⟩ => absurd he List.not_mem_nil
  · simp only [inTwoTasks, SyncDoc.ids, mutualNeeds, List.map_cons, List.map_nil, List.mem_cons, List.not_mem_nil,
      or_false]
    split_ifs <;> simp_all
  · simp only [inTwoTasks] at hid
    split_ifs at hid
    · obtain rfl := Option.some.inj hid
      rfl
    · obtain rfl := Option.some.inj hid
      rfl

end Mutual

end Jkb.Sync.Needs
