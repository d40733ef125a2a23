import Jkb.Core.Timeline

/-!
# Jkb.Core.Timeline.Paging

Following a session's pages reads its timeline. The test in a query lets every row of the session through, so that a
log's read is the front of what the log has for the session after the cursor, with rows of others in between; what
comes up to the least last row of a full read is all there, and the page stops at it.
-/

namespace Jkb.Timeline

open Jkb.Text Jkb.Tx Jkb.Pages

/-! ## what the test in a query lets through -/

section Mine

variable {s : Store} {session : Text}

/-- An agent speaks for the sessions that it is bound to. -/
theorem mem_speaksFor_agent {bindings : Bindings} {agent : Text} :
    session ∈ bindings.speaksFor (.agent agent) ↔
      ∃ b ∈ bindings.rows, b.session = session ∧ b.agentId = agent := by
  simp only [Bindings.speaksFor, List.mem_dedup, List.mem_map, List.mem_filter, decide_eq_true_eq]
  constructor
  · rintro ⟨b, ⟨hb, hagent⟩, hsession⟩
    exact ⟨b, hb, hsession, hagent⟩
  · rintro ⟨b, hb, hsession, hagent⟩
    exact ⟨b, ⟨hb, hagent⟩, hsession⟩

/-- What opened a session stands after the first `@` of its opener. -/
theorem opener_of_parseOpener {opener : Text} {pid : Nat}
    (h : AgentId.parseOpener opener = some (pid, some session)) :
    ∃ p, opener = p ++ '@' :: session := by
  cases hs : splitOnce '@' opener with
  | none =>
      simp only [AgentId.parseOpener, hs] at h
      split at h
      · simp at h
      · cases h
  | some p =>
      simp only [AgentId.parseOpener, hs] at h
      split at h
      · split_ifs at h
        obtain ⟨-, hby⟩ := Prod.mk.inj (Option.some.inj h)
        exact ⟨p.1, by rw [eq_of_splitOnce hs, Option.some.inj hby]⟩
      · cases h

/-- What a claimant that a session is read from looks like. -/
theorem raw_of_claimant_session {raw : Text} (h : claimant raw = .session session) :
    ∃ p w, raw = "session:".toList ++ (p ++ ('@' :: (session ++ [':'])) ++ w) := by
  unfold claimant at h
  rcases AgentId.parse_cases raw with ⟨pid, openedBy, opener, w, hparse, hopener, hraw⟩ | ⟨id, hparse, -⟩ |
    ⟨host, pid, run, hparse⟩ | hparse <;> rw [hparse] at h
  · cases openedBy with
    | none => cases h
    | some t =>
        obtain rfl : t = session := Who.session.inj h
        obtain ⟨p, rfl⟩ := opener_of_parseOpener hopener
        have hhost : "session:".toList = AgentId.sessionHost ++ [':'] := rfl
        exact ⟨p, w, by simp only [hraw, hhost, List.append_assoc, List.cons_append, List.nil_append]⟩
  · cases h
  · cases h
  · cases h

/-- What a claimant that an agent is read from looks like. -/
theorem raw_of_claimant_agent {raw agent : Text} (h : claimant raw = .agent agent) :
    "agent:".toList ++ agent = raw := by
  unfold claimant at h
  rcases AgentId.parse_cases raw with ⟨pid, openedBy, opener, w, hparse, -, -⟩ | ⟨id, hparse, hraw⟩ |
    ⟨host, pid, run, hparse⟩ | hparse <;> rw [hparse] at h
  · cases openedBy <;> cases h
  · obtain rfl : id = agent := Who.agent.inj h
    exact hraw.symm
  · cases h
  · cases h

/-- **The test on a claimant column** passes what a claimant speaks for. -/
theorem mineClaimant_of_mem {raw : Text} (h : session ∈ s.bindings.speaksFor (claimant raw)) :
    mineClaimant s session (some raw) = true := by
  rw [mineClaimant, Option.any_some, Bool.or_eq_true]
  cases hwho : claimant raw with
  | session t =>
      rw [hwho, Bindings.speaksFor, List.mem_singleton] at h
      subst h
      obtain ⟨p, w, rfl⟩ := raw_of_claimant_session hwho
      left
      rw [Bool.and_eq_true, decide_eq_true_eq]
      constructor
      · rw [likeSession, List.take_left' (by decide)]
        decide
      · exact ⟨"session:".toList ++ p, w, by rw [List.append_assoc, List.append_assoc, List.append_assoc]⟩
  | agent a =>
      rw [hwho, mem_speaksFor_agent] at h
      obtain ⟨b, hb, hsession, rfl⟩ := h
      right
      rw [List.any_eq_true]
      refine ⟨b, hb, (Bool.and_eq_true _ _).mpr ⟨decide_eq_true hsession, decide_eq_true ?_⟩⟩
      exact raw_of_claimant_agent hwho
  | nobody =>
      rw [hwho] at h
      cases h

/-- **The test on a principal column** passes what a principal speaks for. -/
theorem minePrincipal_of_mem {actor : Text} (h : session ∈ s.bindings.speaksFor (principal actor)) :
    minePrincipal s session (some actor) = true := by
  rw [minePrincipal, Option.any_some, Bool.or_eq_true, decide_eq_true_eq]
  unfold principal at h
  cases hstrip : stripPrefix "session:".toList actor with
  | some t =>
      rw [hstrip] at h
      simp only at h
      split_ifs at h with hid
      · rw [Bindings.speaksFor, List.mem_singleton] at h
        rw [h]
        exact Or.inl (stripPrefix_eq_some.mp hstrip)
      · cases h
  | none =>
      rw [hstrip] at h
      cases hsplit : splitOnce '@' actor with
      | none => rw [hsplit] at h; cases h
      | some p =>
          rw [hsplit] at h
          simp only at h
          split_ifs at h with hne
          · obtain ⟨b, hb, hsession, hagent⟩ := mem_speaksFor_agent.mp h
            right
            rw [Option.any_some, List.any_eq_true]
            exact ⟨b, hb, by simp [hsession, hagent]⟩
          · cases h

/-- A source that is a log, which a query reads. -/
def Source.logged : Source → Bool
  | .status | .workflow | .review => true
  | .session | .claim => false

/-- **The session test of a source lets through every row of the session.** -/
theorem mine_of_speaksFor {source : Source} (hlogged : source.logged) {actor : Text}
    (h : session ∈ speaksFor s.bindings source actor) : mine s session source (some actor) = true := by
  cases source with
  | session => cases hlogged
  | claim => cases hlogged
  | status => exact mineClaimant_of_mem h
  | workflow => exact minePrincipal_of_mem h
  | review => exact minePrincipal_of_mem h

end Mine

/-! ## what a log's query reads -/

section Read

variable {R : Type} {log : Log R}

/-- What a log holds: an event for each of its rows that has a time. -/
def Log.events (log : Log R) : List Event := log.rows.filterMap fun r => (log.at_ r).map fun a => log.event a r

/-- The rows of a log have ids of their own, and an event says its row's time, id and actor. -/
structure Log.Lawful (log : Log R) : Prop where
  key : ∀ a r, (log.event a r).key = toLex (a, toLex (log.source, log.id r))
  actor : ∀ a r, (log.event a r).actor = log.actor r
  nodup : (log.rows.map log.id).Nodup

/-- Sources are ordered by their ranks. -/
theorem Source.lt_iff {a b : Source} : a < b ↔ a.rank < b.rank := Iff.rfl

/-- No two sources have one rank. -/
theorem Source.rank_eq_iff {a b : Source} : a.rank = b.rank ↔ a = b := Source.rank_injective.eq_iff

/-- A key comes before another by the time, then the source, then the id. -/
theorem lt_key {c : Key} {a : Int} {source : Source} {i : Int} :
    c < toLex (a, toLex (source, i)) ↔
      c.at_ < a ∨ (a = c.at_ ∧ (c.source.rank < source.rank ∨ (source.rank = c.source.rank ∧ c.id < i))) := by
  rw [Prod.Lex.lt_iff, Prod.Lex.lt_iff, Source.lt_iff, Source.rank_eq_iff]
  exact or_congr Iff.rfl (and_congr eq_comm (or_congr Iff.rfl (and_congr eq_comm Iff.rfl)))

/-- Keys of one source are ordered by the time, then the id. -/
theorem key_le_key {a b : Int} {source : Source} {i j : Int} :
    (toLex (a, toLex (source, i)) : Key) ≤ toLex (b, toLex (source, j)) ↔ a < b ∨ (a = b ∧ i ≤ j) := by
  rw [Prod.Lex.toLex_le_toLex, Prod.Lex.toLex_le_toLex]
  simp

/-- Events in timeline order. -/
def sorted (events : List Event) : List Event := events.insertionSort fun a b => a.key ≤ b.key

instance : IsTrans Event fun a b => a.key ≤ b.key := ⟨fun _ _ _ => le_trans⟩

instance : Std.Total fun a b : Event => a.key ≤ b.key := ⟨fun a b => le_total a.key b.key⟩

/-- Selecting of events with keys of their own is selecting of them in order. -/
theorem sorted_filter {events : List Event} (h : (events.map Event.key).Nodup) (p : Event → Bool) :
    sorted (events.filter p) = (sorted events).filter p :=
  filter_insertionSort (fun _ ha _ hb hab hba => List.inj_on_of_nodup_map h ha hb (le_antisymm hab hba)) p

/-- Events with different keys are sorted strictly. -/
theorem sorted_pairwise {events : List Event} (h : (events.map Event.key).Nodup) :
    (sorted events).Pairwise fun a b => a.key < b.key := by
  have hle : (sorted events).Pairwise fun a b => a.key ≤ b.key := List.pairwise_insertionSort _ _
  have hne : (sorted events).Pairwise fun a b => a.key ≠ b.key :=
    List.pairwise_map.mp ((((List.perm_insertionSort _ events).map Event.key).nodup_iff).mpr h)
  exact hle.imp₂ (fun _ _ => lt_of_le_of_ne) hne

/-- Sorting leaves the events. -/
theorem mem_sorted {events : List Event} {e : Event} : e ∈ sorted events ↔ e ∈ events :=
  List.mem_insertionSort _

namespace Log.Lawful

/-- The events of a log come from its source. -/
theorem source_of_mem (h : log.Lawful) {e : Event} (he : e ∈ log.events) : e.source = log.source := by
  obtain ⟨r, -, hr⟩ := List.mem_filterMap.mp he
  obtain ⟨a, -, rfl⟩ := Option.map_eq_some_iff.mp hr
  exact congrArg (fun k : Key => k.source) (h.key a r)

/-- No two events of a lawful log have one key. -/
theorem nodup_keys (h : log.Lawful) : (log.events.map Event.key).Nodup := by
  refine List.pairwise_map.mpr (List.Pairwise.filterMap _ ?_ (List.pairwise_map.mp h.nodup))
  intro r r' hne e he e' he' hkey
  obtain ⟨a, -, rfl⟩ := Option.map_eq_some_iff.mp he
  obtain ⟨a', -, rfl⟩ := Option.map_eq_some_iff.mp he'
  rw [h.key, h.key] at hkey
  exact hne (congrArg (fun k : Key => k.id) hkey)

end Log.Lawful

/-- What a log has for a session's query, in order. -/
def Log.mine (log : Log R) (s : Store) (session : Text) : List Event :=
  sorted (log.events.filter fun e => Timeline.mine s session log.source e.actor)

/-- **A query reads the front** of what its log has for the session after the cursor. -/
theorem Log.Lawful.read_eq (h : log.Lawful) (s : Store) (session : Text) (after : Option Key) (limit : Nat) :
    log.read s session after limit = (rest (· < ·) Event.key (log.mine s session) after).take limit := by
  have hrows : ((log.rows.filter fun r => Timeline.mine s session log.source (log.actor r)).filterMap fun r =>
      (log.at_ r).map (·, r)).map (fun p => log.event p.1 p.2) =
      log.events.filter fun e => Timeline.mine s session log.source e.actor := by
    rw [Log.events, List.map_filterMap, List.filterMap_filter, List.filter_filterMap]
    refine List.filterMap_congr fun r _ => ?_
    cases log.at_ r with
    | none => simp
    | some a => simp [h.actor, Option.filter_some]
  have hafter : ∀ es : List Event,
      (es.filter fun e => after.all (· < e.key)) = rest (· < ·) Event.key es after := by
    intro es
    cases after with
    | none => simp [rest]
    | some k => simp [rest]
  have hnodup : ((log.events.filter fun e => Timeline.mine s session log.source e.actor).map Event.key).Nodup :=
    h.nodup_keys.sublist (List.filter_sublist.map _)
  have hsort : ∀ ps : List (Int × R), ((ps.insertionSort fun p q =>
      p.1 < q.1 ∨ (p.1 = q.1 ∧ log.id p.2 ≤ log.id q.2)).map fun p => log.event p.1 p.2) =
      sorted (ps.map fun p => log.event p.1 p.2) := by
    intro ps
    refine List.map_insertionSort _ _ _ _ fun p _ q _ => ?_
    rw [h.key, h.key, key_le_key]
  rw [Log.read, List.map_take, hsort, Log.mine, ← hafter, ← sorted_filter hnodup, ← hrows, List.filter_map]
  congr 4
  funext p
  refine congrArg (fun f => Option.all f after) (funext fun c => ?_)
  rw [h.key]
  exact decide_eq_decide.mpr lt_key.symm

end Read

/-! ## the timeline -/

section Timeline

variable (lib : Ext) (s : Store) (session : Text)

/-- Rows with ids of their own, joined with their items, have ids of their own. -/
theorem nodup_join {R : Type} {rows : List R} {itemId id : R → Int} (h : (rows.map id).Nodup) :
    ((join s rows itemId).map fun r => id r.1).Nodup := by
  refine List.pairwise_map.mpr (List.Pairwise.filterMap _ ?_ (List.pairwise_map.mp h))
  intro r r' hne p hp p' hp' heq
  obtain ⟨i, -, rfl⟩ := Option.map_eq_some_iff.mp hp
  obtain ⟨i', -, rfl⟩ := Option.map_eq_some_iff.mp hp'
  exact hne heq

/-- The log of the transitions is lawful. -/
theorem statusLog_lawful : (statusLog lib s).Lawful where
  key _ _ := rfl
  actor _ _ := rfl
  nodup := nodup_join s s.taskTransitions.nodup

/-- So is the log of the workflows. -/
theorem workflowLog_lawful : (workflowLog lib s).Lawful where
  key _ _ := rfl
  actor _ _ := rfl
  nodup := nodup_join s s.workflowTransitions.nodup

/-- So is the log of the reviews. -/
theorem reviewLog_lawful : (reviewLog lib s).Lawful where
  key _ _ := rfl
  actor _ _ := rfl
  nodup := nodup_join s s.reviews.nodup

/-- The claims that are held with a time. -/
def claims : List Event := (heldClaims lib s).filterMap claimEvent

/-- An event of the claims says so. -/
theorem source_of_mem_claims {e : Event} (he : e ∈ claims lib s) : e.source = .claim := by
  obtain ⟨h, -, hh⟩ := List.mem_filterMap.mp he
  obtain ⟨a, -, rfl⟩ := Option.map_eq_some_iff.mp hh
  rfl

/-- No two claims have one key. -/
theorem nodup_claims : ((claims lib s).map Event.key).Nodup := by
  have hheld : (heldClaims lib s).Pairwise fun a b => a.id ≠ b.id := by
    refine List.pairwise_map.mp ((((List.perm_insertionSort _ _).map Held.id).nodup_iff).mpr ?_)
    refine List.pairwise_map.mpr (List.Pairwise.filterMap _ ?_ (List.pairwise_map.mp s.items.nodup))
    intro i i' hne a ha a' ha'
    obtain ⟨o, -, rfl⟩ := Option.map_eq_some_iff.mp ha
    obtain ⟨o', -, rfl⟩ := Option.map_eq_some_iff.mp ha'
    exact hne
  refine List.pairwise_map.mpr (List.Pairwise.filterMap _ ?_ hheld)
  intro h h' hne e he e' he' hkey
  obtain ⟨a, -, rfl⟩ := Option.map_eq_some_iff.mp he
  obtain ⟨a', -, rfl⟩ := Option.map_eq_some_iff.mp he'
  exact hne (congrArg (fun k : Key => k.id) hkey)

/-- What an event of a registry row is: of its source, of the session, and numbered by the row's place. -/
theorem of_mem_holderEvents {row : HolderRow} {i : Nat} {e : Event} (he : e ∈ holderEvents row i) :
    e.source = .session ∧ e.actor = some row.session ∧
      ((e.id = (i : Int) * 2 ∧ row.startedAt = some e.atMs) ∨
        (e.id = (i : Int) * 2 + 1 ∧ row.endedAt = some e.atMs)) := by
  rcases List.mem_append.mp he with he | he
  · obtain ⟨a, ha, rfl⟩ := Option.map_eq_some_iff.mp (Option.mem_toList.mp he)
    exact ⟨rfl, rfl, Or.inl ⟨rfl, ha⟩⟩
  · obtain ⟨a, ha, rfl⟩ := Option.map_eq_some_iff.mp (Option.mem_toList.mp he)
    exact ⟨rfl, rfl, Or.inr ⟨rfl, ha⟩⟩

/-- The events of a holder have different ids. -/
theorem nodup_holderEvents (row : HolderRow) (i : Nat) : ((holderEvents row i).map Event.id).Nodup := by
  unfold holderEvents
  cases row.startedAt <;> cases row.endedAt <;> simp

/-- The registry's events, in the order of the rows' keys, have ids of their own. -/
theorem nodup_registryEvents (rows : List HolderRow) : ((registryEvents rows).map Event.key).Nodup := by
  have hplaces : ∀ rows : List HolderRow, rows.zipIdx.Pairwise fun p q => p.2 < q.2 := by
    intro rows
    refine List.pairwise_map.mp ?_
    rw [List.zipIdx_map_snd]
    exact List.pairwise_lt_range'
  refine List.pairwise_map.mpr (List.pairwise_flatMap.mpr ⟨fun p _ => ?_,
    (hplaces _).imp fun {p q} hlt e he e' he' hkey => ?_⟩)
  · exact (List.pairwise_map.mp (nodup_holderEvents p.1 p.2)).imp fun {e e'} (hne : e.id ≠ e'.id) hkey =>
      hne (congrArg (fun k : Key => k.id) hkey)
  · have hid : e.id = e'.id := congrArg (fun k : Key => k.id) hkey
    obtain ⟨-, -, h⟩ := of_mem_holderEvents he
    obtain ⟨-, -, h'⟩ := of_mem_holderEvents he'
    omega

/-- A registry event is of one of the rows, which its id numbers. -/
theorem of_mem_registryEvents {rows : List HolderRow} {e : Event} (he : e ∈ registryEvents rows) :
    ∃ row ∈ rows, ∃ i < rows.length, e ∈ holderEvents row i := by
  obtain ⟨⟨row, i⟩, hrow, he⟩ := List.mem_flatMap.mp he
  have hget := List.mem_zipIdx_iff_getElem?.mp hrow
  refine ⟨row, (List.mem_insertionSort _).mp (List.mem_of_getElem? hget), i, ?_, he⟩
  obtain ⟨hlt, -⟩ := List.getElem?_eq_some_iff.mp hget
  rwa [List.length_insertionSort] at hlt

/-- What the records hold that has a time, whoever's it is: the logs and the claims. -/
def recorded : List Event :=
  (statusLog lib s).events ++ ((workflowLog lib s).events ++ ((reviewLog lib s).events ++ claims lib s))

/-- **A session's timeline**: of what the records hold, what `speaksFor` gives the session, and the session's starts
and ends, in order. -/
def timeline : List Event :=
  sorted ((recorded lib s).filter (fun e => ours s session e.source e) ++ registryEvents (holders s session))

/-- Events of several sources have keys of their own when those of each have. -/
theorem nodup_of_sources {parts : List (Source × List Event)} (hsources : (parts.map Prod.fst).Nodup)
    (h : ∀ p ∈ parts, (p.2.map Event.key).Nodup ∧ ∀ e ∈ p.2, e.source = p.1) :
    ((parts.flatMap Prod.snd).map Event.key).Nodup := by
  refine List.pairwise_map.mpr (List.pairwise_flatMap.mpr ⟨fun p hp => List.pairwise_map.mp (h p hp).1, ?_⟩)
  refine (List.pairwise_map.mp hsources).imp_of_mem fun {p q} hp hq hne e he e' he' hkey => hne ?_
  rw [← (h p hp).2 e he, ← (h q hq).2 e' he']
  exact congrArg (fun k : Key => k.source) hkey

/-- **The keys of a timeline are its events' own**, and so are those of all that the records hold. -/
theorem nodup_stops : ((recorded lib s ++ registryEvents (holders s session)).map Event.key).Nodup := by
  have hregistry : ∀ e ∈ registryEvents (holders s session), e.source = .session := fun e he => by
    obtain ⟨row, -, i, -, he⟩ := of_mem_registryEvents he
    exact (of_mem_holderEvents he).1
  have hparts := @nodup_of_sources
    [(.status, (statusLog lib s).events), (.workflow, (workflowLog lib s).events),
      (.review, (reviewLog lib s).events), (.claim, claims lib s), (.session, registryEvents (holders s session))]
    (by simp) (by
      simp only [List.forall_mem_cons]
      exact ⟨⟨(statusLog_lawful lib s).nodup_keys, fun e => (statusLog_lawful lib s).source_of_mem⟩,
        ⟨(workflowLog_lawful lib s).nodup_keys, fun e => (workflowLog_lawful lib s).source_of_mem⟩,
        ⟨(reviewLog_lawful lib s).nodup_keys, fun e => (reviewLog_lawful lib s).source_of_mem⟩,
        ⟨nodup_claims lib s, fun e => source_of_mem_claims lib s⟩, ⟨nodup_registryEvents _, hregistry⟩, nofun⟩)
  simpa [recorded] using hparts

end Timeline

/-! ## the bound of a page -/

/-- A read that is full bounds the page no later than where it ended, and another bound only comes earlier. -/
theorem bounded_le (bound : Option Key) (read : List Event) {k : Key}
    (h : bound = some k ∨ (pageCap + 1 ≤ read.length ∧ read.getLast?.map Event.key = some k)) :
    ∃ b, bounded bound read = some b ∧ b ≤ k := by
  unfold bounded
  split_ifs with hfull
  · cases hl : read.getLast? with
    | none => rw [List.getLast?_eq_none_iff.mp hl] at hfull; exact absurd hfull (by decide)
    | some l =>
        refine ⟨_, rfl, ?_⟩
        rcases h with rfl | ⟨-, hk⟩
        · exact min_le_left k l.key
        · rw [hl] at hk
          obtain rfl : l.key = k := Option.some.inj hk
          cases bound with
          | none => exact le_refl _
          | some b => exact min_le_right b l.key
  · rcases h with rfl | ⟨hfull', -⟩
    · exact ⟨k, rfl, le_refl k⟩
    · exact absurd hfull' hfull

/-- A bound is the key of an event that was read. -/
theorem mem_of_bounded {bound : Option Key} {read : List Event} {b : Key} (h : bounded bound read = some b) :
    bound = some b ∨ ∃ e ∈ read, e.key = b := by
  unfold bounded at h
  split_ifs at h
  · cases hl : read.getLast? with
    | none => rw [hl] at h; exact Or.inl h
    | some l =>
        rw [hl] at h
        have hb := Option.some.inj h
        cases bound with
        | none => exact Or.inr ⟨l, List.mem_of_getLast? hl, hb⟩
        | some c =>
            rcases min_choice c l.key with hmin | hmin
            · exact Or.inl (congrArg some (hmin.symm.trans hb))
            · exact Or.inr ⟨l, List.mem_of_getLast? hl, hmin.symm.trans hb⟩
  · exact Or.inl h

/-- The bound of several reads is no later than where any that is full ended. -/
theorem foldl_bounded_le {reads : List (List Event)} {bound : Option Key} {k : Key}
    (h : bound = some k ∨ ∃ read ∈ reads, pageCap + 1 ≤ read.length ∧ read.getLast?.map Event.key = some k) :
    ∃ b, reads.foldl bounded bound = some b ∧ b ≤ k := by
  induction reads generalizing bound k with
  | nil =>
      rcases h with rfl | ⟨read, hread, -⟩
      · exact ⟨k, rfl, le_refl k⟩
      · cases hread
  | cons read reads ih =>
      rcases h with hk | ⟨read', hread, hfull⟩
      · obtain ⟨b, hb, hle⟩ := bounded_le bound read (Or.inl hk)
        obtain ⟨b', hb', hle'⟩ := ih (Or.inl hb)
        exact ⟨b', hb', hle'.trans hle⟩
      · rcases List.mem_cons.mp hread with rfl | hread
        · obtain ⟨b, hb, hle⟩ := bounded_le bound _ (Or.inr hfull)
          obtain ⟨b', hb', hle'⟩ := ih (Or.inl hb)
          exact ⟨b', hb', hle'.trans hle⟩
        · exact ih (Or.inr ⟨read', hread, hfull⟩)

/-- The bound of many reads is the one before, or the key of an event read. -/
theorem mem_of_foldl_bounded {reads : List (List Event)} {bound : Option Key} {b : Key}
    (h : reads.foldl bounded bound = some b) : bound = some b ∨ ∃ read ∈ reads, ∃ e ∈ read, e.key = b := by
  induction reads generalizing bound with
  | nil => exact Or.inl h
  | cons read reads ih =>
      rcases ih h with h | ⟨read', hread, e, he, hb⟩
      · rcases mem_of_bounded h with h | ⟨e, he, hb⟩
        · exact Or.inl h
        · exact Or.inr ⟨read, List.mem_cons_self, e, he, hb⟩
      · exact Or.inr ⟨read', List.mem_cons_of_mem _ hread, e, he, hb⟩

/-- Many reads give what each gives, under one bound. -/
theorem foldl_addRead (s : Store) (session : Text) (reads : List (Source × List Event))
    (r : List Event × Option Key) :
    reads.foldl (addRead s session) r =
      (r.1 ++ reads.flatMap (fun read => read.2.filter (ours s session read.1)),
        (reads.map Prod.snd).foldl bounded r.2) := by
  induction reads generalizing r with
  | nil => simp
  | cons read reads ih =>
      rw [List.foldl_cons, ih]
      simp [addRead]

/-! ## a page is a cut of the timeline -/

/-- A sorted list of what has keys of its own is that in order. -/
theorem eq_sorted_of_perm {xs ys : List Event} (hxs : xs.Pairwise fun a b => a.key ≤ b.key) (hperm : xs.Perm ys)
    (hys : (ys.map Event.key).Nodup) : xs = sorted ys := by
  refine (hperm.trans (List.perm_insertionSort _ ys).symm).eq_of_pairwise (fun a b ha hb hab hba => ?_) hxs
    (List.pairwise_insertionSort _ _)
  exact List.inj_on_of_nodup_map hys (hperm.subset ha) ((List.mem_insertionSort _).mp hb) (le_antisymm hab hba)

/-- Whether an event comes after a cursor. -/
def past (after : Option Key) (e : Event) : Bool := after.all (· < e.key)

/-- Whether an event comes up to a bound. -/
def upTo (bound : Option Key) (e : Event) : Bool := bound.all (e.key ≤ ·)

/-- What is past a cursor is what is left to read. -/
theorem filter_past (after : Option Key) (events : List Event) :
    events.filter (past after) = rest (· < ·) Event.key events after := by
  cases after with
  | none => exact List.filter_eq_self.mpr fun _ _ => rfl
  | some k => rfl

/-- What a query reads is of its log, and comes after the cursor. -/
theorem Log.Lawful.of_mem_read {R : Type} {log : Log R} (h : log.Lawful) {s : Store} {session : Text}
    {after : Option Key} {limit : Nat} {e : Event} (he : e ∈ log.read s session after limit) :
    e ∈ log.events ∧ past after e = true := by
  rw [h.read_eq, ← filter_past] at he
  obtain ⟨hmine, hpast⟩ := List.mem_filter.mp (List.mem_of_mem_take he)
  exact ⟨List.mem_of_mem_filter (mem_sorted.mp hmine), hpast⟩

/-- **Up to the bound of its page, a log's read has all that is the session's after the cursor**: what the test in the
query leaves out is not the session's, and a read that left rows out ended at the bound or after it. -/
theorem Log.Lawful.read_perm {R : Type} {log : Log R} (h : log.Lawful) (hlogged : log.source.logged) (s : Store)
    (session : Text) (after : Option Key) {bound : Option Key}
    (hbound : ∀ k, pageCap + 1 ≤ (log.read s session after (pageCap + 1)).length →
      (log.read s session after (pageCap + 1)).getLast?.map Event.key = some k → ∃ b, bound = some b ∧ b ≤ k) :
    (((log.read s session after (pageCap + 1)).filter (ours s session log.source)).filter (upTo bound)).Perm
      (((log.events.filter fun e => ours s session e.source e).filter (past after)).filter (upTo bound)) := by
  have hnodup : ((log.events.filter fun e => Timeline.mine s session log.source e.actor).map Event.key).Nodup :=
    h.nodup_keys.sublist (List.filter_sublist.map _)
  have hsort : (rest (· < ·) Event.key (log.mine s session) after).Pairwise fun a b => a.key < b.key := by
    rw [← filter_past]
    exact (sorted_pairwise hnodup).filter _
  have hall : (log.read s session after (pageCap + 1)).filter (upTo bound) =
      ((log.mine s session).filter (past after)).filter (upTo bound) := by
    rw [h.read_eq] at hbound ⊢
    rw [filter_past]
    exact filter_take_of_le hsort (by decide) fun l hfull hl => hbound l.key hfull (by rw [hl]; rfl)
  have hours : ∀ e ∈ log.events, ours s session log.source e = true →
      Timeline.mine s session log.source e.actor = true := by
    intro e he hmine
    unfold ours at hmine
    cases hactor : e.actor with
    | none => rw [hactor] at hmine; cases hmine
    | some a =>
        rw [hactor, Option.any_some, List.any_eq_true] at hmine
        obtain ⟨t, ht, heq⟩ := hmine
        exact mine_of_speaksFor hlogged (of_decide_eq_true heq ▸ ht)
  have hsame : (((log.events.filter fun e => Timeline.mine s session log.source e.actor).filter (past after)).filter
      (upTo bound)).filter (ours s session log.source) =
      ((log.events.filter fun e => ours s session e.source e).filter (past after)).filter (upTo bound) := by
    simp only [List.filter_filter]
    refine List.filter_congr fun e he => ?_
    rw [h.source_of_mem he, Bool.eq_iff_iff]
    simp only [Bool.and_eq_true]
    constructor
    · rintro ⟨ho, hup, hpast, -⟩
      exact ⟨hup, hpast, ho⟩
    · rintro ⟨hup, hpast, ho⟩
      exact ⟨ho, hup, hpast, hours e he ho⟩
  rw [List.filter_comm, hall, ← hsame]
  exact (((List.perm_insertionSort _ _).filter _).filter _).filter _

section Page

variable (lib : Ext) (s : Store) (session : Text) (after : Option Key)

/-- The reads of the three logs. -/
def reads : List (Source × List Event) :=
  [(Source.status, (statusLog lib s).read s session after (pageCap + 1)),
    (Source.workflow, (workflowLog lib s).read s session after (pageCap + 1)),
    (Source.review, (reviewLog lib s).read s session after (pageCap + 1))]

/-- The bound of a page. -/
def pageBound : Option Key := ((reads lib s session after).map Prod.snd).foldl bounded none

/-- What a page is cut from: the timeline after the cursor, up to the bound. -/
def found : List Event :=
  ((timeline lib s session).filter (past after)).filter (upTo (pageBound lib s session after))

/-- All that is merged: the reads' events, the claims and the registry's. -/
def merged : List Event :=
  ((reads lib s session after).flatMap fun read => read.2.filter (ours s session read.1)) ++
    (claims lib s).filter (fun e => ours s session .claim e && past after e) ++
    (registryEvents (holders s session)).filter (past after)

/-- Up to the bound, what is merged is what the timeline has after the cursor. -/
theorem merged_perm :
    ((merged lib s session after).filter (upTo (pageBound lib s session after))).Perm
      ((((recorded lib s).filter (fun e => ours s session e.source e) ++ registryEvents (holders s session)).filter
        (past after)).filter (upTo (pageBound lib s session after))) := by
  have hbound : ∀ read ∈ (reads lib s session after).map Prod.snd, ∀ k, pageCap + 1 ≤ read.length →
      read.getLast?.map Event.key = some k → ∃ b, pageBound lib s session after = some b ∧ b ≤ k :=
    fun read hread k hfull hlast => foldl_bounded_le (Or.inr ⟨read, hread, hfull, hlast⟩)
  have hstatus := (statusLog_lawful lib s).read_perm rfl s session after (hbound _ (by simp [reads]))
  have hworkflow := (workflowLog_lawful lib s).read_perm rfl s session after (hbound _ (by simp [reads]))
  have hreview := (reviewLog_lawful lib s).read_perm rfl s session after (hbound _ (by simp [reads]))
  have hclaims : (claims lib s).filter (fun e => ours s session .claim e && past after e) =
      ((claims lib s).filter fun e => ours s session e.source e).filter (past after) := by
    rw [List.filter_filter]
    refine List.filter_congr fun e he => ?_
    rw [source_of_mem_claims lib s he, Bool.and_comm]
  rw [merged, hclaims]
  simp only [reads, recorded, List.flatMap_cons, List.flatMap_nil, List.append_nil, List.filter_append,
    List.append_assoc]
  exact hstatus.append (hworkflow.append (hreview.append (List.Perm.refl _)))

/-- **What a page finds** is the timeline after the cursor, up to the bound. -/
theorem filter_sorted_merged :
    (sorted (merged lib s session after)).filter (upTo (pageBound lib s session after)) =
      found lib s session after := by
  have hnodup : (((recorded lib s).filter (fun e => ours s session e.source e) ++
      registryEvents (holders s session)).map Event.key).Nodup :=
    (nodup_stops lib s session).sublist ((List.filter_sublist.append (List.Sublist.refl _)).map _)
  have hpast : ((((recorded lib s).filter (fun e => ours s session e.source e) ++
      registryEvents (holders s session)).filter (past after)).map Event.key).Nodup :=
    hnodup.sublist (List.filter_sublist.map _)
  rw [found, timeline, ← sorted_filter hnodup, ← sorted_filter hpast]
  refine eq_sorted_of_perm ((List.pairwise_insertionSort _ _).filter _)
    (((List.perm_insertionSort _ _).filter _).trans (merged_perm lib s session after))
    (hpast.sublist (List.filter_sublist.map _))

/-- The cursor that a page ends at, if it does not end the timeline. -/
def nextKey : Option Key :=
  if (pageBound lib s session after).isSome ∨ pageCap < (found lib s session after).length then
    (((found lib s session after).take pageCap).getLast?.map Event.key).or (pageBound lib s session after)
  else none

/-- A page is the first of what is found, with the key to go on from. -/
theorem sessionPage_eq :
    sessionPage lib s session after =
      ((found lib s session after).take pageCap, (nextKey lib s session after).map cursorOf) := by
  have hnext : (nextKey lib s session after).map cursorOf =
      if (pageBound lib s session after).isSome ∨ pageCap < (found lib s session after).length then
        ((((found lib s session after).take pageCap).getLast?.map Event.key).or
          (pageBound lib s session after)).map cursorOf else none := by
    rw [nextKey, apply_ite (Option.map cursorOf), Option.map_none]
  rw [hnext, ← filter_sorted_merged, sessionPage]
  simp only [foldl_addRead]
  rfl

/-- The keys at which a page may stop: those of all that the records hold. -/
def stops : List Key := (recorded lib s ++ registryEvents (holders s session)).map Event.key

/-- The timeline is in order. -/
theorem timeline_pairwise : (timeline lib s session).Pairwise fun a b => a.key < b.key :=
  sorted_pairwise ((nodup_stops lib s session).sublist
    ((List.filter_sublist.append (List.Sublist.refl _)).map _))

/-- **A page is a cut of the timeline.** -/
theorem isCut_sessionPage :
    IsCut Event.key (timeline lib s session) (stops lib s session) after
      ((found lib s session after).take pageCap) (nextKey lib s session after) := by
  refine isCut_take (by decide) (timeline_pairwise lib s session)
    (fun e he => List.mem_map_of_mem ?_) (fun b hb => ?_) ?_
  · rcases List.mem_append.mp (mem_sorted.mp he) with he | he
    · exact List.mem_append_left _ (List.mem_of_mem_filter he)
    · exact List.mem_append_right _ he
  · rcases mem_of_foldl_bounded hb with hb | ⟨read, hread, e, he, rfl⟩
    · cases hb
    · have hin : e ∈ recorded lib s ∧ past after e = true := by
        simp only [reads, List.map_cons, List.map_nil, List.mem_cons, List.not_mem_nil, or_false] at hread
        rcases hread with rfl | rfl | rfl
        · obtain ⟨hlog, hpast⟩ := (statusLog_lawful lib s).of_mem_read he
          exact ⟨List.mem_append_left _ hlog, hpast⟩
        · obtain ⟨hlog, hpast⟩ := (workflowLog_lawful lib s).of_mem_read he
          exact ⟨List.mem_append_right _ (List.mem_append_left _ hlog), hpast⟩
        · obtain ⟨hlog, hpast⟩ := (reviewLog_lawful lib s).of_mem_read he
          exact ⟨List.mem_append_right _ (List.mem_append_right _ (List.mem_append_left _ hlog)), hpast⟩
      refine ⟨List.mem_map_of_mem (List.mem_append_left _ hin.1), ?_⟩
      rintro a rfl
      exact of_decide_eq_true hin.2
  · rw [found, filter_past]
    rfl

end Page

/-! ## cursors -/

/-- What a store's integers are: its columns', which are the machine's. A session has fewer processes than half of
what the machine counts. -/
structure Stored (lib : Ext) (s : Store) : Prop where
  ms : ∀ t n, lib.ms t = some n → i64Min ≤ n ∧ n ≤ i64Max
  items : ∀ i ∈ s.items.rows, i64Min ≤ i.id ∧ i.id ≤ i64Max
  taskTransitions : ∀ t ∈ s.taskTransitions.rows, i64Min ≤ t.id ∧ t.id ≤ i64Max
  workflowTransitions : ∀ w ∈ s.workflowTransitions.rows, i64Min ≤ w.id ∧ w.id ≤ i64Max
  reviews : ∀ v ∈ s.reviews.rows, i64Min ≤ v.id ∧ v.id ≤ i64Max
  started : ∀ h ∈ s.sessions.rows, ∀ n ∈ h.startedAt, i64Min ≤ n ∧ n ≤ i64Max
  ended : ∀ h ∈ s.sessions.rows, ∀ n ∈ h.endedAt, i64Min ≤ n ∧ n ≤ i64Max
  processes : (s.sessions.rows.length : Int) * 2 ≤ i64Max

/-- A key whose integers are the machine's. -/
def Key.Machine (k : Key) : Prop := (i64Min ≤ k.at_ ∧ k.at_ ≤ i64Max) ∧ i64Min ≤ k.id ∧ k.id ≤ i64Max

/-- A number is written without a dot. -/
theorem dot_notMem_showInt (n : Int) : '.' ∉ showInt n := fun h => absurd (showInt_chars n '.' h) (by decide)

/-- **A cursor reads back** as the key it was written from. -/
theorem parseCursor_cursorOf {k : Key} (h : k.Machine) : parseCursor (cursorOf k) = .ok k := by
  have hsource : '.' ∉ k.source.asStr := by cases k.source <;> decide
  simp only [parseCursor, cursorOf, splitOnce_append (dot_notMem_showInt k.at_), splitOnce_append hsource,
    parseI64_showInt h.1.1 h.1.2, parseI64_showInt h.2.1 h.2.2, Source.parse_asStr, Option.bind_eq_bind,
    Option.bind_some]
  rfl

section Machine

variable {lib : Ext} {s : Store}

/-- What is joined is one of the rows. -/
theorem mem_join {R : Type} {rows : List R} {itemId : R → Int} {p : R × Text} (h : p ∈ join s rows itemId) :
    p.1 ∈ rows := by
  obtain ⟨r, hr, hp⟩ := List.mem_filterMap.mp h
  obtain ⟨i, -, rfl⟩ := Option.map_eq_some_iff.mp hp
  exact hr

/-- The keys of a lawful log with machine integers are made of such. -/
theorem Log.Lawful.machine_of_mem {R : Type} {log : Log R} (h : log.Lawful)
    (hid : ∀ r ∈ log.rows, i64Min ≤ log.id r ∧ log.id r ≤ i64Max)
    (hat : ∀ r a, log.at_ r = some a → i64Min ≤ a ∧ a ≤ i64Max) {e : Event} (he : e ∈ log.events) :
    e.key.Machine := by
  obtain ⟨r, hr, hre⟩ := List.mem_filterMap.mp he
  obtain ⟨a, ha, rfl⟩ := Option.map_eq_some_iff.mp hre
  rw [h.key]
  exact ⟨hat r a ha, hid r hr⟩

/-- **Every place where a page may stop has a cursor** that reads back. -/
theorem Stored.machine_of_mem (h : Stored lib s) {session : Text} {k : Key} (hk : k ∈ stops lib s session) :
    k.Machine := by
  obtain ⟨e, he, rfl⟩ := List.mem_map.mp hk
  simp only [recorded, List.mem_append, List.append_assoc] at he
  rcases he with he | he | he | he | he
  · exact (statusLog_lawful lib s).machine_of_mem (fun r hr => h.taskTransitions _ (mem_join hr))
      (fun r a => h.ms _ a) he
  · exact (workflowLog_lawful lib s).machine_of_mem (fun r hr => h.workflowTransitions _ (mem_join hr))
      (fun r a => h.ms _ a) he
  · refine (reviewLog_lawful lib s).machine_of_mem (fun r hr => h.reviews _ (mem_join hr)) (fun r a ha => ?_) he
    rcases Option.or_eq_some_iff.mp ha with ha | ⟨-, ha⟩
    · obtain ⟨rr, -, ha⟩ := Option.bind_eq_some_iff.mp ha
      exact h.ms _ a ha
    · exact h.ms _ a ha
  · obtain ⟨held, hheld, hhe⟩ := List.mem_filterMap.mp he
    obtain ⟨a, ha, rfl⟩ := Option.map_eq_some_iff.mp hhe
    obtain ⟨i, hi, hih⟩ := List.mem_filterMap.mp ((List.mem_insertionSort _).mp hheld)
    obtain ⟨o, -, rfl⟩ := Option.map_eq_some_iff.mp hih
    obtain ⟨t, -, ht⟩ := Option.bind_eq_some_iff.mp ha
    exact ⟨h.ms t a ht, h.items i hi⟩
  · obtain ⟨row, hrow, i, hlt, he⟩ := of_mem_registryEvents he
    have hin := List.mem_of_mem_filter ((List.mem_insertionSort _).mp hrow)
    have hlen : (holders s session).length ≤ s.sessions.rows.length := by
      rw [holders, List.length_insertionSort]
      exact List.length_filter_le _ _
    have hcount := h.processes
    have hmin : i64Min ≤ 0 := by decide
    obtain ⟨-, -, ⟨hid, hat⟩ | ⟨hid, hat⟩⟩ := of_mem_holderEvents he
    · exact ⟨h.started row hin _ hat, by show _ ≤ e.id ∧ e.id ≤ _; omega⟩
    · exact ⟨h.ended row hin _ hat, by show _ ≤ e.id ∧ e.id ≤ _; omega⟩

/-- **Following a session's cursors reads its timeline.** -/
theorem sessionEvents_exact (h : Stored lib s) {session : Text} (hsession : AgentId.isSessionId session = true) :
    (∀ source, source.logged → ∀ actor, session ∈ speaksFor s.bindings source actor →
      mine s session source (some actor) = true) ∧
    (timeline lib s session).Perm
      ((recorded lib s).filter (fun e => ours s session e.source e) ++ registryEvents (holders s session)) ∧
    (timeline lib s session).Pairwise (fun a b => a.key < b.key) ∧
    ∀ calls : List Unit, (recorded lib s ++ registryEvents (holders s session)).length < calls.length →
      ∃ pages, follow (fun _ after => sessionEvents lib s session after) none calls = .ok (pages, true) ∧
        pages.flatten = timeline lib s session := by
  refine ⟨fun source hlogged actor => mine_of_speaksFor hlogged, List.perm_insertionSort _ _,
    timeline_pairwise lib s session, fun calls hcalls => ?_⟩
  have hask : ∀ call ∈ calls, ∀ after : Option Key, (∀ a, after = some a → a ∈ stops lib s session) →
      ∃ page next, sessionEvents lib s session (after.map cursorOf) = .ok (page, next.map cursorOf) ∧
        IsCut Event.key (timeline lib s session) (stops lib s session) after page next := by
    intro _ _ after hafter
    refine ⟨_, _, ?_, isCut_sessionPage lib s session after⟩
    rw [← sessionPage_eq]
    unfold sessionEvents
    rw [if_pos hsession]
    cases after with
    | none => rfl
    | some k =>
        show (parseCursor (cursorOf k)).map _ = _
        rw [parseCursor_cursorOf (h.machine_of_mem (hafter k rfl))]
        rfl
  exact follow_cuts cursorOf (timeline_pairwise lib s session) hask (by rwa [stops, List.length_map])

end Machine

/-! ## a session with a subagent -/

/-- What SQLite reads of two times. -/
def egExt : Ext where
  ms t :=
    if t = "1970-01-01T00:00:00.005Z".toList then some 5
    else if t = "1970-01-01T00:00:00.007Z".toList then some 7 else none
  refused _ := false

/-- A session that one process holds, with a subagent that moved a task that the session claims; another agent
moved it before. -/
def egStore : Store where
  items := ⟨[⟨1, "t1".toList, some "session:4@s1:w".toList, some "1970-01-01T00:00:00.007Z".toList⟩], by decide⟩
  taskTransitions := ⟨[
    ⟨1, 1, "1970-01-01T00:00:00.005Z".toList, "start".toList, none, "doing".toList, some "agent:b".toList,
      none, none, none, none⟩,
    ⟨2, 1, "1970-01-01T00:00:00.005Z".toList, "submit".toList, some "doing".toList, "review".toList,
      some "agent:a".toList, none, none, none, none⟩], by decide⟩
  workflowTransitions := ⟨[], by decide⟩
  reviews := ⟨[], by decide⟩
  rounds := ⟨[], by decide⟩
  findings := []
  bindings := ⟨[⟨"s1".toList, "a".toList, 1⟩], by decide⟩
  sessions := ⟨[⟨"s1".toList, "4".toList, "i".toList, some 3, none, 9, none, none⟩], by decide⟩

/-- The store of the example is one that can be stored. -/
theorem egStore_stored : Stored egExt egStore where
  ms t n h := by
    unfold egExt at h
    simp only at h
    split_ifs at h <;> cases h <;> decide
  items := by decide
  taskTransitions := by decide
  workflowTransitions := by decide
  reviews := by decide
  started := by decide
  ended := by decide
  processes := by decide

/-- The session's start, its subagent's move and its claim are its timeline. -/
theorem sessionEvents_exact_subagent :
    ∃ pages, follow (fun (_ : Unit) after => sessionEvents egExt egStore "s1".toList after) none
        (List.replicate 5 ()) = .ok (pages, true) ∧
      pages.flatten.map (fun e => (e.atMs, e.source, e.id)) =
        [(3, .session, 0), (5, .status, 2), (7, .claim, 1)] := by
  obtain ⟨pages, hpages, hall⟩ := (@sessionEvents_exact egExt egStore egStore_stored "s1".toList (by decide)).2.2.2
    (List.replicate 5 ()) (by decide)
  exact ⟨pages, hpages, by rw [hall]; decide⟩

end Jkb.Timeline
