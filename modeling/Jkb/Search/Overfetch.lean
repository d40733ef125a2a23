import Jkb.Search

/-!
# Jkb.Search.Overfetch

What over-fetching finds. Dead rows and rows out of scope are filtered after a scan, so both loops fetch twice as
much until they have enough, the table has run out, or they come to their cap. `grow_eq_ok` says where such a loop
ends; `overfetchExact_iff` when what it returns is exact below the cap.
-/

namespace Jkb.Search

open Jkb.Query

/-! ## the loop -/

section Grow

variable {α : Type} {cap : Nat} {page : Nat → Except Halt α} {enough : α → Bool} {p : Nat → α}

/-- **Where a growth loop ends**: at a page that is enough, or at the cap. It starts from something, or from a page
of nothing that is enough. -/
theorem grow_eq_ok (hpage : ∀ fetch, page fetch = .ok (p fetch)) {fetch : Nat} (hcap : fetch ≤ cap)
    (hstart : fetch ≠ 0 ∨ enough (p 0) = true) :
    ∃ last ≤ cap, grow cap page enough fetch = .ok (p last) ∧ (enough (p last) = true ∨ last = cap) := by
  induction fetch using grow.induct cap page enough with
  | case1 fetch e herror => cases herror.symm.trans (hpage fetch)
  | case2 fetch q hq hdone =>
      obtain rfl := Except.ok.inj (hq.symm.trans (hpage fetch))
      refine ⟨fetch, hcap, ?_, hdone.imp_right (Nat.le_antisymm hcap)⟩
      rw [grow, hpage]
      exact if_pos hdone
  | case3 q hq hmore =>
      obtain rfl := Except.ok.inj (hq.symm.trans (hpage 0))
      exact absurd (hstart.resolve_left fun h => h rfl) fun h => hmore (Or.inl h)
  | case4 fetch q hq hmore hzero ih =>
      obtain rfl := Except.ok.inj (hq.symm.trans (hpage fetch))
      rw [not_or, Nat.not_le] at hmore
      obtain ⟨last, hlast, hrun, hend⟩ := ih (Nat.min_le_right _ _) (Or.inl (by omega))
      refine ⟨last, hlast, ?_, hend⟩
      rw [grow, hpage]
      simp only [if_neg (not_or.mpr ⟨hmore.1, Nat.not_le.mpr hmore.2⟩), if_neg hzero]
      exact hrun

/-- A loop that starts from nothing stays there. -/
theorem grow_zero (hpage : ∀ fetch, page fetch = .ok (p fetch)) (hcap : 0 < cap) (hmore : enough (p 0) = false) :
    grow cap page enough 0 = .error .never := by
  rw [grow, hpage]
  simp [hmore, Nat.not_le.mpr hcap]

end Grow

/-! ## the front of a table -/

theorem take_filter_take {α : Type} {keep : α → Bool} {table : List α} {fetch k : Nat}
    (h : k ≤ ((table.take fetch).filter keep).length) :
    ((table.take fetch).filter keep).take k = (table.filter keep).take k := by
  conv_rhs => rw [← List.take_append_drop fetch table, List.filter_append]
  exact (List.take_append_of_le_length h).symm

theorem take_of_length_lt {α : Type} {table : List α} {fetch : Nat} (h : (table.take fetch).length < fetch) :
    table.take fetch = table := by
  rw [List.length_take] at h
  exact List.take_of_length_le (by omega)

/-! ## exactness -/

section Exact

variable {V : Type} {x : Index V} {s : Query.Store} {query : V} {table : List (Int × Rat)} {ids : List Int} {k : Nat}

/-- What the vector table does: a scan at a size returns so many of its rows, nearest first, and a longer one
extends it. -/
structure Scans (x : Index V) (query : V) (table : List (Int × Rat)) : Prop where
  scan : ∀ fetch ≤ vec0KMax, x.nearest query fetch = table.take fetch
  sorted : table.Pairwise fun a b => a.2 ≤ b.2

/-- **Over-fetching is exact below its cap**, and both loops end: what is returned is the first `k` live rows of the
whole table, or those in scope, unless the last scan reached the cap; and the index is said to have run out only
where every live row was returned. -/
structure OverfetchExact (x : Index V) (s : Query.Store) (query : V) (table : List (Int × Rat)) (ids : List Int)
    (k : Nat) : Prop where
  page : ∀ fetch page, knnPage x s query fetch = .ok page → page.indexExhausted = true →
    page.live = filterLive s table
  unrestricted : ∃ page, knnLive x s query k = .ok page ∧
    (page.live = (filterLive s table).take k ∨ page.scanned = vec0KMax) ∧
    (page.indexExhausted = true → page.live = filterLive s table)
  inScope : ∃ hits orphans, vectorRanked x s (some query) (some ids) k = .ok (hits, orphans) ∧
    (hits = ((filterLive s table).filter fun h => ids.contains h.1).take k ∨ orphans.scanned = overfetchCap)

/-- The page of a scan. -/
def pageOf (s : Query.Store) (table : List (Int × Rat)) (fetch : Nat) : KnnPage :=
  let raw := table.take (min fetch vec0KMax)
  { live := filterLive s raw, dead := raw.length - (filterLive s raw).length, scanned := raw.length,
    indexExhausted := raw.length < min fetch vec0KMax }

theorem knnPage_eq (hscan : Scans x query table) (hlength : x.length query = x.dim) (fetch : Nat) :
    knnPage x s query fetch = .ok (pageOf s table fetch) := by
  have hraw := hscan.scan (min fetch vec0KMax) (Nat.min_le_right _ _)
  rw [knnPage, checkLength, if_neg (not_not_intro hlength), hraw]
  rfl

/-- A page on which the index ran out holds every live row. -/
theorem live_of_exhausted {fetch : Nat} (h : (pageOf s table fetch).indexExhausted = true) :
    (pageOf s table fetch).live = filterLive s table := by
  rw [pageOf, take_of_length_lt (of_decide_eq_true h)]

/-- What is kept of a page that has enough, or on which the index ran out, is what is kept of the table. -/
theorem take_live {keep : Int × Rat → Bool} {fetch : Nat}
    (h : k ≤ ((pageOf s table fetch).live.filter keep).length ∨ (pageOf s table fetch).indexExhausted = true) :
    ((pageOf s table fetch).live.filter keep).take k = ((filterLive s table).filter keep).take k := by
  rcases h with h | h
  · simp only [pageOf, filterLive, List.filter_filter] at h ⊢
    exact take_filter_take h
  · rw [live_of_exhausted h]

/-- A scan at the cap of the vector table that the index did not run out on has scanned so many rows. -/
theorem scanned_of_not_exhausted {fetch : Nat} (hcap : fetch ≤ vec0KMax)
    (h : (pageOf s table fetch).indexExhausted = false) : (pageOf s table fetch).scanned = fetch := by
  simp only [pageOf, decide_eq_false_iff_not, Nat.min_eq_left hcap, List.length_take] at h ⊢
  omega

/-- **The unrestricted search.** -/
theorem knnLive_exact (hscan : Scans x query table) (hlength : x.length query = x.dim) (k : Nat) :
    ∃ page, knnLive x s query k = .ok page ∧
      (page.live = (filterLive s table).take k ∨ page.scanned = vec0KMax) ∧
      (page.indexExhausted = true → page.live = filterLive s table) := by
  have hstart : min k vec0KMax ≠ 0 ∨
      (decide (k ≤ (pageOf s table 0).live.length) || (pageOf s table 0).indexExhausted) = true := by
    by_cases hk : k = 0
    · exact Or.inr (by simp [hk])
    · exact Or.inl (by simp only [vec0KMax]; omega)
  have hloop : ∃ last ≤ vec0KMax, grow vec0KMax (knnPage x s query)
      (fun p => k ≤ p.live.length || p.indexExhausted) (min k vec0KMax) = .ok (pageOf s table last) ∧
        ((decide (k ≤ (pageOf s table last).live.length) || (pageOf s table last).indexExhausted) = true ∨
          last = vec0KMax) :=
    grow_eq_ok (knnPage_eq hscan hlength) (Nat.min_le_right k vec0KMax) hstart
  obtain ⟨last, hlast, hrun, hend⟩ := hloop
  refine ⟨_, by rw [knnLive, hrun]; rfl, ?_, fun hexhausted => ?_⟩
  · by_cases hdone : k ≤ (pageOf s table last).live.length ∨ (pageOf s table last).indexExhausted = true
    · have hkept := @take_live s table k (fun _ => true) last (by simpa using hdone)
      exact Or.inl (by simpa using hkept)
    · rw [not_or, Bool.not_eq_true] at hdone
      have hcap : last = vec0KMax := hend.resolve_left (by simp [hdone.1, hdone.2])
      exact Or.inr ((scanned_of_not_exhausted hlast hdone.2).trans hcap)
  · obtain ⟨hexhausted, hall⟩ := Bool.and_eq_true_iff.mp hexhausted
    exact (List.take_of_length_le (of_decide_eq_true hall)).trans (live_of_exhausted hexhausted)

/-- The neighbours of a page that are in scope, as many as are asked for. -/
def inScope (ids : List Int) (k : Nat) (page : KnnPage) : List (Int × Rat) :=
  (page.live.filter fun h => ids.contains h.1).take k

/-- Whether a page is enough for a search in scope. -/
def enough (ids : List Int) (k : Nat) (page : KnnPage) : Bool :=
  k ≤ (inScope ids k page).length || page.indexExhausted

theorem vectorRanked_large (hlarge : exactScoringCap < ids.length) :
    vectorRanked x s (some query) (some ids) k = (do
      let page ← grow overfetchCap (knnPage x s query) (enough ids k)
        (min (usizeMul k overfetchMultiplier) overfetchCap)
      return (inScope ids k page, .of page)) := by
  cases ids with
  | nil => exact absurd hlarge (Nat.not_lt_zero _)
  | cons i ids => exact if_neg (Nat.not_le.mpr hlarge)

/-- **The search in a large scope**, from a first scan of something, or where nothing is asked for. -/
theorem vectorRanked_exact (hscan : Scans x query table) (hlength : x.length query = x.dim)
    (hlarge : exactScoringCap < ids.length) (hstart : usizeMul k overfetchMultiplier ≠ 0 ∨ k = 0) :
    ∃ hits orphans, vectorRanked x s (some query) (some ids) k = .ok (hits, orphans) ∧
      (hits = ((filterLive s table).filter fun h => ids.contains h.1).take k ∨ orphans.scanned = overfetchCap) := by
  have hfirst : min (usizeMul k overfetchMultiplier) overfetchCap ≠ 0 ∨ enough ids k (pageOf s table 0) = true := by
    rcases hstart with h | rfl
    · exact Or.inl (by simp only [overfetchCap]; omega)
    · exact Or.inr (by simp [enough])
  obtain ⟨last, hlast, hrun, hend⟩ := grow_eq_ok (knnPage_eq hscan hlength)
    (Nat.min_le_right (usizeMul k overfetchMultiplier) overfetchCap) hfirst
  refine ⟨_, _, by rw [vectorRanked_large hlarge, hrun]; rfl, ?_⟩
  by_cases hdone : enough ids k (pageOf s table last) = true
  · refine Or.inl (take_live ?_)
    rw [enough, Bool.or_eq_true, decide_eq_true_eq, inScope, List.length_take] at hdone
    exact hdone.imp_left fun h => Nat.le_trans h (Nat.min_le_right _ _)
  · rw [enough, Bool.or_eq_true, not_or, Bool.not_eq_true (KnnPage.indexExhausted _)] at hdone
    have hcap : last = overfetchCap := hend.resolve_left (by simpa [enough] using hdone)
    exact Or.inr ((scanned_of_not_exhausted (Nat.le_trans hlast (by decide)) hdone.2).trans hcap)

/-- A search in a large scope whose first scan is of nothing does not return. -/
theorem vectorRanked_never (hscan : Scans x query table) (hlength : x.length query = x.dim)
    (hlarge : exactScoringCap < ids.length) (hzero : usizeMul k overfetchMultiplier = 0) (hk : k ≠ 0) :
    vectorRanked x s (some query) (some ids) k = .error .never := by
  have hnothing : enough ids k (pageOf s table 0) = false := by
    simp [enough, inScope, pageOf, filterLive, hk]
  rw [vectorRanked_large hlarge, hzero, Nat.zero_min, grow_zero (knnPage_eq hscan hlength) (by decide) hnothing]
  rfl

/-- A first scan is of nothing where the multiplication wraps to it. -/
theorem usizeMul_eq_zero : usizeMul k overfetchMultiplier = 0 ↔ 2 ^ 61 ∣ k := by
  simp only [usizeMul, overfetchMultiplier]
  omega

/-- **Over-fetching is exact, and ends, unless the size of its first scan wraps to nothing**: for every mix of live
and dead rows and every scope that is over-fetched. A search refuses a limit over 1000 before it gets here, and the
multiplication wraps for none of those it accepts. -/
theorem overfetchExact_iff (hscan : Scans x query table) (hlength : x.length query = x.dim)
    (hlarge : exactScoringCap < ids.length) :
    OverfetchExact x s query table ids k ↔ ¬ (k ≠ 0 ∧ 2 ^ 61 ∣ k) := by
  constructor
  · rintro ⟨-, -, hits, orphans, hrun, -⟩ ⟨hk, hwraps⟩
    rw [vectorRanked_never hscan hlength hlarge (usizeMul_eq_zero.mpr hwraps) hk] at hrun
    cases hrun
  · intro h
    refine ⟨fun fetch page hpage hexhausted => ?_, knnLive_exact hscan hlength k,
      vectorRanked_exact hscan hlength hlarge ?_⟩
    · obtain rfl := Except.ok.inj ((knnPage_eq hscan hlength fetch).symm.trans hpage)
      exact live_of_exhausted hexhausted
    · rw [Ne, usizeMul_eq_zero]
      tauto

end Exact

/-! ## a scan whose size wraps -/

/-- An index of one row. -/
def oneRow : Index Unit := { nearestOne with nearest := fun _ fetch => [((1 : Int), (0 : Rat))].take fetch }

theorem scans_oneRow : Scans oneRow () [(1, 0)] := ⟨fun _ _ => rfl, List.pairwise_singleton _ _⟩

/-- A scope that is over-fetched. -/
def wide : List Int := (List.range (exactScoringCap + 1)).map Int.ofNat

theorem length_wide : exactScoringCap < wide.length := by
  rw [wide, List.length_map, List.length_range]
  exact Nat.lt_succ_self _

theorem overfetchExact_iff_oneRow :
    OverfetchExact oneRow (oneItem (itemOf []) [] []) () [(1, 0)] wide 10 ↔ ¬ (10 ≠ 0 ∧ 2 ^ 61 ∣ 10) :=
  overfetchExact_iff scans_oneRow rfl length_wide

/-- A search for `2 ^ 61` neighbours in a large scope does not return. -/
theorem wrapped_scan_never_ends : ¬ OverfetchExact oneRow (oneItem (itemOf []) [] []) () [(1, 0)] wide (2 ^ 61) := by
  rintro ⟨-, -, hits, orphans, hrun, -⟩
  rw [vectorRanked_never scans_oneRow rfl length_wide (usizeMul_eq_zero.mpr (dvd_refl _)) (by decide)] at hrun
  cases hrun

end Jkb.Search
