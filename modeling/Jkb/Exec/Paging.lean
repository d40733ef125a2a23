import Jkb.Exec.Rows
import Jkb.Pages

/-!
# Jkb.Exec.Paging

Paging the request list loses and repeats nothing. A page ends where its rows run out, at `page` rows,
or once the rows it holds come to `pageBytes`; a first row is taken whatever its size. Each is a page of
the matching rows after the cursor, so a reader that follows the cursors is given all of them.

The rows a list reads are those its own settling leaves. They carry the ids that `AUTOINCREMENT` gives
out, and an argv that was read back when it was stored.
-/

namespace Jkb.Exec

open Pages Run Tx

variable {lib : Ext}

/-! ## The rows a filter lists -/

def Filter.selects (filter : Filter) (r : RawRow) : Bool :=
  filter.state.all (r.state == ·) && filter.session.all (r.session == ·)

/-- The order of the list: `i` comes before `j`. -/
def Filter.before (filter : Filter) (i j : Int) : Prop :=
  if filter.newestFirst then j < i else i < j

def Filter.le (filter : Filter) (a b : RawRow) : Prop :=
  if filter.newestFirst then b.id ≤ a.id else a.id ≤ b.id

instance (filter : Filter) : DecidableRel filter.before := fun i j =>
  inferInstanceAs (Decidable (if filter.newestFirst = true then j < i else i < j))

instance (filter : Filter) : DecidableRel filter.le := fun a b =>
  inferInstanceAs (Decidable (if filter.newestFirst = true then b.id ≤ a.id else a.id ≤ b.id))

instance (filter : Filter) : IsTrans Int filter.before where
  trans i j k hij hjk := by
    unfold Filter.before at *
    split at hij <;> simp_all <;> omega

instance (filter : Filter) : Std.Irrefl filter.before where
  irrefl i hi := by
    unfold Filter.before at hi
    split at hi <;> omega

instance (filter : Filter) : IsTrans RawRow filter.le where
  trans a b c hab hbc := by
    unfold Filter.le at *
    split at hab <;> simp_all <;> omega

instance (filter : Filter) : Std.Total filter.le where
  total a b := by
    unfold Filter.le
    split <;> omega

/-- The rows a filter selects, in the order it lists them. -/
def Filter.sorted (filter : Filter) (rows : List RawRow) : List RawRow :=
  (rows.filter filter.selects).insertionSort filter.le

/-- Rows as a table of requests has them: under the ids that are issued, and readable. -/
structure Readable (lib : Ext) (rows : List RawRow) : Prop where
  nodup : (rows.map fun r => r.id).Nodup
  ids : ∀ r ∈ rows, 0 < r.id ∧ r.id < i64Max
  reads : ∀ r ∈ rows, ∃ row, r.parse lib = .ok row

/-- The rows of a reachable table are readable, unless every id there is was issued. -/
theorem readable_run (lib : Ext) (ops : List Op) (hops : ops.length < i64Max) :
    Readable lib (run (step lib) Db.empty ops).requests.rows := by
  obtain ⟨-, hlast, hrows⟩ := issued_run lib ops
  refine ⟨(run (step lib) Db.empty ops).requests.nodup, fun r hr => ⟨?_, ?_⟩, fun r hr => ?_⟩
  · exact (hrows r.id r (Table.find?_of_mem hr)).1
  · exact Int.lt_of_le_of_lt (((run (step lib) Db.empty ops).requests.le_last r hr).trans hlast) hops
  · exact (hrows r.id r (Table.find?_of_mem hr)).2

theorem mem_sorted {filter : Filter} {rows : List RawRow} {r : RawRow} :
    r ∈ filter.sorted rows ↔ r ∈ rows ∧ filter.selects r = true := by
  rw [Filter.sorted, List.mem_insertionSort, List.mem_filter]

theorem length_sorted_le (filter : Filter) (rows : List RawRow) :
    (filter.sorted rows).length ≤ rows.length := by
  rw [Filter.sorted, List.length_insertionSort]
  exact List.length_filter_le _ _

/-- The list is in strict order of its ids. -/
theorem sorted_pairwise (filter : Filter) {rows : List RawRow} (hnodup : (rows.map fun r => r.id).Nodup) :
    (filter.sorted rows).Pairwise fun a b => filter.before a.id b.id := by
  have hne : (filter.sorted rows).Pairwise fun a b => a.id ≠ b.id := by
    have hperm := List.perm_insertionSort filter.le (rows.filter filter.selects)
    have hrows : ((rows.filter filter.selects).map fun r => r.id).Nodup :=
      hnodup.sublist (List.filter_sublist.map _)
    exact List.pairwise_map.mp ((hperm.map RawRow.id).nodup_iff.mpr hrows)
  have hle := List.pairwise_insertionSort filter.le (rows.filter filter.selects)
  refine (hne.and hle).imp fun {a b} h => ?_
  obtain ⟨hab, hle⟩ := h
  unfold Filter.le at hle
  unfold Filter.before
  split at hle <;> simp_all <;> omega

/-- A page starts from the rows of the list after its cursor; without one, from the first row. -/
theorem listed_eq {db : Db} (hids : ∀ r ∈ db.requests.rows, 0 < r.id ∧ r.id < i64Max) (filter : Filter)
    (after : Option Int) :
    db.listed filter after = rest filter.before (·.id) (filter.sorted db.requests.rows) after := by
  have hanti : ∀ a ∈ db.requests.rows.filter filter.selects, ∀ b ∈ db.requests.rows.filter filter.selects,
      filter.le a b → filter.le b a → a = b := by
    intro a ha b hb hab hba
    refine db.requests.eq_of_key_eq (List.mem_filter.mp ha).1 (List.mem_filter.mp hb).1 ?_
    unfold Filter.le at hab hba
    split at hab <;> simp_all <;> omega
  have hlisted : db.listed filter after = ((db.requests.rows.filter filter.selects).filter fun r =>
      filter.before (after.getD (if filter.newestFirst then i64Max else 0)) r.id).insertionSort
        filter.le := by
    obtain ⟨state, session, newest⟩ := filter
    cases newest <;> rfl
  rw [hlisted, filter_insertionSort hanti]
  cases after with
  | some id => rfl
  | none =>
      refine List.filter_eq_self.mpr fun r hr => decide_eq_true ?_
      obtain ⟨hpos, hmax⟩ := hids r (mem_sorted.mp hr).1
      unfold Filter.before
      cases filter.newestFirst <;> simpa

/-! ## One page -/

/-- The rows a page takes, and whether it was cut: it takes at least one. -/
theorem pageRows_ok {raw : List RawRow} (hread : ∀ r ∈ raw, ∃ row, r.parse lib = .ok row)
    (rows : List ExecRow) (bytes : Nat) :
    ∃ page cut, pageRows lib rows bytes raw = .ok (rows ++ page, cut) ∧
      ∃ taken left, raw = taken ++ left ∧
        List.Forall₂ (fun r row => r.parse lib = .ok row) taken page ∧
        (cut = true ↔ left ≠ []) ∧ (rows = [] → raw ≠ [] → taken ≠ []) := by
  induction raw generalizing rows bytes with
  | nil => exact ⟨[], false, by simp [pageRows], [], [], rfl, .nil, by simp, fun _ h => absurd rfl h⟩
  | cons r raw ih =>
      by_cases hfull : (!rows.isEmpty && decide (pageBytes ≤ bytes)) = true
      · refine ⟨[], true, ?_, [], r :: raw, rfl, .nil, by simp, ?_⟩
        · rw [pageRows, if_pos hfull, List.append_nil]
          rfl
        · rintro rfl
          contradiction
      · obtain ⟨row, hrow⟩ := hread r List.mem_cons_self
        obtain ⟨page, cut, hpage, taken, left, rfl, htaken, hcut, -⟩ :=
          ih (fun x hx => hread x (List.mem_cons_of_mem _ hx)) (rows ++ [row]) (bytes + r.bytes)
        refine ⟨row :: page, cut, ?_, r :: taken, left, rfl, .cons hrow htaken, hcut, by simp⟩
        rw [pageRows, if_neg hfull, hrow]
        show pageRows lib (rows ++ [row]) (bytes + r.bytes) (taken ++ left) = _
        rw [hpage, List.append_assoc, List.singleton_append]

theorem ids_of_parse {taken : List RawRow} {rows : List ExecRow}
    (h : List.Forall₂ (fun r row => r.parse lib = .ok row) taken rows) :
    rows.map (·.id) = taken.map (·.id) := by
  induction h with
  | nil => rfl
  | cons hrow _ ih => rw [List.map_cons, List.map_cons, ih, (parse_ok hrow).1]

/-- **A list answers with a page.** Whatever the sizes of the rows, what it returns is taken from the
rows of the settled table that come after the cursor. -/
theorem list_isPage {db db' : Db} {now : Int} {expired : List Int}
    (hsettle : settle lib db now = .ok (db', expired)) (hrows : Readable lib db'.requests.rows)
    (filter : Filter) (after : Option Int) :
    ∃ page next, (Prod.snd <$> list lib db filter after now) = .ok (page, next) ∧
      IsPage (fun r : RawRow => r.id) (fun r row => r.parse lib = .ok row)
        (rest filter.before (·.id) (filter.sorted db'.requests.rows) after) page next := by
  rw [← listed_eq hrows.ids]
  have hread : ∀ r ∈ (db'.listed filter after).take page, ∃ row, r.parse lib = .ok row := by
    intro r hr
    have hr := List.mem_of_mem_take hr
    rw [listed_eq hrows.ids] at hr
    exact hrows.reads r (mem_sorted.mp (rest_subset hr)).1
  obtain ⟨rows, cut, hpage, taken, left, htake, htaken, hcut, hfirst⟩ := pageRows_ok hread [] 0
  have hraw : db'.listed filter after = taken ++ (left ++ (db'.listed filter after).drop page) := by
    rw [← List.append_assoc, ← htake, List.take_append_drop]
  have hmore : (db'.listed filter after).length > page ↔ (db'.listed filter after).drop page ≠ [] := by
    rw [Ne, List.drop_eq_nil_iff, not_le]
  have hlist : (Prod.snd <$> list lib db filter after now) = .ok (rows,
      if decide ((db'.listed filter after).length > page) || cut then rows.getLast?.map (·.id)
        else none) := by
    rw [List.nil_append] at hpage
    simp only [list, hsettle, bind, Except.bind, hpage]
    rfl
  refine ⟨rows, _, hlist, taken, _, hraw, htaken, fun hnone => ?_, fun hsome => ?_⟩
  · obtain ⟨hleft, hdrop⟩ := List.append_eq_nil_iff.mp hnone
    refine if_neg ?_
    rw [Bool.or_eq_true, decide_eq_true_eq, hmore, hcut, not_or, not_not, not_not]
    exact ⟨hdrop, hleft⟩
  · have hany : (decide ((db'.listed filter after).length > page) || cut) = true := by
      rw [Bool.or_eq_true, decide_eq_true_eq, hmore, hcut]
      by_contra hnot
      rw [not_or, not_not, not_not] at hnot
      exact hsome (List.append_eq_nil_iff.mpr ⟨hnot.2, hnot.1⟩)
    have htaken_ne : taken ≠ [] := by
      refine hfirst rfl fun hnil => hsome ?_
      rw [hnil] at htake
      obtain ⟨rfl, rfl⟩ := List.append_eq_nil_iff.mp htake.symm
      rw [List.nil_append, List.drop_eq_nil_iff, (List.take_eq_nil_iff.mp hnil).resolve_left (by decide)]
      exact Nat.zero_le _
    obtain ⟨x, hx⟩ := Option.ne_none_iff_exists'.mp (mt List.getLast?_eq_none_iff.mp htaken_ne)
    refine ⟨x, hx, ?_⟩
    rw [if_pos hany, ← List.getLast?_map, ids_of_parse htaken, List.getLast?_map, hx, Option.map_some]

/-! ## Following the cursors -/

/-- What a reader's list at one state and time answers with. -/
def ask (lib : Ext) (filter : Filter) (call : Db × Int) (after : Option Int) :
    Except ExecError (List ExecRow × Option Int) :=
  Prod.snd <$> list lib call.1 filter after call.2

/-- Where nothing is due, a list reads the table as it stands. -/
theorem settle_quiet {db : Db} {now : Int}
    (hquiet : ∀ r ∈ db.requests.rows, r.due now = false ∧ r.overdue now = false) :
    settle lib db now = .ok (db, []) := by
  have hids : ∀ p : RawRow → Bool, (∀ r ∈ db.requests.rows, p r = false) → db.ids p = [] := by
    intro p hp
    rw [Db.ids, List.filter_eq_nil_iff.mpr fun r hr => by simp [hp r hr]]
    rfl
  simp only [settle, hids _ fun r hr => (hquiet r hr).1, expireAll, bind, Except.bind,
    hids _ fun r hr => (hquiet r hr).2, interruptAll]
  rfl

/-- **Paging loses and repeats nothing.** For readable rows of any sizes, any filter and either order: a
reader who starts with no cursor and follows the one each page returns comes to a page without one, in
at most one call more than there are rows, and the pages one after the other are the matching rows in
the order of their ids, each once. Between its calls anything may happen, as long as every list reads
these rows. -/
theorem list_pages (lib : Ext) (filter : Filter) (rows : List RawRow) (calls : List (Db × Int))
    (hrows : Readable lib rows)
    (hstill : ∀ call ∈ calls, ∃ db expired, settle lib call.1 call.2 = .ok (db, expired) ∧
      db.requests.rows = rows)
    (hcalls : rows.length < calls.length) :
    ∃ pages, follow (ask lib filter) none calls = .ok (pages, true) ∧
      pages.flatten.Pairwise (fun a b => filter.before a.id b.id) ∧
      ∀ row, row ∈ pages.flatten ↔ ∃ r ∈ rows, filter.selects r = true ∧ r.parse lib = .ok row := by
  have hask : ∀ call ∈ calls, ∀ after, ∃ page next, ask lib filter call after = .ok (page, next) ∧
      IsPage (fun r : RawRow => r.id) (fun r row => r.parse lib = .ok row)
        (rest filter.before (·.id) (filter.sorted rows) after) page next := by
    intro call hcall after
    obtain ⟨db, expired, hsettle, rfl⟩ := hstill call hcall
    exact list_isPage hsettle hrows filter after
  obtain ⟨pages, hpages, hall⟩ := follow_all (sorted_pairwise filter hrows.nodup) hask
    (Nat.lt_of_le_of_lt (length_sorted_le filter rows) hcalls)
  refine ⟨pages, hpages, ?_, fun row => ⟨fun hrow => ?_, fun hrow => ?_⟩⟩
  · rw [← List.pairwise_map (f := fun row : ExecRow => row.id), ids_of_parse hall, List.pairwise_map]
    exact sorted_pairwise filter hrows.nodup
  · obtain ⟨r, hr, hparse⟩ := exists_of_forall₂ hall row hrow
    exact ⟨r, (mem_sorted.mp hr).1, (mem_sorted.mp hr).2, hparse⟩
  · obtain ⟨r, hr, hselects, hparse⟩ := hrow
    obtain ⟨x, hx, hxr⟩ := exists_of_forall₂ (R := fun row r => r.parse lib = .ok row) hall.flip r
      (mem_sorted.mpr ⟨hr, hselects⟩)
    rw [hparse] at hxr
    cases hxr
    exact hx

/-- Three asked for in one session. -/
def threeAsked : List Op :=
  ["/a", "/b", "/c"].map fun dir =>
    .request ⟨"s", none, "worker", none⟩ ⟨.host, dir, .host, ["ls"], "", none, none⟩ 0

theorem list_pages_threeAsked :
    ∃ pages, follow (ask Ext.plain ⟨some .pending, none, true⟩) none
        (List.replicate 4 (run (step Ext.plain) Db.empty threeAsked, 5)) = .ok (pages, true) ∧
      pages.flatten.Pairwise (fun a b => (⟨some .pending, none, true⟩ : Filter).before a.id b.id) ∧
      ∀ row, row ∈ pages.flatten ↔ ∃ r ∈ (run (step Ext.plain) Db.empty threeAsked).requests.rows,
        (⟨some .pending, none, true⟩ : Filter).selects r = true ∧ r.parse Ext.plain = .ok row := by
  refine list_pages Ext.plain ⟨some .pending, none, true⟩ _ _
    (readable_run Ext.plain threeAsked (by decide)) (fun call hcall => ?_) (by decide +kernel)
  rw [List.eq_of_mem_replicate hcall]
  exact ⟨_, [], settle_quiet (by decide +kernel), rfl⟩

end Jkb.Exec
