import Jkb.Tx
import Mathlib.Data.List.Sort

/-!
# Jkb.Pages

Reading a list by pages. A page is what a call answers with, and a cursor: the key to go on after, or
none when nothing is left. The reader starts with no cursor and asks again with each one it is given.

The calls may cut a page where they like, as long as each takes something from a list that is not at
its end and returns the key of the last element it took. `follow_all` says that the pages are then the
list, whatever the cuts were. Where a cursor may also be a key at which nothing stands, `follow_cuts` says the same.
-/

namespace Jkb.Pages

open Tx

variable {α β κ γ ε : Type}

/-- The pages a reader is given by `calls` from the cursor `after` on, and whether it came to one
without a cursor; no later call is made then. -/
def follow (ask : γ → Option κ → Except ε (List β × Option κ)) :
    Option κ → List γ → Except ε (List (List β) × Bool)
  | _, [] => .ok ([], false)
  | after, call :: calls => do
      let (page, next) ← ask call after
      match next with
      | none => pure ([page], true)
      | some key => do
          let (pages, ended) ← follow ask (some key) calls
          pure (page :: pages, ended)

/-- What of a list a page from its front takes: some of it unless nothing is there, with the key of the
last element taken as the cursor while any is left. -/
def IsPage (key : α → κ) (R : α → β → Prop) (rest : List α) (page : List β) (next : Option κ) : Prop :=
  ∃ taken left, rest = taken ++ left ∧ List.Forall₂ R taken page ∧ (left = [] → next = none) ∧
    (left ≠ [] → ∃ x, taken.getLast? = some x ∧ next = some (key x))

/-- What comes after an element of a list in strict order is what its key is before. -/
theorem filter_after {lt : κ → κ → Prop} [IsTrans κ lt] [Std.Irrefl lt] [DecidableRel lt] {key : α → κ}
    {xs ys : List α} {x : α} (hsort : (xs ++ ys).Pairwise fun a b => lt (key a) (key b))
    (hx : xs.getLast? = some x) : (xs ++ ys).filter (fun y => lt (key x) (key y)) = ys := by
  obtain ⟨xs, rfl⟩ := List.getLast?_eq_some_iff.mp hx
  rw [List.pairwise_append] at hsort
  obtain ⟨hxs, -, hbetween⟩ := hsort
  have hnone : (xs ++ [x]).filter (fun y => lt (key x) (key y)) = [] := by
    rw [List.filter_eq_nil_iff]
    intro y hy hlt
    rcases List.mem_append.mp hy with hy | hy
    · have hyx := (List.pairwise_append.mp hxs).2.2 y hy x List.mem_cons_self
      exact Std.Irrefl.irrefl (r := lt) _ (IsTrans.trans _ _ _ hyx (of_decide_eq_true hlt))
    · rw [List.mem_singleton.mp hy] at hlt
      exact Std.Irrefl.irrefl (r := lt) _ (of_decide_eq_true hlt)
  have hall : ys.filter (fun y => lt (key x) (key y)) = ys :=
    List.filter_eq_self.mpr fun y hy =>
      decide_eq_true (hbetween x (List.mem_append_right _ List.mem_cons_self) y hy)
  rw [List.filter_append, hnone, hall, List.nil_append]

/-- What of a list comes after a cursor; without one, all of it. -/
def rest (lt : κ → κ → Prop) [DecidableRel lt] (key : α → κ) (all : List α) : Option κ → List α
  | none => all
  | some k => all.filter fun y => lt k (key y)

theorem rest_subset {lt : κ → κ → Prop} [DecidableRel lt] {key : α → κ} {all : List α}
    {after : Option κ} {x : α} (hx : x ∈ rest lt key all after) : x ∈ all := by
  cases after with
  | none => exact hx
  | some k => exact (List.mem_filter.mp hx).1

theorem rest_append {lt : κ → κ → Prop} [IsTrans κ lt] [Std.Irrefl lt] [DecidableRel lt] {key : α → κ}
    {xs ys : List α} (hsort : (xs ++ ys).Pairwise fun a b => lt (key a) (key b)) :
    rest lt key (xs ++ ys) (xs.getLast?.map key) = ys := by
  cases hx : xs.getLast? with
  | none => rw [List.getLast?_eq_none_iff.mp hx, List.nil_append]; rfl
  | some x => exact filter_after hsort hx

/-- The pages from the cursor of a list's front part are the rest of it. -/
theorem follow_from {lt : κ → κ → Prop} [IsTrans κ lt] [Std.Irrefl lt] [DecidableRel lt] {key : α → κ}
    {R : α → β → Prop} {ask : γ → Option κ → Except ε (List β × Option κ)} {all : List α}
    (hsort : all.Pairwise fun a b => lt (key a) (key b)) {calls : List γ}
    (hask : ∀ call ∈ calls, ∀ after, ∃ page next, ask call after = .ok (page, next) ∧
      IsPage key R (rest lt key all after) page next)
    (xs ys : List α) (hall : all = xs ++ ys) (hlen : ys.length < calls.length) :
    ∃ pages, follow ask (xs.getLast?.map key) calls = .ok (pages, true) ∧
      List.Forall₂ R ys pages.flatten := by
  induction calls generalizing xs ys with
  | nil => contradiction
  | cons call calls ih =>
      obtain ⟨page, next, hpage, hcut⟩ := hask call List.mem_cons_self (xs.getLast?.map key)
      rw [hall, rest_append (hall ▸ hsort)] at hcut
      obtain ⟨taken, left, rfl, hR, hend, hmore⟩ := hcut
      by_cases hleft : left = []
      · subst hleft
        rw [List.append_nil]
        exact ⟨[page], bind_eq_ok.mpr ⟨_, hpage, by rw [hend rfl]; rfl⟩, by simpa using hR⟩
      · obtain ⟨x, hx, hnext⟩ := hmore hleft
        have htaken : 0 < taken.length := List.length_pos_iff.mpr (by rintro rfl; contradiction)
        have hlast : (xs ++ taken).getLast?.map key = some (key x) := by
          simp [List.getLast?_append, hx]
        obtain ⟨pages, hpages, hrest⟩ := ih (fun c hc => hask c (List.mem_cons_of_mem _ hc))
          (xs ++ taken) left (by rw [hall, List.append_assoc])
          (by simp only [List.length_append, List.length_cons] at hlen; omega)
        rw [hlast] at hpages
        refine ⟨page :: pages, ?_, List.rel_append hR hrest⟩
        refine bind_eq_ok.mpr ⟨(page, next), hpage, ?_⟩
        rw [hnext]
        exact bind_eq_ok.mpr ⟨(pages, true), hpages, rfl⟩

/-- **Following the cursors reads the list.** Where each page is taken from what of a sorted list comes
after its cursor, a reader who makes more calls than the list has elements comes to the end, and the
pages one after the other are the list. -/
theorem follow_all {lt : κ → κ → Prop} [IsTrans κ lt] [Std.Irrefl lt] [DecidableRel lt] {key : α → κ}
    {R : α → β → Prop} {ask : γ → Option κ → Except ε (List β × Option κ)} {all : List α}
    (hsort : all.Pairwise fun a b => lt (key a) (key b)) {calls : List γ}
    (hask : ∀ call ∈ calls, ∀ after, ∃ page next, ask call after = .ok (page, next) ∧
      IsPage key R (rest lt key all after) page next)
    (hlen : all.length < calls.length) :
    ∃ pages, follow ask none calls = .ok (pages, true) ∧ List.Forall₂ R all pages.flatten :=
  follow_from hsort hask [] all rfl hlen

/-! ## Pages that are cut anywhere -/

section Cuts

variable {χ : Type} [LinearOrder κ] {key : α → κ} {all : List α} {stops : List κ}

/-- What of a list a page takes that is cut at a key: what comes up to it. Without a cursor the page is all that is
left; a cursor is one of the places where a page may stop, and further on than the one before. -/
def IsCut (key : α → κ) (all : List α) (stops : List κ) (after : Option κ) (page : List α) : Option κ → Prop
  | none => page = rest (· < ·) key all after
  | some k => k ∈ stops ∧ (∀ a, after = some a → a < k) ∧
      page = (rest (· < ·) key all after).filter fun x => key x ≤ k

/-- What comes after a later cursor is what comes after it of what came after an earlier one. -/
theorem rest_of_lt {after : Option κ} {k : κ} (h : ∀ a, after = some a → a < k) :
    rest (· < ·) key all (some k) = (rest (· < ·) key all after).filter fun x => k < key x := by
  cases after with
  | none => rfl
  | some a =>
      rw [rest, rest, List.filter_filter]
      refine List.filter_congr fun x _ => ?_
      rw [Bool.eq_iff_iff, Bool.and_eq_true, decide_eq_true_eq, decide_eq_true_eq]
      exact ⟨fun hk => ⟨hk, (h a rfl).trans hk⟩, And.left⟩

/-- A sorted list is what comes up to a key, and what comes after it. -/
theorem filter_le_append {xs : List α} (hsort : xs.Pairwise fun a b => key a < key b) (k : κ) :
    (xs.filter fun x => key x ≤ k) ++ xs.filter (fun x => k < key x) = xs := by
  induction xs with
  | nil => rfl
  | cons x xs ih =>
      rw [List.pairwise_cons] at hsort
      by_cases hx : key x ≤ k
      · rw [List.filter_cons_of_pos (by simpa using hx), List.filter_cons_of_neg (by simpa using hx),
          List.cons_append, ih hsort.2]
      · have hall : ∀ y ∈ x :: xs, k < key y := by
          intro y hy
          rcases List.mem_cons.mp hy with rfl | hy
          · exact not_le.mp hx
          · exact (not_le.mp hx).trans (hsort.1 y hy)
        rw [List.filter_eq_nil_iff.mpr fun y hy => by simpa using hall y hy, List.nil_append,
          List.filter_eq_self.mpr fun y hy => by simpa using hall y hy]

/-- The pages from a cursor are what comes after it. -/
theorem follow_cuts_from (shown : κ → χ) {ask : γ → Option χ → Except ε (List α × Option χ)}
    (hsort : all.Pairwise fun a b => key a < key b) {calls : List γ}
    (hask : ∀ call ∈ calls, ∀ after, (∀ a, after = some a → a ∈ stops) → ∃ page next,
      ask call (after.map shown) = .ok (page, next.map shown) ∧ IsCut key all stops after page next)
    (after : Option κ) (hafter : ∀ a, after = some a → a ∈ stops)
    (hlen : (stops.filter fun s => after.all (· < s)).length < calls.length) :
    ∃ pages, follow ask (after.map shown) calls = .ok (pages, true) ∧
      pages.flatten = rest (· < ·) key all after := by
  induction calls generalizing after with
  | nil => contradiction
  | cons call calls ih =>
      obtain ⟨page, next, hpage, hcut⟩ := hask call List.mem_cons_self after hafter
      cases next with
      | none => exact ⟨[page], bind_eq_ok.mpr ⟨_, hpage, rfl⟩, by rw [List.flatten_singleton]; exact hcut⟩
      | some k =>
          obtain ⟨hk, hlt, hcut⟩ := hcut
          have hfewer : (stops.filter fun s => (some k).all (· < s)).length <
              (stops.filter fun s => after.all (· < s)).length := by
            have hsub : (stops.filter fun s => (some k).all (· < s)) =
                (stops.filter fun s => after.all (· < s)).filter fun s => k < s := by
              rw [List.filter_filter]
              refine List.filter_congr fun s _ => ?_
              cases after with
              | none => simp
              | some a =>
                  rw [Bool.eq_iff_iff]
                  simp only [Option.all_some, decide_eq_true_eq, Bool.and_eq_true]
                  exact ⟨fun h => ⟨h, (hlt a rfl).trans h⟩, And.left⟩
            rw [hsub, List.length_filter_lt_length_iff_exists]
            refine ⟨k, List.mem_filter.mpr ⟨hk, ?_⟩, by simp⟩
            cases after with
            | none => rfl
            | some a => simpa using hlt a rfl
          obtain ⟨pages, hpages, hflat⟩ := ih (fun c hc => hask c (List.mem_cons_of_mem _ hc)) (some k)
            (fun a ha => Option.some.inj ha ▸ hk) (by simp only [List.length_cons] at hlen; omega)
          refine ⟨page :: pages, ?_, ?_⟩
          · refine bind_eq_ok.mpr ⟨_, hpage, bind_eq_ok.mpr ⟨(pages, true), hpages, rfl⟩⟩
          · have hrest : (rest (· < ·) key all after).Pairwise fun a b => key a < key b := by
              cases after with
              | none => exact hsort
              | some a => exact hsort.filter _
            rw [List.flatten_cons, hflat, hcut, rest_of_lt hlt, filter_le_append hrest]

/-- **Following cursors that may stop anywhere** comes to the end, in no more calls than there are places to stop and
one, and the pages one after the other are the list. -/
theorem follow_cuts (shown : κ → χ) {ask : γ → Option χ → Except ε (List α × Option χ)}
    (hsort : all.Pairwise fun a b => key a < key b) {calls : List γ}
    (hask : ∀ call ∈ calls, ∀ after, (∀ a, after = some a → a ∈ stops) → ∃ page next,
      ask call (after.map shown) = .ok (page, next.map shown) ∧ IsCut key all stops after page next)
    (hlen : stops.length < calls.length) :
    ∃ pages, follow ask none calls = .ok (pages, true) ∧ pages.flatten = all :=
  follow_cuts_from shown hsort hask none nofun (by simpa using hlen)

/-- What the first elements of a sorted list are: those up to the last of them. -/
theorem take_eq_filter {xs : List α} (hsort : xs.Pairwise fun a b => key a < key b) {n : Nat} {l : α}
    (hl : (xs.take n).getLast? = some l) : xs.take n = xs.filter fun x => key x ≤ key l := by
  obtain ⟨init, hinit⟩ := List.getLast?_eq_some_iff.mp hl
  have hlast : l ∈ xs.take n := hinit ▸ List.mem_append_right _ List.mem_cons_self
  rw [← List.take_append_drop n xs, List.pairwise_append] at hsort
  conv_rhs => rw [← List.take_append_drop n xs]
  rw [List.filter_append, List.filter_eq_self.mpr, List.filter_eq_nil_iff.mpr, List.append_nil]
  · intro x hx
    simpa using hsort.2.2 l hlast x hx
  · intro x hx
    rw [hinit] at hx hsort
    rcases List.mem_append.mp hx with hx | hx
    · simpa using le_of_lt ((List.pairwise_append.mp hsort.1).2.2 x hx l List.mem_cons_self)
    · simp [List.mem_singleton.mp hx]

/-- A read that stops at `cap` has all of what comes up to a bound, where the bound is not past its last. -/
theorem filter_take_of_le {xs : List α} (hsort : xs.Pairwise fun a b => key a < key b) {cap : Nat} (hcap : 0 < cap)
    {bound : Option κ}
    (hbound : ∀ l, cap ≤ (xs.take cap).length → (xs.take cap).getLast? = some l → ∃ b, bound = some b ∧ b ≤ key l) :
    ((xs.take cap).filter fun x => bound.all (key x ≤ ·)) = xs.filter fun x => bound.all (key x ≤ ·) := by
  by_cases hfull : cap ≤ xs.length
  · have hlen : (xs.take cap).length = cap := by rw [List.length_take]; omega
    cases hl : (xs.take cap).getLast? with
    | none =>
        rw [List.getLast?_eq_none_iff.mp hl, List.length_nil] at hlen
        omega
    | some l =>
        obtain ⟨b, rfl, hle⟩ := hbound l (Nat.le_of_eq hlen.symm) hl
        rw [take_eq_filter hsort hl, List.filter_filter]
        refine List.filter_congr fun x _ => ?_
        rw [Option.all_some, Bool.eq_iff_iff, Bool.and_eq_true, decide_eq_true_eq, decide_eq_true_eq]
        exact ⟨And.left, fun hx => ⟨hx, hx.trans hle⟩⟩
  · rw [List.take_of_length_le (by omega)]

/-- **A page of what is left up to a bound** is cut where it ends, or at the bound. -/
theorem isCut_take {after bound : Option κ} {n : Nat} (hn : 0 < n) {found : List α}
    (hsort : all.Pairwise fun a b => key a < key b) (hstops : ∀ x ∈ all, key x ∈ stops)
    (hbound : ∀ b, bound = some b → b ∈ stops ∧ ∀ a, after = some a → a < b)
    (hfound : found = (rest (· < ·) key all after).filter fun x => bound.all (key x ≤ ·)) :
    IsCut key all stops after (found.take n)
      (if bound.isSome ∨ n < found.length then ((found.take n).getLast?.map key).or bound else none) := by
  have hpast : ∀ x ∈ rest (· < ·) key all after, ∀ a, after = some a → a < key x := by
    rintro x hx a rfl
    exact of_decide_eq_true (List.mem_filter.mp hx).2
  have hrest : (rest (· < ·) key all after).Pairwise fun a b => key a < key b := by
    cases after with
    | none => exact hsort
    | some a => exact hsort.filter _
  have hmem : ∀ x ∈ found, x ∈ rest (· < ·) key all after ∧ bound.all (key x ≤ ·) = true := fun x hx => by
    rw [hfound] at hx
    exact List.mem_filter.mp hx
  split_ifs with hmore
  · cases hl : (found.take n).getLast? with
    | some l =>
        have hin : l ∈ found := List.mem_of_mem_take (List.mem_of_getLast? hl)
        obtain ⟨hlrest, hlbound⟩ := hmem l hin
        refine ⟨hstops l (rest_subset hlrest), hpast l hlrest, ?_⟩
        have hfsort : found.Pairwise fun a b => key a < key b := by
          rw [hfound]
          exact hrest.filter _
        rw [take_eq_filter hfsort hl, hfound, List.filter_filter]
        refine List.filter_congr fun x _ => ?_
        rw [Bool.eq_iff_iff, Bool.and_eq_true, decide_eq_true_eq]
        refine ⟨And.left, fun hx => ⟨hx, ?_⟩⟩
        cases bound with
        | none => rfl
        | some b =>
            rw [Option.all_some, decide_eq_true_eq] at hlbound ⊢
            exact hx.trans hlbound
    | none =>
        have hnil : found = [] := by
          rcases List.take_eq_nil_iff.mp (List.getLast?_eq_none_iff.mp hl) with h | h
          · omega
          · exact h
        cases bound with
        | none => simp [hnil] at hmore
        | some b =>
            obtain ⟨hb, hlt⟩ := hbound b rfl
            refine ⟨hb, hlt, ?_⟩
            rw [hnil, List.take_nil, ← hnil]
            simpa using hfound
  · rw [not_or] at hmore
    cases bound with
    | some b => simp at hmore
    | none =>
        show found.take n = _
        rw [List.take_of_length_le (by omega), hfound]
        simp

end Cuts

/-! ## Sorted lists -/

/-- Selecting from a sorted list is sorting what is selected. -/
theorem filter_insertionSort {le : α → α → Prop} [DecidableRel le] [IsTrans α le] [Std.Total le]
    {l : List α} (hanti : ∀ a ∈ l, ∀ b ∈ l, le a b → le b a → a = b) (p : α → Bool) :
    (l.filter p).insertionSort le = (l.insertionSort le).filter p := by
  have hperm : ((l.filter p).insertionSort le).Perm ((l.insertionSort le).filter p) :=
    (List.perm_insertionSort le _).trans ((List.perm_insertionSort le l).filter p).symm
  refine hperm.eq_of_pairwise (fun a b ha hb hab hba => ?_)
    (List.pairwise_insertionSort le _) ((List.pairwise_insertionSort le _).filter p)
  have ha := (List.mem_filter.mp ((List.mem_insertionSort le).mp ha)).1
  exact hanti a ha b ((List.mem_insertionSort le).mp (List.mem_filter.mp hb).1) hab hba

end Jkb.Pages
