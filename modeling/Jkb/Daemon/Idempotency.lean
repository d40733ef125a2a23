import Mathlib.Algebra.GroupWithZero.Nat
import Mathlib.Data.List.MinMax
import Jkb.Table

/-!
# Jkb.Daemon.Idempotency

What `jkb serve` remembers of the requests that carried an `Idempotency-Key`. The first request of a key runs its op;
a repeat waits for it, or is answered what it was. Answers expire a while after they were recorded, and past a number
of entries or of bytes the oldest go first; an entry that is still in progress stays, whatever the caps say.

`Store.Kept` is what every operation keeps. What one leaves under a key is in the `find?_` lemmas: an entry in
progress is only ever ended by its own id, and an answer only goes when it has expired or when there is no room.
-/

namespace Jkb.Daemon

/-! ## entries -/

/-- An op that runs, or what it answered: how long that is, and since when it is known. -/
inductive State (V : Type*) where
  | inProgress
  | done (value : V) (bytes since : Nat)
deriving Repr, DecidableEq

structure Entry (K V : Type*) where
  key : K
  id : Nat
  fingerprint : Nat
  state : State V
deriving Repr, DecidableEq

namespace Entry

variable {K V : Type*}

def isDone (e : Entry K V) : Bool :=
  match e.state with
  | .inProgress => false
  | .done .. => true

def bytes (e : Entry K V) : Nat :=
  match e.state with
  | .inProgress => 0
  | .done _ bytes _ => bytes

/-- Since when the answer is known. -/
def since (e : Entry K V) : Nat :=
  match e.state with
  | .inProgress => 0
  | .done _ _ since => since

def isExpired (ttl now : Nat) (e : Entry K V) : Bool := e.isDone && ttl ≤ now - e.since

end Entry

/-! ## the store -/

/-- The order that a hash map happens to be gone through in. -/
structure Iter (α : Type*) where
  of : List α → List α
  perm : ∀ l, (of l).Perm l

/-- The recorded requests. -/
structure Store (K V : Type*) where
  entries : Table (Entry.key : Entry K V → K) := .empty
  nextId : Nat := 0
  doneBytes : Nat := 0
  ttl : Nat
  maxEntries : Nat
  maxBytes : Nat

/-- What to do with a request. -/
inductive Begin (V : Type*) where
  | run (id : Nat)
  | replay (value : V)
  | wait (id : Nat)
  | mismatch
deriving Repr, DecidableEq

namespace Store

variable {K V : Type*} [DecidableEq K] (iter : Iter (Entry K V)) (s : Store K V)

def expire (now : Nat) : Store K V :=
  { s with
    entries := s.entries.deleteWhere (·.isExpired s.ttl now)
    doneBytes := s.doneBytes - ((s.entries.rows.filter (·.isExpired s.ttl now)).map Entry.bytes).sum }

/-- Over either cap. -/
def overfull : Bool := s.maxEntries < s.entries.rows.length || s.maxBytes < s.doneBytes

/-- The oldest answer, of those as old the first that is met. -/
def oldest : Option (Entry K V) := ((iter.of s.entries.rows).filter Entry.isDone).argmin Entry.since

def remove (e : Entry K V) : Store K V :=
  { s with entries := s.entries.deleteWhere (·.key = e.key), doneBytes := s.doneBytes - e.bytes }

/-- The loop of `evict`, which takes an entry each time. -/
def evictFrom : Nat → Store K V → Store K V
  | 0, s => s
  | n + 1, s =>
      if s.overfull then
        match s.oldest iter with
        | none => s
        | some e => evictFrom n (s.remove e)
      else s

/-- Drop the oldest answers while over either cap. -/
def evict : Store K V := evictFrom iter s.entries.rows.length s

def begin (key : K) (fingerprint now : Nat) : Begin V × Store K V :=
  let s := s.expire now
  match s.entries.find? key with
  | some e =>
      if e.fingerprint ≠ fingerprint then (.mismatch, s)
      else
        match e.state with
        | .done value .. => (.replay value, s)
        | .inProgress => (.wait e.id, s)
  | none =>
      let entry : Entry K V := ⟨key, s.nextId, fingerprint, .inProgress⟩
      (.run s.nextId, { s with entries := s.entries.put entry, nextId := s.nextId + 1 }.evict iter)

/-- The entry of an op that runs, under its key and its id. -/
def running (key : K) (id : Nat) : Option (Entry K V) :=
  (s.entries.find? key).filter fun e => e.id = id && !e.isDone

def finish (key : K) (id : Nat) (value : V) (bytes now : Nat) : Store K V :=
  match s.running key id with
  | none => s
  | some e =>
      { s with
        entries := s.entries.put { e with state := .done value bytes now }
        doneBytes := s.doneBytes + bytes }.evict iter

def abandon (key : K) (id : Nat) : Store K V :=
  match s.running key id with
  | none => s
  | some e => { s with entries := s.entries.deleteWhere (·.key = e.key) }

def contains (key : K) : Bool := (s.entries.find? key).isSome

/-- What the store was made with. -/
def settings : Nat × Nat × Nat := (s.ttl, s.maxEntries, s.maxBytes)

end Store

/-! ## what is dropped for room -/

namespace Store

variable {K V : Type*} {iter : Iter (Entry K V)} {s s' : Store K V} {e r : Entry K V} {now : Nat}

/-- The oldest entry is done, and none that is done is older. -/
theorem oldest_eq_some (h : s.oldest iter = some e) :
    e ∈ s.entries.rows ∧ e.isDone = true ∧ ∀ r ∈ s.entries.rows, r.isDone = true → e.since ≤ r.since := by
  obtain ⟨hmem, hdone⟩ := List.mem_filter.mp (List.argmin_mem h)
  refine ⟨(iter.perm _).mem_iff.mp hmem, hdone, fun r hr hrdone => ?_⟩
  exact List.le_of_mem_argmin (List.mem_filter.mpr ⟨(iter.perm _).mem_iff.mpr hr, hrdone⟩) h

/-- Where there is no oldest entry, nothing is done. -/
theorem oldest_eq_none (h : s.oldest iter = none) (he : e ∈ s.entries.rows) : e.isDone = false := by
  by_contra hdone
  have hmem := List.mem_filter.mpr ⟨(iter.perm _).mem_iff.mpr he, Bool.eq_true_of_not_eq_false hdone⟩
  rw [List.argmin_eq_none.mp h] at hmem
  exact List.not_mem_nil hmem

/-- A store and one with fewer answers, all of those that are gone no younger than those that are left. -/
structure Evicts (s s' : Store K V) : Prop where
  rows : s'.entries.rows.Sublist s.entries.rows
  gone : ∀ e ∈ s.entries.rows, e ∉ s'.entries.rows → e.isDone = true ∧
    ∀ r ∈ s'.entries.rows, r.isDone = true → e.since ≤ r.since
  nextId : s'.nextId = s.nextId
  ttl : s'.ttl = s.ttl
  maxEntries : s'.maxEntries = s.maxEntries
  maxBytes : s'.maxBytes = s.maxBytes

/-- Nothing more is to be dropped: the store is within its caps, or holds no answer. -/
def Fits (s : Store K V) : Prop := s.overfull = false ∨ ∀ e ∈ s.entries.rows, e.isDone = false

theorem evicts_refl (s : Store K V) : Evicts s s :=
  ⟨List.Sublist.refl _, fun _ he hno => absurd he hno, rfl, rfl, rfl, rfl⟩

/-- An eviction leaves the settings. -/
theorem Evicts.settings (h : Evicts s s') : s'.settings = s.settings := by
  rw [Store.settings, h.ttl, h.maxEntries, h.maxBytes, Store.settings]

theorem ttl_of_settings (h : s'.settings = s.settings) : s'.ttl = s.ttl := congrArg Prod.fst h

/-- Fewer entries and fewer bytes fit no worse. -/
theorem Fits.of_le (h : s.Fits) (hrows : s'.entries.rows.Sublist s.entries.rows) (hbytes : s'.doneBytes ≤ s.doneBytes)
    (hentries : s'.maxEntries = s.maxEntries) (hmax : s'.maxBytes = s.maxBytes) : s'.Fits := by
  obtain hover | hnone := h
  · have hlength := hrows.length_le
    simp only [overfull, Bool.or_eq_false_iff, decide_eq_false_iff_not, not_lt] at hover
    refine Or.inl ?_
    simp only [overfull, hentries, hmax, Bool.or_eq_false_iff, decide_eq_false_iff_not, not_lt]
    omega
  · exact Or.inr fun e he => hnone e (hrows.subset he)

/-- What fits still fits when entries expire. -/
theorem Fits.expire (h : s.Fits) : (s.expire now).Fits := h.of_le List.filter_sublist (Nat.sub_le _ _) rfl rfl

/-- The bytes of the entries, counted in two parts. -/
theorem sum_filter_add_sum_filter_not (p : Entry K V → Bool) (rows : List (Entry K V)) :
    ((rows.filter p).map Entry.bytes).sum + ((rows.filter fun e => !p e).map Entry.bytes).sum =
      (rows.map Entry.bytes).sum := by
  rw [← List.sum_append, ← List.map_append]
  exact ((List.filter_append_perm p rows).map Entry.bytes).sum_nat

/-- Ids are given once, and the bytes are counted of the answers that are there. -/
structure Kept (s : Store K V) : Prop where
  issued : ∀ e ∈ s.entries.rows, e.id < s.nextId
  once : (s.entries.rows.map Entry.id).Nodup
  bytes : s.doneBytes = (s.entries.rows.map Entry.bytes).sum

/-- Entries that expire keep what every operation keeps. -/
theorem Kept.expire (h : s.Kept) : (s.expire now).Kept where
  issued e he := h.issued e (Table.mem_deleteWhere.mp he).1
  once := h.once.sublist (List.filter_sublist.map Entry.id)
  bytes := by
    have hsum := sum_filter_add_sum_filter_not (·.isExpired s.ttl now) s.entries.rows
    rw [← h.bytes] at hsum
    show s.doneBytes - _ = _
    exact (Nat.eq_sub_of_add_eq' hsum).symm

variable [DecidableEq K] {key k : K} {id fingerprint n : Nat}

/-- What is left when an entry is removed. -/
theorem mem_remove : r ∈ (s.remove e).entries.rows ↔ r ∈ s.entries.rows ∧ r.key ≠ e.key := by
  simp [remove]

/-- An entry that is removed is the only one that goes. -/
theorem perm_remove (he : e ∈ s.entries.rows) : s.entries.rows.Perm (e :: (s.remove e).entries.rows) :=
  Table.perm_cons_deleteWhere he

/-- The oldest answer goes, and then others. -/
theorem Evicts.of_remove (h : s.oldest iter = some e) (hrest : Evicts (s.remove e) s') : Evicts s s' := by
  obtain ⟨he, hdone, hold⟩ := oldest_eq_some h
  have hsub : (s.remove e).entries.rows.Sublist s.entries.rows := List.filter_sublist
  refine { hrest with rows := hrest.rows.trans hsub, gone := fun r hr hno => ?_ }
  by_cases hkey : r.key = e.key
  · obtain rfl := s.entries.eq_of_key_eq hr he hkey
    exact ⟨hdone, fun x hx => hold x (hsub.subset (hrest.rows.subset hx))⟩
  · exact hrest.gone r (mem_remove.mpr ⟨hr, hkey⟩) hno

/-- What is evicted are entries of the store. -/
theorem evicts_evictFrom (n : Nat) (s : Store K V) : Evicts s (evictFrom iter n s) := by
  induction n generalizing s with
  | zero => exact evicts_refl s
  | succ n ih =>
      rw [evictFrom]
      split
      · cases hold : s.oldest iter with
        | none => exact evicts_refl s
        | some e => exact (ih _).of_remove hold
      · exact evicts_refl s

/-- **Only answers are dropped for room, and the oldest first.** -/
theorem evicts_evict (iter : Iter (Entry K V)) (s : Store K V) : Evicts s (s.evict iter) := evicts_evictFrom _ s

/-- With as many rounds as there are entries, what is left fits. -/
theorem fits_evictFrom (hn : s.entries.rows.length ≤ n) : (evictFrom iter n s).Fits := by
  induction n generalizing s with
  | zero =>
      refine Or.inr fun e he => ?_
      rw [evictFrom, List.length_eq_zero_iff.mp (Nat.le_zero.mp hn)] at he
      exact absurd he List.not_mem_nil
  | succ n ih =>
      rw [evictFrom]
      split
      · cases hold : s.oldest iter with
        | none => exact Or.inr fun e he => oldest_eq_none hold he
        | some e =>
            have hlength := (perm_remove (oldest_eq_some hold).1).length_eq
            rw [List.length_cons] at hlength
            exact ih (by omega)
      · next hover => exact Or.inl (Bool.eq_false_of_not_eq_true hover)

/-- As many are dropped as must be. -/
theorem fits_evict (s : Store K V) : (s.evict iter).Fits := fits_evictFrom (Nat.le_refl _)

/-! ## what every operation keeps -/

/-- An entry that is removed keeps what every operation keeps. -/
theorem Kept.remove (h : s.Kept) (he : e ∈ s.entries.rows) : (s.remove e).Kept where
  issued r hr := h.issued r (mem_remove.mp hr).1
  once := h.once.sublist (List.filter_sublist.map Entry.id)
  bytes := by
    have hsum := ((perm_remove he).map Entry.bytes).sum_nat
    rw [List.map_cons, List.sum_cons, ← h.bytes] at hsum
    show s.doneBytes - e.bytes = _
    omega

/-- So do many. -/
theorem Kept.evictFrom (h : s.Kept) (n : Nat) : (evictFrom iter n s).Kept := by
  induction n generalizing s with
  | zero => exact h
  | succ n ih =>
      rw [Store.evictFrom]
      split
      · cases hold : s.oldest iter with
        | none => exact h
        | some e => exact ih (h.remove (oldest_eq_some hold).1)
      · exact h

/-- So does an eviction. -/
theorem Kept.evict (h : s.Kept) : (s.evict iter).Kept := h.evictFrom _

/-- What is put under a key takes the place of what was there. -/
theorem sum_put (t : Table (Entry.key : Entry K V → K)) (e : Entry K V) :
    ((t.put e).rows.map Entry.bytes).sum =
      e.bytes + ((t.deleteWhere fun x => x.key = e.key).rows.map Entry.bytes).sum := by
  rw [((Table.perm_put t e).map Entry.bytes).sum_nat, List.map_cons, List.sum_cons]

/-- An entry in progress, as `running` finds it. -/
theorem running_eq_some : s.running key id = some e ↔
    s.entries.find? key = some e ∧ e.id = id ∧ e.state = .inProgress := by
  have hstate : e.isDone = false ↔ e.state = .inProgress := by
    unfold Entry.isDone
    cases e.state <;> simp
  simp [running, Option.filter_eq_some_iff, hstate]

/-- What a begin finds. -/
theorem begin_cases (iter : Iter (Entry K V)) (s : Store K V) (key : K) (fingerprint now : Nat) :
    ((s.expire now).entries.find? key = none ∧ s.begin iter key fingerprint now =
      (.run s.nextId, { s.expire now with
        entries := (s.expire now).entries.put ⟨key, s.nextId, fingerprint, .inProgress⟩
        nextId := s.nextId + 1 }.evict iter)) ∨
      ∃ e, (s.expire now).entries.find? key = some e ∧ (s.begin iter key fingerprint now).2 = s.expire now ∧
        (s.begin iter key fingerprint now).1 =
          if e.fingerprint ≠ fingerprint then .mismatch
          else match e.state with
            | .done value .. => .replay value
            | .inProgress => .wait e.id := by
  unfold begin
  dsimp only
  cases hk : (s.expire now).entries.find? key with
  | none => exact Or.inl ⟨rfl, rfl⟩
  | some e =>
      refine Or.inr ⟨e, rfl, ?_⟩
      dsimp only
      split
      · exact ⟨rfl, rfl⟩
      · cases e.state <;> exact ⟨rfl, rfl⟩

/-- So does `begin`. -/
theorem Kept.begin (h : s.Kept) : (s.begin iter key fingerprint now).2.Kept := by
  obtain ⟨hfree, heq⟩ | ⟨e, -, heq, -⟩ := begin_cases iter s key fingerprint now
  swap
  · rw [heq]
    exact h.expire
  rw [heq]
  refine Kept.evict ⟨fun e he => ?_, ?_, ?_⟩
  · obtain ⟨he, -⟩ | rfl := Table.mem_put.mp he
    · exact Nat.lt_succ_of_lt (h.expire.issued e he)
    · exact Nat.lt_succ_self _
  · rw [((Table.perm_put _ _).map Entry.id).nodup_iff, Table.deleteWhere_of_find?_eq_none hfree]
    refine List.nodup_cons.mpr ⟨fun hmem => ?_, h.expire.once⟩
    obtain ⟨e, he, hid⟩ := List.mem_map.mp hmem
    exact Nat.lt_irrefl _ (hid ▸ h.expire.issued e he)
  · show (s.expire now).doneBytes = _
    rw [sum_put, Table.deleteWhere_of_find?_eq_none hfree, h.expire.bytes]
    exact (Nat.zero_add _).symm

/-- So does `finish`. -/
theorem Kept.finish {value : V} {bytes : Nat} (h : s.Kept) : (s.finish iter key id value bytes now).Kept := by
  unfold Store.finish
  cases hrun : s.running key id with
  | none => exact h
  | some e =>
      obtain ⟨hfind, rfl, hstate⟩ := running_eq_some.mp hrun
      obtain ⟨he, rfl⟩ := Table.find?_eq_some.mp hfind
      have hperm : s.entries.rows.Perm (e :: (s.entries.deleteWhere fun x => x.key = e.key).rows) :=
        Table.perm_cons_deleteWhere he
      have hsum := (hperm.map Entry.bytes).sum_nat
      rw [← h.bytes, List.map_cons, List.sum_cons] at hsum
      have hzero : e.bytes = 0 := by rw [Entry.bytes, hstate]
      refine Kept.evict ⟨fun r hr => ?_, ?_, ?_⟩
      · obtain ⟨hr, -⟩ | rfl := Table.mem_put.mp hr
        · exact h.issued r hr
        · exact h.issued e he
      · have honce := (hperm.map Entry.id).nodup_iff.mp h.once
        rw [((Table.perm_put _ _).map Entry.id).nodup_iff]
        exact honce
      · show s.doneBytes + bytes = _
        rw [sum_put, hsum, hzero]
        rw [Nat.zero_add]
        exact Nat.add_comm _ _

/-- So does `abandon`. -/
theorem Kept.abandon (h : s.Kept) : (s.abandon key id).Kept := by
  unfold Store.abandon
  cases hrun : s.running key id with
  | none => exact h
  | some e =>
      obtain ⟨hfind, rfl, hstate⟩ := running_eq_some.mp hrun
      have hzero : e.bytes = 0 := by rw [Entry.bytes, hstate]
      have hkept := h.remove (Table.mem_of_find? hfind)
      exact ⟨hkept.issued, hkept.once, by simpa [Store.remove, hzero] using hkept.bytes⟩

/-! ## room -/

/-- What fits still fits after `begin`. -/
theorem Fits.begin (h : s.Fits) : (s.begin iter key fingerprint now).2.Fits := by
  obtain ⟨-, heq⟩ | ⟨e, -, heq, -⟩ := begin_cases iter s key fingerprint now
  · rw [heq]
    exact fits_evict _
  · rw [heq]
    exact h.expire

/-- So it does after `finish`, however long the value is. -/
theorem Fits.finish {value : V} {bytes : Nat} (h : s.Fits) : (s.finish iter key id value bytes now).Fits := by
  unfold Store.finish
  split
  · exact h
  · exact fits_evict _

/-- So it does after `abandon`. -/
theorem Fits.abandon (h : s.Fits) : (s.abandon key id).Fits := by
  unfold Store.abandon
  split
  · exact h
  · exact h.of_le List.filter_sublist (Nat.le_refl _) rfl rfl

/-! ## what is under a key -/

/-- What is found after an eviction was there before. -/
theorem Evicts.find?_of_some (h : Evicts s s') (he : s'.entries.find? k = some e) : s.entries.find? k = some e :=
  Table.find?_eq_some.mpr ⟨h.rows.subset (Table.mem_of_find? he), Table.key_of_find? he⟩

/-- What is under a key stays there, but an answer may go. -/
theorem Evicts.find?_or (h : Evicts s s') (he : s.entries.find? k = some e) :
    s'.entries.find? k = some e ∨ e.isDone = true ∧ s'.entries.find? k = none := by
  obtain ⟨hmem, rfl⟩ := Table.find?_eq_some.mp he
  by_cases hstays : e ∈ s'.entries.rows
  · exact Or.inl (Table.find?_of_mem hstays)
  · refine Or.inr ⟨(h.gone e hmem hstays).1, Table.find?_eq_none.mpr fun r hr hkey => hstays ?_⟩
    exact s.entries.eq_of_key_eq (h.rows.subset hr) hmem hkey ▸ hr

/-- What is not there is not there after an eviction. -/
theorem Evicts.find?_eq_none (h : Evicts s s') (hnone : s.entries.find? k = none) : s'.entries.find? k = none := by
  cases hk : s'.entries.find? k with
  | none => rfl
  | some e => exact absurd (h.find?_of_some hk) (by simp [hnone])

/-- What is found once entries have expired. -/
theorem find?_expire (s : Store K V) (k : K) (now : Nat) :
    (s.expire now).entries.find? k = (s.entries.find? k).filter fun e => !e.isExpired s.ttl now :=
  Table.find?_deleteWhere _ _ _

/-- An op that runs does not expire. -/
theorem find?_expire_of_inProgress (he : s.entries.find? k = some e) (hstate : e.state = .inProgress) :
    (s.expire now).entries.find? k = some e := by
  rw [find?_expire, he, Option.filter_some_pos (by simp [Entry.isExpired, Entry.isDone, hstate])]

/-- A begin of a key that has no entry runs its op. -/
theorem begin_of_free (iter : Iter (Entry K V)) (fingerprint : Nat)
    (hfree : (s.expire now).entries.find? key = none) :
    (s.begin iter key fingerprint now).1 = .run s.nextId ∧
      (s.begin iter key fingerprint now).2.nextId = s.nextId + 1 ∧
      (s.begin iter key fingerprint now).2.settings = s.settings := by
  obtain ⟨-, heq⟩ | ⟨e, hfind, -⟩ := begin_cases iter s key fingerprint now
  · rw [heq]
    exact ⟨rfl, (evicts_evict _ _).nextId, (evicts_evict _ _).settings⟩
  · cases hfree.symm.trans hfind

/-- What it leaves under a key: that op under its own, and under the others what has not expired, unless it has gone
for room. -/
theorem find?_begin (iter : Iter (Entry K V)) (fingerprint : Nat)
    (hfree : (s.expire now).entries.find? key = none) (k : K) :
    (s.begin iter key fingerprint now).2.entries.find? k =
        (if key = k then some ⟨key, s.nextId, fingerprint, .inProgress⟩ else (s.expire now).entries.find? k) ∨
      key ≠ k ∧ ∃ e, (s.expire now).entries.find? k = some e ∧ e.isDone = true ∧
        (s.begin iter key fingerprint now).2.entries.find? k = none := by
  obtain ⟨-, heq⟩ | ⟨e, hfind, -⟩ := begin_cases iter s key fingerprint now
  swap
  · cases hfree.symm.trans hfind
  rw [heq]
  dsimp only
  have hevicts := evicts_evict iter { s.expire now with
    entries := (s.expire now).entries.put ⟨key, s.nextId, fingerprint, .inProgress⟩, nextId := s.nextId + 1 }
  have hput := Table.find?_put (s.expire now).entries (⟨key, s.nextId, fingerprint, .inProgress⟩ : Entry K V) k
  by_cases hkey : key = k
  · refine Or.inl ((hevicts.find?_or (hput.trans (if_pos hkey))).resolve_right (fun hdone => ?_) |>.trans ?_)
    · simp [Entry.isDone] at hdone
    · rw [if_pos hkey]
  · rw [if_neg hkey] at hput ⊢
    cases hk : (s.expire now).entries.find? k with
    | none => exact Or.inl (hevicts.find?_eq_none (hput.trans hk))
    | some e =>
        obtain hstays | ⟨hdone, hgone⟩ := hevicts.find?_or (hput.trans hk)
        · exact Or.inl hstays
        · exact Or.inr ⟨hkey, e, rfl, hdone, hgone⟩

/-- `abandon` of a run that is recorded removes its entry. -/
theorem abandon_of_running (hrun : s.running key id = some e) :
    s.abandon key id = { s with entries := s.entries.deleteWhere (·.key = e.key) } := by
  rw [Store.abandon, hrun]

/-- `finish` of a run that is recorded writes its value. -/
theorem finish_of_running {value : V} {bytes : Nat} (hrun : s.running key id = some e) :
    s.finish iter key id value bytes now = { s with
      entries := s.entries.put { e with state := .done value bytes now }
      doneBytes := s.doneBytes + bytes }.evict iter := by
  rw [Store.finish, hrun]

/-- What a finish leaves: the answer under its key, and what was under the others, unless one has gone for room. -/
theorem find?_finish (iter : Iter (Entry K V)) (value : V) (bytes now : Nat) (hrun : s.running key id = some e)
    (k : K) :
    (s.finish iter key id value bytes now).entries.find? k =
        (if key = k then some { e with state := .done value bytes now } else s.entries.find? k) ∨
      (key = k ∨ ∃ r, s.entries.find? k = some r ∧ r.isDone = true) ∧
        (s.finish iter key id value bytes now).entries.find? k = none := by
  obtain ⟨hfind, -, -⟩ := running_eq_some.mp hrun
  have hkey := Table.key_of_find? hfind
  rw [finish_of_running hrun]
  have hevicts := evicts_evict iter { s with
    entries := s.entries.put { e with state := .done value bytes now }, doneBytes := s.doneBytes + bytes }
  have hput : ((s.entries.put { e with state := .done value bytes now } : Table (Entry.key : Entry K V → K))).find? k =
      if key = k then some { e with state := .done value bytes now } else s.entries.find? k := by
    rw [Table.find?_put, hkey]
  cases hk : (if key = k then some { e with state := .done value bytes now } else s.entries.find? k) with
  | none => exact Or.inl (hevicts.find?_eq_none (hput.trans hk))
  | some r =>
      obtain hstays | ⟨hdone, hgone⟩ := hevicts.find?_or (hput.trans hk)
      · exact Or.inl hstays
      · refine Or.inr ⟨?_, hgone⟩
        by_cases heq : key = k
        · exact Or.inl heq
        · rw [if_neg heq] at hk
          exact Or.inr ⟨r, hk, hdone⟩

/-- An abandon leaves nothing under its key, and the others as they were. -/
theorem find?_abandon (hrun : s.running key id = some e) (k : K) :
    (s.abandon key id).entries.find? k = if key = k then none else s.entries.find? k := by
  obtain ⟨hfind, -, -⟩ := running_eq_some.mp hrun
  have hkey := Table.key_of_find? hfind
  rw [abandon_of_running hrun]
  dsimp only
  rw [Table.find?_deleteWhere, hkey]
  cases hk : s.entries.find? k with
  | none => simp
  | some r =>
      obtain rfl := Table.key_of_find? hk
      by_cases heq : key = r.key
      · simp [heq]
      · simp [heq, Ne.symm heq]

end Store

end Jkb.Daemon
