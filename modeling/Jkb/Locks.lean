import Mathlib.Data.List.Nodup

/-!
# Jkb.Locks

Locks that are made on demand, one for a key: a table from keys to locks, the clients that have fetched one, and the
clients that are inside of one. A lock is what it was made as, not what it was made for: once the table has forgotten
it, the next client of its key is given another, and the two do not exclude each other.

`Serial` is what makes a key's lock one lock: all that the clients of a key have fetched is the same one, and it is
the table's if the table has any. Every operation keeps it but a fetch, and that does where `Alone` holds: a new lock
is made for a key only when nobody has an old one. `Serial.exclusive` is what it is for.
-/

namespace Jkb

/-- A lock in a client's hands, and the key that it was fetched for. -/
structure Locks.Ref (K C : Type*) where
  client : C
  key : K
  lock : Nat
deriving Repr, DecidableEq

/-- The table of the locks, the locks that clients have, and those that clients are inside of. -/
structure Locks (K C : Type*) where
  entries : List (K × Nat) := []
  next : Nat := 0
  refs : List (Locks.Ref K C) := []
  held : List (Locks.Ref K C) := []

namespace Locks

variable {K C : Type*} {l : Locks K C} {c : C} {k : K}

/-! ## what is done with them -/

/-- The lock of a key, made if there is none. -/
def lockOf [DecidableEq K] (l : Locks K C) (k : K) : Nat := (l.entries.lookup k).getD l.next

/-- A client fetches the lock of a key. -/
def fetch [DecidableEq K] (l : Locks K C) (c : C) (k : K) : Locks K C :=
  match l.entries.lookup k with
  | some i => { l with refs := ⟨c, k, i⟩ :: l.refs }
  | none => { l with entries := (k, l.next) :: l.entries, next := l.next + 1, refs := ⟨c, k, l.next⟩ :: l.refs }

/-- A client goes inside of a lock that it has, when nobody else is. -/
def acquire (l : Locks K C) (r : Ref K C) : Option (Locks K C) :=
  if l.held.any (·.lock = r.lock) then none else some { l with held := r :: l.held }

/-- A client is done: what it has it lets go of. -/
def leave [DecidableEq C] (l : Locks K C) (c : C) : Locks K C :=
  { l with refs := l.refs.filter (·.client ≠ c), held := l.held.filter (·.client ≠ c) }

/-- The table forgets the locks of some keys. -/
def drop (l : Locks K C) (p : K → Bool) : Locks K C := { l with entries := l.entries.filter fun e => !p e.1 }

/-- The table forgets the locks that nobody has, but for some keys'. -/
def prune (l : Locks K C) (keep : K → Bool) : Locks K C :=
  { l with entries := l.entries.filter fun e => l.refs.any (·.lock = e.2) || keep e.1 }

theorem mem_of_lookup [DecidableEq K] {l : List (K × Nat)} {i : Nat} (h : l.lookup k = some i) : (k, i) ∈ l := by
  obtain ⟨before, after, rfl, -⟩ := List.lookup_eq_some_iff.mp h
  exact List.mem_append_right _ List.mem_cons_self

/-! ## one lock for a key -/

/-- What the clients of a key have is one lock, and the table's if it has one; and nobody is inside of a lock that
somebody else is inside of. -/
structure Serial (l : Locks K C) : Prop where
  keys : (l.entries.map Prod.fst).Nodup
  made : ∀ e ∈ l.entries, e.2 < l.next
  one : ∀ r ∈ l.refs, ∀ r' ∈ l.refs, r.key = r'.key → r.lock = r'.lock
  entry : ∀ r ∈ l.refs, ∀ i, (r.key, i) ∈ l.entries → r.lock = i
  held : ∀ r ∈ l.held, r ∈ l.refs
  apart : (l.held.map Ref.lock).Nodup

/-- A new lock would be made for a key only where nobody has an old one. -/
def Alone [DecidableEq K] (l : Locks K C) (k : K) : Prop := l.entries.lookup k = none → ∀ r ∈ l.refs, r.key ≠ k

instance [DecidableEq K] : Decidable (Alone l k) := inferInstanceAs (Decidable (_ → _))

theorem serial_empty : ({} : Locks K C).Serial := by
  constructor <;> simp

/-- **Two clients that are inside of one key's lock are one.** -/
theorem Serial.exclusive (h : l.Serial) {r r' : Ref K C} (hr : r ∈ l.held) (hr' : r' ∈ l.held)
    (hkey : r.key = r'.key) : r = r' :=
  List.inj_on_of_nodup_map h.apart hr hr' (h.one r (h.held r hr) r' (h.held r' hr') hkey)

/-- What has been fetched is in the client's hands. -/
theorem mem_refs_fetch [DecidableEq K] : ⟨c, k, l.lockOf k⟩ ∈ (l.fetch c k).refs := by
  unfold fetch lockOf
  cases l.entries.lookup k <;> exact List.mem_cons_self

theorem refs_subset_fetch [DecidableEq K] : l.refs ⊆ (l.fetch c k).refs := by
  unfold fetch
  cases l.entries.lookup k <;> exact List.subset_cons_self _ _

@[simp] theorem held_fetch [DecidableEq K] : (l.fetch c k).held = l.held := by
  unfold fetch
  cases l.entries.lookup k <;> rfl

/-- A client that fetches gives nobody a second lock. -/
theorem Serial.fetch [DecidableEq K] (h : l.Serial) (halone : l.Alone k) : (l.fetch c k).Serial := by
  cases hk : l.entries.lookup k with
  | some i =>
      have hin := mem_of_lookup hk
      have hsame : ∀ r ∈ l.refs, r.key = k → r.lock = i := fun r hr hkey => h.entry r hr i (hkey ▸ hin)
      have hfetch : l.fetch c k = { l with refs := ⟨c, k, i⟩ :: l.refs } := by rw [Locks.fetch, hk]
      rw [hfetch]
      refine { h with one := fun r hr r' hr' hkey => ?_, entry := fun r hr j hj => ?_, held := fun r hr => ?_ }
      · rcases List.mem_cons.mp hr with rfl | hr <;> rcases List.mem_cons.mp hr' with rfl | hr'
        · rfl
        · exact (hsame r' hr' hkey.symm).symm
        · exact hsame r hr hkey
        · exact h.one r hr r' hr' hkey
      · rcases List.mem_cons.mp hr with rfl | hr
        · exact (Prod.mk.inj (List.inj_on_of_nodup_map h.keys hin hj rfl)).2
        · exact h.entry r hr j hj
      · exact List.mem_cons_of_mem _ (h.held r hr)
  | none =>
      have hfree := halone hk
      have hno : ∀ j, (k, j) ∉ l.entries := fun j hj => by
        simpa using List.lookup_eq_none_iff.mp hk (k, j) hj
      have hfetch : l.fetch c k = { l with
          entries := (k, l.next) :: l.entries, next := l.next + 1, refs := ⟨c, k, l.next⟩ :: l.refs } := by
        rw [Locks.fetch, hk]
      rw [hfetch]
      refine { h with
        keys := List.nodup_cons.mpr ⟨fun hmem => ?_, h.keys⟩, made := fun e he => ?_, one := fun r hr r' hr' hkey => ?_,
        entry := fun r hr j hj => ?_, held := fun r hr => ?_ }
      · obtain ⟨e, he, rfl⟩ := List.mem_map.mp hmem
        exact hno e.2 he
      · rcases List.mem_cons.mp he with rfl | he
        · exact Nat.lt_succ_self _
        · exact Nat.lt_succ_of_lt (h.made e he)
      · rcases List.mem_cons.mp hr with rfl | hr <;> rcases List.mem_cons.mp hr' with rfl | hr'
        · rfl
        · exact absurd hkey.symm (hfree r' hr')
        · exact absurd hkey (hfree r hr)
        · exact h.one r hr r' hr' hkey
      · rcases List.mem_cons.mp hr with rfl | hr <;> rcases List.mem_cons.mp hj with hj | hj
        · exact (Prod.mk.inj hj).2.symm
        · exact absurd hj (hno j)
        · exact absurd (Prod.mk.inj hj).1 (hfree r hr)
        · exact h.entry r hr j hj
      · exact List.mem_cons_of_mem _ (h.held r hr)

theorem acquire_eq_some {l' : Locks K C} {r : Ref K C} (h : l.acquire r = some l') :
    l' = { l with held := r :: l.held } ∧ ∀ r' ∈ l.held, r.lock ≠ r'.lock := by
  unfold acquire at h
  split at h
  · cases h
  · next hfree =>
      refine ⟨(Option.some.inj h).symm, fun r' hr' heq => hfree (List.any_eq_true.mpr ⟨r', hr', ?_⟩)⟩
      exact decide_eq_true heq.symm

theorem Serial.acquire {l' : Locks K C} {r : Ref K C} (h : l.Serial) (hr : r ∈ l.refs)
    (hl : l.acquire r = some l') : l'.Serial := by
  obtain ⟨rfl, hfree⟩ := acquire_eq_some hl
  refine { h with held := fun r' hr' => ?_, apart := List.nodup_cons.mpr ⟨fun hmem => ?_, h.apart⟩ }
  · rcases List.mem_cons.mp hr' with rfl | hr'
    · exact hr
    · exact h.held r' hr'
  · obtain ⟨r', hr', heq⟩ := List.mem_map.mp hmem
    exact hfree r' hr' heq.symm

theorem Serial.leave [DecidableEq C] (h : l.Serial) : (l.leave c).Serial where
  keys := h.keys
  made := h.made
  one r hr r' hr' := h.one r (List.mem_of_mem_filter hr) r' (List.mem_of_mem_filter hr')
  entry r hr := h.entry r (List.mem_of_mem_filter hr)
  held r hr := List.mem_filter.mpr ⟨h.held r (List.mem_of_mem_filter hr), (List.mem_filter.mp hr).2⟩
  apart := h.apart.sublist (List.filter_sublist.map Ref.lock)

/-- Fewer entries are no second lock; the next fetch may make one. -/
theorem Serial.filter (h : l.Serial) (p : K × Nat → Bool) : { l with entries := l.entries.filter p }.Serial :=
  { h with
    keys := h.keys.sublist (List.filter_sublist.map Prod.fst)
    made := fun e he => h.made e (List.mem_of_mem_filter he)
    entry := fun r hr i hi => h.entry r hr i (List.mem_of_mem_filter hi) }

theorem Serial.drop (h : l.Serial) (p : K → Bool) : (l.drop p).Serial := h.filter _

theorem Serial.prune (h : l.Serial) (keep : K → Bool) : (l.prune keep).Serial := h.filter _

end Locks

end Jkb
