import Jkb.Mq
import Jkb.Run
import Jkb.Text

/-!
# Jkb.Core.Lease

Named, exclusive holds in the database, and how a process comes to hold one.

Nothing in the table judges a holder. Whether the process that one names is gone only its own machine can say, so the
caller asks, and every change is a compare and set: a takeover replaces a lease only while it names the holder that was
judged, and a release drops one only while it names the releaser. A holder is one acquisition, never two.

`exclusive_run` is what that comes to: whatever the interleaving, of the processes that believe they hold a lease and
still run there is one, and the table names it, as long as none is judged gone that is not.
-/

namespace Jkb.Lease

open Mq (QueueError)
open Run

/-! ## the table -/

def MAX_NAME_BYTES : Nat := 300
def MAX_HOLDER_BYTES : Nat := 600

/-- A lease that somebody holds: who, as its taker wrote it, and since when. -/
structure LeaseRow where
  name : String
  holder : String
  takenAt : Int
deriving Repr, DecidableEq

abbrev Leases := Table LeaseRow.name

/-- The owner out of a holder: its first field. -/
def ownerOf (holder : String) : String :=
  ((holder.toList.splitOnP Text.isWhitespace).find? (· ≠ [])).elim "" String.ofList

def check (name : String) (holder : Option String) : Except QueueError Unit :=
  if name = "" || name.utf8ByteSize > MAX_NAME_BYTES || name.toList.any isControl then
    .error (.invalid "lease" ["a lease name is 1..=", MAX_NAME_BYTES, " bytes with no control characters"])
  else
    match holder with
    | none => .ok ()
    | some h =>
        if ownerOf h = "" || h.utf8ByteSize > MAX_HOLDER_BYTES || h.toList.any isControl then
          .error (.invalid "holder"
            ["a holder is `<owner> <nonce>`, 1..=", MAX_HOLDER_BYTES, " bytes with no control characters"])
        else .ok ()

section Table

variable (leases : Leases) (name holder : String)

/-- Who holds a lease. -/
def get : Except QueueError (Option LeaseRow) := do
  check name none
  return leases.find? name

/-- Take a lease that is free, or, with `displace`, one that is still held by exactly that holder. Whether it was. -/
def take (displace : Option String) (now : Int) : Except QueueError (Leases × Bool) := do
  check name (some holder)
  match displace with
  | some d => do
      check name (some d)
      let named (l : LeaseRow) : Bool := l.name = name && l.holder = d
      return (leases.updateWhere named (fun l => { l with holder, takenAt := now }) fun _ => rfl, leases.rows.any named)
  | none => return leases.insertOrIgnore ⟨name, holder, now⟩

/-- Release a lease if the holder still holds it. Whether it did. -/
def release : Except QueueError (Leases × Bool) := do
  check name (some holder)
  let held (l : LeaseRow) : Bool := l.name = name && l.holder = holder
  return (leases.deleteWhere held, leases.rows.any held)

/-- Remove a lease whoever holds it. Who did. -/
def breakLease : Except QueueError (Leases × Option String) := do
  check name none
  return (leases.deleteWhere (·.name = name), (leases.find? name).map (·.holder))

end Table

/-! ## what each leaves -/

section Leaves

variable {leases leases' : Leases} {name holder : String} {won : Bool}

/-- What is read of a lease is its row. -/
theorem get_eq_ok {l : Option LeaseRow} (h : get leases name = .ok l) : l = leases.find? name := by
  obtain ⟨-, -, h⟩ := Tx.bind_eq_ok.mp h
  cases h
  rfl

/-- A lease that is taken was free; one that is not is left as it is. -/
theorem take_eq_ok {now : Int} (h : take leases name holder none now = .ok (leases', won)) :
    won = true ∧ leases.find? name = none ∧
        (∀ k, leases'.find? k = if name = k then some ⟨name, holder, now⟩ else leases.find? k) ∨
      won = false ∧ leases' = leases := by
  obtain ⟨-, -, h⟩ := Tx.bind_eq_ok.mp h
  have h : leases.insertOrIgnore ⟨name, holder, now⟩ = (leases', won) := Except.ok.inj h
  have hfst : (leases.insertOrIgnore ⟨name, holder, now⟩).1 = leases' := congrArg Prod.fst h
  have hsnd : (leases.insertOrIgnore ⟨name, holder, now⟩).2 = won := congrArg Prod.snd h
  cases hfree : leases.find? name with
  | none =>
      refine Or.inl ⟨?_, rfl, fun k => ?_⟩
      · rw [← hsnd, Table.insertOrIgnore, dif_pos hfree]
      · rw [← hfst, Table.find?_insertOrIgnore]
        simp only [hfree, true_and]
  | some l =>
      have hheld : leases.find? (LeaseRow.mk name holder now).name ≠ none := by
        rw [hfree]
        exact Option.some_ne_none l
      rw [Table.insertOrIgnore, dif_neg hheld] at hfst hsnd
      exact Or.inr ⟨hsnd.symm, hfst.symm⟩

/-- A lease that is taken over named the holder that was judged; one that is not is left as it is. -/
theorem displace_eq_ok {d : String} {now : Int} (h : take leases name holder (some d) now = .ok (leases', won)) :
    won = true ∧ (∃ l, leases.find? name = some l ∧ l.holder = d) ∧
        (∀ k, leases'.find? k = if name = k then some ⟨name, holder, now⟩ else leases.find? k) ∨
      won = false ∧ ∀ k, leases'.find? k = leases.find? k := by
  obtain ⟨-, -, h⟩ := Tx.bind_eq_ok.mp h
  obtain ⟨-, -, h⟩ := Tx.bind_eq_ok.mp h
  cases h
  have hfind := leases.find?_updateWhere (fun l => l.name = name && l.holder = d)
    (fun l => { l with holder, takenAt := now }) fun _ => rfl
  by_cases hnamed : ∃ l, leases.find? name = some l ∧ l.holder = d
  · obtain ⟨l, hl, rfl⟩ := hnamed
    obtain ⟨hmem, hname⟩ := Table.find?_eq_some.mp hl
    refine Or.inl ⟨List.any_eq_true.mpr ⟨l, hmem, by simp [hname]⟩, ⟨l, hl, rfl⟩, fun k => ?_⟩
    rw [hfind]
    by_cases hk : name = k
    · subst hk
      simp [hl, hname]
    · rw [if_neg hk]
      cases hx : leases.find? k with
      | none => rfl
      | some x =>
          have hxn : x.name ≠ name := fun heq => hk (heq.symm.trans (Table.key_of_find? hx))
          simp [hxn]
  · have hnone : ∀ l ∈ leases.rows, ¬ (l.name = name ∧ l.holder = d) := fun l hl h =>
      hnamed ⟨l, h.1 ▸ Table.find?_of_mem hl, h.2⟩
    refine Or.inr ⟨List.any_eq_false.mpr fun l hl => by simpa using hnone l hl, fun k => ?_⟩
    rw [hfind]
    cases hx : leases.find? k with
    | none => rfl
    | some x =>
        have hxn := hnone x (Table.mem_of_find? hx)
        simp [hxn]

/-- A release drops what the releaser holds, and nothing else. -/
theorem release_eq_ok (h : release leases name holder = .ok (leases', won)) (k : String) :
    leases'.find? k = if name = k ∧ (leases.find? k).any (·.holder = holder) then none else leases.find? k := by
  obtain ⟨-, -, h⟩ := Tx.bind_eq_ok.mp h
  cases h
  rw [Table.find?_deleteWhere]
  cases hx : leases.find? k with
  | none => simp
  | some x =>
      have hkey : x.name = k := Table.key_of_find? hx
      by_cases hk : k = name <;> by_cases hh : x.holder = holder <;> simp [hkey, hk, hh, eq_comm (a := name)]

/-- To break a lease takes its row alone. -/
theorem breakLease_eq_ok {who : Option String} (h : breakLease leases name = .ok (leases', who)) (k : String) :
    leases'.find? k = if name = k then none else leases.find? k := by
  obtain ⟨-, -, h⟩ := Tx.bind_eq_ok.mp h
  cases h
  rw [Table.find?_deleteWhere]
  cases hx : leases.find? k with
  | none => simp
  | some x =>
      have hkey : x.name = k := Table.key_of_find? hx
      by_cases hk : k = name <;> simp [hkey, hk, eq_comm (a := name)]

end Leaves

/-! ## the processes -/

/-- Where one acquisition is. It makes two rounds: a lease that is released between the failed take and the read is
free on the second. -/
inductive Guard where
  | taking (again : Bool)
  | reading (again : Bool)
  | judging (again : Bool) (current : String)
  | displacing (again : Bool) (current : String)
  | held
  | over
deriving Repr, DecidableEq

/-- The holder that an acquisition judges. -/
def Guard.judged : Guard → Option String
  | .judging _ current => some current
  | _ => none

/-- The table, and where every acquisition is: of which lease, and what it writes as its holder. -/
structure Sys where
  leases : Leases
  guard : String → String → Guard

def Sys.start : Sys := ⟨.empty, fun _ _ => .taking false⟩

def Sys.set (s : Sys) (name holder : String) (g : Guard) : Sys :=
  { s with guard := Function.update s.guard name (Function.update (s.guard name) holder g) }

/-- A step of an acquisition, or of an operator. A call's answer may not be heard, and what is left of a process that
died is its lease. -/
inductive Op where
  | take (name holder : String) (now : Int) (heard : Bool)
  | read (name holder : String)
  | judge (name holder : String) (gone : Bool)
  | displace (name holder : String) (now : Int) (heard : Bool)
  | drop (name holder : String) (landed : Bool)
  | die (name holder : String)
  | breakLease (name : String)
deriving Repr, DecidableEq

section Steps

variable (s : Sys)

/-- What a take leaves an acquisition at: `lost` where it was not made. -/
def taken (name holder : String) (heard : Bool) (lost : Guard) : Except QueueError (Leases × Bool) → Sys
  | .error _ => s.set name holder .over
  | .ok (leases, won) => { s with leases }.set name holder (if !heard then .over else if won then .held else lost)

/-- `SweepLease::acquire`, `LandLease::acquire` and what follows them, a call at a time. -/
def next : Op → Sys
  | .take name holder now heard =>
      match s.guard name holder with
      | .taking again => taken s name holder heard (.reading again) (take s.leases name holder none now)
      | _ => s
  | .read name holder =>
      match s.guard name holder with
      | .reading again =>
          match get s.leases name with
          | .error _ => s.set name holder .over
          | .ok none => s.set name holder (if again then .over else .taking true)
          | .ok (some l) => s.set name holder (.judging again l.holder)
      | _ => s
  | .judge name holder gone =>
      match s.guard name holder with
      | .judging again current => s.set name holder (if gone then .displacing again current else .over)
      | _ => s
  | .displace name holder now heard =>
      match s.guard name holder with
      | .displacing again current =>
          taken s name holder heard (if again then .over else .taking true)
            (take s.leases name holder (some current) now)
      | _ => s
  | .drop name holder landed =>
      match s.guard name holder with
      | .held =>
          match release s.leases name holder with
          | .ok (leases, _) => if landed then { s with leases }.set name holder .over else s.set name holder .over
          | .error _ => s.set name holder .over
      | _ => s
  | .die name holder => s.set name holder .over
  | .breakLease name =>
      match breakLease s.leases name with
      | .ok (leases, _) => { s with leases }
      | .error _ => s

/-- What the protocol rests on: a holder that is judged gone does not hold its lease any more, and an operator breaks
none that is held. -/
def Right : Op → Prop
  | .judge name holder gone =>
      gone = true → ((s.guard name holder).judged.all fun current => s.guard name current ≠ .held) = true
  | .breakLease name => ((s.leases.find? name).all fun l => s.guard name l.holder ≠ .held) = true
  | _ => True

instance (op : Op) : Decidable (Right s op) := by
  cases op <;> unfold Right <;> infer_instance

end Steps

/-! ## one holder -/

section Exclusive

variable {s : Sys} {name holder : String} {g : Guard}

@[simp] theorem Sys.guard_set (s : Sys) (name holder : String) (g : Guard) (n h : String) :
    (s.set name holder g).guard n h = if n = name ∧ h = holder then g else s.guard n h := by
  unfold Sys.set
  by_cases hn : n = name
  · subst hn
    by_cases hh : h = holder <;> simp [Function.update, hh]
  · simp [Function.update, hn]

@[simp] theorem Sys.leases_set (s : Sys) (name holder : String) (g : Guard) : (s.set name holder g).leases = s.leases :=
  rfl

/-- **The invariant**: who holds a lease the table names, whom the table names holds it or is gone, and whom somebody
is about to displace is. -/
structure Exclusive (s : Sys) : Prop where
  held : ∀ n h, s.guard n h = .held → ∃ l, s.leases.find? n = some l ∧ l.holder = h
  named : ∀ n l, s.leases.find? n = some l → s.guard n l.holder = .held ∨ s.guard n l.holder = .over
  judging : ∀ n h again current, s.guard n h = .judging again current →
    s.guard n current = .held ∨ s.guard n current = .over
  displacing : ∀ n h again current, s.guard n h = .displacing again current → s.guard n current = .over

/-- At the start nobody holds a lease. -/
theorem exclusive_start : Exclusive .start where
  held _ _ h := by cases h
  named _ _ h := by cases h
  judging _ _ _ _ h := by cases h
  displacing _ _ _ _ h := by cases h

/-- Whoever is at one of two does not leave them but from the first to the second. -/
theorem settled_set (hmove : s.guard name holder = .held ∨ s.guard name holder = .over → g = .over) {n h : String}
    (hs : s.guard n h = .held ∨ s.guard n h = .over) :
    (s.set name holder g).guard n h = .held ∨ (s.set name holder g).guard n h = .over := by
  rw [Sys.guard_set]
  split
  · next heq =>
      obtain ⟨rfl, rfl⟩ := heq
      exact Or.inr (hmove hs)
  · exact hs

/-- One acquisition moves on, and the table stays. -/
theorem Exclusive.move (he : Exclusive s) (hnot : g ≠ .held)
    (hmove : s.guard name holder = .held ∨ s.guard name holder = .over → g = .over)
    (hjudging : ∀ again current, g = .judging again current →
      s.guard name current = .held ∨ s.guard name current = .over)
    (hdisplacing : ∀ again current, g = .displacing again current → s.guard name current = .over) :
    Exclusive (s.set name holder g) where
  held n h hh := by
    rw [Sys.guard_set] at hh
    split at hh
    · exact absurd hh hnot
    · exact he.held n h hh
  named n l hl := settled_set hmove (he.named n l hl)
  judging n h again current hh := by
    rw [Sys.guard_set] at hh
    split at hh
    · next heq => exact settled_set hmove (heq.1 ▸ hjudging again current hh)
    · exact settled_set hmove (he.judging n h again current hh)
  displacing n h again current hh := by
    have hover : s.guard n current = .over := by
      rw [Sys.guard_set] at hh
      split at hh
      · next heq => exact heq.1 ▸ hdisplacing again current hh
      · exact he.displacing n h again current hh
    rw [Sys.guard_set]
    split
    · next heq =>
        obtain ⟨rfl, rfl⟩ := heq
        exact hmove (Or.inr hover)
    · exact hover

/-- A lease that nobody holds is taken. -/
theorem Exclusive.won (he : Exclusive s) {leases : Leases} {now : Int} (hfree : ∀ h, s.guard name h ≠ .held)
    (hg : s.guard name holder ≠ .over) (hsettled : g = .held ∨ g = .over)
    (hleases : ∀ k, leases.find? k = if name = k then some ⟨name, holder, now⟩ else s.leases.find? k) :
    Exclusive ({ s with leases }.set name holder g) where
  held n h hh := by
    rw [Sys.guard_set] at hh
    rw [Sys.leases_set, hleases]
    split at hh
    · next heq =>
        obtain ⟨rfl, rfl⟩ := heq
        exact ⟨_, if_pos rfl, rfl⟩
    · next hne =>
        rw [if_neg fun heq : name = n => hfree h (heq ▸ hh)]
        exact he.held n h hh
  named n l hl := by
    rw [Sys.leases_set, hleases] at hl
    rw [Sys.guard_set]
    split
    · exact hsettled
    · next hne =>
        split at hl
        · next heq =>
            cases hl
            exact absurd ⟨heq.symm, rfl⟩ hne
        · exact he.named n l hl
  judging n h again current hh := by
    have hcur : s.guard n current = .held ∨ s.guard n current = .over := by
      rw [Sys.guard_set] at hh
      split at hh
      · obtain rfl | rfl := hsettled <;> cases hh
      · exact he.judging n h again current hh
    rw [Sys.guard_set]
    split
    · exact hsettled
    · exact hcur
  displacing n h again current hh := by
    have hcur : s.guard n current = .over := by
      rw [Sys.guard_set] at hh
      split at hh
      · obtain rfl | rfl := hsettled <;> cases hh
      · exact he.displacing n h again current hh
    rw [Sys.guard_set, if_neg]
    · exact hcur
    · rintro ⟨rfl, rfl⟩
      exact hg hcur

/-- A lease that nobody holds goes. -/
theorem Exclusive.gone (he : Exclusive s) {leases : Leases} {n : String} (hfree : ∀ h, s.guard n h ≠ .held)
    (hleases : ∀ k, leases.find? k = none ∧ n = k ∨ leases.find? k = s.leases.find? k) :
    Exclusive { s with leases } where
  held k h hh := by
    obtain ⟨-, heq⟩ | heq := hleases k
    · exact absurd (heq ▸ hh) (hfree h)
    · rw [heq]
      exact he.held k h hh
  named k l hl := by
    obtain ⟨heq, -⟩ | heq := hleases k
    · rw [heq] at hl
      cases hl
    · exact he.named k l (heq ▸ hl)
  judging := he.judging
  displacing := he.displacing

/-- What a take leaves, if what it was made of the lease was not held by anybody. -/
theorem Exclusive.taken (he : Exclusive s) {heard : Bool} {lost : Guard} (now : Int)
    {x : Except QueueError (Leases × Bool)} (hg : s.guard name holder ≠ .held ∧ s.guard name holder ≠ .over)
    (hlost : lost ≠ .held ∧ (∀ again current, lost ≠ .judging again current) ∧
      ∀ again current, lost ≠ .displacing again current)
    (hx : ∀ leases won, x = .ok (leases, won) →
      won = true ∧ (∀ h, s.guard name h ≠ .held) ∧
          (∀ k, leases.find? k = if name = k then some ⟨name, holder, now⟩ else s.leases.find? k) ∨
        won = false ∧ ∀ k, leases.find? k = s.leases.find? k) :
    Exclusive (Lease.taken s name holder heard lost x) := by
  cases x with
  | error e => exact he.move nofun (fun h => (h.elim hg.1 hg.2).elim) nofun nofun
  | ok r =>
      obtain ⟨leases, won⟩ := r
      unfold Lease.taken
      obtain ⟨rfl, hfree, hleases⟩ | ⟨rfl, hleases⟩ := hx leases won rfl
      · refine he.won hfree hg.2 ?_ hleases
        cases heard
        · exact Or.inr rfl
        · exact Or.inl rfl
      · have hsame : Exclusive { s with leases } :=
          ⟨fun n h hh => by rw [hleases]; exact he.held n h hh, fun n l hl => he.named n l (hleases n ▸ hl),
            he.judging, he.displacing⟩
        cases heard
        · exact hsame.move nofun (fun h => (h.elim hg.1 hg.2).elim) nofun nofun
        · exact hsame.move hlost.1 (fun h => (h.elim hg.1 hg.2).elim) (fun a c h => absurd h (hlost.2.1 a c))
            fun a c h => absurd h (hlost.2.2 a c)

/-- **The step lemma.** -/
theorem Exclusive.next (he : Exclusive s) {op : Op} (hright : Right s op) : Exclusive (next s op) := by
  have hfree : ∀ {n : String}, s.leases.find? n = none → ∀ h, s.guard n h ≠ .held := by
    intro n hnone h hh
    obtain ⟨l, hl, -⟩ := he.held n h hh
    rw [hnone] at hl
    cases hl
  cases op with
  | take name holder now heard =>
      simp only [Lease.next]
      split
      case h_2 => exact he
      case h_1 again hg =>
        refine he.taken now (by rw [hg]; exact ⟨nofun, nofun⟩) ⟨nofun, nofun, nofun⟩ fun leases won hx => ?_
        obtain ⟨hwon, hnone, hleases⟩ | ⟨hwon, rfl⟩ := take_eq_ok hx
        · exact Or.inl ⟨hwon, hfree hnone, hleases⟩
        · exact Or.inr ⟨hwon, fun _ => rfl⟩
  | read name holder =>
      simp only [Lease.next]
      split
      case h_2 => exact he
      case h_1 again hg =>
        have hnot : ∀ {g : Guard}, s.guard name holder = .held ∨ s.guard name holder = .over → g = .over := by
          rw [hg]
          exact fun h => by obtain h | h := h <;> cases h
        split
        case h_1 => exact he.move nofun hnot nofun nofun
        case h_2 => cases again <;> exact he.move nofun hnot nofun nofun
        case h_3 l hget =>
          refine he.move nofun hnot (fun _ current heq => ?_) nofun
          cases heq
          exact he.named name l (get_eq_ok hget).symm
  | judge name holder gone =>
      simp only [Lease.next]
      split
      case h_2 => exact he
      case h_1 again current hg =>
        have hnot : ∀ {g : Guard}, s.guard name holder = .held ∨ s.guard name holder = .over → g = .over := by
          rw [hg]
          exact fun h => by obtain h | h := h <;> cases h
        cases gone with
        | false => exact he.move nofun hnot nofun nofun
        | true =>
            refine he.move nofun hnot nofun fun _ c heq => ?_
            cases heq
            have hnheld := hright rfl
            rw [hg] at hnheld
            exact (he.judging name holder again current hg).resolve_left (of_decide_eq_true hnheld)
  | displace name holder now heard =>
      simp only [Lease.next]
      split
      case h_2 => exact he
      case h_1 again current hg =>
        refine he.taken now (by rw [hg]; exact ⟨nofun, nofun⟩) ?_ fun leases won hx => ?_
        · cases again <;> exact ⟨nofun, nofun, nofun⟩
        obtain ⟨hwon, ⟨l, hl, rfl⟩, hleases⟩ | ⟨hwon, hsame⟩ := displace_eq_ok hx
        · refine Or.inl ⟨hwon, fun h hh => ?_, hleases⟩
          obtain ⟨l', hl', rfl⟩ := he.held name h hh
          rw [hl, Option.some.injEq] at hl'
          rw [← hl', he.displacing name holder again l.holder hg] at hh
          cases hh
        · exact Or.inr ⟨hwon, hsame⟩
  | drop name holder landed =>
      simp only [Lease.next]
      split
      case h_2 => exact he
      case h_1 hg =>
        have hover : Exclusive (s.set name holder .over) := he.move nofun (fun _ => rfl) nofun nofun
        split
        case h_2 => exact hover
        case h_1 leases won hrelease =>
          split
          case isFalse => exact hover
          refine hover.gone (n := name) (fun h hh => ?_) fun k => ?_
          · rw [Sys.guard_set] at hh
            split at hh
            · cases hh
            · next hne =>
                obtain ⟨l, hl, rfl⟩ := he.held name h hh
                obtain ⟨l', hl', hholder⟩ := he.held name holder hg
                rw [hl, Option.some.injEq] at hl'
                exact hne ⟨rfl, hl' ▸ hholder⟩
          · rw [release_eq_ok hrelease, Sys.leases_set]
            split
            · next h => exact Or.inl ⟨rfl, h.1⟩
            · exact Or.inr rfl
  | die name holder => exact he.move nofun (fun _ => rfl) nofun nofun
  | breakLease name =>
      simp only [Lease.next]
      split
      case h_2 => exact he
      case h_1 leases who hbreak =>
        refine he.gone (n := name) (fun h hh => ?_) fun k => ?_
        · obtain ⟨l, hl, rfl⟩ := he.held name h hh
          have hnheld : (s.leases.find? name).all (fun l => s.guard name l.holder ≠ .held) = true := hright
          rw [hl] at hnheld
          exact of_decide_eq_true hnheld hh
        · rw [breakLease_eq_ok hbreak]
          split
          · next h => exact Or.inl ⟨rfl, h⟩
          · exact Or.inr rfl

/-- **One holder at a time.** In every interleaving, if no holder is judged gone that holds its lease and none is
broken that is held, then of the processes that have taken a lease and are not over there is one, and the table names
it. -/
theorem exclusive_run (ops : List Op) (hops : EveryStep next Right .start ops) (name holder : String)
    (hheld : (run next .start ops).guard name holder = .held) :
    (∃ l, (run next .start ops).leases.find? name = some l ∧ l.holder = holder) ∧
      ∀ h, (run next .start ops).guard name h = .held → h = holder := by
  have hstep : ∀ (s : Sys) (op : Op), Right s op → Exclusive s → Exclusive (next s op) :=
    fun _ _ hright he => Exclusive.next he hright
  have he : Exclusive (run next .start ops) := run_invariant_of_everyStep hstep hops exclusive_start
  obtain ⟨l, hl, rfl⟩ := he.held name holder hheld
  refine ⟨⟨l, hl, rfl⟩, fun h hh => ?_⟩
  obtain ⟨l', hl', rfl⟩ := he.held name h hh
  rw [hl, Option.some.injEq] at hl'
  rw [hl']

/-- A sweep dies with the lease. Two others find it, and judge it gone; one takes over, and the other's takeover and
its second round find it taken. -/
theorem exclusive_run_takeover :
    (∃ l, (run next .start
      [.take "sweep" "host:1 a" 5 true, .take "sweep" "host:2 b" 6 true, .take "sweep" "host:3 c" 6 true,
        .die "sweep" "host:1 a", .read "sweep" "host:2 b", .read "sweep" "host:3 c", .judge "sweep" "host:3 c" true,
        .judge "sweep" "host:2 b" true, .displace "sweep" "host:3 c" 7 true, .displace "sweep" "host:2 b" 7 true,
        .take "sweep" "host:2 b" 8 true]).leases.find? "sweep" = some l ∧ l.holder = "host:3 c") ∧
      ∀ h, (run next .start
        [.take "sweep" "host:1 a" 5 true, .take "sweep" "host:2 b" 6 true, .take "sweep" "host:3 c" 6 true,
          .die "sweep" "host:1 a", .read "sweep" "host:2 b", .read "sweep" "host:3 c",
          .judge "sweep" "host:3 c" true, .judge "sweep" "host:2 b" true, .displace "sweep" "host:3 c" 7 true,
          .displace "sweep" "host:2 b" 7 true, .take "sweep" "host:2 b" 8 true]).guard "sweep" h = .held →
        h = "host:3 c" :=
  exclusive_run _ (by decide +kernel) "sweep" "host:3 c" (by decide +kernel)

end Exclusive

end Jkb.Lease
