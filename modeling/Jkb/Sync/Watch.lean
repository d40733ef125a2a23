import Jkb.Run
import Jkb.Table
import Mathlib.Algebra.Group.Nat.Defs

/-!
# Jkb.Sync.Watch

The per-mount watchers that `watch_all` keeps running. `tick` brings them in line with the mount list:
the watchers of mounts no longer listed are stopped and set aside until they exit, a watcher that exited
is collected and its mount given a time to be armed again, and a listed mount that is due one is armed.

A watcher is a thread, and exits when it likes. So a tick is taken apart into its steps: it begins by
setting watchers aside, and then visits the listed mounts one after the other, with any exits in between.
Each watcher is asked whether it finished at most once in a tick, so a step in which it is asked is as
fine as the interleaving needs to be.
-/

namespace Jkb.Sync.Watch

open Run

/-! ## Watchers -/

/-- `MAX_RETRY`, one minute, in nanoseconds. -/
def maxRetry : Nat := 60 * 1000000000

/-- A watcher that was armed. Its handle is its number in the order of arming. -/
structure Thread where
  path : String
  finished : Bool
  stopped : Bool
deriving Repr, DecidableEq

/-- One mount's place: its watcher if one is running, and when to arm it again if not. -/
structure Slot where
  path : String
  running : Option Nat
  retryAt : Nat
  armedAt : Nat
  backoff : Nat
deriving Repr, DecidableEq

/-- The watchers and the threads there are: the slots and the stopped watchers of deleted mounts that are
waiting to exit, every thread armed so far, those that were joined, and what is left of the tick in
progress. -/
structure State where
  slots : Table (fun s : Slot => s.path)
  retiring : List Nat
  threads : List Thread
  joined : List Nat
  todo : List String
  now : Nat
deriving DecidableEq

/-- `Watchers::new`. -/
def State.start : State := ⟨Table.empty, [], [], [], [], 0⟩

/-- `Running::finished`. -/
def State.finished (s : State) (h : Nat) : Bool := (s.threads[h]?).any (·.finished)

/-- `Running::stop`. -/
def State.stop (s : State) (h : Nat) : State :=
  { s with threads := s.threads.modify h fun t => { t with stopped := true } }

/-- `Running::join`, of a watcher that has exited. -/
def State.join (s : State) (h : Nat) : State := { s with joined := s.joined ++ [h] }

/-- A watcher exits. -/
def State.exit (s : State) (h : Nat) : State :=
  { s with threads := s.threads.modify h fun t => { t with finished := true } }

/-! ## A tick -/

/-- The slots of mounts that are not listed go; their watchers are stopped, and wait in `retiring`. -/
def retire (mounts : List String) (s : State) : State :=
  let gone := (s.slots.rows.filter fun e => e.path ∉ mounts).filterMap (·.running)
  let s := gone.foldl State.stop s
  { s with slots := s.slots.deleteWhere fun e => e.path ∉ mounts, retiring := s.retiring ++ gone }

/-- The retiring watchers that have exited are joined. -/
def collect (s : State) : State :=
  let (done, still) := s.retiring.partition s.finished
  done.foldl State.join { s with retiring := still }

/-- The slot of a mount, or the one it is first given. -/
def State.slot (base : Nat) (s : State) (path : String) (now : Nat) : Slot :=
  (s.slots.find? path).getD ⟨path, none, now, now, base⟩

/-- What a tick does for one listed mount. -/
def visit (base now : Nat) (path : String) (s : State) : State :=
  let slot := s.slot base path now
  match slot.running with
  | some running =>
      if s.finished running then
        { s.join running with
          slots := s.slots.put { slot with
            running := none
            retryAt := now + slot.backoff
            backoff := min (slot.backoff * 2) maxRetry } }
      else
        -- up for a whole base interval: a later exit starts again from the base backoff
        { s with slots := s.slots.put { slot with
            backoff := if base ≤ now - slot.armedAt then base else slot.backoff } }
  | none =>
      if slot.retryAt ≤ now then
        { s with
          slots := s.slots.put { slot with armedAt := now, running := some s.threads.length }
          threads := s.threads ++ [⟨path, false, false⟩] }
      else
        { s with slots := s.slots.put slot }

/-- `Watchers::tick`, where nothing exits meanwhile. -/
def tick (base : Nat) (mounts : List String) (now : Nat) (s : State) : State :=
  mounts.foldl (fun s path => visit base now path s) (collect (retire mounts s))

/-- The watchers held: those in slots, and those retiring. -/
def State.held (s : State) : List Nat := s.slots.rows.filterMap (·.running) ++ s.retiring

/-- `Watchers::shutdown`: every watcher held is stopped, and waited for. -/
def shutdown (s : State) : State :=
  let running := s.held
  let s := running.foldl State.stop { s with slots := Table.empty, retiring := [] }
  running.foldl (fun s h => (s.exit h).join h) s

/-! ## The daemon -/

def mountScanTicks : Nat := 10

/-- One turn of `watch_all`'s loop: who exits while it sleeps, the mount list where it can be read, and
the time it ticks at. -/
structure Turn where
  exits : List Nat
  listing : Option (List String)
  now : Nat

/-- A turn with the mounts and the count of the last one. The list is read again every so many ticks, and
the last one kept where it cannot be. -/
def turn (base : Nat) : State × List String × Nat → Turn → State × List String × Nat
  | (s, mounts, ticks), t =>
      let ticks := (ticks + 1) % 2 ^ 32
      let mounts := if ticks % mountScanTicks = 0 then t.listing.getD mounts else mounts
      (tick base mounts t.now (t.exits.foldl State.exit s), mounts, ticks)

/-- `watch_all`, over the turns it takes until it is told to stop. -/
def watchAll (base : Nat) (mounts : List String) (now : Nat) (turns : List Turn) : State :=
  shutdown (turns.foldl (turn base) (tick base mounts now State.start, mounts, 0)).1

/-! ## Runs -/

/-- A watcher exits; a tick begins, with a mount list and a time; the tick goes on to its next mount. -/
inductive Op where
  | exit (h : Nat)
  | tick (mounts : List String) (now : Nat)
  | visit
deriving DecidableEq

/-- A tick begins only when the one before is over. -/
def next (base : Nat) (s : State) : Op → State
  | .exit h => s.exit h
  | .tick mounts now =>
      if s.todo = [] then { collect (retire mounts s) with todo := mounts, now } else s
  | .visit =>
      match s.todo with
      | [] => s
      | path :: rest => { visit base s.now path s with todo := rest }

end Jkb.Sync.Watch
