import Jkb.Text

/-!
# Jkb.Core.AgentId

Who holds a claim: an owner id as `items.claimant_id` stores it, and as the code reads it. Every stored
text reads as some owner, one that no shape fits included.
-/

namespace Jkb

open Jkb.Text

/-- Who holds a claim. -/
inductive AgentId where
  | process (host : Text) (pid : Nat) (run : Option Text)
  | session (pid : Nat) (openedBy : Option Text) (worktree : Text)
  | agent (id : Text)
  | unrecognized (raw : Text)
deriving Repr, DecidableEq

namespace AgentId

/-- `session`, the host segment marking a session owner. -/
def sessionHost : Text := "session".toList

/-- `agent`, the host segment marking an agent owner. -/
def agentHost : Text := "agent".toList

/-- The longest session id that is recorded, in bytes. -/
def maxSessionIdBytes : Nat := 200

/-- A character a session id may hold; each is one byte. -/
def isSessionIdByte (c : Char) : Bool := c.isAlphanum || c == '_' || c == '-'

/-- Whether a text can be a session id: non-empty, bounded, and only `[A-Za-z0-9_-]`. -/
def isSessionId (s : Text) : Bool := s ≠ [] && s.length ≤ maxSessionIdBytes && s.all isSessionIdByte

/-- `str::parse::<u32>`. -/
def parseU32 (t : Text) : Option Nat :=
  let digits := match t with
    | '+' :: ds => ds
    | ds => ds
  (parseDigits digits).filter (· < 2 ^ 32)

/-- The opener of a session: `<pid>[@<session>]`. -/
def parseOpener (opener : Text) : Option (Nat × Option Text) :=
  let (pid, openedBy) := match splitOnce '@' opener with
    | some (pid, by') => (pid, some by')
    | none => (opener, none)
  match parseU32 pid with
  | some pid => if openedBy.all isSessionId then some (pid, openedBy) else none
  | none => none

/-- Read a stored `claimant_id`. -/
def parse (raw : Text) : AgentId :=
  match raw.splitOn ':' with
  | [] => .unrecognized raw
  | head :: rest =>
      if head = sessionHost then
        match rest with
        | opener :: a :: tail =>
            match parseOpener opener with
            | some (pid, openedBy) => .session pid openedBy ([':'].intercalate (a :: tail))
            | none => .unrecognized raw
        | _ => .unrecognized raw
      else if head = agentHost ∧ rest ≠ [] then .agent ([':'].intercalate rest)
      else
        match rest with
        | pid :: tail =>
            match parseU32 pid with
            | some pid => .process head pid (if tail = [] then none else some ([':'].intercalate tail))
            | none => .unrecognized raw
        | [] => .unrecognized raw

/-- What a stored text reads as, and what it looks like where it reads as a session or an agent. -/
theorem parse_cases (raw : Text) :
    (∃ pid openedBy opener worktree, parse raw = .session pid openedBy worktree ∧
      parseOpener opener = some (pid, openedBy) ∧ raw = sessionHost ++ ':' :: (opener ++ ':' :: worktree)) ∨
    (∃ id, parse raw = .agent id ∧ raw = agentHost ++ ':' :: id) ∨
    (∃ host pid run, parse raw = .process host pid run) ∨ parse raw = .unrecognized raw := by
  have hraw : [':'].intercalate (raw.splitOn ':') = raw := List.intercalate_splitOn ':'
  unfold parse
  cases hpieces : raw.splitOn ':' with
  | nil => exact absurd hpieces (List.splitOn_ne_nil _ _)
  | cons head rest =>
      rw [hpieces] at hraw
      simp only
      split_ifs with hhead hagent
      · match rest with
        | [] => exact Or.inr (Or.inr (Or.inr rfl))
        | [_] => exact Or.inr (Or.inr (Or.inr rfl))
        | opener :: a :: tail =>
            simp only
            cases hopener : parseOpener opener with
            | none => exact Or.inr (Or.inr (Or.inr rfl))
            | some found =>
                refine Or.inl ⟨_, _, opener, _, rfl, hopener, ?_⟩
                rw [← hraw, List.intercalate_cons_of_ne_nil (List.cons_ne_nil _ _),
                  List.intercalate_cons_of_ne_nil (List.cons_ne_nil _ _), hhead]
                simp only [List.append_assoc, List.singleton_append]
      · refine Or.inr (Or.inl ⟨_, rfl, ?_⟩)
        rw [← hraw, List.intercalate_cons_of_ne_nil hagent.2, hagent.1]
        simp only [List.append_assoc, List.singleton_append]
      · match rest with
        | [] => exact Or.inr (Or.inr (Or.inr rfl))
        | pid :: tail =>
            simp only
            cases parseU32 pid with
            | none => exact Or.inr (Or.inr (Or.inr rfl))
            | some pid => exact Or.inr (Or.inr (Or.inl ⟨_, _, _, rfl⟩))

/-- The stored spelling. -/
def asStr : AgentId → Text
  | .process host pid (some run) => host ++ ':' :: showNat pid ++ ':' :: run
  | .process host pid none => host ++ ':' :: showNat pid
  | .session pid (some by') worktree =>
      sessionHost ++ ':' :: showNat pid ++ '@' :: by' ++ ':' :: worktree
  | .session pid none worktree => sessionHost ++ ':' :: showNat pid ++ ':' :: worktree
  | .agent id => agentHost ++ ':' :: id
  | .unrecognized raw => raw

/-! ## the owners that are built -/

/-- `replace(':', "-")`. -/
def dashed (t : Text) : Text := t.map fun c => if c = ':' then '-' else c

/-- A host segment that is no shape's marker and holds no field boundary. -/
def sanitizeHost (host : Text) : Text :=
  if dashed host = sessionHost ∨ dashed host = agentHost then dashed host ++ "-host".toList else dashed host

/-- This process's owner id. -/
def thisProcess (host : Text) (pid : Nat) : AgentId := .process (sanitizeHost host) pid none

/-- The owner id of a session that works in a worktree, opened by a process and perhaps by a session; what
is no session id is dropped. -/
def ofSession (pid : Nat) (openedBy : Option Text) (worktree : Text) : AgentId :=
  .session pid (openedBy.filter isSessionId) worktree

/-- An identity that is minted elsewhere. -/
def ofAgent (id : Text) : AgentId := .agent (dashed id)

/-- Whether an owner is one of those that are built; a process id is a `u32`. -/
inductive Built : AgentId → Prop
  | process (host : Text) {pid : Nat} (h : pid < 2 ^ 32) : Built (thisProcess host pid)
  | session {pid : Nat} (h : pid < 2 ^ 32) (openedBy : Option Text) (worktree : Text) :
      Built (ofSession pid openedBy worktree)
  | agent (id : Text) : Built (ofAgent id)

theorem notMem_dashed (t : Text) : ':' ∉ dashed t := by
  intro h
  obtain ⟨c, -, hc⟩ := List.mem_map.mp h
  split at hc
  · cases hc
  · next hne => exact hne hc

theorem notMem_sanitizeHost (host : Text) : ':' ∉ sanitizeHost host := by
  unfold sanitizeHost
  split
  · intro h
    rcases List.mem_append.mp h with h | h
    · exact notMem_dashed host h
    · exact absurd h (by decide)
  · exact notMem_dashed host

theorem sanitizeHost_ne (host : Text) : sanitizeHost host ≠ sessionHost ∧ sanitizeHost host ≠ agentHost := by
  unfold sanitizeHost
  split
  · next h => rcases h with h | h <;> rw [h] <;> decide
  · next h => exact not_or.mp h

theorem notMem_showNat {n : Nat} {c : Char}
    (hc : c ∉ ['0', '1', '2', '3', '4', '5', '6', '7', '8', '9']) : c ∉ showNat n :=
  fun h => hc (showNat_chars n c h)

/-- A number of the machine's range reads back from its decimal form. -/
theorem parseU32_showNat {n : Nat} (h : n < 2 ^ 32) : parseU32 (showNat n) = some n := by
  have hdigits : (match showNat n with
      | '+' :: ds => ds
      | ds => ds) = showNat n := by
    split
    · next ds heq =>
        exact absurd (heq ▸ List.mem_cons_self) (notMem_showNat (n := n) (c := '+') (by decide))
    · rfl
  unfold parseU32
  simp only [hdigits, parseDigits_showNat]
  simpa using h

theorem isSessionIdByte_of_mem {s : Text} (h : isSessionId s = true) {c : Char} (hc : c ∈ s) :
    isSessionIdByte c = true := by
  simp only [isSessionId, Bool.and_eq_true] at h
  exact List.all_eq_true.mp h.2 c hc

/-- What opened a session reads back. -/
theorem parseOpener_show {pid : Nat} (hpid : pid < 2 ^ 32) (openedBy : Option Text)
    (hopened : ∀ s, openedBy = some s → isSessionId s = true) :
    parseOpener (showNat pid ++ (openedBy.map ('@' :: ·)).getD []) = some (pid, openedBy) := by
  cases openedBy with
  | none =>
      rw [Option.map_none, Option.getD_none, List.append_nil, parseOpener,
        splitOnce_eq_none (notMem_showNat (by decide))]
      simp only [parseU32_showNat hpid, Option.all_none, if_true]
  | some s =>
      rw [Option.map_some, Option.getD_some, parseOpener, splitOnce_append (notMem_showNat (by decide))]
      simp only [parseU32_showNat hpid, Option.all_some, hopened s rfl, if_true]

theorem asStr_session (pid : Nat) (openedBy : Option Text) (worktree : Text) :
    asStr (.session pid openedBy worktree) =
      sessionHost ++ ':' :: ((showNat pid ++ (openedBy.map ('@' :: ·)).getD []) ++ ':' :: worktree) := by
  cases openedBy <;> simp [asStr]

/-- **An owner that is built reads back** from its stored spelling. -/
theorem Built.parse_asStr {id : AgentId} (h : Built id) : parse id.asStr = id := by
  cases h with
  | process host hpid =>
      obtain ⟨hsession, hagent⟩ := sanitizeHost_ne host
      rw [thisProcess, asStr, parse, List.splitOn_append_cons_self_of_not_mem (notMem_sanitizeHost host),
        List.splitOn_eq_singleton (notMem_showNat (by decide))]
      simp only [if_neg hsession, hagent, false_and, if_false, parseU32_showNat hpid, if_true]
  | session hpid openedBy worktree =>
      rename_i pid
      have hopened : ∀ s, openedBy.filter isSessionId = some s → isSessionId s = true := fun s hs =>
        (Option.filter_eq_some_iff.mp hs).2
      have hopener : ':' ∉ showNat pid ++ ((openedBy.filter isSessionId).map ('@' :: ·)).getD [] := by
        intro h
        rcases List.mem_append.mp h with h | h
        · exact notMem_showNat (by decide) h
        · cases hs : openedBy.filter isSessionId with
          | none => simp [hs] at h
          | some s =>
              rw [hs, Option.map_some, Option.getD_some, List.mem_cons] at h
              have hbyte := isSessionIdByte_of_mem (hopened s hs) (h.resolve_left (by decide))
              exact absurd hbyte (by decide)
      have hread := parseOpener_show hpid _ hopened
      rw [ofSession, asStr_session, parse, List.splitOn_append_cons_self_of_not_mem (by decide),
        List.splitOn_append_cons_self_of_not_mem hopener]
      cases hpieces : worktree.splitOn ':' with
      | nil => exact absurd hpieces (List.splitOn_ne_nil _ _)
      | cons a tail =>
          simp only [if_true, hread, ← hpieces, List.intercalate_splitOn]
  | agent id =>
      rw [ofAgent, asStr, parse, List.splitOn_append_cons_self_of_not_mem (by decide),
        List.splitOn_eq_singleton (notMem_dashed id)]
      have hne : agentHost ≠ sessionHost := by decide
      simp only [if_neg hne, ne_eq, List.cons_ne_self, not_false_eq_true, and_self, if_true,
        List.intercalate_singleton]

end AgentId

end Jkb
