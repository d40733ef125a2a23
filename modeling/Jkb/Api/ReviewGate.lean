import Jkb.Core.Reviews
import Jkb.Slices

/-!
# Jkb.Api.ReviewGate

The land gate's review rule: what a branch's review record must say before a head of it lands.

The facts that a verdict combines are of several rounds. A waiver, the must-fixes left open and the newest
round are read as the rule says; that the head was reviewed is read from the newest recording of some task,
and that recording may be of an older round than the one that has to be clean. `landing_reviewed_iff` says
when a landing is passed for which no clean round was recorded at its head.
-/

namespace Jkb.ReviewGate

open Jkb.Text Jkb.Reviews Jkb.Slices
open Jkb.Query (Sqlite ItemRow evaluate)

/-! ## the findings of a review -/

/-- The longest name a session op accepts, in bytes. -/
def MAX_NAME_BYTES : Nat := 255

/-- The most namespaces one answer is read from. -/
def MAX_REVIEW_NAMESPACES : Nat := 64

/-- The most open findings one answer lists. -/
def MAX_LISTED_FINDINGS : Nat := 100

/-- The most finding items one answer examines. -/
def MAX_EXAMINED_FINDINGS : Nat := 10000

/-- The longest finding title one answer carries. -/
def MAX_FINDING_TITLE_CHARS : Nat := 200

def checkName (what : String) (value : Text) : Except Fmt Unit :=
  if value = [] ∨ MAX_NAME_BYTES < Ns.byteLen value ∨ value.any isControl then
    .error ["a ", what, " of 1 to ", MAX_NAME_BYTES, " bytes with no control characters"]
  else .ok ()

/-- One open must-fix finding. -/
structure ReviewFinding where
  uid : Text
  title : Text
deriving Repr, DecidableEq

/-- What a review's namespaces hold, as the land gate reads them. -/
structure ReviewFindings where
  total : Nat := 0
  openCount : Nat := 0
  openMustFix : List ReviewFinding := []
  rounds : List Round := []
  roundsReported : Bool := false
deriving Repr, DecidableEq

section Findings

variable (nfc : Text → Text) (sys : Sqlite) (s : Store)

/-- The tasks under some namespaces. -/
def tasksUnder (nss : List Text) : Except Fmt (List Int) :=
  evaluate nfc sys s.base { kind := some "task".toList, scope := .union (nss.map .subtree) }

/-- The namespaces that no review recorded. -/
def unrecorded (nss : List Text) : List Text :=
  nss.filter fun ns => ns ∉ (roundsIn s nss).map (·.ns)

/-- The items that an answer looks at: the tasks there now, and what a recorded round held as must-fix. -/
def examined (nss : List Text) : Except Fmt (List Int) :=
  (tasksUnder nfc sys s nss).map fun live =>
    live ++ (mustFixFindings s nss).filter fun id => id ∉ live

/-- Whether an item is an open must-fix: one that a recorded round held as such, or, where no review was
recorded, one that is there now. -/
def isOpenMustFix (snapshot readLive : List Int) (i : ItemRow) : Bool :=
  !(i.status.any (·.isTerminal)) &&
    (snapshot.contains i.id || (readLive.contains i.id && i.priority.any (· ≤ 1)))

/-- What an answer says of the items it looks at. -/
def answer (nss : List Text) (ids readLive : List Int) : ReviewFindings :=
  let openItems := (ids.filterMap s.base.item?).filter (isOpenMustFix (mustFixFindings s nss) readLive)
  { total := ids.length
    openCount := openItems.length
    openMustFix := (openItems.take MAX_LISTED_FINDINGS).map fun i =>
      { uid := i.uid, title := (titleOf s i).take MAX_FINDING_TITLE_CHARS }
    rounds := roundsIn s nss
    roundsReported := true }

/-- Why some namespaces hold too much for a review. -/
def tooMany (nss : List Text) (count : Nat) : Fmt :=
  .text "the review namespaces " :: (nss.map Ns.shown).intersperse (.text ", ") ++
    [.text " hold ", .number count, .text " tasks, and a review holds at most ",
      .number MAX_EXAMINED_FINDINGS,
      .text " — a recorded round names something that is not a review. A recorded round is append-only (a ",
      .text "review happened), so nothing removes it: land this task with ",
      .text "`jkb task land <uid> --no-review`, which records the waiver on it"]

/-- The tasks under the namespaces that no review recorded. -/
def readLive (nss : List Text) : Except Fmt (List Int) :=
  if unrecorded s nss = [] then .ok [] else tasksUnder nfc sys s (unrecorded s nss)

/-- The findings under some namespaces. -/
def reviewFindings (nss : List Text) : Except Fmt ReviewFindings := do
  if MAX_REVIEW_NAMESPACES < nss.length then
    .error ["at most ", MAX_REVIEW_NAMESPACES, " review namespaces"]
  nss.forM (checkName "review namespace")
  if nss = [] then return { roundsReported := true }
  let ids ← examined nfc sys s nss
  let live ← readLive nfc sys s nss
  if MAX_EXAMINED_FINDINGS < ids.length then .error (tooMany nss ids.length)
  return answer s nss ids live

end Findings

/-- Several answers, each over a piece of a set of namespaces, as one. -/
def merge (parts : List ReviewFindings) : ReviewFindings where
  total := (parts.map (·.total)).sum
  openCount := (parts.map (·.openCount)).sum
  openMustFix := firstOfKey (·.uid) [] (parts.flatMap (·.openMustFix))
  rounds := (parts.flatMap (·.rounds)).insertionSort fun a b => a.filed ≤ b.filed
  roundsReported := parts.all (·.roundsReported)

/-! ## the verdict -/

/-- Why a review record does not let a task land, or that it does. -/
inductive GateVerdict where
  | passed
  | neverReviewed
  | noFindingsRecorded (nss : List Text)
  | openFindings (count : Nat) (first : List ReviewFinding)
  | lastRoundNotClean (ns : Text) (mustFix : Nat)
  | roundsUnknown
  | staleHead (reviewed : Text) (head : Option Text)
deriving Repr, DecidableEq

/-- Decide whether a task's review record permits a landing. Every recorded round is asked for open
must-fixes; the newest must itself have held none. -/
def gateWith (found : ReviewFindings) (review : ReviewState) : GateVerdict :=
  if review.reviewed = none then .neverReviewed
  else if review.namespaces = [] ∨ found.total = 0 then .noFindingsRecorded review.namespaces
  else if 0 < found.openCount then .openFindings found.openCount found.openMustFix
  else if found.roundsReported = false then .roundsUnknown
  else
    match found.rounds.getLast? with
    | some last => if 0 < last.mustFix then .lastRoundNotClean last.ns last.mustFix else .passed
    | none => .passed

/-- The same for a landing of `head`: the review must also have run against it, and a waiver of exactly that
head passes it. -/
def landingWith (found : ReviewFindings) (review : ReviewState) (head : Option Text) : GateVerdict :=
  if head.isSome ∧ review.waived = head then .passed
  else
    match gateWith found review with
    | .passed =>
        match review.reviewed with
        | some reviewed => if head = some reviewed then .passed else .staleHead reviewed head
        | none => .neverReviewed
    | refused => refused

/-- What one task's record adds to the record of its branch. -/
def addState (head : Option Text) (out s : ReviewState) : ReviewState :=
  { out with
    namespaces := s.namespaces.foldl pushNew out.namespaces
    reviewed :=
      match s.reviewed with
      | some r => if head = some r ∨ out.reviewed = none then some r else out.reviewed
      | none => out.reviewed
    waived := if head.isSome ∧ s.waived = head then s.waived else out.waived }

/-- The review record of a whole branch, from the records of the tasks on it. -/
def branchState (states : List ReviewState) (head : Option Text) : ReviewState :=
  states.foldl (addState head) {}

/-! ## a landing -/

def FACET_BRANCH : Text := "branch".toList
def FACET_REPO : Text := "repo".toList

/-- The tasks of a repository. -/
def tasksInRepo (repo : Text) : Query :=
  { kind := some "task".toList, tags := [{ facet := FACET_REPO, op := .eq, value := repo }] }

/-- The tasks of a repository that carry a branch. -/
def onBranch (repo branch : Text) : Query :=
  { tasksInRepo repo with
    tags := (tasksInRepo repo).tags ++ [{ facet := FACET_BRANCH, op := .eq, value := branch }] }

section Landing

variable (nfc : Text → Text) (sys : Sqlite) (order : List ReviewState → List ReviewState) (s : Store)

/-- The tasks that a landing of a branch, asked for a task, is judged by: where the task carries the branch,
those that carry it in the task's repository. -/
def branchTasks (task : Int) (branch : Text) : Except Fmt (List Int) :=
  let tags := applications s.base task
  let onIt := tags.any fun t => t.1 = FACET_BRANCH && t.2 = branch
  (tags.filter fun t => onIt && t.1 = FACET_REPO).foldlM
    (fun tasks t => (evaluate nfc sys s.base (onBranch t.2 branch)).map fun ids => ids.foldl pushNew tasks)
    [task]

/-- The branch's record. `order` is the order in which the map of the tasks' states hands them out. -/
def branchReview (tasks : List Int) (head : Option Text) : ReviewState :=
  branchState (order ((stateFor s tasks).map (·.2))) head

/-- What a landing of `head` from `branch`, asked for `task` by anyone but the operator, must pass. -/
def landing (task : Int) (branch : Text) (head : Option Text) : Except Fmt GateVerdict := do
  let tasks ← branchTasks nfc sys s task branch
  let review := branchReview order s tasks head
  let parts ← (chunks MAX_REVIEW_NAMESPACES review.namespaces).mapM (reviewFindings nfc sys s)
  return landingWith (merge parts) review head

end Landing

/-! ## the record of a branch -/

/-- What is pushed is what was there, and what is new. -/
theorem mem_foldl_pushNew {α : Type} [DecidableEq α] {xs acc : List α} {y : α} :
    y ∈ xs.foldl pushNew acc ↔ y ∈ acc ∨ y ∈ xs := by
  induction xs generalizing acc with
  | nil => simp
  | cons x xs ih => rw [List.foldl_cons, ih, mem_pushNew, List.mem_cons, or_assoc]

/-- A property that each task's record adds to what is there holds of the branch's record where it holds of
some task's. -/
theorem foldl_addState_iff {head : Option Text} {P : ReviewState → Prop}
    (hadd : ∀ out st, P (addState head out st) ↔ P out ∨ P st) (states : List ReviewState)
    (out : ReviewState) : P (states.foldl (addState head) out) ↔ P out ∨ ∃ st ∈ states, P st := by
  induction states generalizing out with
  | nil => simp
  | cons st states ih => rw [List.foldl_cons, ih, hadd, List.exists_mem_cons_iff, or_assoc]

section

variable {head : Text} {states : List ReviewState}

/-- The namespaces of a branch are those of its tasks. -/
theorem mem_namespaces_branchState {h : Option Text} {ns : Text} :
    ns ∈ (branchState states h).namespaces ↔ ∃ st ∈ states, ns ∈ st.namespaces := by
  rw [branchState, foldl_addState_iff (P := fun st => ns ∈ st.namespaces) fun _ _ => mem_foldl_pushNew]
  simp

/-- The head is reviewed if it is the head of some task's newest recording. -/
theorem reviewed_branchState :
    (branchState states (some head)).reviewed = some head ↔ ∃ st ∈ states, st.reviewed = some head := by
  have hadd : ∀ out st, (addState (some head) out st).reviewed = some head ↔
      out.reviewed = some head ∨ st.reviewed = some head := by
    intro out st
    unfold addState
    dsimp only
    split
    · next r hr =>
        rw [hr]
        split
        · next h =>
            rcases h with h | h
            · simp [h]
            · simp [h]
        · next h => simp [Ne.symm (fun he => h (Or.inl he))]
    · next hnone => simp [hnone]
  rw [branchState, foldl_addState_iff (P := fun st => st.reviewed = some head) hadd]
  simp

/-- A branch is waived at a head if a task of it is. -/
theorem waived_branchState :
    (branchState states (some head)).waived = some head ↔ ∃ st ∈ states, st.waived = some head := by
  have hadd : ∀ out st, (addState (some head) out st).waived = some head ↔
      out.waived = some head ∨ st.waived = some head := by
    intro out st
    unfold addState
    dsimp only
    split
    · next h => simp [h.2]
    · next h => simp [show st.waived ≠ some head from fun he => h ⟨rfl, he⟩]
  rw [branchState, foldl_addState_iff (P := fun st => st.waived = some head) hadd]
  simp

end

/-! ## what passes -/

/-- **When the gate passes**, by what it reads. -/
theorem gateWith_eq_passed {found : ReviewFindings} {review : ReviewState} :
    gateWith found review = .passed ↔
      review.reviewed ≠ none ∧ review.namespaces ≠ [] ∧ found.total ≠ 0 ∧ found.openCount = 0 ∧
        found.roundsReported = true ∧ ∀ last, found.rounds.getLast? = some last → last.mustFix = 0 := by
  unfold gateWith
  split
  · next h => simp [h]
  · next hrev =>
      split
      · next h => rcases h with h | h <;> simp [h]
      · next hns =>
          obtain ⟨hns, htotal⟩ := not_or.mp hns
          split
          · next h => simp [Nat.ne_of_gt h]
          · next hopen =>
              split
              · next h => simp [h]
              · next hrep =>
                  have hopen' : found.openCount = 0 := by omega
                  cases hlast : found.rounds.getLast? with
                  | none => simp [hrev, hns, htotal, hopen', hrep]
                  | some last =>
                      by_cases hfix : 0 < last.mustFix
                      · simp [hfix, Nat.ne_of_gt hfix]
                      · have hfix' : last.mustFix = 0 := by omega
                        simp [hfix', hrev, hns, htotal, hopen', hrep]

/-- **What the verdict asks**: a waiver of the head, or all that the rule says of the findings, with the head
reviewed. -/
theorem landingWith_eq_passed {found : ReviewFindings} {review : ReviewState} {head : Text} :
    landingWith found review (some head) = .passed ↔
      review.waived = some head ∨
        (review.reviewed = some head ∧ review.namespaces ≠ [] ∧ found.total ≠ 0 ∧ found.openCount = 0 ∧
          found.roundsReported = true ∧ ∀ last, found.rounds.getLast? = some last → last.mustFix = 0) := by
  unfold landingWith
  by_cases hw : review.waived = some head
  · simp [hw]
  · rw [if_neg (by simp [hw])]
    cases hg : gateWith found review with
    | passed =>
        obtain ⟨hrev, hrest⟩ := gateWith_eq_passed.mp hg
        obtain ⟨r, hr⟩ := Option.ne_none_iff_exists'.mp hrev
        by_cases hhead : r = head
        · subst hhead
          simp only [hr, if_true, true_iff]
          exact Or.inr ⟨trivial, hrest⟩
        · simp [hr, hhead, Ne.symm hhead, hw]
    | _ =>
        have hnot : gateWith found review ≠ .passed := by
          rw [hg]
          exact GateVerdict.noConfusion
        refine ⟨fun h => GateVerdict.noConfusion h, fun h => ?_⟩
        rcases h with h | ⟨hrev, hrest⟩
        · exact absurd h hw
        · exact absurd (gateWith_eq_passed.mpr ⟨by simp [hrev], hrest⟩) hnot

section Passes

variable (nfc : Text → Text) (sys : Sqlite) (order : List ReviewState → List ReviewState) (s : Store)

/-- A round that was recorded for one of some tasks at a head. -/
def RecordedAt (tasks : List Int) (head : Text) (round : RoundRow) : Prop :=
  round ∈ s.rounds.rows ∧ ∃ task ∈ tasks, ∃ r ∈ recordings s task, r.ns = some round.ns ∧ r.sha = head

/-- A waiver of a head that was recorded for one of some tasks. -/
def Waived (tasks : List Int) (head : Text) : Prop :=
  ∃ r ∈ s.reviews.rows, r.kind = .waived ∧ r.itemId ∈ tasks ∧ r.sha = head

/-- An item is there and finished. -/
def Finished (id : Int) : Prop :=
  ∃ i, s.base.item? id = some i ∧ i.status.any (·.isTerminal) = true

/-- Everything that a round recorded for one of some tasks held as must-fix is finished. -/
def AllFinished (tasks : List Int) : Prop :=
  ∀ round, RecordedFor s tasks round → ∀ f ∈ mustFixes s round.id, Finished s f.itemId

/-- **A head with a clean review of its own**, of the branch that some tasks are on. -/
def Reviewed (tasks : List Int) (head : Text) : Prop :=
  Waived s tasks head ∨
    ((∃ round, RecordedAt s tasks head round ∧ Clean s round) ∧ AllFinished s tasks ∧
      ∃ round, Newest s tasks round ∧ Clean s round)

/-- A piece of the namespaces can be read: each is a name, and the tasks under them are not too many. -/
def Readable (nss : List Text) : Prop :=
  (∀ ns ∈ nss, checkName "review namespace" ns = .ok ()) ∧
    ∃ ids, examined nfc sys s nss = .ok ids ∧ ids.length ≤ MAX_EXAMINED_FINDINGS

/-- **A head that an older round stands for.** Some task's newest recording is at the head, every round
recorded at the head held a must-fix, each of which is finished by now, and the newest round, of other heads
only, held none. -/
structure MixesRounds (tasks : List Int) (head : Text) : Prop where
  unwaived : ¬ Waived s tasks head
  readable : ∀ nss ∈ chunks MAX_REVIEW_NAMESPACES (branchReview order s tasks (some head)).namespaces,
    Readable nfc sys s nss
  atHead : ∃ task ∈ tasks, ∃ r, (recordings s task).getLast? = some r ∧ r.sha = head
  dirty : ∀ round, RecordedAt s tasks head round → ¬ Clean s round
  finished : AllFinished s tasks
  newest : ∃ round, Newest s tasks round ∧ Clean s round

variable {nfc sys order s}

/-- What a piece of recorded namespaces is answered with. -/
theorem reviewFindings_eq_ok {nss : List Text} {f : ReviewFindings} (hne : nss ≠ [])
    (hlen : nss.length ≤ MAX_REVIEW_NAMESPACES) (hrec : unrecorded s nss = []) :
    reviewFindings nfc sys s nss = .ok f ↔
      (∀ ns ∈ nss, checkName "review namespace" ns = .ok ()) ∧
        ∃ ids, examined nfc sys s nss = .ok ids ∧ ids.length ≤ MAX_EXAMINED_FINDINGS ∧
          f = answer s nss ids [] := by
  unfold reviewFindings
  rw [if_neg (Nat.not_lt.mpr hlen), Tx.bind_eq_ok, if_neg hne, readLive, if_pos hrec]
  constructor
  · rintro ⟨⟨⟩, hnames, h⟩
    obtain ⟨ids, hids, h⟩ := Tx.bind_eq_ok.mp h
    obtain ⟨live, hlive, h⟩ := Tx.bind_eq_ok.mp h
    cases hlive
    obtain ⟨hmax, h⟩ := Tx.guard_eq_ok.mp h
    cases h
    exact ⟨Tx.forM_eq_ok.mp hnames, ids, hids, Nat.not_lt.mp hmax, rfl⟩
  · rintro ⟨hnames, ids, hids, hmax, rfl⟩
    refine ⟨⟨⟩, Tx.forM_eq_ok.mpr hnames, Tx.bind_eq_ok.mpr ⟨ids, hids, ?_⟩⟩
    exact Tx.bind_eq_ok.mpr ⟨[], rfl, Tx.guard_eq_ok.mpr ⟨Nat.not_lt.mpr hmax, rfl⟩⟩

/-- Where every namespace has a round, none is without one. -/
theorem unrecorded_eq_nil {nss : List Text} (h : ∀ ns ∈ nss, (s.rounds.find ns).isSome) :
    unrecorded s nss = [] := by
  refine List.filter_eq_nil_iff.mpr fun ns hns => ?_
  obtain ⟨r, hr⟩ := Option.isSome_iff_exists.mp (h ns hns)
  have hround : ∃ x ∈ roundsIn s nss, x.ns = ns :=
    ⟨_, mem_roundsIn.mpr ⟨ns, hns, r, hr, rfl⟩, (Rounds.find_eq_some.mp hr).2⟩
  simpa using hround

/-- Everything that a recorded round held as must-fix is looked at. -/
theorem mem_examined {nss : List Text} {ids : List Int} (h : examined nfc sys s nss = .ok ids) {id : Int}
    (hid : id ∈ mustFixFindings s nss) : id ∈ ids := by
  obtain ⟨live, -, rfl⟩ := Tx.map_eq_ok.mp h
  by_cases hlive : id ∈ live
  · exact List.mem_append_left _ hlive
  · exact List.mem_append_right _ (List.mem_filter.mpr ⟨hid, by simpa using hlive⟩)

/-- An answer about recorded namespaces counts nothing as open where every must-fix is finished. -/
theorem openCount_answer (hs : Kept s) {nss : List Text} {ids : List Int}
    (h : examined nfc sys s nss = .ok ids) :
    (answer s nss ids []).openCount = 0 ↔ ∀ id ∈ mustFixFindings s nss, Finished s id := by
  rw [answer, List.length_eq_zero_iff, List.filter_eq_nil_iff]
  constructor
  · intro hopen id hid
    obtain ⟨ns, -, r, -, f, hf, rfl⟩ := mem_mustFixFindings.mp hid
    obtain ⟨i, hi⟩ := Option.isSome_iff_exists.mp (hs.there f (mem_mustFixes.mp hf).1)
    have hnot := hopen i (List.mem_filterMap.mpr ⟨_, mem_examined h hid, hi⟩)
    have hkey : i.id = f.itemId := Table.key_of_find? hi
    refine ⟨i, hi, ?_⟩
    simpa [isOpenMustFix, hkey, hid] using hnot
  · intro hfin i hi
    obtain ⟨id, -, hid⟩ := List.mem_filterMap.mp hi
    have hkey : i.id = id := Table.key_of_find? hid
    by_cases hmem : id ∈ mustFixFindings s nss
    · obtain ⟨x, hx, hterm⟩ := hfin id hmem
      obtain rfl := Option.some.inj (hx.symm.trans hid)
      simp [isOpenMustFix, hterm]
    · simp [isOpenMustFix, hkey, hmem]

/-! ## what a branch's record says -/

section Branch

variable {tasks : List Int} {head : Text}

/-- The states of a branch are those of its tasks that have a review. -/
theorem exists_branchStates (horder : ∀ l, (order l).Perm l) {P : ReviewState → Prop} :
    (∃ st ∈ order ((stateFor s tasks).map (·.2)), P st) ↔
      ∃ task ∈ tasks, (∃ r ∈ s.reviews.rows, r.itemId = task) ∧ P (state s task) := by
  simp only [(horder _).mem_iff, mem_stateFor]
  constructor
  · rintro ⟨_, ⟨task, htask, hr, rfl⟩, hP⟩
    exact ⟨task, htask, hr, hP⟩
  · rintro ⟨task, htask, hr, hP⟩
    exact ⟨_, ⟨task, htask, hr, rfl⟩, hP⟩

/-- The namespaces of a branch are those that its tasks have recorded. -/
theorem mem_namespaces_branchReview (horder : ∀ l, (order l).Perm l) {h : Option Text} {ns : Text} :
    ns ∈ (branchReview order s tasks h).namespaces ↔
      ∃ task ∈ tasks, ∃ r ∈ recordings s task, r.ns = some ns := by
  rw [branchReview, mem_namespaces_branchState, exists_branchStates horder (P := fun st => ns ∈ st.namespaces)]
  simp only [mem_namespaces_state]
  constructor
  · rintro ⟨task, htask, -, hr⟩
    exact ⟨task, htask, hr⟩
  · rintro ⟨task, htask, r, hr, hns⟩
    obtain ⟨hmem, hid, -⟩ := mem_recordings.mp hr
    exact ⟨task, htask, ⟨r, hmem, hid⟩, r, hr, hns⟩

/-- A branch is reviewed at a head if the last recording of a task of it is of the head. -/
theorem reviewed_branchReview (horder : ∀ l, (order l).Perm l) :
    (branchReview order s tasks (some head)).reviewed = some head ↔
      ∃ task ∈ tasks, ∃ r, (recordings s task).getLast? = some r ∧ r.sha = head := by
  rw [branchReview, reviewed_branchState,
    exists_branchStates horder (P := fun st => st.reviewed = some head)]
  simp only [reviewed_state, Option.map_eq_some_iff]
  constructor
  · rintro ⟨task, htask, -, hr⟩
    exact ⟨task, htask, hr⟩
  · rintro ⟨task, htask, r, hr, hsha⟩
    obtain ⟨hmem, hid, -⟩ := mem_recordings.mp (List.mem_of_getLast? hr)
    exact ⟨task, htask, ⟨r, hmem, hid⟩, r, hr, hsha⟩

/-- A waiver that passes a landing was recorded for its head. -/
theorem waived_of_branchReview (horder : ∀ l, (order l).Perm l)
    (h : (branchReview order s tasks (some head)).waived = some head) : Waived s tasks head := by
  rw [branchReview, waived_branchState,
    exists_branchStates horder (P := fun st => st.waived = some head)] at h
  obtain ⟨task, htask, -, h⟩ := h
  obtain ⟨r, hr, hid, hkind, hsha⟩ := waived_state h
  exact ⟨r, hr, hkind, hid ▸ htask, hsha⟩

/-- The namespaces of a branch's record are those of its rounds. -/
theorem exists_round (hs : Kept s) (horder : ∀ l, (order l).Perm l) {h : Option Text} {ns : Text}
    (hns : ns ∈ (branchReview order s tasks h).namespaces) :
    ∃ round, s.rounds.find ns = some round ∧ RecordedFor s tasks round := by
  obtain ⟨task, htask, r, hr, hrns⟩ := (mem_namespaces_branchReview horder).mp hns
  obtain ⟨hmem, -, hkind⟩ := mem_recordings.mp hr
  obtain ⟨n, hn, hfind⟩ := hs.recorded r hmem hkind
  obtain rfl : ns = n := Option.some.inj (hrns.symm.trans hn)
  obtain ⟨round, hround⟩ := Option.isSome_iff_exists.mp hfind
  obtain ⟨hin, hname⟩ := Rounds.find_eq_some.mp hround
  exact ⟨round, hround, hin, task, htask, r, hr, by rw [hname]; exact hrns⟩

/-- A round that is recorded for a task of the branch is one of the branch's. -/
theorem mem_namespaces_of_recorded (horder : ∀ l, (order l).Perm l) {h : Option Text} {round : RoundRow}
    (hround : RecordedFor s tasks round) :
    round.ns ∈ (branchReview order s tasks h).namespaces ∧ s.rounds.find round.ns = some round :=
  ⟨(mem_namespaces_branchReview horder).mpr hround.2, Rounds.find_eq_some.mpr ⟨hround.1, rfl⟩⟩

/-! ## the answers together -/

variable {h : Option Text} {parts : List ReviewFindings}

/-- Each part is the answer about one piece of the branch's namespaces. -/
theorem exists_answer (hs : Kept s) (horder : ∀ l, (order l).Perm l) {nss : List Text} {f : ReviewFindings}
    (hnss : nss ∈ chunks MAX_REVIEW_NAMESPACES (branchReview order s tasks h).namespaces) :
    reviewFindings nfc sys s nss = .ok f ↔
      (∀ ns ∈ nss, checkName "review namespace" ns = .ok ()) ∧
        ∃ ids, examined nfc sys s nss = .ok ids ∧ ids.length ≤ MAX_EXAMINED_FINDINGS ∧
          f = answer s nss ids [] := by
  obtain ⟨hne, hlen⟩ := length_of_mem_chunks hnss
  refine reviewFindings_eq_ok hne hlen (unrecorded_eq_nil fun ns hns => ?_)
  obtain ⟨round, hround, -⟩ := exists_round hs horder ((mem_chunks (by decide)).mpr ⟨nss, hnss, hns⟩)
  rw [hround]
  rfl

section Parts

variable (hs : Kept s) (horder : ∀ l, (order l).Perm l)
  (hparts : (chunks MAX_REVIEW_NAMESPACES (branchReview order s tasks h).namespaces).mapM
    (reviewFindings nfc sys s) = .ok parts)

include hs horder hparts

/-- A part is the answer about some recorded namespaces. -/
theorem part_cases {part : ReviewFindings} (hpart : part ∈ parts) :
    ∃ nss ids, part = answer s nss ids [] ∧ examined nfc sys s nss = .ok ids ∧
      ∀ ns ∈ nss, ∃ round, s.rounds.find ns = some round ∧ RecordedFor s tasks round := by
  obtain ⟨nss, hnss, heq⟩ := Tx.mem_of_mapM hparts part hpart
  obtain ⟨-, ids, hids, -, rfl⟩ := (exists_answer hs horder hnss).mp heq
  exact ⟨nss, ids, rfl, hids, fun ns hns =>
    exists_round hs horder ((mem_chunks (by decide)).mpr ⟨nss, hnss, hns⟩)⟩

/-- A round of the branch is in the answer of some part. -/
theorem exists_part {round : RoundRow} (hround : RecordedFor s tasks round) :
    ∃ nss ids, answer s nss ids [] ∈ parts ∧ examined nfc sys s nss = .ok ids ∧ round.ns ∈ nss ∧
      s.rounds.find round.ns = some round := by
  obtain ⟨hns, hfind⟩ := mem_namespaces_of_recorded (h := h) horder hround
  obtain ⟨nss, hnss, hmem⟩ := (mem_chunks (n := MAX_REVIEW_NAMESPACES) (by decide)).mp hns
  obtain ⟨part, hpart, heq⟩ := Tx.exists_mem_of_mapM hparts nss hnss
  obtain ⟨-, ids, hids, -, rfl⟩ := (exists_answer hs horder hnss).mp heq
  exact ⟨nss, ids, hpart, hids, hmem, hfind⟩

/-- The answers together count nothing as open where everything is finished. -/
theorem openCount_merge : (merge parts).openCount = 0 ↔ AllFinished s tasks := by
  rw [show (merge parts).openCount = (parts.map (·.openCount)).sum from rfl,
    List.sum_eq_zero_iff_forall_eq_nat]
  constructor
  · intro hopen round hround f hf
    obtain ⟨nss, ids, hpart, hids, hmem, hfind⟩ := exists_part hs horder hparts hround
    have hzero := hopen _ (List.mem_map_of_mem hpart)
    exact (openCount_answer hs hids).mp hzero _ (mem_mustFixFindings.mpr ⟨_, hmem, round, hfind, f, hf, rfl⟩)
  · intro hfin n hn
    obtain ⟨part, hpart, rfl⟩ := List.mem_map.mp hn
    obtain ⟨nss, ids, rfl, hids, hrounds⟩ := part_cases hs horder hparts hpart
    refine (openCount_answer hs hids).mpr fun id hid => ?_
    obtain ⟨ns, hns, r, hr, f, hf, rfl⟩ := mem_mustFixFindings.mp hid
    obtain ⟨round, hround, hrec⟩ := hrounds ns hns
    obtain rfl := Option.some.inj (hr.symm.trans hround)
    exact hfin r hrec f hf

/-- The answers together look at what a round held as must-fix. -/
theorem total_merge {round : RoundRow} (hround : RecordedFor s tasks round) (hdirty : ¬ Clean s round) :
    (merge parts).total ≠ 0 := by
  obtain ⟨f, hf⟩ := List.exists_mem_of_ne_nil _ hdirty
  obtain ⟨nss, ids, hpart, hids, hmem, hfind⟩ := exists_part hs horder hparts hround
  have hin := mem_examined hids (mem_mustFixFindings.mpr ⟨_, hmem, round, hfind, f, hf, rfl⟩)
  rw [show (merge parts).total = (parts.map (·.total)).sum from rfl, Ne,
    List.sum_eq_zero_iff_forall_eq_nat]
  intro hzero
  have hlen : ids.length = 0 := hzero _ (List.mem_map_of_mem hpart)
  rw [List.length_eq_zero_iff.mp hlen] at hin
  exact List.not_mem_nil hin

/-- Every answer reports its rounds. -/
theorem roundsReported_merge : (merge parts).roundsReported = true := by
  refine List.all_eq_true.mpr fun part hpart => ?_
  obtain ⟨nss, ids, rfl, -, -⟩ := part_cases hs horder hparts hpart
  rfl

/-- The rounds of the answers are those recorded for the branch. -/
theorem mem_rounds_merge {x : Round} :
    x ∈ parts.flatMap (·.rounds) ↔ ∃ round, RecordedFor s tasks round ∧ report s round = x := by
  rw [List.mem_flatMap]
  constructor
  · rintro ⟨part, hpart, hx⟩
    obtain ⟨nss, ids, rfl, -, hrounds⟩ := part_cases hs horder hparts hpart
    obtain ⟨ns, hns, r, hr, hreport⟩ := mem_roundsIn.mp hx
    obtain ⟨round, hround, hrec⟩ := hrounds ns hns
    obtain rfl := Option.some.inj (hr.symm.trans hround)
    exact ⟨r, hrec, hreport⟩
  · rintro ⟨round, hround, rfl⟩
    obtain ⟨nss, ids, hpart, -, hmem, hfind⟩ := exists_part hs horder hparts hround
    exact ⟨_, hpart, mem_roundsIn.mpr ⟨_, hmem, round, hfind, rfl⟩⟩

/-- The last of the rounds is clean where the newest of the branch's is. -/
theorem last_merge (hne : ∃ round, RecordedFor s tasks round) :
    (∀ last, (merge parts).rounds.getLast? = some last → last.mustFix = 0) ↔
      ∃ round, Newest s tasks round ∧ Clean s round := by
  have hlast : ∃ last, (merge parts).rounds.getLast? = some last := by
    obtain ⟨round, hround⟩ := hne
    have hmem : report s round ∈ (merge parts).rounds :=
      (List.mem_insertionSort _).mpr ((mem_rounds_merge hs horder hparts).mpr ⟨round, hround, rfl⟩)
    exact ⟨_, List.getLast?_eq_some_getLast (List.ne_nil_of_mem hmem)⟩
  obtain ⟨last, hlast⟩ := hlast
  obtain ⟨hmem, hmax⟩ := getLast_insertionSort hlast
  obtain ⟨round, hround, rfl⟩ := (mem_rounds_merge hs horder hparts).mp hmem
  have hnewest : Newest s tasks round := by
    refine ⟨hround, fun other hother => ?_⟩
    exact hmax _ ((mem_rounds_merge hs horder hparts).mpr ⟨other, hother, rfl⟩)
  constructor
  · intro hclean
    exact ⟨round, hnewest, List.length_eq_zero_iff.mp (hclean _ hlast)⟩
  · rintro ⟨other, hother, hclean⟩ x hx
    obtain rfl := Option.some.inj (hlast.symm.trans hx)
    have hid : other.id = round.id := le_antisymm (hnewest.2 _ hother.1) (hother.2 _ hround)
    rw [report, ← hid, hclean]
    rfl

end Parts

/-! ## a landing that passes -/

/-- **What a landing asks of the record**, once its findings are read. -/
theorem landingWith_merge (hs : Kept s) (horder : ∀ l, (order l).Perm l)
    (hparts : (chunks MAX_REVIEW_NAMESPACES (branchReview order s tasks (some head)).namespaces).mapM
      (reviewFindings nfc sys s) = .ok parts) :
    landingWith (merge parts) (branchReview order s tasks (some head)) (some head) = .passed ↔
      (branchReview order s tasks (some head)).waived = some head ∨
        ((∃ task ∈ tasks, ∃ r, (recordings s task).getLast? = some r ∧ r.sha = head) ∧
          (merge parts).total ≠ 0 ∧ AllFinished s tasks ∧ ∃ round, Newest s tasks round ∧ Clean s round) := by
  rw [landingWith_eq_passed, reviewed_branchReview horder, openCount_merge hs horder hparts,
    roundsReported_merge hs horder hparts]
  refine or_congr Iff.rfl ⟨?_, ?_⟩
  · rintro ⟨hat, hne, htotal, hfin, -, hlast⟩
    obtain ⟨ns, hns⟩ := List.exists_mem_of_ne_nil _ hne
    obtain ⟨round, -, hround⟩ := exists_round hs horder hns
    exact ⟨hat, htotal, hfin, (last_merge hs horder hparts ⟨round, hround⟩).mp hlast⟩
  · rintro ⟨hat, htotal, hfin, round, hround, hclean⟩
    obtain ⟨hns, -⟩ := mem_namespaces_of_recorded (h := some head) horder hround.1
    exact ⟨hat, List.ne_nil_of_mem hns, htotal, hfin, rfl,
      (last_merge hs horder hparts ⟨round, hround.1⟩).mpr ⟨round, hround, hclean⟩⟩

/-- The newest recording of a task is of a round, at its head. -/
theorem exists_recordedAt (hs : Kept s)
    (hat : ∃ task ∈ tasks, ∃ r, (recordings s task).getLast? = some r ∧ r.sha = head) :
    ∃ round, RecordedAt s tasks head round := by
  obtain ⟨task, htask, r, hr, hsha⟩ := hat
  have hmem := List.mem_of_getLast? hr
  obtain ⟨hrow, -, hkind⟩ := mem_recordings.mp hmem
  obtain ⟨ns, hns, hfind⟩ := hs.recorded r hrow hkind
  obtain ⟨round, hround⟩ := Option.isSome_iff_exists.mp hfind
  obtain ⟨hin, hname⟩ := Rounds.find_eq_some.mp hround
  exact ⟨round, hin, task, htask, r, hmem, by rw [hns, hname], hsha⟩

/-- What is recorded at the head is recorded. -/
theorem RecordedAt.recordedFor {round : RoundRow} (h : RecordedAt s tasks head round) :
    RecordedFor s tasks round := by
  obtain ⟨hin, task, htask, r, hr, hns, -⟩ := h
  exact ⟨hin, task, htask, r, hr, hns⟩

/-- **When a landing passes**, by the pages that it reads. -/
theorem landing_eq_passed {task : Int} {branch : Text}
    (htasks : branchTasks nfc sys s task branch = .ok tasks) :
    landing nfc sys order s task branch (some head) = .ok .passed ↔
      ∃ parts, (chunks MAX_REVIEW_NAMESPACES (branchReview order s tasks (some head)).namespaces).mapM
          (reviewFindings nfc sys s) = .ok parts ∧
        landingWith (merge parts) (branchReview order s tasks (some head)) (some head) = .passed := by
  rw [landing, Tx.bind_eq_ok]
  constructor
  · rintro ⟨ts, hts, h⟩
    obtain rfl := Except.ok.inj (hts.symm.trans htasks)
    obtain ⟨parts, hparts, h⟩ := Tx.bind_eq_ok.mp h
    exact ⟨parts, hparts, Except.ok.inj h⟩
  · rintro ⟨parts, hparts, h⟩
    exact ⟨tasks, htasks, Tx.bind_eq_ok.mpr ⟨parts, hparts, congrArg Except.ok h⟩⟩

/-- A head that an older round stands for passes. -/
theorem MixesRounds.passes (h : MixesRounds nfc sys order s tasks head) (hs : Kept s)
    (horder : ∀ l, (order l).Perm l) {task : Int} {branch : Text}
    (htasks : branchTasks nfc sys s task branch = .ok tasks) :
    landing nfc sys order s task branch (some head) = .ok .passed := by
  rw [landing_eq_passed htasks]
  obtain ⟨parts, hparts⟩ := Tx.exists_mapM (f := reviewFindings nfc sys s) fun nss hnss => by
    obtain ⟨hnames, ids, hids, hmax⟩ := h.readable nss hnss
    exact ⟨_, (exists_answer hs horder hnss).mpr ⟨hnames, ids, hids, hmax, rfl⟩⟩
  obtain ⟨round, hround⟩ := exists_recordedAt hs h.atHead
  have htotal := total_merge hs horder hparts hround.recordedFor (h.dirty round hround)
  exact ⟨parts, hparts, (landingWith_merge hs horder hparts).mpr
    (Or.inr ⟨h.atHead, htotal, h.finished, h.newest⟩)⟩

/-- A head that an older round stands for has no clean review. -/
theorem MixesRounds.not_reviewed (h : MixesRounds nfc sys order s tasks head) :
    ¬ Reviewed s tasks head := by
  rintro (hwaived | ⟨⟨round, hat, hclean⟩, -, -⟩)
  · exact h.unwaived hwaived
  · exact h.dirty round hat hclean

/-- A head that passes has a clean review of its own, or an older round stands for it. -/
theorem reviewed_or_mixes (hs : Kept s) (horder : ∀ l, (order l).Perm l) {task : Int} {branch : Text}
    (htasks : branchTasks nfc sys s task branch = .ok tasks)
    (hpass : landing nfc sys order s task branch (some head) = .ok .passed) :
    Reviewed s tasks head ∨ MixesRounds nfc sys order s tasks head := by
  obtain ⟨parts, hparts, hpass⟩ := (landing_eq_passed htasks).mp hpass
  rcases (landingWith_merge hs horder hparts).mp hpass with hw | ⟨hat, -, hfin, hnewest⟩
  · exact Or.inl (Or.inl (waived_of_branchReview horder hw))
  · by_cases hclean : ∃ round, RecordedAt s tasks head round ∧ Clean s round
    · exact Or.inl (Or.inr ⟨hclean, hfin, hnewest⟩)
    · by_cases hwaived : Waived s tasks head
      · exact Or.inl (Or.inl hwaived)
      · refine Or.inr ⟨hwaived, fun nss hnss => ?_, hat, fun round hround hc => ?_, hfin, hnewest⟩
        · obtain ⟨part, -, heq⟩ := Tx.exists_mem_of_mapM hparts nss hnss
          obtain ⟨hnames, ids, hids, hmax, -⟩ := (exists_answer hs horder hnss).mp heq
          exact ⟨hnames, ids, hids, hmax⟩
        · exact hclean ⟨round, hround, hc⟩

end Branch

/-- The tasks that a branch is judged by can always be read. -/
theorem exists_branchTasks (task : Int) (branch : Text) :
    ∃ tasks, branchTasks nfc sys s task branch = .ok tasks := by
  suffices h : ∀ (tags : List (Text × Text)) (acc : List Int), ∃ tasks,
      tags.foldlM (fun tasks t =>
        (evaluate nfc sys s.base (onBranch t.2 branch)).map fun ids => ids.foldl pushNew tasks) acc =
          .ok tasks from h _ _
  intro tags
  induction tags with
  | nil => exact fun acc => ⟨acc, rfl⟩
  | cons t tags ih =>
      intro acc
      obtain ⟨ids, hids⟩ := @Query.exists_evaluate nfc sys s.base (onBranch t.2 branch) none rfl rfl rfl
      obtain ⟨tasks, htasks⟩ := ih (ids.foldl pushNew acc)
      refine ⟨tasks, ?_⟩
      rw [List.foldlM_cons, hids]
      exact htasks

end Passes

/-! ## over a run -/

/-- **When the gate passes only a head with a clean review of its own**: after any run of recordings,
waivers, filings and other writers' changes, unless an older round stands for the head. -/
theorem landing_reviewed_iff (nfc : Text → Text) (sys : Sqlite)
    (order : List ReviewState → List ReviewState) (horder : ∀ l, (order l).Perm l)
    (base : Query.Store) (content : Int → Option Text) (ops : List Op) (task : Int) (branch head : Text) :
    let s := Run.run (Reviews.next nfc sys) (start base content) ops
    ∃ tasks, branchTasks nfc sys s task branch = .ok tasks ∧
      ((landing nfc sys order s task branch (some head) = .ok .passed → Reviewed s tasks head) ↔
        ¬ MixesRounds nfc sys order s tasks head) := by
  intro s
  have hs : Kept s := kept_run nfc sys (kept_start base content) ops
  obtain ⟨tasks, htasks⟩ := @exists_branchTasks nfc sys s task branch
  refine ⟨tasks, htasks, fun h hmix => ?_, fun hmix hpass => ?_⟩
  · exact hmix.not_reviewed (h (hmix.passes hs horder htasks))
  · exact (reviewed_or_mixes hs horder htasks hpass).resolve_right hmix

/-! ## a head that an older round stands for -/

/-- A task under review, and two findings that are finished: one was a must-fix, the other was not. -/
def twoFindings : Query.Store where
  items :=
    { rows := [{ id := 1, uid := "task:a".toList, kind := "task".toList, status := some .needsReview },
        { id := 2, uid := "task:f".toList, kind := "task".toList, status := some .done, priority := some 1 },
        { id := 3, uid := "task:g".toList, kind := "task".toList, status := some .done, priority := some 3 }]
      nodup := by decide
      last := 3
      le_last := by decide }

/-- Two rounds are recorded at two heads, and then the first once more at a third. -/
def recordedAgain : List Op :=
  [.recordFiling "r/1".toList [2] "w".toList, .recordFiling "r/2".toList [3] "w".toList,
    .record 1 "r/1".toList "a".toList "w".toList (.filed "w".toList),
    .record 1 "r/2".toList "b".toList "w".toList (.filed "w".toList),
    .record 1 "r/1".toList "c".toList "w".toList (.filed "w".toList)]

/-- The record after that. -/
def againState : Store :=
  Run.run (Reviews.next id ⟨some, [], fun _ => .ok []⟩) (start twoFindings fun _ => none) recordedAgain

/-- No waiver is recorded, and each round recorded at the third head held a must-fix. -/
theorem againState_dirty : (∀ r ∈ againState.reviews.rows, r.kind ≠ .waived) ∧
    ∀ round ∈ againState.rounds.rows, ∀ r ∈ recordings againState 1,
      r.ns = some round.ns → r.sha = "c".toList → mustFixes againState round.id ≠ [] := by
  decide +kernel

/-- The third head passes, and the only round recorded at it held a must-fix. -/
theorem landing_passes_unreviewed : ¬ ∀ (nfc : Text → Text) (sys : Sqlite)
    (order : List ReviewState → List ReviewState), (∀ l, (order l).Perm l) →
    ∀ (base : Query.Store) (content : Int → Option Text) (ops : List Op) (task : Int) (branch head : Text)
      (tasks : List Int),
    let s := Run.run (Reviews.next nfc sys) (start base content) ops
    branchTasks nfc sys s task branch = .ok tasks →
      landing nfc sys order s task branch (some head) = .ok .passed → Reviewed s tasks head := by
  intro h
  have hreviewed : Reviewed againState [1] "c".toList :=
    h id ⟨some, [], fun _ => .ok []⟩ id (fun _ => .rfl) twoFindings (fun _ => none) recordedAgain 1
      "x".toList "c".toList [1] (by decide +kernel) (by decide +kernel)
  rcases hreviewed with ⟨r, hr, hkind, -⟩ | ⟨⟨round, ⟨hin, task, htask, r, hr, hns, hsha⟩, hclean⟩, -⟩
  · exact againState_dirty.1 r hr hkind
  · obtain rfl := List.mem_singleton.mp htask
    exact againState_dirty.2 round hin r hr hns hsha hclean

/-- Before the first round is recorded again, the head of the second one passes. -/
theorem landing_reviewed_iff_twoFindings :
    let s := Run.run (Reviews.next id ⟨some, [], fun _ => .ok []⟩) (start twoFindings fun _ => none)
      (recordedAgain.take 4)
    landing id ⟨some, [], fun _ => .ok []⟩ id s 1 "x".toList (some "b".toList) = .ok .passed ∧
      ∃ tasks, branchTasks id ⟨some, [], fun _ => .ok []⟩ s 1 "x".toList = .ok tasks ∧
        ((landing id ⟨some, [], fun _ => .ok []⟩ id s 1 "x".toList (some "b".toList) = .ok .passed →
            Reviewed s tasks "b".toList) ↔
          ¬ MixesRounds id ⟨some, [], fun _ => .ok []⟩ id s tasks "b".toList) :=
  ⟨by decide +kernel, landing_reviewed_iff id ⟨some, [], fun _ => .ok []⟩ id (fun _ => .rfl) twoFindings
    (fun _ => none) (recordedAgain.take 4) 1 "x".toList "b".toList⟩

end Jkb.ReviewGate
