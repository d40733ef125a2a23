import Jkb.Sync.Tasks.Settles

/-!
# Jkb.Sync.Tasks.Tight

The converse of `parseTaskTokens_keptFirst`: a task line that reads back from what it is written as
settles. Reading never makes a line longer, so a line that reads as what it was written from has no
character to spare: nothing is peeled off it, no quotes are taken off its title, and each of its
modifiers is one of its tokens.
-/

namespace Jkb.Sync.Tasks

open Jkb.Text Jkb.Dsl

/-! ## the room that tokens take -/

/-- The room that words take side by side, with one separator after each. -/
def room (words : List Text) : Nat := (words.map fun w => w.length + 1).sum

@[simp] theorem room_nil : room [] = 0 := rfl

@[simp] theorem room_cons (w : Text) (words : List Text) :
    room (w :: words) = w.length + 1 + room words := by
  simp [room]

@[simp] theorem room_append (xs ys : List Text) : room (xs ++ ys) = room xs + room ys := by
  simp [room]

/-- The room of words does not depend on their order. -/
theorem room_perm {xs ys : List Text} (h : xs.Perm ys) : room xs = room ys :=
  (h.map _).sum_eq

/-- Joined words take their room, less the last blank. -/
theorem length_joinWords {words : List Text} (h : words ≠ []) :
    (joinWords words).length + 1 = room words := by
  induction words with
  | nil => exact absurd rfl h
  | cons w words ih =>
      cases words with
      | nil => simp
      | cons v words =>
          have hrest := ih (List.cons_ne_nil v words)
          have hjoin : joinWords (w :: v :: words) = w ++ ' ' :: joinWords (v :: words) := by
            simp [joinWords]
          rw [hjoin, List.length_append, List.length_cons, hrest, room_cons w]
          omega

/-- Tokens take no more room than the text they are read from. -/
theorem room_tokenizeFrom (current : Text) (q : Bool) (s : Text) :
    room (tokenizeFrom current q s) ≤ current.length + s.length + 1 := by
  induction s generalizing current q with
  | nil =>
      rw [tokenizeFrom]
      split <;> simp
  | cons c s ih =>
      have hmore := fun q' => ih (current ++ [c]) q'
      have hnext := ih [] false
      simp only [List.length_append, List.length_cons, List.length_nil] at hmore hnext ⊢
      rw [tokenizeFrom]
      split
      · have hle := hmore (!q)
        omega
      · split
        · rw [room_append]
          have hcur : room (if current = [] then ([] : List Text) else [current]) ≤
              current.length + 1 := by
            split <;> simp
          omega
        · have hle := hmore q
          omega

/-- The words of a text take no more room than the text. -/
theorem room_tokenize (s : Text) : room (tokenize s) ≤ s.length + 1 := by
  have h := room_tokenizeFrom [] false s
  simpa [tokenize] using h

/-- An empty text has no words. -/
theorem tokenize_nil : tokenize [] = [] := rfl

/-- A blank before a text is no word of it. -/
theorem tokenize_cons_whitespace {c : Char} (hc : isWhitespace c = true) (s : Text) :
    tokenize (c :: s) = tokenize s := by
  have h := @tokenizeFrom_separator false [] c rfl hc [] s
  simpa [tokenizeFrom, tokenize] using h

/-! ## quotes -/

/-- Taking quotes off a text makes it shorter, where there are any. -/
theorem unquote_cases (t : Text) : unquote t = t ∨ (unquote t).length < t.length := by
  cases hu : (stripPrefix ['"'] t).bind (stripSuffix ['"']) with
  | none =>
      left
      rw [unquote, hu, Option.getD_none]
  | some s =>
      right
      obtain ⟨r, hr, hs⟩ := Option.bind_eq_some_iff.mp hu
      rw [unquote, hu, Option.getD_some, stripPrefix_eq_some.mp hr]
      unfold stripSuffix at hs
      split at hs
      · obtain rfl := Option.some.inj hs
        simp only [List.length_take, List.length_append, List.length_cons, List.length_nil]
        omega
      · cases hs

/-- Words without their quotes take no more room. -/
theorem room_unquote_le (words : List Text) : room (words.map unquote) ≤ room words := by
  induction words with
  | nil => simp
  | cons w words ih =>
      rw [List.map_cons, room_cons, room_cons]
      rcases unquote_cases w with h | h
      · rw [h]
        omega
      · omega

/-- Taking the quotes off words leaves as much room only where there are none. -/
theorem unquote_of_room {words : List Text} (h : room words ≤ room (words.map unquote)) :
    ∀ t ∈ words, unquote t = t := by
  induction words with
  | nil => simp
  | cons w words ih =>
      rw [List.map_cons, room_cons, room_cons] at h
      have hle := room_unquote_le words
      have hw : unquote w = w := by
        rcases unquote_cases w with hw | hw
        · exact hw
        · omega
      have hrest := ih (by rw [hw] at h; omega)
      intro t ht
      rcases List.mem_cons.mp ht with rfl | ht
      · exact hw
      · exact hrest t ht

/-! ## an open quote -/

/-- A token that is being read goes on to the next one read. -/
theorem tokenizeFrom_head {current : Text} (hne : current ≠ []) (q : Bool) (s : Text) :
    ∃ x rest, tokenizeFrom current q s = x :: rest ∧ current <+: x := by
  induction s generalizing current q with
  | nil => exact ⟨current, [], by rw [tokenizeFrom, if_neg hne], List.prefix_refl _⟩
  | cons c s ih =>
      have hmore : ∀ q', ∃ x rest, tokenizeFrom (current ++ [c]) q' s = x :: rest ∧ current <+: x := by
        intro q'
        obtain ⟨x, rest, hx, hpre⟩ := @ih (current ++ [c]) (by simp) q'
        exact ⟨x, rest, hx, (List.prefix_append _ _).trans hpre⟩
      rw [tokenizeFrom]
      split
      · exact hmore _
      · split
        · refine ⟨current, tokenizeFrom [] false s, ?_, List.prefix_refl _⟩
          rfl
        · exact hmore _

/-- A word with an open quote is read together with what follows it. -/
theorem tokenize_open {w : Text} (hw : IsToken w) (hopen : ¬ Closed w) (s : Text) :
    ∃ x rest, tokenize (w ++ ' ' :: s) = x :: rest ∧ w <+: x ∧ w.length < x.length := by
  have hq : quoteState false w = true := by simpa [Closed] using hopen
  have hsolid := tokenizeFrom_solid hw.2 [] (' ' :: s)
  rw [hq, List.nil_append] at hsolid
  have hstep : tokenizeFrom w true (' ' :: s) = tokenizeFrom (w ++ [' ']) true s := by
    rw [tokenizeFrom, if_neg (by decide)]
    simp
  obtain ⟨x, rest, hx, hpre⟩ := @tokenizeFrom_head (w ++ [' ']) (by simp) true s
  refine ⟨x, rest, ?_, (List.prefix_append _ _).trans hpre, ?_⟩
  · rw [tokenize, hsolid, hstep, hx]
  · have hle := hpre.length_le
    rw [List.length_append, List.length_singleton] at hle
    omega

/-- Of words not all closed but the last, the first that is open is read together with the next. -/
theorem tokenize_joinWords_open {words : List Text} (htoken : ∀ w ∈ words, IsToken w)
    (hopen : ¬ ∀ w ∈ words.dropLast, Closed w) :
    ∃ before w after x rest, words = before ++ w :: after ∧
      tokenize (joinWords words) = before ++ x :: rest ∧ ¬ Closed w ∧ w <+: x ∧
        w.length < x.length := by
  induction words with
  | nil => simp at hopen
  | cons w words ih =>
      cases words with
      | nil => simp at hopen
      | cons v words =>
          have hw := htoken w List.mem_cons_self
          have hjoin : joinWords (w :: v :: words) = w ++ ' ' :: joinWords (v :: words) := by
            simp [joinWords]
          rw [hjoin]
          by_cases hwc : Closed w
          · have hrest : ¬ ∀ u ∈ (v :: words).dropLast, Closed u := by
              intro hall
              refine hopen fun u hu => ?_
              rw [List.dropLast_cons_of_ne_nil (List.cons_ne_nil v words)] at hu
              rcases List.mem_cons.mp hu with rfl | hu
              · exact hwc
              · exact hall u hu
            obtain ⟨before, u, after, x, rest, hsplit, hread, hfacts⟩ :=
              ih (fun u hu => htoken u (List.mem_cons_of_mem _ hu)) hrest
            refine ⟨w :: before, u, after, x, rest, by rw [hsplit, List.cons_append], ?_, hfacts⟩
            have hone : tokenizeFrom [] false w = [w] := tokenize_of_isToken hw
            rw [tokenize, tokenizeFrom_separator hwc (by decide), hone, hread]
            rfl
          · obtain ⟨x, rest, hread, hpre, hlt⟩ := tokenize_open hw hwc (joinWords (v :: words))
            exact ⟨[], w, v :: words, x, rest, rfl, hread, hwc, hpre, hlt⟩

/-! ## what a line's tokens say -/

variable (lib : Lib)

/-- A priority is read of a `!p` and a number. -/
theorem classify_priority {token : Text} {p : Int} (h : classify lib token = some (.priority p)) :
    ∃ v, token = '!' :: 'p' :: v ∧ parseI64 v = some p := by
  unfold classify at h
  cases hp : stripPrefix ['!', 'p'] token with
  | some v =>
      simp only [hp, Option.map_eq_some_iff, Modifier.priority.injEq, exists_eq_right] at h
      exact ⟨v, stripPrefix_eq_some.mp hp, h⟩
  | none =>
      simp only [hp, splitTag] at h
      repeat' split at h
      all_goals cases h

/-- A modifier is written no longer than it was read. -/
theorem length_word_le {token : Text} {m : Modifier} (h : classify lib token = some m) :
    m.word.length ≤ token.length := by
  rcases (classify_eq_some lib h).2 with hword | ⟨p, rfl⟩
  · rw [hword]
  · obtain ⟨v, rfl, hv⟩ := classify_priority lib h
    have hle := length_showInt_le hv
    simp only [Modifier.word, List.length_cons]
    omega

/-- A modifier is written with the sign that it was read with. -/
theorem head_word_eq {token : Text} {m : Modifier} (h : classify lib token = some m) :
    m.word.head? = token.head? := by
  rcases (classify_eq_some lib h).2 with hword | ⟨p, rfl⟩
  · rw [hword]
  · obtain ⟨v, rfl, -⟩ := classify_priority lib h
    rfl

/-- A modifier takes its own room at most. -/
theorem room_add_le (out : TaskTokens) (m : Modifier) :
    room (out.add (some m)).words ≤ room out.words + (m.word.length + 1) := by
  cases m <;>
    simp [TaskTokens.add, TaskTokens.words, TaskTokens.modifiers, Tasks.modifiers] <;> omega

/-- A second due date takes less, since the first one goes. -/
theorem room_add_due {out : TaskTokens} (h : out.due.isSome) (d : Text) :
    room (out.add (some (.due d))).words < room out.words + ((Modifier.due d).word.length + 1) := by
  obtain ⟨d', hd⟩ := Option.isSome_iff_exists.mp h
  simp [TaskTokens.add, TaskTokens.words, TaskTokens.modifiers, Tasks.modifiers, hd]
  omega

/-- The modifiers read of tokens take no more room than the tokens. -/
theorem room_foldl_le (tokens : List Text) (out : TaskTokens) :
    room (tokens.foldl (fun (out : TaskTokens) t => out.add (classify lib t)) out).words ≤
      room out.words + room tokens := by
  induction tokens generalizing out with
  | nil => simp
  | cons t tokens ih =>
      have hrest := ih (out.add (classify lib t))
      rw [List.foldl_cons, room_cons]
      cases hclass : classify lib t with
      | none =>
          rw [hclass] at hrest
          have hsame : out.add none = out := rfl
          rw [hsame] at hrest ⊢
          omega
      | some m =>
          rw [hclass] at hrest
          have hadd := room_add_le out m
          have hle := length_word_le lib hclass
          omega

/-- A due date may be replaced, and is not lost. -/
theorem due_add {out : TaskTokens} (h : out.due.isSome) (k : Option Modifier) :
    (out.add k).due.isSome := by
  rcases k with - | m
  · exact h
  · cases m <;> first | exact h | rfl

/-- A due date that is read over another leaves room. -/
theorem room_foldl_due {tokens : List Text} {out : TaskTokens} (hout : out.due.isSome) {t d : Text}
    (ht : t ∈ tokens) (hd : classify lib t = some (.due d)) :
    room (tokens.foldl (fun (out : TaskTokens) t => out.add (classify lib t)) out).words <
      room out.words + room tokens := by
  induction tokens generalizing out with
  | nil => cases ht
  | cons u tokens ih =>
      rw [List.foldl_cons, room_cons]
      rcases List.mem_cons.mp ht with rfl | ht
      · have hrest := room_foldl_le lib tokens (out.add (classify lib t))
        rw [hd] at hrest ⊢
        have hadd := room_add_due hout d
        have hle := length_word_le lib hd
        omega
      · have hrest := ih (due_add hout (classify lib u)) ht
        have hone := room_foldl_le lib [u] out
        rw [List.foldl_cons, List.foldl_nil, room_cons, room_nil] at hone
        omega

/-! ## the fields of a line -/

/-- A tag's facet and value. -/
def Modifier.tag? : Modifier → Option (Text × Text)
  | .tag facet value => some (facet, value)
  | _ => none

/-- A mirror's namespace. -/
def Modifier.mirror? : Modifier → Option Text
  | .mirror ns => some ns
  | _ => none

/-- The id a dependency is on. -/
def Modifier.dep? : Modifier → Option Text
  | .dep id => some id
  | _ => none

/-- A due date. -/
def Modifier.due? : Modifier → Option Text
  | .due d => some d
  | _ => none

/-- The modifiers that tokens are. -/
def classified (tokens : List Text) : List Modifier := tokens.filterMap (classify lib)

/-- A modifier is added to its own field. -/
theorem add_fields (out : TaskTokens) (m : Modifier) :
    (out.add (some m)).tags = out.tags ++ m.tag?.toList ∧
      (out.add (some m)).mirrors = out.mirrors ++ m.mirror?.toList ∧
      (out.add (some m)).deps = out.deps ++ m.dep?.toList ∧
      (m.due? = none → (out.add (some m)).due = out.due) := by
  cases m <;> simp [TaskTokens.add, Modifier.tag?, Modifier.mirror?, Modifier.dep?, Modifier.due?]

theorem filterMap_cons_toList {α β : Type*} (f : α → Option β) (a : α) (xs : List α) :
    (a :: xs).filterMap f = (f a).toList ++ xs.filterMap f := by
  cases h : f a <;> simp [h]

/-- What is read of many tokens is what was there and what they add. -/
theorem foldl_fields (tokens : List Text) (out : TaskTokens) :
    let read := tokens.foldl (fun (out : TaskTokens) t => out.add (classify lib t)) out
    read.tags = out.tags ++ (classified lib tokens).filterMap Modifier.tag? ∧
      read.mirrors = out.mirrors ++ (classified lib tokens).filterMap Modifier.mirror? ∧
      read.deps = out.deps ++ (classified lib tokens).filterMap Modifier.dep? ∧
      ((∀ m ∈ classified lib tokens, m.due? = none) → read.due = out.due) := by
  induction tokens generalizing out with
  | nil => simp [classified]
  | cons t tokens ih =>
      obtain ⟨htags, hmirrors, hdeps, hdue⟩ := ih (out.add (classify lib t))
      simp only [List.foldl_cons, htags, hmirrors, hdeps]
      cases hclass : classify lib t with
      | none =>
          have hsame : classified lib (t :: tokens) = classified lib tokens := by
            simp [classified, hclass]
          rw [hclass] at hdue
          rw [hsame]
          exact ⟨rfl, rfl, rfl, hdue⟩
      | some m =>
          have hmore : classified lib (t :: tokens) = m :: classified lib tokens := by
            simp [classified, hclass]
          obtain ⟨htag, hmirror, hdep, hnodue⟩ := add_fields out m
          rw [hclass] at hdue
          simp only [hmore, filterMap_cons_toList, htag, hmirror, hdep, List.append_assoc]
          refine ⟨trivial, trivial, trivial, fun hall => ?_⟩
          rw [hdue fun k hk => hall k (List.mem_cons_of_mem _ hk)]
          exact hnodue (hall m List.mem_cons_self)

/-- The modifiers of what was read are its fields. -/
theorem fields_modifiers (parsed : TaskTokens) :
    parsed.modifiers.filterMap Modifier.tag? = parsed.tags ∧
      parsed.modifiers.filterMap Modifier.mirror? = parsed.mirrors ∧
      parsed.modifiers.filterMap Modifier.dep? = parsed.deps ∧
      parsed.modifiers.filterMap Modifier.due? = parsed.due.toList := by
  obtain ⟨title, p, d, tags, mirrors, deps, own⟩ := parsed
  have hnone : ∀ {α β : Type} (xs : List α), xs.filterMap (fun _ => (none : Option β)) = [] := by
    intro α β xs
    exact List.filterMap_eq_nil_iff.mpr fun _ _ => rfl
  cases p <;> cases d <;>
    simp only [TaskTokens.modifiers, Tasks.modifiers, List.filterMap_append, List.filterMap_map,
      Modifier.tag?, Modifier.mirror?, Modifier.dep?, Modifier.due?, Function.comp_def, hnone,
      Option.map_some, Option.map_none, Option.toList_some, Option.toList_none, List.filterMap_nil,
      filterMap_cons_toList, Prod.mk.eta, List.filterMap_some, List.append_nil, List.nil_append,
      and_self]

/-! ## no character to spare -/

/-- Where a line ends in an anchor, what is left of it begins what stands before the anchor, and ends
in neither whitespace nor an anchor. -/
theorem splitTrailingAnchor_anchored (t : Text) {id : Text} (hid : isUriSafe lib id = true) :
    (splitTrailingAnchor lib (t ++ ' ' :: '^' :: id)).1 <+: t ∧
      trimEnd (splitTrailingAnchor lib (t ++ ' ' :: '^' :: id)).1 =
        (splitTrailingAnchor lib (t ++ ' ' :: '^' :: id)).1 ∧
      anchorId lib (lastWord (splitTrailingAnchor lib (t ++ ' ' :: '^' :: id)).1).2 = none := by
  obtain ⟨hlast, htrim⟩ := lastWord_anchored lib t hid
  have hlen : (t ++ ' ' :: '^' :: id).length = (t.length + id.length + 1) + 1 := by
    simp only [List.length_append, List.length_cons]
    omega
  have hpeel : peelAnchors lib (t ++ ' ' :: '^' :: id).length (trimEnd (t ++ ' ' :: '^' :: id)) none =
      peelAnchors lib (t.length + id.length + 1) (trimEnd t) (some id) := by
    rw [htrim, hlen, peelAnchors, hlast, (anchorId_eq_some lib).mpr ⟨rfl, hid⟩]
  have hspec := @peelAnchors_spec lib (t.length + id.length + 1) (trimEnd t) (some id) (by
    have hle := length_trimEnd_le t
    omega) (trimEnd_trimEnd t)
  have hpre := (peelAnchors_le lib (t.length + id.length + 1) (trimEnd t) (some id)).trans
    (List.rdropWhile_prefix _ _)
  have hsome := @peelAnchors_isSome lib (t.length + id.length + 1) (trimEnd t) (some id) rfl
  have hsplit : (splitTrailingAnchor lib (t ++ ' ' :: '^' :: id)).1 =
      (peelAnchors lib (t.length + id.length + 1) (trimEnd t) (some id)).1 := by
    rw [splitTrailingAnchor, hpeel]
    split
    · rename_i head a heq
      rw [heq]
    · rename_i head heq
      rw [heq] at hsome
      cases hsome
  rw [hsplit]
  exact ⟨hpre, hspec.2, hspec.1⟩

/-- The modifiers take the same room when those that are kept come first. -/
theorem room_keptFirst (kept : Text → Bool) (parsed : TaskTokens) :
    room (parsed.keptFirst kept).words = room parsed.words := by
  have hdeps : (parsed.keptFirst kept).deps.Perm parsed.deps :=
    List.filter_append_perm kept parsed.deps
  have hperm : (parsed.keptFirst kept).modifiers.Perm parsed.modifiers :=
    List.Perm.append_left _ (hdeps.map _)
  exact room_perm (hperm.map _)

/-- The words of a line are read off its modifiers, one by one. -/
theorem words_parseTaskTokens (rest : Text) : (parseTaskTokens lib rest).words =
    ((modifierTokens lib rest).foldl (fun (out : TaskTokens) t => out.add (classify lib t))
      { title := joinWords ((titleTokens lib rest).map unquote) }).words := by
  unfold parseTaskTokens
  simp only []
  split <;> rfl

/-- What is read takes no more room to write. -/
theorem room_again_le (rest : Text) :
    room (parseTaskTokens lib rest).words ≤ room (modifierTokens lib rest) := by
  rw [words_parseTaskTokens]
  have h := room_foldl_le lib (modifierTokens lib rest)
    { title := joinWords ((titleTokens lib rest).map unquote) }
  simpa [TaskTokens.words, TaskTokens.modifiers, Tasks.modifiers] using h

/-- Only no word takes no room. -/
theorem room_eq_zero {words : List Text} (h : room words = 0) : words = [] := by
  cases words with
  | nil => rfl
  | cons w words =>
      rw [room_cons] at h
      omega

variable {lib} {title id : Text} {words : List Text}

/-- **A line that reads as the title it was written from, and as modifiers that take as much room, has
no character to spare.** -/
theorem tight (hid : isUriSafe lib id = true)
    (htitle : (parseTaskTokens lib (lineText title words id)).title = title)
    (hroom : room words ≤ room (parseTaskTokens lib (lineText title words id)).words) :
    (splitTrailingAnchor lib (lineText title words id)).1 = joinWords (title :: words) ∧
      (∀ t ∈ titleTokens lib (lineText title words id), unquote t = t) ∧
      room (modifierTokens lib (lineText title words id)) ≤
        room (parseTaskTokens lib (lineText title words id)).words := by
  have hfold := room_again_le lib (lineText title words id)
  have hsplit := congrArg room (titleTokens_append lib (lineText title words id))
  have hread := room_tokenize (splitTrailingAnchor lib (lineText title words id)).1
  have hpre : (splitTrailingAnchor lib (lineText title words id)).1 <+: joinWords (title :: words) := by
    rw [lineText_eq]
    exact (splitTrailingAnchor_anchored lib _ hid).1
  have hle := hpre.length_le
  have hlen := length_joinWords (List.cons_ne_nil title words)
  rw [room_append] at hsplit
  rw [room_cons] at hlen
  rw [title_parseTaskTokens] at htitle
  generalize lineText title words id = rest at *
  generalize hR : (splitTrailingAnchor lib rest).1 = R at *
  have htokens : lineTokens lib rest = tokenize R := by rw [lineTokens, hR]
  rw [htokens] at hsplit
  by_cases hnil : titleTokens lib rest = []
  · rw [hnil] at htitle hsplit ⊢
    obtain rfl : [] = title := htitle
    cases hwords : words with
    | nil =>
        subst hwords
        have hR' : R = [] := by simpa using hpre
        subst hR'
        rw [tokenize_nil, room_nil] at hsplit
        exact ⟨by simp, by simp, by omega⟩
    | cons w ws =>
        have hjoin : joinWords ([] :: words) = ' ' :: joinWords words := by
          rw [hwords]
          simp [joinWords]
        rw [← hwords]
        cases R with
        | nil =>
            rw [tokenize_nil, room_nil] at hsplit
            have hzero := @room_eq_zero words (by omega)
            rw [hzero] at hwords
            cases hwords
        | cons c R =>
            rw [hjoin] at hpre
            obtain rfl : c = ' ' := (List.cons_prefix_cons.mp hpre).1
            have hrest := room_tokenize R
            rw [tokenize_cons_whitespace (by decide)] at hsplit
            rw [room_nil] at hsplit
            simp only [List.length_cons, List.length_nil] at hle hlen
            refine ⟨?_, by simp, by omega⟩
            rw [← hjoin] at hpre
            exact hpre.eq_of_length_le (by simp only [List.length_cons]; omega)
  · have htitleLen := @length_joinWords ((titleTokens lib rest).map unquote) (by simpa using hnil)
    rw [htitle] at htitleLen
    have hunquote := room_unquote_le (titleTokens lib rest)
    refine ⟨hpre.eq_of_length_le (by omega), unquote_of_room (by omega), by omega⟩

/-! ## a line that reads back settles -/

/-- Of two lists of modifiers that begin the same, the next ones of a kind are one. -/
theorem eq_of_filterMap_eq {β : Type} {f : Modifier → Option β} {before xs ys : List Modifier}
    {k m : Modifier} {a b : β} (h : (before ++ k :: xs).filterMap f = (before ++ m :: ys).filterMap f)
    (hk : f k = some a) (hm : f m = some b) : a = b := by
  rw [List.filterMap_append, List.filterMap_append, filterMap_cons_toList, filterMap_cons_toList, hk,
    hm] at h
  exact (List.cons.inj (List.append_cancel_left h)).1

variable {kept : Text → Bool} {parsed : TaskTokens}

/-- The modifiers that a line is written with, read from its tokens. -/
theorem classified_words {ms : List Modifier} (h : ∀ m ∈ ms, m.Ok lib) :
    classified lib (ms.map Modifier.word) = ms := by
  induction ms with
  | nil => rfl
  | cons m ms ih =>
      have hrest := ih fun k hk => h k (List.mem_cons_of_mem _ hk)
      rw [classified] at hrest
      rw [List.map_cons, classified, List.filterMap_cons_some (classify_word lib (h m List.mem_cons_self)),
        hrest]

/-- What tokens read as, one after another. -/
def readTokens (lib : Lib) (title : Text) (tokens : List Text) : TaskTokens :=
  tokens.foldl (fun out t => out.add (classify lib t)) { title }

/-- Tokens are classified one by one. -/
theorem classified_append (xs ys : List Text) :
    classified lib (xs ++ ys) = classified lib xs ++ classified lib ys :=
  List.filterMap_append

/-- A due date that is read is the one kept, where what is kept takes as much room as the tokens. -/
theorem due_readTokens {before rest : List Text} {x d : Text} (hx : classify lib x = some (.due d))
    (hroom : room (before ++ x :: rest) ≤ room (readTokens lib title (before ++ x :: rest)).words) :
    (readTokens lib title (before ++ x :: rest)).due = some d := by
  have hsplit : readTokens lib title (before ++ x :: rest) =
      rest.foldl (fun (out : TaskTokens) t => out.add (classify lib t))
        ((readTokens lib title before).add (classify lib x)) := by
    simp [readTokens]
  have hdue : ((readTokens lib title before).add (classify lib x)).due = some d := by
    rw [hx]
    rfl
  rw [hsplit] at hroom ⊢
  have hnone : ∀ m ∈ classified lib rest, m.due? = none := by
    by_contra hsome
    obtain ⟨m, hm, hmd⟩ : ∃ m ∈ classified lib rest, m.due? ≠ none := by simpa using hsome
    obtain ⟨t, ht, hclass⟩ := List.mem_filterMap.mp hm
    obtain ⟨e, rfl⟩ : ∃ e, m = .due e := by cases m <;> simp_all [Modifier.due?]
    have hlt := room_foldl_due lib (Option.isSome_iff_exists.mpr ⟨d, hdue⟩) ht hclass
    have hone := room_foldl_le lib (before ++ [x]) { title }
    rw [List.foldl_append, List.foldl_cons, List.foldl_nil] at hone
    have hzero : room ({ title } : TaskTokens).words = 0 := rfl
    simp only [room_append, room_cons, room_nil, hzero, readTokens] at hone hroom hlt
    omega
  rw [(foldl_fields lib rest _).2.2.2 hnone, hdue]

/-- A due date among the modifiers is the one that was read. -/
theorem due_of_mem {d : Text} (h : Modifier.due d ∈ parsed.modifiers) : parsed.due = some d := by
  have hmem : d ∈ parsed.modifiers.filterMap Modifier.due? := List.mem_filterMap.mpr ⟨_, h, rfl⟩
  rw [(fields_modifiers parsed).2.2.2] at hmem
  simpa using hmem

/-- A dependency that is kept has no quote, so neither has any that begins one with a quote open. -/
theorem quote_of_open_dep {d : Text} (h : ¬ Closed (Modifier.dep d).word) : '"' ∈ d := by
  by_contra hno
  refine h (quoteState_of_no_quote fun hmem => ?_)
  rcases List.mem_append.mp hmem with hmem | hmem
  · exact absurd hmem (by decide)
  · exact hno hmem

/-- **No quote but the last word's is open**, where the modifiers that a line is written with are read
back from it in the room they take. -/
theorem closed_of_reread (hkept : ∀ d, kept d = true → '"' ∉ d)
    (hok : ∀ m ∈ parsed.modifiers, m.Ok lib) (hword : ∀ w ∈ parsed.words, IsWord w)
    {tokens : List Text} (htokens : tokenize (joinWords parsed.words) = tokens)
    (hclass : ∀ t ∈ tokens, (classify lib t).isSome = true)
    (hread : ((readTokens lib title tokens).keptFirst kept).modifiers = parsed.modifiers)
    (hroom : room tokens ≤ room (readTokens lib title tokens).words) :
    ∀ w ∈ parsed.words.dropLast, Closed w := by
  by_contra hopen
  obtain ⟨before, w, after, x, rest, hsplit, htok, hw, hpre, hlt⟩ :=
    tokenize_joinWords_open (fun w hw => (hword w hw).token) hopen
  rw [htokens] at htok
  subst htok
  obtain ⟨mb, ms, hms, rfl, hrest⟩ := List.map_eq_append_iff.mp hsplit
  obtain ⟨m, ma, rfl, rfl, -⟩ := List.map_eq_cons_iff.mp hrest
  have hwm : IsWord m.word := hword _ (List.mem_map_of_mem (hms ▸ by simp))
  obtain ⟨k, hk⟩ := Option.isSome_iff_exists.mp (hclass x (by simp))
  -- what the tokens are, up to the first open word and the token it begins
  have hclassified : classified lib (mb.map Modifier.word ++ x :: rest) = mb ++ k :: classified lib rest := by
    rw [classified_append, classified_words fun j hj => hok j (hms ▸ by simp [hj])]
    simp [classified, hk]
  have hhead : k.word.head? = m.word.head? := by
    obtain ⟨t, rfl⟩ := hpre
    rw [head_word_eq lib hk, List.head?_append_of_ne_nil _ hwm.token.1]
  have hne : k ≠ m := by
    rintro rfl
    have hle := length_word_le lib hk
    rcases (classify_eq_some lib hk).2 with heq | ⟨p, rfl⟩
    · rw [heq] at hlt
      omega
    · exact hw (isWord_priority p).2
  obtain ⟨htags, hmirrors, hdeps, -⟩ := foldl_fields lib (mb.map Modifier.word ++ x :: rest) { title }
  obtain ⟨htags', hmirrors', hdeps', -⟩ :=
    fields_modifiers ((readTokens lib title (mb.map Modifier.word ++ x :: rest)).keptFirst kept)
  rw [hclassified] at htags hmirrors hdeps
  rw [hread, hms] at htags' hmirrors' hdeps'
  cases m with
  | priority p => exact hw (isWord_priority p).2
  | own id => exact hwm.head rfl
  | tag facet value =>
      cases k <;> simp [Modifier.word, needsPrefix] at hhead
      have heq := eq_of_filterMap_eq (htags.symm.trans htags'.symm) rfl rfl
      simp_all
  | mirror ns =>
      cases k <;> simp [Modifier.word, needsPrefix] at hhead
      have heq := eq_of_filterMap_eq (hmirrors.symm.trans hmirrors'.symm) rfl rfl
      simp_all
  | due d =>
      cases k <;> simp [Modifier.word, needsPrefix] at hhead
      have hdue := due_readTokens hk hroom
      have hdue' : ((readTokens lib title (mb.map Modifier.word ++ x :: rest)).keptFirst kept).due = some d :=
        due_of_mem (hread ▸ hms ▸ by simp)
      have heq := Option.some.inj (hdue.symm.trans hdue')
      simp_all
  | dep d =>
      cases k <;> simp [Modifier.word, needsPrefix] at hhead
      rename_i d'
      have hx : x = (Modifier.dep d').word := by
        rcases (classify_eq_some lib hk).2 with heq | ⟨p, hp⟩
        · exact heq.symm
        · cases hp
      have hquote := quote_of_open_dep hw
      have hquote' : '"' ∈ d' := by
        rw [hx] at hpre
        exact ((List.prefix_append_right_inj needsPrefix).mp hpre).subset hquote
      have hfree : kept d = false := by simpa using fun h => hkept d h hquote
      have hfree' : kept d' = false := by simpa using fun h => hkept d' h hquote'
      have hfilter : ∀ xs : List Modifier, (xs.filterMap Modifier.dep?).filter (fun d => !kept d) =
          xs.filterMap fun m => m.dep?.filter fun d => !kept d := fun xs => List.filter_filterMap
      have hunkept : ((readTokens lib title
          (mb.map Modifier.word ++ x :: rest)).keptFirst kept).deps.filter (fun d => !kept d) =
            (readTokens lib title (mb.map Modifier.word ++ x :: rest)).deps.filter fun d => !kept d := by
        simp [TaskTokens.keptFirst, List.filter_filter]
      rw [← hdeps', hfilter] at hunkept
      rw [readTokens, hdeps, List.nil_append, hfilter] at hunkept
      have heq := eq_of_filterMap_eq hunkept.symm (a := d') (b := d) (by simp [Modifier.dep?, hfree'])
        (by simp [Modifier.dep?, hfree])
      simp_all

theorem mem_dropLast_filterMap {α β : Type*} {f : α → Option β} {xs : List α} {b : β}
    (h : b ∈ (xs.filterMap f).dropLast) : ∃ a ∈ xs.dropLast, f a = some b := by
  rcases List.eq_nil_or_concat xs with rfl | ⟨ys, z, rfl⟩
  · cases h
  · rw [List.concat_eq_append] at h ⊢
    rw [List.filterMap_append] at h
    rw [List.dropLast_concat]
    cases hz : f z with
    | none =>
        rw [List.filterMap_cons_none hz, List.filterMap_nil, List.append_nil] at h
        exact List.mem_filterMap.mp (List.dropLast_subset _ h)
    | some c =>
        rw [List.filterMap_cons_some hz, List.filterMap_nil, List.dropLast_concat] at h
        exact List.mem_filterMap.mp h

theorem mem_dropLast_append {α : Type*} {xs ys : List α} {a : α} (h : a ∈ xs.dropLast) :
    a ∈ (xs ++ ys).dropLast := by
  by_cases hys : ys = []
  · simpa [hys] using h
  · rw [List.dropLast_append_of_ne_nil hys]
    exact List.mem_append_left _ (List.dropLast_subset _ h)

/-- Of a line's dependencies only the last can have a quote open: it is then the line's last token. -/
theorem closed_deps {rest d : Text} (h : d ∈ (parseTaskTokens lib rest).deps.dropLast) :
    Closed (Modifier.dep d).word := by
  have hdeps : (parseTaskTokens lib rest).deps =
      (modifierTokens lib rest).filterMap fun t => (classify lib t).bind Modifier.dep? := by
    have hfold := (foldl_fields lib (modifierTokens lib rest)
      { title := joinWords ((titleTokens lib rest).map unquote) }).2.2.1
    rw [List.nil_append, classified, List.filterMap_filterMap] at hfold
    rw [← hfold]
    unfold parseTaskTokens
    simp only []
    split <;> rfl
  rw [hdeps] at h
  obtain ⟨t, ht, hclass⟩ := mem_dropLast_filterMap h
  obtain ⟨m, hm, hd⟩ := Option.bind_eq_some_iff.mp hclass
  obtain rfl : m = .dep d := by cases m <;> simp_all [Modifier.dep?]
  have hword : (Modifier.dep d).word = t := by
    rcases (classify_eq_some lib hm).2 with heq | ⟨p, hp⟩
    · exact heq
    · cases hp
  rw [hword]
  refine (reads_tokenize (splitTrailingAnchor lib rest).1).closed t ?_
  have hsplit := titleTokens_append lib rest
  change t ∈ (lineTokens lib rest).dropLast
  rw [← hsplit, List.dropLast_append_of_ne_nil (List.ne_nil_of_mem (List.dropLast_subset _ ht))]
  exact List.mem_append_right _ ht

/-- Where no quote but the last word's is open with the kept dependencies first, none is in the line's
own order either, and the last word is the same if it is open. -/
theorem closed_of_keptFirst (hkept : ∀ d, kept d = true → Closed (Modifier.dep d).word)
    (hdeps : ∀ d ∈ parsed.deps.dropLast, Closed (Modifier.dep d).word)
    (h : ∀ w ∈ (parsed.keptFirst kept).words.dropLast, Closed w) :
    (∀ w ∈ parsed.words.dropLast, Closed w) ∧ ∀ w, parsed.words.getLast? = some w →
      Closed w ∨ (parsed.keptFirst kept).words.getLast? = some w := by
  rcases List.eq_nil_or_concat parsed.deps with hnil | ⟨ds, d, hsplit⟩
  · have hsame : parsed.keptFirst kept = parsed := by
      simp only [TaskTokens.keptFirst, hnil, List.filter_nil, List.append_nil]
      cases parsed
      simp_all
    rw [hsame] at h ⊢
    exact ⟨h, fun w hw => Or.inr hw⟩
  · rw [List.concat_eq_append] at hsplit
    let others := (Tasks.modifiers parsed.priority parsed.due parsed.tags parsed.mirrors []).map
      Modifier.word
    have hwords : parsed.words = others ++ ds.map (fun d => (Modifier.dep d).word) ++
        [(Modifier.dep d).word] := by
      simp [others, TaskTokens.words, TaskTokens.modifiers, Tasks.modifiers, hsplit]
    have hwords' : (parsed.keptFirst kept).words =
        others ++ (parsed.keptFirst kept).deps.map fun d => (Modifier.dep d).word := by
      simp [others, TaskTokens.words, TaskTokens.modifiers, Tasks.modifiers, TaskTokens.keptFirst,
        Function.comp_def]
    have hne : (parsed.keptFirst kept).deps.map (fun d => (Modifier.dep d).word) ≠ [] := by
      have hmem : d ∈ (parsed.keptFirst kept).deps := by
        simp only [TaskTokens.keptFirst, hsplit, List.mem_append, List.mem_filter]
        cases kept d <;> simp
      exact List.ne_nil_of_mem (List.mem_map_of_mem hmem)
    refine ⟨fun w hw => ?_, fun w hw => ?_⟩
    · rw [hwords, List.dropLast_concat, List.mem_append] at hw
      rcases hw with hw | hw
      · refine h w ?_
        rw [hwords', List.dropLast_append_of_ne_nil hne]
        exact List.mem_append_left _ hw
      · obtain ⟨e, he, rfl⟩ := List.mem_map.mp hw
        exact hdeps e (by rw [hsplit, List.dropLast_concat]; exact he)
    · rw [hwords, List.getLast?_concat] at hw
      obtain rfl := Option.some.inj hw
      by_cases hc : Closed (Modifier.dep d).word
      · exact Or.inl hc
      · refine Or.inr ?_
        have hfree : kept d = false := by simpa using fun hk => hc (hkept d hk)
        rw [hwords']
        simp [TaskTokens.keptFirst, hsplit, hfree]

/-- The title does not change what the tokens are read as. -/
theorem readTokens_title (tokens : List Text) (t t' : Text) :
    readTokens lib t tokens = { readTokens lib t' tokens with title := t } := by
  have hfold : ∀ (tokens : List Text) (out : TaskTokens),
      tokens.foldl (fun (out : TaskTokens) u => out.add (classify lib u)) { out with title := t } =
        { tokens.foldl (fun (out : TaskTokens) u => out.add (classify lib u)) out with title := t } := by
    intro tokens
    induction tokens with
    | nil => exact fun _ => rfl
    | cons u tokens ih =>
        intro out
        have hadd : ({ out with title := t } : TaskTokens).add (classify lib u) =
            { out.add (classify lib u) with title := t } := by
          rcases classify lib u with - | k
          · rfl
          · cases k <;> rfl
        rw [List.foldl_cons, List.foldl_cons, hadd, ih]
  exact hfold tokens { title := t' }

/-- What a line reads as is what its modifiers' tokens do, under its title and its id. -/
theorem parseTaskTokens_eq (rest title : Text) : ∃ t own, parseTaskTokens lib rest =
    { readTokens lib title (modifierTokens lib rest) with title := t, ownId := own } := by
  have hparse : parseTaskTokens lib rest =
      if (splitTrailingAnchor lib rest).2.isSome then
        { readTokens lib (joinWords ((titleTokens lib rest).map unquote)) (modifierTokens lib rest) with
          ownId := (splitTrailingAnchor lib rest).2 }
      else readTokens lib (joinWords ((titleTokens lib rest).map unquote)) (modifierTokens lib rest) := rfl
  rw [hparse, readTokens_title _ _ title]
  split
  · exact ⟨_, _, rfl⟩
  · exact ⟨_, _, rfl⟩

/-- The title of a line is read again as it was, where its tokens are and no quotes come off them. -/
theorem tokenize_title {ts ms : List Text} {text : Text} (hsplit : ts ++ ms = tokenize text)
    (hunquote : ∀ t ∈ ts, unquote t = t) : tokenize (joinWords (ts.map unquote)) = ts := by
  have hread := reads_tokenize text
  have hsame : ts.map unquote = ts := by
    conv_rhs => rw [← List.map_id ts]
    exact List.map_congr_left hunquote
  rw [hsame]
  refine tokenize_joinWords (fun t ht => hread.tokens t ?_) fun t ht => hread.closed t ?_
  · change t ∈ tokenize text
    rw [← hsplit]
    exact List.mem_append_left _ ht
  · change t ∈ (tokenize text).dropLast
    rw [← hsplit]
    exact mem_dropLast_append ht

/-- Joined words end as their last word does. -/
theorem getLast_joinWords {title w : Text} {words : List Text} (hw : w ≠ [])
    (h : words.getLast? = some w) {c : Char} (hc : w.getLast? = some c) :
    (joinWords (title :: words)).getLast? = some c := by
  obtain ⟨before, rfl⟩ := List.getLast?_eq_some_iff.mp h
  rw [← List.cons_append, joinWords_concat (List.cons_ne_nil _ _),
    List.getLast?_append_of_ne_nil _ (List.cons_ne_nil _ _), List.getLast?_cons_of_ne_nil hw, hc]

/-- There are modifiers after the reordering if there were before. -/
theorem keptFirst_words_eq_nil : (parsed.keptFirst kept).words = [] ↔ parsed.words = [] := by
  rw [TaskTokens.words, TaskTokens.words, List.map_eq_nil_iff, List.map_eq_nil_iff,
    List.eq_nil_iff_forall_not_mem, List.eq_nil_iff_forall_not_mem]
  simp only [mem_keptFirst]

/-- What `lineSettles_of_reread` rests on: the tokens of the written line are the title's, and the
modifiers that it is written with. -/
theorem lineSettles_of_tokens {ts ms : List Text}
    (hkept : ∀ d, kept d = true → isUriSafe lib d = true)
    (hdeps : ∀ d ∈ parsed.deps.dropLast, Closed (Modifier.dep d).word)
    (htitleClosed : parsed.words ≠ [] → Closed parsed.title)
    (hword : ∀ w ∈ (parsed.keptFirst kept).words, IsWord w)
    (hok : ∀ m ∈ (parsed.keptFirst kept).modifiers, m.Ok lib)
    (hsplit : ts ++ ms = tokenize (joinWords (parsed.title :: (parsed.keptFirst kept).words)))
    (htitle : joinWords (ts.map unquote) = parsed.title) (hunquote : ∀ t ∈ ts, unquote t = t)
    (hplain : ∀ t, ts.getLast? = some t → classify lib t = none)
    (hclass : ∀ t ∈ ms, (classify lib t).isSome = true)
    (hmods : ((readTokens lib parsed.title ms).keptFirst kept).modifiers =
      (parsed.keptFirst kept).modifiers)
    (hroom : room ms ≤ room (readTokens lib parsed.title ms).words)
    (htrim : trimEnd (joinWords (parsed.title :: (parsed.keptFirst kept).words)) =
      joinWords (parsed.title :: (parsed.keptFirst kept).words))
    (hanchor : anchorId lib (lastWord (joinWords (parsed.title :: (parsed.keptFirst kept).words))).2 =
      none) : LineSettles lib parsed := by
  have htokens : tokenize parsed.title = ts := by
    rw [← htitle]
    exact tokenize_title hsplit hunquote
  have hclosed' : ∀ w ∈ (parsed.keptFirst kept).words.dropLast, Closed w := by
    by_cases hnil : (parsed.keptFirst kept).words = []
    · simp [hnil]
    · have hc := htitleClosed fun h => hnil (keptFirst_words_eq_nil.mpr h)
      have hjoin : joinWords (parsed.title :: (parsed.keptFirst kept).words) =
          parsed.title ++ ' ' :: joinWords (parsed.keptFirst kept).words := by
        obtain ⟨w, ws, hw⟩ := List.exists_cons_of_ne_nil hnil
        rw [hw]
        simp [joinWords]
      rw [hjoin, tokenize, tokenizeFrom_separator hc (by decide)] at hsplit
      have hms : tokenize (joinWords (parsed.keptFirst kept).words) = ms := by
        have htitle' : tokenizeFrom [] false parsed.title = ts := htokens
        rw [htitle'] at hsplit
        exact (List.append_cancel_left hsplit).symm
      exact closed_of_reread (fun d hd hq => ((isUriSafe_chars lib (hkept d hd)).2 _ hq).2 rfl) hok hword
        hms hclass hmods hroom
  obtain ⟨hclosed, hlast⟩ := closed_of_keptFirst (fun d hd => closed_dep lib (hkept d hd)) hdeps hclosed'
  refine ⟨by rw [htokens, htitle], fun t ht => hplain t (htokens ▸ ht), hclosed, fun w hw => ?_,
    fun hnil => ?_⟩
  · by_cases hnil : parsed.words = []
    · have hnil' := (@keptFirst_words_eq_nil kept parsed).mpr hnil
      rw [hnil'] at htrim
      rw [hnil] at hw
      obtain rfl : parsed.title = w := by simpa using hw
      simpa using htrim
    · rw [List.getLast?_cons_of_ne_nil hnil] at hw
      have hmem : w ∈ (parsed.keptFirst kept).words := by
        obtain ⟨m, hm, rfl⟩ := List.mem_map.mp (List.mem_of_getLast? hw)
        exact List.mem_map_of_mem (mem_keptFirst.mpr hm)
      refine trimEnd_eq_self fun c hc => ?_
      rcases hlast w hw with hshut | hsame
      · exact getLast_of_solid (hword w hmem).token.2 hshut hc
      · exact getLast_of_trimEnd htrim (getLast_joinWords (hword w hmem).token.1 hsame hc)
  · rw [(@keptFirst_words_eq_nil kept parsed).mpr hnil, joinWords_singleton] at hanchor
    exact hanchor

/-- The modifiers of a line are classified as such. -/
theorem classify_modifierTokens {rest t : Text} (h : t ∈ modifierTokens lib rest) :
    (classify lib t).isSome = true :=
  @List.mem_rtakeWhile_imp _ (fun t => (classify lib t).isSome) _ _ h

/-- The last word of a title is no modifier. -/
theorem classify_titleTokens {rest t : Text} (h : (titleTokens lib rest).getLast? = some t) :
    classify lib t = none := by
  have hne : titleTokens lib rest ≠ [] := by
    intro hnil
    rw [hnil] at h
    cases h
  have hnot := List.rdropWhile_last_not (fun t => (classify lib t).isSome) _ hne
  rw [List.getLast?_eq_some_getLast hne, Option.some.injEq] at h
  rw [← h]
  exact Option.not_isSome_iff_eq_none.mp hnot

/-- **A task line that reads back from what it is written as settles.** -/
theorem lineSettles_of_reread {rest : Text} (hline : '\n' ∉ rest) (hid : isUriSafe lib id = true)
    (hkept : ∀ d, kept d = true → isUriSafe lib d = true)
    (htitle : (parseTaskTokens lib (lineText (parseTaskTokens lib rest).title
      ((parseTaskTokens lib rest).keptFirst kept).words id)).title = (parseTaskTokens lib rest).title)
    (hmods : ((parseTaskTokens lib (lineText (parseTaskTokens lib rest).title
      ((parseTaskTokens lib rest).keptFirst kept).words id)).keptFirst kept).modifiers =
        ((parseTaskTokens lib rest).keptFirst kept).modifiers) :
    LineSettles lib (parseTaskTokens lib rest) := by
  have hroom : room ((parseTaskTokens lib rest).keptFirst kept).words ≤
      room (parseTaskTokens lib (lineText (parseTaskTokens lib rest).title
        ((parseTaskTokens lib rest).keptFirst kept).words id)).words := by
    have hwords := congrArg (List.map Modifier.word) hmods
    have hsame := room_keptFirst kept (parseTaskTokens lib (lineText (parseTaskTokens lib rest).title
      ((parseTaskTokens lib rest).keptFirst kept).words id))
    rw [← hsame]
    exact (congrArg room hwords).ge
  have hdeps := @closed_deps lib rest
  have hclosed := @titleClosed lib rest
  have hword := @isWord_of_mem lib rest hline kept
  have hok : ∀ m ∈ ((parseTaskTokens lib rest).keptFirst kept).modifiers, m.Ok lib := fun m hm =>
    (word_parseTaskTokens lib hline (mem_keptFirst.mp hm)).1
  generalize parseTaskTokens lib rest = parsed at *
  obtain ⟨hR, hunquote, hMs⟩ := tight hid htitle hroom
  have hanchored := splitTrailingAnchor_anchored lib
    (joinWords (parsed.title :: (parsed.keptFirst kept).words)) hid
  rw [← lineText_eq, hR] at hanchored
  obtain ⟨-, htrim, hanchor⟩ := hanchored
  have hsplit := titleTokens_append lib (lineText parsed.title (parsed.keptFirst kept).words id)
  rw [lineTokens, hR] at hsplit
  rw [title_parseTaskTokens] at htitle
  obtain ⟨t, own, hread⟩ := @parseTaskTokens_eq lib
    (lineText parsed.title (parsed.keptFirst kept).words id) parsed.title
  rw [hread] at hmods hMs
  generalize hout : readTokens lib parsed.title
    (modifierTokens lib (lineText parsed.title (parsed.keptFirst kept).words id)) = out at hmods hMs
  refine lineSettles_of_tokens hkept (fun d hd => hdeps hd) hclosed (fun w hw => (hword hw).1) hok hsplit
    htitle hunquote (fun t ht => classify_titleTokens ht) (fun t ht => classify_modifierTokens ht) ?_ ?_
    htrim hanchor
  · rw [hout]
    exact hmods
  · rw [hout]
    exact hMs

end Jkb.Sync.Tasks
