import Jkb.Sync.Tasks.Line

/-!
# Jkb.Sync.Tasks.Reread

Reading a written task line back. A line is written as its title, its modifiers in their order, and
its anchor. `parseTaskTokens_lineText` says what has to hold of the title and the modifiers for it to
be read as what it was written from.
-/

namespace Jkb.Sync.Tasks

open Jkb.Text Jkb.Dsl

variable (lib : Lib)

/-! ## the anchor -/

/-- A safe id is not empty, and has no blank and no quote. -/
theorem isUriSafe_chars {id : Text} (h : isUriSafe lib id = true) :
    id ≠ [] ∧ ∀ c ∈ id, isWhitespace c = false ∧ c ≠ '"' := by
  rw [isUriSafe, Bool.and_eq_true, List.all_eq_true] at h
  refine ⟨by simpa using h.1, fun c hc => ?_⟩
  have hcs := h.2 c hc
  rw [Bool.or_eq_true, beq_iff_eq] at hcs
  rcases hcs with rfl | hcs
  · exact ⟨by decide, by decide⟩
  · refine ⟨lib.isSlugChar_not_whitespace hcs, ?_⟩
    rintro rfl
    rw [lib.not_isSlugChar_ascii (by decide) (by decide)] at hcs
    cases hcs

/-- A word is an anchor if a safe id follows its sign. -/
theorem anchorId_eq_some {word id : Text} :
    anchorId lib word = some id ↔ word = '^' :: id ∧ isUriSafe lib id = true := by
  unfold anchorId
  split
  · rename_i v
    by_cases hv : isUriSafe lib v = true
    · rw [if_pos hv, Option.some.injEq, List.cons.injEq]
      constructor
      · rintro rfl
        exact ⟨⟨rfl, rfl⟩, hv⟩
      · rintro ⟨⟨-, rfl⟩, -⟩
        rfl
    · rw [if_neg hv]
      constructor
      · intro h
        cases h
      · rintro ⟨h, hid⟩
        rw [List.cons.injEq] at h
        exact absurd (h.2 ▸ hid) hv
  · rename_i hne
    constructor
    · intro h
      cases h
    · rintro ⟨rfl, -⟩
      exact absurd rfl (hne id)

/-- The last word of a text comes after its last blank. -/
theorem lastWord_append {s w : Text} {c : Char} (hc : isWhitespace c = true)
    (hw : ∀ d ∈ w, isWhitespace d = false) : lastWord (s ++ c :: w) = (s, w) := by
  rw [lastWord, rsplitOnce_append hc hw]
  rfl

/-- The last word of a text is that of its part after any whitespace. -/
theorem lastWord_snd_append {s t : Text} {c : Char} (hc : isWhitespace c = true) :
    (lastWord (s ++ c :: t)).2 = (lastWord t).2 := by
  by_cases ht : t.any isWhitespace = true
  · obtain ⟨u, d, w, hd, rfl, hw⟩ := exists_last_separator ht
    have hassoc : s ++ c :: (u ++ d :: w) = (s ++ c :: u) ++ d :: w := by simp
    rw [hassoc, lastWord_append hd hw, lastWord_append hd hw]
  · have hno : ∀ d ∈ t, isWhitespace d = false := by simpa using ht
    rw [lastWord_append hc hno, lastWord, rsplitOnce_eq_none hno]
    rfl

/-- Where the last word is no anchor, none is peeled. -/
theorem peelAnchors_of_none {head : Text} {anchor : Option Text} (fuel : Nat)
    (h : anchorId lib (lastWord head).2 = none) :
    peelAnchors lib fuel head anchor = (head, anchor) := by
  cases fuel with
  | zero => rfl
  | succ n => rw [peelAnchors, h]

/-- An anchor that is peeled makes the text shorter. -/
theorem length_lastWord_lt {head id : Text} (h : anchorId lib (lastWord head).2 = some id) :
    (lastWord head).1.length < head.length := by
  rw [anchorId_eq_some] at h
  cases hsplit : rsplitOnce isWhitespace head with
  | none =>
      rw [lastWord, hsplit, Option.getD_none] at h ⊢
      have hhead : head = '^' :: id := h.1
      rw [hhead]
      exact Nat.succ_pos _
  | some p =>
      obtain ⟨s, w⟩ := p
      obtain ⟨c, -, rfl, -⟩ := rsplitOnce_eq_some hsplit
      rw [lastWord, hsplit, Option.getD_some]
      simp

/-- What peeling leaves of a trimmed text is trimmed and has no anchor at its end. -/
theorem peelAnchors_spec {fuel : Nat} {head : Text} {anchor : Option Text}
    (hfuel : head.length ≤ fuel) (htrim : trimEnd head = head) :
    anchorId lib (lastWord (peelAnchors lib fuel head anchor).1).2 = none ∧
      trimEnd (peelAnchors lib fuel head anchor).1 = (peelAnchors lib fuel head anchor).1 := by
  induction fuel generalizing head anchor with
  | zero =>
      obtain rfl : head = [] := List.length_eq_zero_iff.mp (Nat.le_zero.mp hfuel)
      exact ⟨rfl, rfl⟩
  | succ n ih =>
      cases h : anchorId lib (lastWord head).2 with
      | none =>
          rw [peelAnchors_of_none lib _ h]
          exact ⟨h, htrim⟩
      | some id =>
          have hlt := length_lastWord_lt lib h
          have hle := length_trimEnd_le (lastWord head).1
          have hpeel : peelAnchors lib (n + 1) head anchor =
              peelAnchors lib n (trimEnd (lastWord head).1) (some id) := by
            rw [peelAnchors, h]
          rw [hpeel]
          exact ih (by omega) (trimEnd_trimEnd _)

/-- An anchor that was found stays found. -/
theorem peelAnchors_isSome {fuel : Nat} {head : Text} {anchor : Option Text}
    (h : anchor.isSome = true) : (peelAnchors lib fuel head anchor).2.isSome = true := by
  induction fuel generalizing head anchor with
  | zero => exact h
  | succ n ih =>
      rw [peelAnchors]
      split
      · exact ih rfl
      · exact h

/-- **Where anchors are peeled off, none is left.** -/
theorem splitTrailingAnchor_spec (rest : Text) :
    anchorId lib (lastWord (trimEnd (splitTrailingAnchor lib rest).1)).2 = none := by
  have hspec := @peelAnchors_spec lib rest.length (trimEnd rest) none (length_trimEnd_le rest)
    (trimEnd_trimEnd rest)
  unfold splitTrailingAnchor
  split
  case h_1 head id hpeel =>
    rw [hpeel] at hspec
    rw [hspec.2]
    exact hspec.1
  case h_2 head hpeel =>
    -- nothing was peeled, so the first look found no anchor
    cases h : anchorId lib (lastWord (trimEnd rest)).2 with
    | none => rfl
    | some id =>
        have hpos : rest.length = (rest.length - 1) + 1 := by
          have hlt := length_lastWord_lt lib h
          have hle := length_trimEnd_le rest
          omega
        have hsome : (peelAnchors lib rest.length (trimEnd rest) none).2.isSome = true := by
          rw [hpos, peelAnchors, h]
          exact peelAnchors_isSome lib rfl
        rw [hpeel] at hsome
        cases hsome

/-! ## one line -/

/-- What a title and the modifiers written after it must be for their line to read back: put side by
side they end in no whitespace and no anchor; the title is made of single words, none a quoted span
and the last no modifier; and no quote but the last word's is left open. -/
structure Settled (title : Text) (words : List Text) : Prop where
  trimmed : trimEnd (joinWords (title :: words)) = joinWords (title :: words)
  noAnchor : anchorId lib (lastWord (joinWords (title :: words))).2 = none
  plain : joinWords ((tokenize title).map unquote) = title
  notModifier : ∀ t, (tokenize title).getLast? = some t → classify lib t = none
  titleClosed : words ≠ [] → Closed title
  closed : ∀ w ∈ words.dropLast, Closed w

/-- A word at the end is joined by a blank. -/
theorem joinWords_concat {words : List Text} (h : words ≠ []) (w : Text) :
    joinWords (words ++ [w]) = joinWords words ++ ' ' :: w := by
  induction words with
  | nil => exact absurd rfl h
  | cons v words ih =>
      cases words with
      | nil => simp [joinWords]
      | cons u words =>
          have hrest := ih (List.cons_ne_nil u words)
          simp only [joinWords, List.cons_append] at hrest ⊢
          rw [List.intercalate_cons_cons, hrest, List.intercalate_cons_cons]
          simp

/-- The last word of a line that ends in an anchor is the anchor. -/
theorem lastWord_anchored (t : Text) {id : Text} (hid : isUriSafe lib id = true) :
    lastWord (t ++ ' ' :: '^' :: id) = (t, '^' :: id) ∧
      trimEnd (t ++ ' ' :: '^' :: id) = t ++ ' ' :: '^' :: id := by
  obtain ⟨-, hchars⟩ := isUriSafe_chars lib hid
  have hword : ∀ d ∈ '^' :: id, isWhitespace d = false := by
    intro d hd
    rcases List.mem_cons.mp hd with rfl | hd
    · decide
    · exact (hchars d hd).1
  refine ⟨lastWord_append (by decide) hword, trimEnd_eq_self fun c hc => ?_⟩
  rw [List.getLast?_append] at hc
  exact hword c (List.mem_of_getLast? (by simpa using hc))

/-- The text of a line is its title, its words and its anchor. -/
theorem lineText_eq (title : Text) (words : List Text) (id : Text) :
    lineText title words id = joinWords (title :: words) ++ ' ' :: '^' :: id :=
  joinWords_concat (List.cons_ne_nil title words) _

/-- The anchor that a line was written with is the one that is read. -/
theorem splitTrailingAnchor_lineText {title : Text} {words : List Text} {id : Text}
    (hid : isUriSafe lib id = true) (h : Settled lib title words) :
    splitTrailingAnchor lib (lineText title words id) = (joinWords (title :: words), some id) := by
  obtain ⟨hlast, htrim⟩ := lastWord_anchored lib (joinWords (title :: words)) hid
  rw [← lineText_eq] at hlast htrim
  have hpos : (lineText title words id).length = (joinWords (title :: words)).length + id.length + 2 := by
    rw [lineText_eq]
    simp only [List.length_append, List.length_cons]
    omega
  have hpeel : peelAnchors lib (lineText title words id).length (trimEnd (lineText title words id))
      none = (joinWords (title :: words), some id) := by
    rw [htrim, hpos, peelAnchors, hlast, (anchorId_eq_some lib).mpr ⟨rfl, hid⟩]
    simp only [h.trimmed]
    exact peelAnchors_of_none lib _ h.noAnchor
  rw [splitTrailingAnchor, hpeel]

/-- The tokens of a title and its modifiers are those of the title, and the modifiers. -/
theorem tokenize_line {title : Text} {words : List Text} (h : Settled lib title words)
    (htoken : ∀ w ∈ words, IsToken w) :
    tokenize (joinWords (title :: words)) = tokenize title ++ words := by
  cases words with
  | nil => simp [joinWords]
  | cons w words =>
      have hjoin : joinWords (title :: w :: words) = title ++ ' ' :: joinWords (w :: words) := by
        simp [joinWords]
      rw [hjoin]
      exact tokenize_append_words (h.titleClosed (by simp)) htoken h.closed

/-- Tags are added in their order. -/
theorem foldl_add_tags (tags : List (Text × Text)) (out : TaskTokens) :
    (tags.map fun t => Modifier.tag t.1 t.2).foldl (fun out m => out.add (some m)) out =
      { out with tags := out.tags ++ tags } := by
  induction tags generalizing out with
  | nil => simp
  | cons t tags ih =>
      rw [List.map_cons, List.foldl_cons, ih]
      simp only [TaskTokens.add, List.append_assoc, List.singleton_append]

/-- So are mirrors. -/
theorem foldl_add_mirrors (ms : List Text) (out : TaskTokens) :
    (ms.map Modifier.mirror).foldl (fun out m => out.add (some m)) out =
      { out with mirrors := out.mirrors ++ ms } := by
  induction ms generalizing out with
  | nil => simp
  | cons m ms ih =>
      rw [List.map_cons, List.foldl_cons, ih]
      simp only [TaskTokens.add, List.append_assoc, List.singleton_append]

/-- So are dependencies. -/
theorem foldl_add_deps (deps : List Text) (out : TaskTokens) :
    (deps.map Modifier.dep).foldl (fun out m => out.add (some m)) out =
      { out with deps := out.deps ++ deps } := by
  induction deps generalizing out with
  | nil => simp
  | cons d deps ih =>
      rw [List.map_cons, List.foldl_cons, ih]
      simp only [TaskTokens.add, List.append_assoc, List.singleton_append]

/-- Taking in the modifiers of a task, in the order they are written, gives the task's fields. -/
theorem foldl_add_modifiers (title : Text) (p : Option Int) (d : Option Text)
    (tags : List (Text × Text)) (ms deps : List Text) :
    (modifiers p d tags ms deps).foldl (fun out m => out.add (some m)) { title } =
      ({ title, priority := p, due := d, tags, mirrors := ms, deps } : TaskTokens) := by
  simp only [modifiers, List.foldl_append, foldl_add_tags, foldl_add_mirrors, foldl_add_deps]
  cases p <;> cases d <;> rfl

/-- **A written line reads back.** -/
theorem parseTaskTokens_lineText {title id : Text} {p : Option Int} {d : Option Text}
    {tags : List (Text × Text)} {ms deps : List Text} (hid : isUriSafe lib id = true)
    (hok : ∀ m ∈ modifiers p d tags ms deps, m.Ok lib ∧ IsToken m.word)
    (h : Settled lib title ((modifiers p d tags ms deps).map Modifier.word)) :
    parseTaskTokens lib (lineText title ((modifiers p d tags ms deps).map Modifier.word) id) =
      { title, priority := p, due := d, tags, mirrors := ms, deps, ownId := some id } := by
  have htoken : ∀ w ∈ (modifiers p d tags ms deps).map Modifier.word, IsToken w := by
    intro w hw
    obtain ⟨m, hm, rfl⟩ := List.mem_map.mp hw
    exact (hok m hm).2
  have hclassify : ∀ m ∈ modifiers p d tags ms deps, classify lib m.word = some m := fun m hm =>
    classify_word lib (hok m hm).1
  have hsome : ∀ w ∈ (modifiers p d tags ms deps).map Modifier.word,
      (classify lib w).isSome = true := by
    intro w hw
    obtain ⟨m, hm, rfl⟩ := List.mem_map.mp hw
    rw [hclassify m hm]
    rfl
  have hplain : (tokenize title).rdropWhile (fun t => (classify lib t).isSome) = tokenize title := by
    rw [List.rdropWhile_eq_self_iff]
    intro hne
    rw [h.notModifier _ (List.getLast?_eq_some_getLast hne)]
    exact Bool.false_ne_true
  have hrest : (tokenize title).rtakeWhile (fun t => (classify lib t).isSome) = [] := by
    rw [List.rtakeWhile_eq_nil_iff]
    intro hne
    rw [h.notModifier _ (List.getLast?_eq_some_getLast hne)]
    exact Bool.false_ne_true
  have hfold : ∀ (ws : List Modifier) (out : TaskTokens), (∀ m ∈ ws, classify lib m.word = some m) →
      (ws.map Modifier.word).foldl (fun out t => out.add (classify lib t)) out =
        ws.foldl (fun out m => out.add (some m)) out := by
    intro ws
    induction ws with
    | nil => exact fun _ _ => rfl
    | cons m ws ih =>
        intro out hws
        rw [List.map_cons, List.foldl_cons, List.foldl_cons, hws m List.mem_cons_self]
        exact ih _ fun k hk => hws k (List.mem_cons_of_mem _ hk)
  rw [parseTaskTokens, splitTrailingAnchor_lineText lib hid h]
  simp only [tokenize_line lib h htoken, rdropWhile_append_of_pos hsome, hplain,
    rtakeWhile_append_of_pos hsome, hrest, List.nil_append, h.plain, hfold _ _ hclassify,
    foldl_add_modifiers, Option.isSome_some, if_true]

end Jkb.Sync.Tasks
