import Jkb.Sync.Tasks.Rows

/-!
# Jkb.Sync.Tasks.Settles

When what the parser reads of a task line is written back as a line that reads the same. The words of
a line come from its tokens, so most of what `Settled` asks of them holds of any line; `LineSettles`
is the rest.
-/

namespace Jkb.Sync.Tasks

open Jkb.Text Jkb.Dsl

variable (lib : Lib)

/-- What a task line's title and modifiers must be to be written as they are read: the title's words
are single words, none a quoted span and the last no modifier; no quote but the last word's is left
open; and what the line ends in is neither whitespace nor an anchor. -/
structure LineSettles (parsed : TaskTokens) : Prop where
  plain : joinWords ((tokenize parsed.title).map unquote) = parsed.title
  notModifier : ∀ t, (tokenize parsed.title).getLast? = some t → classify lib t = none
  closed : ∀ w ∈ parsed.words.dropLast, Closed w
  trimmed : ∀ w, (parsed.title :: parsed.words).getLast? = some w → trimEnd w = w
  noAnchor : parsed.words = [] → anchorId lib (lastWord parsed.title).2 = none

/-! ## the words of a line are its tokens -/

/-- The tokens a task line is read from, its anchors peeled off. -/
def lineTokens (rest : Text) : List Text := tokenize (splitTrailingAnchor lib rest).1

/-- Its title's tokens. -/
def titleTokens (rest : Text) : List Text :=
  (lineTokens lib rest).rdropWhile fun t => (classify lib t).isSome

/-- The trailing run of modifiers. -/
def modifierTokens (rest : Text) : List Text :=
  (lineTokens lib rest).rtakeWhile fun t => (classify lib t).isSome

theorem titleTokens_append (rest : Text) :
    titleTokens lib rest ++ modifierTokens lib rest = lineTokens lib rest := by
  exact List.rdropWhile_append_rtakeWhile

theorem mem_modifiers_add {out : TaskTokens} {k : Option Modifier} {m : Modifier}
    (h : m ∈ (out.add k).modifiers) : m ∈ out.modifiers ∨ (k = some m ∧ ∀ id, m ≠ .own id) := by
  rcases k with - | k
  · exact Or.inl h
  · cases k <;>
      simp only [TaskTokens.add, TaskTokens.modifiers, Tasks.modifiers, List.mem_append,
        List.map_append, List.map_cons, List.map_nil, List.mem_singleton, Option.map_some,
        Option.toList_some] at h ⊢ <;>
      grind

theorem mem_modifiers_foldl {tokens : List Text} {out : TaskTokens} {m : Modifier}
    (h : m ∈ (tokens.foldl (fun (out : TaskTokens) t => out.add (classify lib t)) out).modifiers) :
    m ∈ out.modifiers ∨ ((∃ t ∈ tokens, classify lib t = some m) ∧ ∀ id, m ≠ .own id) := by
  induction tokens generalizing out with
  | nil => exact Or.inl h
  | cons t tokens ih =>
      rw [List.foldl_cons] at h
      rcases ih h with h | ⟨⟨u, hu, hm⟩, hown⟩
      · rcases mem_modifiers_add h with h | ⟨hm, hown⟩
        · exact Or.inl h
        · exact Or.inr ⟨⟨t, List.mem_cons_self, hm⟩, hown⟩
      · exact Or.inr ⟨⟨u, List.mem_cons_of_mem _ hu, hm⟩, hown⟩

theorem title_foldl (tokens : List Text) (out : TaskTokens) :
    (tokens.foldl (fun (out : TaskTokens) t => out.add (classify lib t)) out).title = out.title := by
  induction tokens generalizing out with
  | nil => rfl
  | cons t tokens ih =>
      rw [List.foldl_cons, ih]
      rcases classify lib t with - | k
      · rfl
      · cases k <;> rfl

theorem title_parseTaskTokens (rest : Text) :
    (parseTaskTokens lib rest).title = joinWords ((titleTokens lib rest).map unquote) := by
  unfold parseTaskTokens
  simp only []
  split <;> exact title_foldl lib _ _

/-- Each modifier read of a line is one of its tokens. -/
theorem modifiers_parseTaskTokens {rest : Text} {m : Modifier}
    (h : m ∈ (parseTaskTokens lib rest).modifiers) :
    (∃ t ∈ modifierTokens lib rest, classify lib t = some m) ∧ ∀ id, m ≠ .own id := by
  have hfold : m ∈ ((modifierTokens lib rest).foldl
      (fun (out : TaskTokens) t => out.add (classify lib t))
      { title := joinWords ((titleTokens lib rest).map unquote) }).modifiers := by
    unfold parseTaskTokens at h
    simp only [] at h
    split at h <;> exact h
  rcases mem_modifiers_foldl lib hfold with h | h
  · simp [TaskTokens.modifiers, Tasks.modifiers] at h
  · exact h

/-! ## the shape of a word -/

/-- A word that a line's modifiers are written as: a token without a newline that does not begin as an
anchor does. -/
structure IsWord (w : Text) : Prop where
  token : IsToken w
  head : w.head? ≠ some '^'
  oneLine : '\n' ∉ w

theorem isWord_priority (p : Int) : IsWord (Modifier.priority p).word ∧ Closed (Modifier.priority p).word := by
  have hchars : ∀ c ∈ (Modifier.priority p).word,
      c ∈ ['!', 'p', '-', '0', '1', '2', '3', '4', '5', '6', '7', '8', '9'] := by
    intro c hc
    have hshow := showInt_chars p c
    rw [Modifier.word, List.mem_cons, List.mem_cons] at hc
    grind
  have hplain : ∀ c ∈ ['!', 'p', '-', '0', '1', '2', '3', '4', '5', '6', '7', '8', '9'],
      isWhitespace c = false ∧ c ≠ '"' ∧ c ≠ '\n' :=
    List.forall_iff_forall_mem.mp (by decide)
  refine ⟨⟨⟨List.cons_ne_nil _ _, ?_⟩, by simp [Modifier.word], ?_⟩, ?_⟩
  · exact solid_of_no_whitespace fun c hc => (hplain c (hchars c hc)).1
  · exact fun h => (hplain _ (hchars _ h)).2.2 rfl
  · exact quoteState_of_no_quote fun h => (hplain _ (hchars _ h)).2.1 rfl

theorem head_word {m : Modifier} (h : ∀ id, m ≠ .own id) : m.word.head? ≠ some '^' := by
  cases m <;> simp_all [Modifier.word, needsPrefix]

theorem peelAnchors_le (fuel : Nat) (head : Text) (anchor : Option Text) :
    (peelAnchors lib fuel head anchor).1 <+: head := by
  induction fuel generalizing head anchor with
  | zero => exact List.prefix_refl head
  | succ fuel ih =>
      rw [peelAnchors]
      split
      · refine (ih _ _).trans ((List.rdropWhile_prefix _ _).trans ?_)
        cases hsplit : rsplitOnce isWhitespace head with
        | none => simp [lastWord, hsplit]
        | some p =>
            obtain ⟨c, -, heq, -⟩ := rsplitOnce_eq_some hsplit
            rw [lastWord, hsplit, heq]
            exact List.prefix_append _ _
      · exact List.prefix_refl head

theorem splitTrailingAnchor_le (rest : Text) : (splitTrailingAnchor lib rest).1 <+: rest := by
  unfold splitTrailingAnchor
  split
  case h_1 head id h =>
    have hpre := peelAnchors_le lib rest.length (trimEnd rest) none
    rw [h] at hpre
    exact hpre.trans (List.rdropWhile_prefix _ _)
  case h_2 => exact List.prefix_refl rest

theorem lineTokens_oneLine {rest : Text} (h : '\n' ∉ rest) : ∀ t ∈ lineTokens lib rest, '\n' ∉ t :=
  fun _ ht hn => h ((splitTrailingAnchor_le lib rest).subset (tokenize_subset ht _ hn))

/-- **The modifiers of a line are written as words**, and where a word has a quote open it is the last
token of what the line is without its anchors. -/
theorem word_parseTaskTokens {rest : Text} (hline : '\n' ∉ rest) {m : Modifier}
    (h : m ∈ (parseTaskTokens lib rest).modifiers) :
    m.Ok lib ∧ IsWord m.word ∧
      (Closed m.word ∨ m.word <:+ (splitTrailingAnchor lib rest).1) := by
  obtain ⟨⟨t, ht, hclass⟩, hown⟩ := modifiers_parseTaskTokens lib h
  obtain ⟨hok, hword⟩ := classify_eq_some lib hclass
  have hmem : t ∈ lineTokens lib rest := (List.rtakeWhile_suffix _ _).subset ht
  have hreads := reads_tokenize (splitTrailingAnchor lib rest).1
  refine ⟨hok, ?_⟩
  rcases hword with hword | ⟨p, rfl⟩
  · refine ⟨⟨?_, head_word hown, ?_⟩, ?_⟩
    · exact hword ▸ hreads.tokens t hmem
    · exact hword ▸ lineTokens_oneLine lib hline t hmem
    · rw [hword]
      by_cases hopen : quoteState false (splitTrailingAnchor lib rest).1 = true
      · obtain ⟨u, hlast, -, hsuffix⟩ := hreads.last hopen
        -- every token before the last is closed
        by_cases htu : t = u
        · exact Or.inr (htu ▸ hsuffix)
        · refine Or.inl (hreads.closed t ?_)
          have hsplit := List.dropLast_append_getLast? u hlast
          have hmem' : t ∈ (tokenizeFrom [] false (splitTrailingAnchor lib rest).1).dropLast ++ [u] := by
            rw [hsplit]
            exact hmem
          simpa [htu] using hmem'
      · exact Or.inl (hreads.allClosed (by simpa using hopen) t hmem)
  · exact ⟨(isWord_priority p).1, Or.inl (isWord_priority p).2⟩

/-! ## the order of the dependencies -/

/-- A rendered line has the dependencies that are kept before those that are not. -/
def TaskTokens.keptFirst (kept : Text → Bool) (parsed : TaskTokens) : TaskTokens :=
  { parsed with deps := parsed.deps.filter kept ++ parsed.deps.filter fun d => !kept d }

theorem mem_keptFirst {kept : Text → Bool} {parsed : TaskTokens} {m : Modifier} :
    m ∈ (parsed.keptFirst kept).modifiers ↔ m ∈ parsed.modifiers := by
  have hdeps : ∀ d, d ∈ (parsed.keptFirst kept).deps ↔ d ∈ parsed.deps := by
    intro d
    simp only [TaskTokens.keptFirst, List.mem_append, List.mem_filter]
    cases kept d <;> simp
  have hmap : m ∈ (parsed.keptFirst kept).deps.map Modifier.dep ↔ m ∈ parsed.deps.map Modifier.dep := by
    simp only [List.mem_map, hdeps]
  simp only [TaskTokens.modifiers, Tasks.modifiers, List.mem_append, hmap]
  rfl

/-- Putting the kept dependencies first leaves a word with an open quote where it was, at the end. -/
theorem keptFirst_words {kept : Text → Bool} {parsed : TaskTokens}
    (hclosed : ∀ w ∈ parsed.words.dropLast, Closed w)
    (hkept : ∀ d, kept d = true → Closed (Modifier.dep d).word) :
    (∀ w ∈ (parsed.keptFirst kept).words.dropLast, Closed w) ∧
      ∀ w, (parsed.keptFirst kept).words.getLast? = some w →
        Closed w ∨ parsed.words.getLast? = some w := by
  by_cases hall : ∀ m ∈ parsed.modifiers, Closed m.word
  · have hwords : ∀ w ∈ (parsed.keptFirst kept).words, Closed w := by
      intro w hw
      obtain ⟨m, hm, rfl⟩ := List.mem_map.mp hw
      exact hall m (mem_keptFirst.mp hm)
    exact ⟨fun w hw => hwords w (List.dropLast_subset _ hw),
      fun w hw => Or.inl (hwords w (List.mem_of_getLast? hw))⟩
  · cases hdeps : parsed.deps.reverse with
    | nil =>
        have hnil : parsed.deps = [] := List.reverse_eq_nil_iff.mp hdeps
        have hsame : parsed.keptFirst kept = parsed := by
          simp only [TaskTokens.keptFirst, hnil, List.filter_nil, List.append_nil]
          cases parsed
          simp_all
        rw [hsame]
        exact ⟨hclosed, fun w hw => Or.inr hw⟩
    | cons x ds =>
        have hsplit : parsed.deps = ds.reverse ++ [x] := by
          rw [← List.reverse_reverse parsed.deps, hdeps, List.reverse_cons]
        -- the words before the last dependency are closed, so that one is open, and not kept
        have hwords : parsed.words = (Tasks.modifiers parsed.priority parsed.due parsed.tags
            parsed.mirrors ds.reverse).map Modifier.word ++ [(Modifier.dep x).word] := by
          simp [TaskTokens.words, TaskTokens.modifiers, Tasks.modifiers, hsplit]
        have hbefore := hclosed
        rw [hwords, List.dropLast_concat] at hbefore
        have hopen : kept x = false := by
          by_contra hx
          refine hall fun m hm => ?_
          have hmem : m.word ∈ parsed.words := List.mem_map_of_mem hm
          rw [hwords, List.mem_append, List.mem_singleton] at hmem
          rcases hmem with hmem | hmem
          · exact hbefore _ hmem
          · exact hmem ▸ hkept x (by simpa using hx)
        have hwords' : (parsed.keptFirst kept).words = (Tasks.modifiers parsed.priority parsed.due
            parsed.tags parsed.mirrors (ds.reverse.filter kept ++ ds.reverse.filter fun d => !kept d)).map
              Modifier.word ++ [(Modifier.dep x).word] := by
          simp [TaskTokens.words, TaskTokens.modifiers, Tasks.modifiers, TaskTokens.keptFirst, hsplit,
            hopen]
        rw [hwords', hwords, List.dropLast_concat, List.getLast?_concat, List.getLast?_concat]
        refine ⟨fun w hw => ?_, fun w hw => Or.inr hw⟩
        obtain ⟨m, hm, rfl⟩ := List.mem_map.mp hw
        have hm' : m ∈ Tasks.modifiers parsed.priority parsed.due parsed.tags parsed.mirrors
            ds.reverse :=
          (@mem_keptFirst kept { parsed with deps := ds.reverse } m).mp hm
        exact hbefore _ (List.mem_map_of_mem hm')

/-! ## a line that settles -/

/-- A word whose quotes are closed does not end in an anchor. -/
theorem anchorId_of_closed {w : Text} (hword : IsWord w) (hclosed : Closed w) :
    anchorId lib (lastWord w).2 = none := by
  by_contra hne
  obtain ⟨id, hid⟩ := Option.ne_none_iff_exists'.mp hne
  obtain ⟨hlast, hsafe⟩ := (anchorId_eq_some lib).mp hid
  cases hsplit : rsplitOnce isWhitespace w with
  | none =>
      rw [lastWord, hsplit] at hlast
      have hw : w = '^' :: id := hlast
      exact hword.head (by rw [hw]; rfl)
  | some p =>
      obtain ⟨c, hc, heq, -⟩ := rsplitOnce_eq_some hsplit
      have hp : p.2 = '^' :: id := by rwa [lastWord, hsplit] at hlast
      have htoken := hword.token.2
      rw [Closed, heq] at hclosed
      rw [heq] at htoken
      have hquote := quote_mem_of_solid hc htoken hclosed
      rw [hp, List.mem_cons] at hquote
      rcases hquote with hquote | hquote
      · exact absurd hquote (by decide)
      · exact ((isUriSafe_chars lib hsafe).2 _ hquote).2 rfl

/-- A text that ends in a word, the word itself not ending in whitespace, ends in an anchor only if the
word does. -/
theorem anchorId_of_suffix {s w : Text} (hword : IsWord w) (hsuffix : w <:+ s)
    (h : anchorId lib (lastWord s).2 = none) : anchorId lib (lastWord w).2 = none := by
  obtain ⟨pre, rfl⟩ := hsuffix
  cases hsplit : rsplitOnce isWhitespace w with
  | none =>
      rw [lastWord, hsplit, Option.getD_none]
      by_contra hne
      obtain ⟨id, hid⟩ := Option.ne_none_iff_exists'.mp hne
      have hw : w = '^' :: id := ((anchorId_eq_some lib).mp hid).1
      exact hword.head (by rw [hw]; rfl)
  | some p =>
      obtain ⟨c, hc, heq, hp⟩ := rsplitOnce_eq_some hsplit
      rw [heq, ← List.append_assoc, lastWord_append hc hp] at h
      rwa [heq, lastWord_append hc hp]

/-- The words of a line are tokens that close, or the last of them ends what the line is without its
anchors. -/
theorem isWord_of_mem {rest : Text} (hline : '\n' ∉ rest) {kept : Text → Bool} {w : Text}
    (h : w ∈ ((parseTaskTokens lib rest).keptFirst kept).words) :
    IsWord w ∧ (Closed w ∨ w <:+ (splitTrailingAnchor lib rest).1) := by
  obtain ⟨m, hm, rfl⟩ := List.mem_map.mp h
  exact (word_parseTaskTokens lib hline (mem_keptFirst.mp hm)).2

/-- The title's quotes are closed where modifiers follow it. -/
theorem titleClosed {rest : Text} (h : (parseTaskTokens lib rest).words ≠ []) :
    Closed (parseTaskTokens lib rest).title := by
  have hne : modifierTokens lib rest ≠ [] := by
    obtain ⟨w, hw⟩ := List.exists_mem_of_ne_nil _ h
    obtain ⟨m, hm, -⟩ := List.mem_map.mp hw
    obtain ⟨⟨t, ht, -⟩, -⟩ := modifiers_parseTaskTokens lib hm
    exact List.ne_nil_of_mem ht
  rw [title_parseTaskTokens]
  refine closed_joinWords fun w hw => ?_
  obtain ⟨t, ht, rfl⟩ := List.mem_map.mp hw
  rw [closed_unquote]
  refine (reads_tokenize (splitTrailingAnchor lib rest).1).closed t ?_
  have hsplit := titleTokens_append lib rest
  change t ∈ (lineTokens lib rest).dropLast
  rw [← hsplit, List.dropLast_append_of_ne_nil hne]
  exact List.mem_append_left _ ht

theorem closed_dep {d : Text} (h : isUriSafe lib d = true) : Closed (Modifier.dep d).word := by
  refine quoteState_of_no_quote fun hq => ?_
  rcases List.mem_append.mp hq with hq | hq
  · exact absurd hq (by decide)
  · exact ((isUriSafe_chars lib h).2 _ hq).2 rfl

/-- **A line that settles reads back**, its kept dependencies put first. -/
theorem settled_keptFirst {rest : Text} (hline : '\n' ∉ rest) {kept : Text → Bool}
    (hkept : ∀ d, kept d = true → isUriSafe lib d = true)
    (h : LineSettles lib (parseTaskTokens lib rest)) :
    Settled lib (parseTaskTokens lib rest).title
      ((parseTaskTokens lib rest).keptFirst kept).words := by
  obtain ⟨hclosed, hlast⟩ := keptFirst_words h.closed fun d hd => closed_dep lib (hkept d hd)
  have hnil : ((parseTaskTokens lib rest).keptFirst kept).words = [] →
      (parseTaskTokens lib rest).words = [] := by
    intro hw
    rw [TaskTokens.words, List.map_eq_nil_iff, List.eq_nil_iff_forall_not_mem] at hw ⊢
    exact fun m hm => hw m (mem_keptFirst.mpr hm)
  -- what the last word ends in
  have hend : ∀ w, ((parseTaskTokens lib rest).keptFirst kept).words.getLast? = some w →
      trimEnd w = w ∧ anchorId lib (lastWord w).2 = none := by
    intro w hw
    obtain ⟨hword, hfrom⟩ := isWord_of_mem lib hline (List.mem_of_getLast? hw)
    have htrim : trimEnd w = w := by
      rcases hlast w hw with hc | hsame
      · exact trimEnd_eq_self fun c hc' => getLast_of_solid hword.token.2 hc hc'
      · exact h.trimmed w (by rw [List.getLast?_cons, hsame]; rfl)
    refine ⟨htrim, ?_⟩
    rcases hfrom with hc | hsuffix
    · exact anchorId_of_closed lib hword hc
    · have hspec := splitTrailingAnchor_spec lib rest
      have hrest : trimEnd (splitTrailingAnchor lib rest).1 = (splitTrailingAnchor lib rest).1 := by
        obtain ⟨pre, hpre⟩ := hsuffix
        refine trimEnd_eq_self fun c hc => ?_
        rw [← hpre, List.getLast?_append_of_ne_nil _ hword.token.1] at hc
        exact getLast_of_trimEnd htrim hc
      rw [hrest] at hspec
      exact anchorId_of_suffix lib hword hsuffix hspec
  have hjoined : trimEnd (joinWords ((parseTaskTokens lib rest).title ::
        ((parseTaskTokens lib rest).keptFirst kept).words)) =
        joinWords ((parseTaskTokens lib rest).title ::
          ((parseTaskTokens lib rest).keptFirst kept).words) ∧
      anchorId lib (lastWord (joinWords ((parseTaskTokens lib rest).title ::
        ((parseTaskTokens lib rest).keptFirst kept).words))).2 = none := by
    rcases List.eq_nil_or_concat ((parseTaskTokens lib rest).keptFirst kept).words with hw | ⟨V, w, hw⟩
    · rw [hw, joinWords_singleton]
      exact ⟨h.trimmed _ (by rw [hnil hw]; rfl), h.noAnchor (hnil hw)⟩
    · rw [List.concat_eq_append] at hw
      have hlast' : ((parseTaskTokens lib rest).keptFirst kept).words.getLast? = some w := by
        rw [hw, List.getLast?_concat]
      have hlastw := hend w hlast'
      have hne : w ≠ [] := (isWord_of_mem lib hline (List.mem_of_getLast? hlast')).1.token.1
      rw [hw, ← List.cons_append, joinWords_concat (List.cons_ne_nil _ _)]
      refine ⟨trimEnd_eq_self fun c hc => ?_, ?_⟩
      · rw [List.getLast?_append_of_ne_nil _ (List.cons_ne_nil _ _), List.getLast?_cons_of_ne_nil hne] at hc
        exact getLast_of_trimEnd hlastw.1 hc
      · rw [lastWord_snd_append (by decide)]
        exact hlastw.2
  refine ⟨hjoined.1, hjoined.2, h.plain, h.notModifier, fun hne => titleClosed lib fun hw => ?_,
    hclosed⟩
  have hmods := List.map_eq_nil_iff.mp hw
  refine hne (List.map_eq_nil_iff.mpr (List.eq_nil_iff_forall_not_mem.mpr fun m hm => ?_))
  rw [mem_keptFirst, hmods] at hm
  cases hm

/-- **What a line that settles is written as reads back.** -/
theorem parseTaskTokens_keptFirst {rest id : Text} (hline : '\n' ∉ rest) {kept : Text → Bool}
    (hkept : ∀ d, kept d = true → isUriSafe lib d = true) (hid : isUriSafe lib id = true)
    (h : LineSettles lib (parseTaskTokens lib rest)) :
    parseTaskTokens lib (lineText (parseTaskTokens lib rest).title
        ((parseTaskTokens lib rest).keptFirst kept).words id) =
      { (parseTaskTokens lib rest).keptFirst kept with ownId := some id } := by
  refine parseTaskTokens_lineText lib hid (fun m hm => ?_) (settled_keptFirst lib hline hkept h)
  obtain ⟨hok, hword, -⟩ := word_parseTaskTokens lib hline (mem_keptFirst.mp hm)
  exact ⟨hok, hword.token⟩

/-- A title is read from one line. -/
theorem title_oneLine {rest : Text} (hline : '\n' ∉ rest) :
    '\n' ∉ (parseTaskTokens lib rest).title := by
  rw [title_parseTaskTokens]
  intro h
  rcases mem_joinWords h with h | ⟨w, hw, hc⟩
  · exact absurd h (by decide)
  · obtain ⟨t, ht, rfl⟩ := List.mem_map.mp hw
    have hmem : t ∈ lineTokens lib rest := (List.rdropWhile_prefix _ _).subset ht
    exact lineTokens_oneLine lib hline t hmem (unquote_subset t _ hc)

end Jkb.Sync.Tasks
