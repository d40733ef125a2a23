import Jkb.Core.Design.Export
import Jkb.Tx

/-!
# Jkb.Core.Design.Split

Splitting a design's text at its headings of one level: each section becomes a child's text, with the spans that
lie in it, and the design keeps what comes before. Section bounds are offsets into the text, span ranges are in
UTF-16 units, and a span that crosses a section's edge refuses the split.
-/

namespace Jkb.Design

open Jkb.Text Jkb.Ranges

/-! ## headings -/

/-- A heading line: its offset in the text, its level, and its title. -/
structure Heading where
  at_ : Nat
  level : Nat
  title : Text
deriving Repr, DecidableEq

/-- `str::split_inclusive` at line ends. -/
def splitInclusive : Text → List Text
  | [] => []
  | c :: t =>
      if c = '\n' then [c] :: splitInclusive t
      else
        match splitInclusive t with
        | [] => [[c]]
        | line :: lines => (c :: line) :: lines

/-- `str::trim_end_matches` of a character. -/
def trimEndMatches (c : Char) (t : Text) : Text := t.rdropWhile (· = c)

/-- What `headings` keeps between lines: the fence that is open, where the line begins, and the headings. -/
structure HeadingScan where
  fence : Option Text := none
  at_ : Nat := 0
  out : List Heading := []

/-- The heading that a line outside fenced code is, if it is one. -/
def headingOf (at_ : Nat) (line : Text) : Option Heading :=
  let level := (line.takeWhile (· = '#')).length
  let rest := line.drop level
  if 1 ≤ level ∧ level ≤ 6 ∧ (rest.head? = some ' ' ∨ trim rest = []) then
    some { at_, level, title := trim (trimEndMatches '#' (trim rest)) }
  else none

/-- One turn of the loop of `headings`. -/
def scanLine (st : HeadingScan) (line : Text) : HeadingScan :=
  let trimmed := trimStart line
  let opens := ["```".toList, "~~~".toList].find? fun f => f.isPrefixOf trimmed
  let st :=
    match st.fence, opens with
    | some f, some o => if f = o then { st with fence := none } else st
    | none, some o => { st with fence := some o }
    | none, none => { st with out := st.out ++ (headingOf st.at_ line).toList }
    | some _, none => st
  { st with at_ := st.at_ + line.length }

/-- The ATX headings of a text outside fenced code, in order. -/
def headings (text : Text) : List Heading := ((splitInclusive text).foldl scanLine {}).out

/-! ## sections -/

/-- A section to split out: its range in the text, and its heading's title. -/
structure Section where
  start : Nat
  stop : Nat
  title : Text
deriving Repr, DecidableEq

/-- The sections at a level: each heading of that level to the next cut, or the end. -/
def cutAt (level stop : Nat) : List Heading → List Section
  | [] => []
  | h :: cuts =>
      if h.level = level then
        { start := h.at_, stop := (cuts.head?.map (·.at_)).getD stop, title := h.title } :: cutAt level stop cuts
      else cutAt level stop cuts

/-- The sections of a text at a heading level, each to the next heading of that level or higher. -/
def sectionsOf (text : Text) (level : Nat) (uid : Text) : Except Fmt (List Section) :=
  let cuts := (headings text).filter (·.level ≤ level)
  let sections := cutAt level text.length cuts
  if sections = [] then
    .error ["design ", .text (String.ofList uid), " has no level-", level, " heading (`",
      .text (String.ofList (List.replicate level '#')), " `) to split at"]
  else
    match sections.find? (·.title = []) with
    | some s => .error ["a level-", level, " heading has no title to name its design: ", .debug (String.ofList s.title)]
    | none => .ok sections

/-- Each section ends where the next begins. -/
def contiguous : List Section → Bool
  | [] => true
  | [_] => true
  | s :: t :: rest => s.stop = t.start && contiguous (t :: rest)

/-! ## which span goes where -/

/-- A span and its range in a section. -/
abbrev Moved := SpanView × Nat × Nat

/-- The UTF-16 bounds of the sections. -/
def boundsOf (text : Text) : List Section → Except Fmt (List (Nat × Nat))
  | [] => .ok []
  | s :: rest => do
      let start ← byteToUtf16 text s.start
      let stop ← byteToUtf16 text s.stop
      let bounds ← boundsOf text rest
      return (start, stop) :: bounds

/-- The section a range lies in, of those from the `i`-th on; one whose edge it crosses refuses it. -/
def homeOf (uid : Text) (s e : Nat) : List (Section × Nat × Nat) → Nat → Option Nat → Except Fmt (Option Nat)
  | [], _, home => .ok home
  | (sec, start, stop) :: rest, i, home =>
      let inside := s ≥ start ∧ e ≤ stop
      if s < stop ∧ e > start ∧ ¬ inside then
        .error ["span ", .text (String.ofList uid), " crosses the edge of section ", .debug (String.ofList sec.title),
          ": split never cuts a span — split the span first, or split at another level"]
      else homeOf uid s e rest (i + 1) (if inside ∧ e > s then some i else home)

/-- Which spans move into each section, with their ranges relative to it. -/
def assignSpans (sections : List (Section × Nat × Nat)) :
    List SpanView → List (List Moved) → Except Fmt (List (List Moved))
  | [], moving => .ok moving
  | span :: spans, moving =>
      if span.anchored then do
        match ← homeOf span.uid span.start span.stop sections 0 none with
        | some i =>
            let start := (sections[i]?.map (·.2.1)).getD 0
            assignSpans sections spans (moving.modify i (· ++ [(span, span.start - start, span.stop - start)]))
        | none => assignSpans sections spans moving
      else assignSpans sections spans moving

/-- The sections' UTF-16 bounds, and which spans move into each. -/
def assign (text : Text) (sections : List Section) (spans : List SpanView) :
    Except Fmt (List (Nat × Nat) × List (List Moved)) := do
  let bounds ← boundsOf text sections
  let moving ← assignSpans (sections.zip bounds) spans (sections.map fun _ => [])
  return (bounds, moving)

/-! ## the two sides of a split -/

/-- The text of a section. -/
def sectionText (text : Text) (s : Section) : Text := slice text s.start s.stop

/-- A child's body: the section without the whitespace it ends in, unless a span covers that. -/
def childBody (text : Text) (spans : List Moved) : Except Fmt Text := do
  let covered := ((spans.map fun m => m.2.2).max?).getD 0
  let trimmed := trimEnd text
  let len ← utf16Len trimmed
  return if len ≥ covered then trimmed else text

/-- The spans of a child, anchored where they lie in it. -/
def childSpans (spans : List Moved) : List SpanView :=
  spans.map fun m => { m.1 with start := m.2.1, stop := m.2.2 }

/-- The children, one for each section. -/
def childrenOf (text : Text) : List (Section × List Moved) → Except Fmt (List DesignText)
  | [] => .ok []
  | (s, spans) :: rest => do
      let body ← childBody (sectionText text s) spans
      let children ← childrenOf text rest
      return { text := body, spans := childSpans spans } :: children

/-- An offset after the text of a range was taken out: one inside the range is where the range was. -/
def afterRemoval (bound : Nat × Nat) (p : Nat) : Nat :=
  if p ≤ bound.1 then p else if p < bound.2 then bound.1 else p - (bound.2 - bound.1)

/-- Take the sections out of a text, last first. -/
def removeSections (text : Text) (sections : List Section) : Text :=
  sections.foldr (fun s t => t.take s.start ++ t.drop s.stop) text

/-- Where a span that stays is after the sections are gone. -/
def stay (bounds : List (Nat × Nat)) (s : SpanView) : SpanView :=
  { s with start := bounds.foldr afterRemoval s.start, stop := bounds.foldr afterRemoval s.stop }

/-- The design after a split: its text without the sections, and the spans that moved into none. -/
def parentAfter (d : DesignText) (sections : List Section) (bounds : List (Nat × Nat))
    (moving : List (List Moved)) : DesignText where
  text := removeSections d.text sections
  spans := (d.spans.filter fun s => s ∉ moving.flatten.map (·.1)).map (stay bounds)

/-- The texts that a split of a design leaves: its own and those of its children. -/
def splitTexts (uid : Text) (level : Nat) (d : DesignText) : Except Fmt (DesignText × List DesignText) := do
  let sections ← sectionsOf d.text level uid
  if contiguous sections = false ∨ sections.getLast?.map (·.stop) ≠ some d.text.length then
    .error ["design ", .text (String.ofList uid), " has text after a level-", level,
      " section (a higher-level heading), which its export would move after the split-out sections — ",
      "split at a level whose sections run to the end of the design"]
  else do
    let (bounds, moving) ← assign d.text sections d.spans
    let children ← childrenOf d.text (sections.zip moving)
    return (parentAfter d sections bounds moving, children)

/-! ## where the sections are -/

/-- A line with its end is not empty. -/
theorem ne_nil_of_mem_splitInclusive {text line : Text} (h : line ∈ splitInclusive text) : line ≠ [] := by
  induction text generalizing line with
  | nil => cases h
  | cons c t ih =>
      rw [splitInclusive] at h
      split at h
      · rcases List.mem_cons.mp h with rfl | h
        · exact List.cons_ne_nil _ _
        · exact ih h
      · split at h
        case h_1 =>
          rw [List.mem_singleton.mp h]
          exact List.cons_ne_nil _ _
        case h_2 l lines hlines =>
          rcases List.mem_cons.mp h with rfl | h
          · exact List.cons_ne_nil _ _
          · exact ih (hlines ▸ List.mem_cons_of_mem l h)

/-- The lines with their ends are the text. -/
theorem flatten_splitInclusive (text : Text) : (splitInclusive text).flatten = text := by
  induction text with
  | nil => rfl
  | cons c t ih =>
      rw [splitInclusive]
      split
      case isTrue hc => rw [List.flatten_cons, ih, List.singleton_append]
      case isFalse =>
        split
        case h_1 hnil =>
          rw [hnil] at ih
          rw [← ih]
          rfl
        case h_2 line lines hlines =>
          rw [hlines] at ih
          rw [List.flatten_cons, List.cons_append, ← List.flatten_cons, ih]

/-- The headings found so far come one after the other, before where the scan is. -/
def HeadingScan.Sorted (st : HeadingScan) : Prop :=
  st.out.Pairwise (fun a b => a.at_ < b.at_) ∧ ∀ h ∈ st.out, h.at_ < st.at_

/-- A heading is where its line is. -/
theorem headingOf_at {at_ : Nat} {line : Text} {h : Heading} (hh : headingOf at_ line = some h) : h.at_ = at_ := by
  unfold headingOf at hh
  dsimp only at hh
  split at hh
  · obtain rfl := Option.some.inj hh
    rfl
  · cases hh

/-- The scan goes on after the line. -/
theorem at_scanLine (st : HeadingScan) (line : Text) : (scanLine st line).at_ = st.at_ + line.length := by
  rw [scanLine]
  dsimp only
  split <;> (try split) <;> rfl

/-- A line adds its heading, or none. -/
theorem out_scanLine (st : HeadingScan) (line : Text) :
    (scanLine st line).out = st.out ∨ (scanLine st line).out = st.out ++ (headingOf st.at_ line).toList := by
  rw [scanLine]
  dsimp only
  split
  · split <;> exact Or.inl rfl
  · exact Or.inl rfl
  · exact Or.inr rfl
  · exact Or.inl rfl

/-- The headings that are found stay in order. -/
theorem HeadingScan.Sorted.scanLine {st : HeadingScan} (h : st.Sorted) {line : Text} (hline : line ≠ []) :
    (scanLine st line).Sorted := by
  have hlen := List.length_pos_iff.mpr hline
  rw [Sorted, at_scanLine]
  rcases out_scanLine st line with hout | hout
  · rw [hout]
    exact ⟨h.1, fun a ha => Nat.lt_add_right _ (h.2 a ha)⟩
  · rw [hout]
    cases hhead : headingOf st.at_ line with
    | none =>
        rw [Option.toList_none, List.append_nil]
        exact ⟨h.1, fun a ha => Nat.lt_add_right _ (h.2 a ha)⟩
    | some b =>
        have hb := headingOf_at hhead
        rw [Option.toList_some]
        refine ⟨List.pairwise_append.mpr ⟨h.1, List.pairwise_singleton _ _, ?_⟩, ?_⟩
        · intro a ha b' hb'
          rw [List.mem_singleton.mp hb', hb]
          exact h.2 a ha
        · intro a ha
          rcases List.mem_append.mp ha with ha | ha
          · exact Nat.lt_add_right _ (h.2 a ha)
          · rw [List.mem_singleton.mp ha, hb]
            omega

/-- They are in order after any lines, and the scan is after the lines. -/
theorem sorted_foldl {lines : List Text} (hlines : ∀ l ∈ lines, l ≠ []) {st : HeadingScan} (h : st.Sorted) :
    (lines.foldl scanLine st).Sorted ∧ (lines.foldl scanLine st).at_ = st.at_ + lines.flatten.length := by
  induction lines generalizing st with
  | nil => exact ⟨h, rfl⟩
  | cons line lines ih =>
      obtain ⟨hline, hrest⟩ := List.forall_mem_cons.mp hlines
      obtain ⟨hsorted, hat⟩ := ih hrest (h.scanLine hline)
      refine ⟨hsorted, ?_⟩
      rw [List.foldl_cons, hat, at_scanLine, List.flatten_cons, List.length_append, Nat.add_assoc]

/-- The headings of a text come one after the other in it. -/
theorem headings_sorted (text : Text) :
    (headings text).Pairwise (fun a b => a.at_ < b.at_) ∧ ∀ h ∈ headings text, h.at_ < text.length := by
  have hempty : HeadingScan.Sorted {} := ⟨List.Pairwise.nil, fun h hh => absurd hh List.not_mem_nil⟩
  obtain ⟨⟨hsorted, hbound⟩, hat⟩ := sorted_foldl (fun l hl => ne_nil_of_mem_splitInclusive hl) hempty
  rw [flatten_splitInclusive, Nat.zero_add] at hat
  rw [hat] at hbound
  exact ⟨hsorted, hbound⟩

/-- Every section is inside of the text, and not empty. -/
theorem cutAt_inside {level stop : Nat} {cuts : List Heading} (hsort : cuts.Pairwise fun a b => a.at_ < b.at_)
    (hstop : ∀ h ∈ cuts, h.at_ < stop) : ∀ s ∈ cutAt level stop cuts, s.start < s.stop ∧ s.stop ≤ stop := by
  induction cuts with
  | nil => exact fun s hs => absurd hs List.not_mem_nil
  | cons h cuts ih =>
      obtain ⟨hhead, hrest⟩ := List.pairwise_cons.mp hsort
      obtain ⟨hh, hcuts⟩ := List.forall_mem_cons.mp hstop
      rw [cutAt]
      split
      · refine List.forall_mem_cons.mpr ⟨?_, ih hrest hcuts⟩
        cases cuts with
        | nil => exact ⟨hh, Nat.le_refl _⟩
        | cons next cuts => exact ⟨hhead next List.mem_cons_self, (hcuts next List.mem_cons_self).le⟩
      · exact ih hrest hcuts

/-- **Sections that run to the end of a text**: none is empty, and each ends where the next begins. -/
structure Tail (n : Nat) (sections : List Section) : Prop where
  inside : ∀ s ∈ sections, s.start < s.stop ∧ s.stop ≤ n
  joined : sections.IsChain fun s t => s.stop = t.start
  last : ∀ s, sections.getLast? = some s → s.stop = n

/-- Contiguous sections begin where the one before ends. -/
theorem isChain_of_contiguous {sections : List Section} (h : contiguous sections = true) :
    sections.IsChain fun s t => s.stop = t.start := by
  induction sections with
  | nil => exact List.isChain_nil
  | cons s sections ih =>
      cases sections with
      | nil => exact List.isChain_singleton s
      | cons t sections =>
          rw [contiguous, Bool.and_eq_true, decide_eq_true_eq] at h
          exact List.isChain_cons_cons.mpr ⟨h.1, ih h.2⟩

/-- What `sectionsOf` answers, where the sections run to the end. -/
theorem tail_of_sectionsOf {text uid : Text} {level : Nat} {sections : List Section}
    (h : sectionsOf text level uid = .ok sections) (hcontiguous : contiguous sections = true)
    (hend : sections.getLast?.map (·.stop) = some text.length) : sections ≠ [] ∧ Tail text.length sections := by
  have hcut : sections = cutAt level text.length ((headings text).filter (·.level ≤ level)) ∧ sections ≠ [] := by
    unfold sectionsOf at h
    dsimp only at h
    split at h
    case isTrue => cases h
    case isFalse hne =>
      split at h
      case h_1 => cases h
      case h_2 =>
        obtain rfl := Except.ok.inj h
        exact ⟨rfl, hne⟩
  obtain ⟨hsort, hbound⟩ := headings_sorted text
  refine ⟨hcut.2, ?_, isChain_of_contiguous hcontiguous, fun s hs => ?_⟩
  · rw [hcut.1]
    exact cutAt_inside (hsort.filter _) fun a ha => hbound a (List.mem_of_mem_filter ha)
  · rw [hs] at hend
    exact Option.some.inj hend

/-- The sections after the first one are sections up to the end. -/
theorem Tail.tail {n : Nat} {s t : Section} {rest : List Section} (h : Tail n (s :: t :: rest)) :
    s.stop = t.start ∧ Tail n (t :: rest) := by
  obtain ⟨hst, hrest⟩ := List.isChain_cons_cons.mp h.joined
  exact ⟨hst, fun u hu => h.inside u (List.mem_cons_of_mem s hu), hrest, fun u hu => h.last u hu⟩

/-- **The prefix and the sections are the text.** -/
theorem Tail.drop_eq {text : Text} {s : Section} {rest : List Section} (h : Tail text.length (s :: rest)) :
    text.drop s.start = ((s :: rest).map (sectionText text)).flatten := by
  induction rest generalizing s with
  | nil =>
      have hstop : s.stop = text.length := h.last s rfl
      simp [sectionText, slice, hstop]
  | cons t rest ih =>
      obtain ⟨hst, hrest⟩ := h.tail
      have hs := h.inside s List.mem_cons_self
      rw [List.map_cons, List.flatten_cons, ← ih hrest, ← hst]
      have hsplit : text.drop s.start = (text.take s.stop ++ text.drop s.stop).drop s.start := by
        rw [List.take_append_drop]
      rw [hsplit, List.drop_append_of_le_length (by rw [List.length_take]; omega)]
      rfl

/-- Taking the sections out leaves the prefix. -/
theorem Tail.removeSections_eq {text : Text} {s : Section} {rest : List Section}
    (h : Tail text.length (s :: rest)) : removeSections text (s :: rest) = text.take s.start := by
  induction rest generalizing s with
  | nil =>
      have hstop : s.stop = text.length := h.last s rfl
      simp [removeSections, hstop]
  | cons t rest ih =>
      obtain ⟨hst, hrest⟩ := h.tail
      have hs := h.inside s List.mem_cons_self
      have hrem : removeSections text (s :: t :: rest) =
          (removeSections text (t :: rest)).take s.start ++ (removeSections text (t :: rest)).drop s.stop := rfl
      rw [hrem, ih hrest, List.take_take, Nat.min_eq_left (by omega), ← hst, List.drop_eq_nil_of_le,
        List.append_nil]
      rw [List.length_take]
      exact Nat.min_le_left _ _

/-! ## UTF-16 offsets of sections -/

/-- The units before a place, counted in two parts. -/
theorem unitsBefore_add (text : Text) (a i : Nat) :
    unitsBefore text (a + i) = unitsBefore text a + unitsBefore (text.drop a) i := by
  rw [unitsBefore, List.take_add, utf16Count_append]
  rfl

/-- There are more units before a later place. -/
theorem unitsBefore_le {text : Text} {i j : Nat} (h : i ≤ j) : unitsBefore text i ≤ unitsBefore text j := by
  obtain ⟨k, rfl⟩ := Nat.exists_eq_add_of_le h
  rw [unitsBefore_add]
  exact Nat.le_add_right _ _

/-- Every character is a unit at least. -/
theorem lenUtf16_pos (c : Char) : 0 < lenUtf16 c := by
  rw [lenUtf16]
  split <;> decide

/-- A character is at least one unit. -/
theorem unitsBefore_lt {text : Text} {i j : Nat} (h : i < j) (hi : i < text.length) :
    unitsBefore text i < unitsBefore text j := by
  refine lt_of_lt_of_le ?_ (unitsBefore_le h)
  rw [Nat.succ_eq_add_one, unitsBefore_add, List.drop_eq_getElem_cons hi]
  have hpos := lenUtf16_pos text[i]
  simp only [unitsBefore, utf16Count, List.take_succ_cons, List.take_zero, List.map_cons, List.map_nil,
    List.sum_cons, List.sum_nil]
  omega

/-- Before the end are the units of the text. -/
theorem unitsBefore_length (text : Text) : unitsBefore text text.length = utf16Count text := by
  rw [unitsBefore, List.take_length]

/-- Offsets up to its end do not depend on what follows a text. -/
theorem unitsBefore_append {s t : Text} {i : Nat} (h : i ≤ s.length) : unitsBefore (s ++ t) i = unitsBefore s i := by
  rw [unitsBefore, unitsBefore, List.take_append_of_le_length h]

/-- What comes after a place does not count. -/
theorem unitsBefore_take {text : Text} {i n : Nat} (h : i ≤ n) : unitsBefore (text.take n) i = unitsBefore text i := by
  rw [unitsBefore, unitsBefore, List.take_take, Nat.min_eq_left h]

/-- An offset in a section, from the start of the text. -/
theorem unitsBefore_sectionText {text : Text} {s : Section} {i : Nat} (h : s.start + i ≤ s.stop) :
    unitsBefore text (s.start + i) = unitsBefore text s.start + unitsBefore (sectionText text s) i := by
  rw [unitsBefore_add, sectionText, slice, List.drop_take, unitsBefore_take (by omega)]

/-- A length that is accepted is that of the text, and fits. -/
theorem utf16Len_eq_ok {s : Text} {n : Nat} (h : utf16Len s = .ok n) : n = utf16Count s ∧ n ≤ 2 ^ 32 - 1 := by
  unfold utf16Len at h
  split at h
  case isTrue hle =>
    obtain rfl := Except.ok.inj h
    exact ⟨rfl, hle⟩
  case isFalse => cases h

/-- The bounds of a section in UTF-16 units. -/
def unitBounds (text : Text) (s : Section) : Nat × Nat := (unitsBefore text s.start, unitsBefore text s.stop)

/-- The bounds are those of the sections, and fit. -/
theorem boundsOf_eq_ok {text : Text} {sections : List Section} {bounds : List (Nat × Nat)}
    (h : boundsOf text sections = .ok bounds) :
    bounds = sections.map (unitBounds text) ∧ ∀ s ∈ sections, unitsBefore text s.stop ≤ 2 ^ 32 - 1 := by
  induction sections generalizing bounds with
  | nil =>
      cases h
      exact ⟨rfl, fun s hs => absurd hs List.not_mem_nil⟩
  | cons s sections ih =>
      rw [boundsOf] at h
      obtain ⟨start, hstart, h⟩ := Tx.bind_eq_ok.mp h
      obtain ⟨stop, hstop, h⟩ := Tx.bind_eq_ok.mp h
      obtain ⟨rest, hrest, h⟩ := Tx.bind_eq_ok.mp h
      cases h
      obtain ⟨rfl, hle⟩ := ih hrest
      obtain ⟨rfl, -⟩ := utf16Len_eq_ok hstart
      obtain ⟨rfl, hlen⟩ := utf16Len_eq_ok hstop
      exact ⟨rfl, List.forall_mem_cons.mpr ⟨hlen, hle⟩⟩

/-! ## which span is moved -/

/-- A range lies within the bounds of a section and is not empty. -/
def Inside (s e : Nat) (b : Nat × Nat) : Prop := b.1 ≤ s ∧ e ≤ b.2 ∧ s < e

/-- What `homeOf` answers: no edge is crossed, and the home is a section the range lies in, if there is one. -/
theorem homeOf_eq_ok {uid : Text} {s e : Nat} {zs : List (Section × Nat × Nat)} {i : Nat} {home r : Option Nat}
    (h : homeOf uid s e zs i home = .ok r) :
    (∀ z ∈ zs, s < z.2.2 → z.2.1 < e → z.2.1 ≤ s ∧ e ≤ z.2.2) ∧
      ((r = home ∧ ∀ z ∈ zs, ¬ Inside s e z.2) ∨ ∃ j z, zs[j]? = some z ∧ r = some (i + j) ∧ Inside s e z.2) := by
  induction zs generalizing i home with
  | nil =>
      cases h
      exact ⟨fun z hz => absurd hz List.not_mem_nil, Or.inl ⟨rfl, fun z hz => absurd hz List.not_mem_nil⟩⟩
  | cons z zs ih =>
      obtain ⟨sec, start, stop⟩ := z
      rw [homeOf] at h
      split at h
      case isTrue => cases h
      case isFalse hcross =>
        obtain ⟨hall, hres⟩ := ih h
        refine ⟨List.forall_mem_cons.mpr ⟨fun hs he => ?_, hall⟩, ?_⟩
        · by_contra hout
          exact hcross ⟨hs, he, hout⟩
        · rcases hres with ⟨hr, hnone⟩ | ⟨j, w, hw, hr, hin⟩
          · split at hr
            case isTrue hin => exact Or.inr ⟨0, _, rfl, hr, hin.1.1, hin.1.2, hin.2⟩
            case isFalse hout =>
              refine Or.inl ⟨hr, List.forall_mem_cons.mpr ⟨fun hin => hout ⟨⟨hin.1, hin.2.1⟩, hin.2.2⟩, hnone⟩⟩
          · refine Or.inr ⟨j + 1, w, hw, ?_, hin⟩
            rw [hr, Nat.add_assoc, Nat.add_comm 1]

/-- What a span puts into the `j`-th list. -/
def movedTo (sections : List (Section × Nat × Nat)) (j : Nat) (span : SpanView) : Option Moved :=
  if span.anchored ∧ homeOf span.uid span.start span.stop sections 0 none = .ok (some j) then
    let start := (sections[j]?.map (·.2.1)).getD 0
    some (span, span.start - start, span.stop - start)
  else none

/-- Every span goes to the list of the section that it is moved to. -/
theorem assignSpans_eq_ok {sections : List (Section × Nat × Nat)} {spans : List SpanView}
    {moving moving' : List (List Moved)} (h : assignSpans sections spans moving = .ok moving') :
    moving'.length = moving.length ∧
      (∀ j < moving.length, moving'.getD j [] = moving.getD j [] ++ spans.filterMap (movedTo sections j)) ∧
      ∀ s ∈ spans, s.anchored → ∃ r, homeOf s.uid s.start s.stop sections 0 none = .ok r := by
  induction spans generalizing moving with
  | nil =>
      cases h
      exact ⟨rfl, fun j _ => (List.append_nil _).symm, fun s hs => absurd hs List.not_mem_nil⟩
  | cons span spans ih =>
      rw [assignSpans] at h
      split at h
      case isFalse hanch =>
        obtain ⟨hlen, hlists, hhome⟩ := ih h
        refine ⟨hlen, fun j hj => ?_, List.forall_mem_cons.mpr ⟨fun ha => absurd ha hanch, hhome⟩⟩
        have hnone : movedTo sections j span = none := if_neg fun hm => hanch hm.1
        rw [hlists j hj, List.filterMap_cons_none hnone]
      case isTrue hanch =>
        obtain ⟨r, hr, h⟩ := Tx.bind_eq_ok.mp h
        cases r with
        | none =>
            obtain ⟨hlen, hlists, hhome⟩ := ih h
            refine ⟨hlen, fun j hj => ?_, List.forall_mem_cons.mpr ⟨fun _ => ⟨_, hr⟩, hhome⟩⟩
            have hnone : movedTo sections j span = none := if_neg fun hm => by rw [hr] at hm; cases hm.2
            rw [hlists j hj, List.filterMap_cons_none hnone]
        | some i =>
            obtain ⟨hlen, hlists, hhome⟩ := ih h
            rw [List.length_modify] at hlen hlists
            refine ⟨hlen, fun j hj => ?_, List.forall_mem_cons.mpr ⟨fun _ => ⟨_, hr⟩, hhome⟩⟩
            rw [hlists j hj]
            by_cases hij : i = j
            · subst hij
              have hsome : movedTo sections i span = some (span, span.start - (sections[i]?.map (·.2.1)).getD 0,
                  span.stop - (sections[i]?.map (·.2.1)).getD 0) := if_pos ⟨hanch, hr⟩
              rw [List.filterMap_cons_some hsome]
              simp [List.getD_eq_getElem?_getD, hj]
            · have hnone : movedTo sections j span = none := if_neg fun hm => by
                rw [hr] at hm
                exact hij (Option.some.inj (Except.ok.inj hm.2))
              rw [List.filterMap_cons_none hnone]
              simp [List.getD_eq_getElem?_getD, hij]

/-- Sections that come one after the other hold no character twice. -/
theorem Tail.disjoint {n : Nat} {sections : List Section} (h : Tail n sections) :
    sections.Pairwise fun s t => s.stop ≤ t.start := by
  induction sections with
  | nil => exact List.Pairwise.nil
  | cons s sections ih =>
      cases sections with
      | nil => exact List.pairwise_singleton _ _
      | cons t rest =>
          obtain ⟨hst, hrest⟩ := h.tail
          have hpair := ih hrest
          refine List.pairwise_cons.mpr ⟨List.forall_mem_cons.mpr ⟨hst.le, fun u hu => ?_⟩, hpair⟩
          have htu := (List.pairwise_cons.mp hpair).1 u hu
          have ht := (hrest.inside t List.mem_cons_self).1
          omega

/-- **What `assign` says of the spans.** None crosses an edge of a section, and those that are moved into a section
are the ones that lie in it and are not empty. -/
structure Assigned (d : DesignText) (sections : List Section) (moving : List (List Moved)) : Prop where
  length : moving.length = sections.length
  uncut : ∀ s ∈ d.spans, s.anchored → ∀ t ∈ sections, s.start < unitsBefore d.text t.stop →
    unitsBefore d.text t.start < s.stop → unitsBefore d.text t.start ≤ s.start ∧ s.stop ≤ unitsBefore d.text t.stop
  moved : ∀ j t, sections[j]? = some t → ∀ m, m ∈ moving.getD j [] ↔ ∃ s ∈ d.spans, s.anchored ∧
    Inside s.start s.stop (unitBounds d.text t) ∧
      m = (s, s.start - unitsBefore d.text t.start, s.stop - unitsBefore d.text t.start)

/-- A section stands beside its own bounds. -/
theorem getElem?_zip_bounds {text : Text} {sections : List Section} {j : Nat} :
    (sections.zip (sections.map (unitBounds text)))[j]? = sections[j]?.map fun t => (t, unitBounds text t) := by
  cases h : sections[j]? <;> simp [List.zip, List.getElem?_zipWith, h]

/-- A range lies in one section. -/
theorem Tail.inside_unique {text : Text} {sections : List Section} (h : Tail text.length sections) {s e : Nat}
    {i j : Nat} {t u : Section} (ht : sections[i]? = some t) (hu : sections[j]? = some u)
    (hin : Inside s e (unitBounds text t)) (hin' : Inside s e (unitBounds text u)) : i = j := by
  have hlt : ∀ {a b : Nat} {v w : Section}, sections[a]? = some v → sections[b]? = some w → a < b →
      Inside s e (unitBounds text v) → ¬ Inside s e (unitBounds text w) := by
    intro a b v w hv hw hab hv' hw'
    obtain ⟨hb, rfl⟩ := List.getElem?_eq_some_iff.mp hw
    obtain ⟨ha, rfl⟩ := List.getElem?_eq_some_iff.mp hv
    have hle : unitsBefore text sections[a].stop ≤ unitsBefore text sections[b].start :=
      unitsBefore_le (List.pairwise_iff_getElem.mp h.disjoint a b ha hb hab)
    obtain ⟨-, hstop, hne⟩ := hv'
    obtain ⟨hstart, -, -⟩ := hw'
    simp only [unitBounds] at hstop hstart
    omega
  rcases Nat.lt_trichotomy i j with hij | hij | hij
  · exact absurd hin' (hlt ht hu hij hin)
  · exact hij
  · exact absurd hin (hlt hu ht hij hin')

/-- What an assignment that is accepted says of the spans. -/
theorem assigned_of_assign {d : DesignText} {sections : List Section} {bounds : List (Nat × Nat)}
    {moving : List (List Moved)} (h : assign d.text sections d.spans = .ok (bounds, moving))
    (htail : Tail d.text.length sections) :
    Assigned d sections moving ∧ bounds = sections.map (unitBounds d.text) ∧
      ∀ s ∈ sections, unitsBefore d.text s.stop ≤ 2 ^ 32 - 1 := by
  rw [assign] at h
  obtain ⟨bs, hbounds, h⟩ := Tx.bind_eq_ok.mp h
  obtain ⟨ms, hmoving, h⟩ := Tx.bind_eq_ok.mp h
  cases h
  obtain ⟨rfl, hlen⟩ := boundsOf_eq_ok hbounds
  obtain ⟨hlength, hlists, hhome⟩ := assignSpans_eq_ok hmoving
  rw [List.length_map] at hlength hlists
  refine ⟨⟨hlength, fun s hs hanch t ht hstart hstop => ?_, fun j t hj m => ?_⟩, rfl, hlen⟩
  · obtain ⟨r, hr⟩ := hhome s hs hanch
    obtain ⟨i, hi⟩ := List.mem_iff_getElem?.mp ht
    refine (homeOf_eq_ok hr).1 (t, unitBounds d.text t) ?_ hstart hstop
    refine List.mem_of_getElem? (i := i) ?_
    rw [getElem?_zip_bounds, hi]
    rfl
  · have hjlt : j < sections.length := (List.getElem?_eq_some_iff.mp hj).1
    have hzip : (sections.zip (sections.map (unitBounds d.text)))[j]? = some (t, unitBounds d.text t) := by
      rw [getElem?_zip_bounds, hj]
      rfl
    have hnil : (sections.map fun _ => ([] : List Moved)).getD j [] = [] := by
      simp [List.getD_eq_getElem?_getD, hjlt]
    rw [hlists j hjlt, hnil, List.nil_append, List.mem_filterMap]
    constructor
    · rintro ⟨s, hs, hm⟩
      unfold movedTo at hm
      split at hm
      case isFalse => cases hm
      case isTrue hmoved =>
        obtain ⟨hanch, hh⟩ := hmoved
        obtain rfl := Option.some.inj hm
        rcases (homeOf_eq_ok hh).2 with ⟨hnone, -⟩ | ⟨k, z, hz, hk, hin⟩
        · cases hnone
        · rw [Nat.zero_add] at hk
          obtain rfl := Option.some.inj hk
          rw [hzip] at hz
          obtain rfl := Option.some.inj hz
          exact ⟨s, hs, hanch, hin, by rw [hzip]; rfl⟩
    · rintro ⟨s, hs, hanch, hin, rfl⟩
      refine ⟨s, hs, ?_⟩
      obtain ⟨r, hr⟩ := hhome s hs hanch
      have hjhome : r = some j := by
        rcases (homeOf_eq_ok hr).2 with ⟨-, hnone⟩ | ⟨k, z, hz, hk, hin'⟩
        · exact absurd hin (hnone _ (List.mem_of_getElem? hzip))
        · rw [getElem?_zip_bounds] at hz
          obtain ⟨u, hu, rfl⟩ := Option.map_eq_some_iff.mp hz
          rw [hk, Nat.zero_add, htail.inside_unique hu hj hin' hin]
      rw [movedTo, if_pos ⟨hanch, by rw [hr, hjhome]⟩, hzip]
      rfl

/-! ## the children -/

/-- A child's text, which is always short enough. -/
def childText (text : Text) (p : Section × List Moved) : DesignText :=
  let section_ := sectionText text p.1
  let covered := ((p.2.map fun m => m.2.2).max?).getD 0
  { text := if utf16Count (trimEnd section_) ≥ covered then trimEnd section_ else section_
    spans := childSpans p.2 }

/-- A section has the units between its ends. -/
theorem unitsBefore_sectionText_stop {text : Text} {s : Section} (h : s.start ≤ s.stop ∧ s.stop ≤ text.length) :
    unitsBefore text s.stop = unitsBefore text s.start + utf16Count (sectionText text s) := by
  have hlen : (sectionText text s).length = s.stop - s.start := length_slice h.2
  have hstop := @unitsBefore_sectionText text s (s.stop - s.start) (by omega)
  rwa [Nat.add_sub_cancel' h.1, ← hlen, unitsBefore_length] at hstop

/-- A trimmed text has no more units. -/
theorem utf16Count_trimEnd_le (s : Text) : utf16Count (trimEnd s) ≤ utf16Count s := by
  conv_rhs => rw [eq_trimEnd_append s]
  rw [utf16Count_append]
  exact Nat.le_add_right _ _

/-- The children get the texts of their sections. -/
theorem childrenOf_eq_ok {text : Text} {ps : List (Section × List Moved)}
    (h : ∀ p ∈ ps, p.1.start ≤ p.1.stop ∧ p.1.stop ≤ text.length ∧ unitsBefore text p.1.stop ≤ 2 ^ 32 - 1) :
    childrenOf text ps = .ok (ps.map (childText text)) := by
  induction ps with
  | nil => rfl
  | cons p ps ih =>
      obtain ⟨⟨hle, hlen, hunits⟩, hrest⟩ := List.forall_mem_cons.mp h
      have hcount := unitsBefore_sectionText_stop ⟨hle, hlen⟩
      have htrim := utf16Count_trimEnd_le (sectionText text p.1)
      have hok : utf16Len (trimEnd (sectionText text p.1)) = .ok (utf16Count (trimEnd (sectionText text p.1))) :=
        if_pos (by omega)
      rw [childrenOf, childBody, hok, ih hrest]
      rfl

/-- A child's body is the section without some whitespace it ends in, and as long as its spans say. -/
theorem childText_text {text : Text} {p : Section × List Moved}
    (h : ∀ m ∈ p.2, m.2.2 ≤ utf16Count (sectionText text p.1)) :
    (∃ ws, sectionText text p.1 = (childText text p).text ++ ws ∧ ∀ c ∈ ws, isWhitespace c = true) ∧
      ∀ m ∈ p.2, m.2.2 ≤ utf16Count (childText text p).text := by
  rw [childText]
  dsimp only
  split
  case isTrue hcovered =>
    refine ⟨⟨_, eq_trimEnd_append _, fun c hc => isWhitespace_drop_trimEnd hc⟩, fun m hm => ?_⟩
    refine Nat.le_trans ?_ hcovered
    obtain ⟨top, htop⟩ := Option.isSome_iff_exists.mp
      (List.isSome_max?_of_mem (List.mem_map.mpr ⟨m, hm, rfl⟩ : m.2.2 ∈ p.2.map fun m => m.2.2))
    rw [htop, Option.getD_some]
    exact (List.max?_eq_some_iff.mp htop).2 _ (List.mem_map.mpr ⟨m, hm, rfl⟩)
  case isFalse =>
    exact ⟨⟨[], (List.append_nil _).symm, fun c hc => absurd hc List.not_mem_nil⟩, h⟩

/-- Whitespace at the end of a text publishes nothing. -/
theorem nonblank_pick_append {p : Nat → Bool} {s ws : Text} (h : ∀ c ∈ ws, isWhitespace c = true) :
    nonblank (pick p 0 (s ++ ws)) = nonblank (pick p 0 s) := by
  have hnone : ∀ k, nonblank (pick p k ws) = [] := by
    intro k
    refine nonblank_eq_nil.mpr fun c hc => h c ?_
    exact (pick_sublist p k ws).subset hc
  rw [pick_append, nonblank_append, hnone, List.append_nil]

section

variable {d : DesignText} {sections : List Section} {moving : List (List Moved)}

/-- A span that is moved ends inside of its section. -/
theorem Assigned.stop_le (h : Assigned d sections moving) (htail : Tail d.text.length sections) {j : Nat}
    {t : Section} (hj : sections[j]? = some t) :
    ∀ m ∈ moving.getD j [], m.2.2 ≤ utf16Count (sectionText d.text t) := by
  intro m hm
  obtain ⟨s, -, -, ⟨-, hstop, -⟩, rfl⟩ := (h.moved j t hj m).mp hm
  have ht := htail.inside t (List.mem_of_getElem? hj)
  have hcount := unitsBefore_sectionText_stop ⟨ht.1.le, ht.2⟩
  simp only [unitBounds] at hstop
  show s.stop - unitsBefore d.text t.start ≤ _
  omega

/-- **A section publishes in its child what it published in the whole text.** -/
theorem Assigned.nonblank_child (h : Assigned d sections moving) (htail : Tail d.text.length sections) {j : Nat}
    {t : Section} (hj : sections[j]? = some t) :
    nonblank (approvedText (childText d.text (t, moving.getD j []))) =
      nonblank (pick (published d) t.start (sectionText d.text t)) := by
  have ht := htail.inside t (List.mem_of_getElem? hj)
  obtain ⟨⟨ws, hbody, hws⟩, -⟩ := @childText_text d.text (t, moving.getD j []) (h.stop_le htail hj)
  have hlen : (sectionText d.text t).length = t.stop - t.start := length_slice ht.2
  rw [nonblank_approvedText, ← Nat.zero_add t.start, pick_shift]
  conv_rhs => rw [hbody, nonblank_pick_append hws]
  refine congrArg nonblank (pick_congr fun i _ hi => ?_)
  have hbodyLen : (childText d.text (t, moving.getD j [])).text.length ≤ t.stop - t.start := by
    rw [← hlen, hbody, List.length_append]
    exact Nat.le_add_right _ _
  have hunits : unitsBefore d.text (i + t.start) =
      unitsBefore d.text t.start + unitsBefore (childText d.text (t, moving.getD j [])).text i := by
    rw [Nat.add_comm i, unitsBefore_sectionText (by omega), hbody, unitsBefore_append (by omega)]
  have hlt : unitsBefore d.text (i + t.start) < unitsBefore d.text t.stop := unitsBefore_lt (by omega) (by omega)
  rw [Bool.eq_iff_iff, published, published, List.any_eq_true, List.any_eq_true, hunits]
  simp only [Bool.and_eq_true, decide_eq_true_eq]
  constructor
  · rintro ⟨v, hv, ⟨⟨hanch, hstate⟩, hstart⟩, hstop⟩
    obtain ⟨m, hm, rfl⟩ := List.mem_map.mp hv
    obtain ⟨s, hs, hanchored, ⟨hin, -, -⟩, rfl⟩ := (h.moved j t hj m).mp hm
    simp only [unitBounds] at hin hstart hstop
    exact ⟨s, hs, ⟨⟨hanchored, hstate⟩, by omega⟩, by omega⟩
  · rintro ⟨s, hs, ⟨⟨hanch, hstate⟩, hstart⟩, hstop⟩
    obtain ⟨hfrom, hto⟩ := h.uncut s hs hanch t (List.mem_of_getElem? hj) (by omega) (by omega)
    have hm := (h.moved j t hj _).mpr ⟨s, hs, hanch, ⟨hfrom, hto, by omega⟩, rfl⟩
    refine ⟨_, List.mem_map.mpr ⟨_, hm, rfl⟩, ⟨⟨hanch, hstate⟩, ?_⟩, ?_⟩
    · show s.start - unitsBefore d.text t.start ≤ _
      omega
    · show _ < s.stop - unitsBefore d.text t.start
      omega

/-- What the sections publish is what each of them does. -/
theorem Tail.pick_drop {text : Text} {s : Section} {rest : List Section} (h : Tail text.length (s :: rest))
    (p : Nat → Bool) :
    pick p s.start (text.drop s.start) =
      ((s :: rest).map fun t => pick p t.start (sectionText text t)).flatten := by
  induction rest generalizing s with
  | nil =>
      rw [h.drop_eq]
      simp
  | cons t rest ih =>
      obtain ⟨hst, hrest⟩ := h.tail
      have hs := h.inside s List.mem_cons_self
      have hlen : (sectionText text s).length = s.stop - s.start := length_slice hs.2
      rw [h.drop_eq, List.map_cons, List.flatten_cons, ← hrest.drop_eq, pick_append, hlen,
        Nat.add_sub_cancel' hs.1.le, hst, ih hrest, List.map_cons (l := t :: rest), List.flatten_cons]

/-! ## the prefix -/

/-- A place moves back when sections before it are removed. -/
theorem foldr_afterRemoval_le (bounds : List (Nat × Nat)) (p : Nat) : bounds.foldr afterRemoval p ≤ p := by
  induction bounds with
  | nil => exact Nat.le_refl p
  | cons b bounds ih =>
      refine Nat.le_trans ?_ ih
      rw [List.foldr_cons, afterRemoval]
      split_ifs <;> omega

/-- It does not move before the first of them. -/
theorem le_foldr_afterRemoval {bounds : List (Nat × Nat)} {lo : Nat} (h : ∀ b ∈ bounds, lo ≤ b.1 ∧ b.1 ≤ b.2)
    (p : Nat) : min p lo ≤ bounds.foldr afterRemoval p := by
  induction bounds with
  | nil => exact Nat.min_le_left p lo
  | cons b bounds ih =>
      obtain ⟨hb, hrest⟩ := List.forall_mem_cons.mp h
      have hle := ih hrest
      rw [List.foldr_cons, afterRemoval]
      split_ifs <;> omega

/-- The first section, and every other after it. -/
theorem Tail.start_le {n : Nat} {first : Section} {rest : List Section} (h : Tail n (first :: rest)) :
    ∀ t ∈ first :: rest, first.start ≤ t.start := by
  have hfirst := (h.inside first List.mem_cons_self).1
  refine List.forall_mem_cons.mpr ⟨Nat.le_refl _, fun t ht => ?_⟩
  have hle := (List.pairwise_cons.mp h.disjoint).1 t ht
  omega

variable {first : Section} {rest : List Section}

/-- The bounds of the sections come after the prefix. -/
theorem Tail.bounds_le {text : Text} (h : Tail text.length (first :: rest)) :
    ∀ b ∈ (first :: rest).map (unitBounds text), unitsBefore text first.start ≤ b.1 ∧ b.1 ≤ b.2 := by
  intro b hb
  obtain ⟨t, ht, rfl⟩ := List.mem_map.mp hb
  exact ⟨unitsBefore_le (h.start_le t ht), unitsBefore_le (h.inside t ht).1.le⟩

/-- A span before the first section stays where it is. -/
theorem stay_eq (htail : Tail d.text.length (first :: rest)) {s : SpanView} (hle : s.start ≤ s.stop)
    (hstop : s.stop ≤ unitsBefore d.text first.start) :
    stay ((first :: rest).map (unitBounds d.text)) s = s := by
  have hsame : ∀ p ≤ unitsBefore d.text first.start,
      ((first :: rest).map (unitBounds d.text)).foldr afterRemoval p = p := by
    intro p hp
    have hge := le_foldr_afterRemoval htail.bounds_le p
    rw [Nat.min_eq_left hp] at hge
    exact Nat.le_antisymm (foldr_afterRemoval_le _ p) hge
  rw [stay, hsame _ (hle.trans hstop), hsame _ hstop]

/-- A span that ends before the sections moves into none of them. -/
theorem Assigned.not_moved (h : Assigned d (first :: rest) moving) (htail : Tail d.text.length (first :: rest))
    {s : SpanView} (hstart : s.start < unitsBefore d.text first.start) : s ∉ moving.flatten.map (·.1) := by
  intro hmem
  obtain ⟨m, hm, rfl⟩ := List.mem_map.mp hmem
  obtain ⟨ms, hms, hm⟩ := List.mem_flatten.mp hm
  obtain ⟨k, hk, rfl⟩ := List.mem_iff_getElem.mp hms
  have hk' : k < (first :: rest).length := by rwa [← h.length]
  have hget : m ∈ moving.getD k [] := by
    rwa [List.getD_eq_getElem?_getD, List.getElem?_eq_getElem hk, Option.getD_some]
  obtain ⟨s', -, -, ⟨hin, -, -⟩, rfl⟩ := (h.moved k _ (List.getElem?_eq_getElem hk') m).mp hget
  have hle : unitsBefore d.text first.start ≤ unitsBefore d.text (first :: rest)[k].start :=
    unitsBefore_le (htail.start_le _ (List.getElem_mem hk'))
  simp only [unitBounds] at hin
  dsimp only at hstart
  omega

/-- A span that reaches into the sections has an edge there. -/
theorem Assigned.stop_le_of_start_lt (h : Assigned d (first :: rest) moving)
    (htail : Tail d.text.length (first :: rest)) {s : SpanView} (hs : s ∈ d.spans) (hanch : s.anchored)
    (hstart : s.start < unitsBefore d.text first.start) : s.stop ≤ unitsBefore d.text first.start := by
  by_contra hlt
  have hfirst := htail.inside first List.mem_cons_self
  have hle : unitsBefore d.text first.start ≤ unitsBefore d.text first.stop := unitsBefore_le hfirst.1.le
  have huncut := h.uncut s hs hanch first List.mem_cons_self (by omega) (by omega)
  omega

/-- **The prefix publishes with the spans that stay what it published in the whole text.** -/
theorem Assigned.nonblank_parent (h : Assigned d (first :: rest) moving)
    (htail : Tail d.text.length (first :: rest)) :
    nonblank (approvedText (parentAfter d (first :: rest) ((first :: rest).map (unitBounds d.text)) moving)) =
      nonblank (pick (published d) 0 (d.text.take first.start)) := by
  have hfirst := htail.inside first List.mem_cons_self
  have htext : (parentAfter d (first :: rest) ((first :: rest).map (unitBounds d.text)) moving).text =
      d.text.take first.start := htail.removeSections_eq
  rw [nonblank_approvedText, htext]
  refine congrArg nonblank (pick_congr fun i _ hi => ?_)
  rw [List.length_take] at hi
  have hlt : unitsBefore d.text i < unitsBefore d.text first.start := unitsBefore_lt (by omega) (by omega)
  rw [Bool.eq_iff_iff, published, published, List.any_eq_true, List.any_eq_true, htext, unitsBefore_take (by omega)]
  simp only [Bool.and_eq_true, decide_eq_true_eq]
  constructor
  · rintro ⟨v, hv, ⟨⟨hanch, hstate⟩, hstart⟩, hstop⟩
    obtain ⟨s, hs, rfl⟩ := List.mem_map.mp hv
    have hge := le_foldr_afterRemoval htail.bounds_le s.start
    have hle := foldr_afterRemoval_le ((first :: rest).map (unitBounds d.text)) s.stop
    simp only [stay] at hstart hstop
    exact ⟨s, List.mem_of_mem_filter hs, ⟨⟨hanch, hstate⟩, by omega⟩, by omega⟩
  · rintro ⟨s, hs, ⟨⟨hanch, hstate⟩, hstart⟩, hstop⟩
    have hprefix := h.stop_le_of_start_lt htail hs hanch (by omega)
    have hmem : s ∈ d.spans.filter fun s => s ∉ moving.flatten.map (·.1) :=
      List.mem_filter.mpr ⟨hs, decide_eq_true (h.not_moved htail (by omega))⟩
    refine ⟨s, List.mem_map.mpr ⟨s, hmem, stay_eq htail (by omega) hprefix⟩, ⟨⟨hanch, hstate⟩, hstart⟩, hstop⟩

/-- A range that ends after the prefix reaches into a section. -/
theorem Tail.exists_overlap {text : Text} (h : Tail text.length (first :: rest)) {s e : Nat} (hne : s < e)
    (hafter : unitsBefore text first.start < e) (hend : e ≤ utf16Count text) :
    ∃ t ∈ first :: rest, s < unitsBefore text t.stop ∧ unitsBefore text t.start < e := by
  induction rest generalizing first with
  | nil =>
      have hstop : first.stop = text.length := h.last first rfl
      rw [← unitsBefore_length, ← hstop] at hend
      exact ⟨first, List.mem_cons_self, by omega, hafter⟩
  | cons t rest ih =>
      obtain ⟨hst, hrest⟩ := h.tail
      by_cases hin : s < unitsBefore text first.stop
      · exact ⟨first, List.mem_cons_self, hin, hafter⟩
      · obtain ⟨u, hu, hover⟩ := ih hrest (by rw [← hst]; omega)
        exact ⟨u, List.mem_cons_of_mem first hu, hover⟩

end

/-! ## ranges in a child -/

/-- An offset in units that lies in a section, from its start. -/
theorem utf16ToByte_sectionText {text : Text} {t : Section} (ht : t.start ≤ t.stop ∧ t.stop ≤ text.length) {u : Nat}
    (hstart : unitsBefore text t.start ≤ u) (hstop : u ≤ unitsBefore text t.stop) :
    utf16ToByte text u = t.start + utf16ToByte (sectionText text t) (u - unitsBefore text t.start) := by
  have hlen : (sectionText text t).length = t.stop - t.start := length_slice ht.2
  refine eq_of_forall_lt_iff fun i => ?_
  rw [lt_utf16ToByte]
  by_cases hi : i < t.start
  · have hlt : unitsBefore text i < unitsBefore text t.start := unitsBefore_lt hi (by omega)
    omega
  · obtain ⟨k, rfl⟩ := Nat.exists_eq_add_of_le (Nat.le_of_not_lt hi)
    rw [Nat.add_lt_add_iff_left, lt_utf16ToByte, hlen]
    by_cases hk : t.start + k < t.stop
    · rw [unitsBefore_sectionText hk.le]
      omega
    · have hle : unitsBefore text t.stop ≤ unitsBefore text (t.start + k) := unitsBefore_le (by omega)
      omega

/-- Offsets up to its end do not depend on what follows a text. -/
theorem utf16ToByte_append {s t : Text} {u : Nat} (h : u ≤ utf16Count s) :
    utf16ToByte (s ++ t) u = utf16ToByte s u := by
  refine eq_of_forall_lt_iff fun i => ?_
  rw [lt_utf16ToByte, lt_utf16ToByte, List.length_append]
  by_cases hi : i < s.length
  · rw [unitsBefore_append hi.le]
    omega
  · have hle : unitsBefore (s ++ t) s.length ≤ unitsBefore (s ++ t) i := unitsBefore_le (by omega)
    rw [unitsBefore_append (Nat.le_refl _), unitsBefore_length] at hle
    omega

/-- The characters a range selects in a child are those it selected. -/
theorem slice_sectionText {text body ws : Text} {t : Section} (ht : t.start ≤ t.stop)
    (hbody : sectionText text t = body ++ ws) {a b : Nat} (hb : b ≤ body.length)
    (hlen : body.length ≤ t.stop - t.start) :
    slice body a b = slice text (t.start + a) (t.start + b) := by
  have htake : body.take b = (text.take (t.start + b)).drop t.start := by
    rw [← @List.take_append_of_le_length _ body ws b hb, ← hbody, sectionText, slice, List.take_drop, List.take_take,
      Nat.min_eq_left (by omega)]
  rw [slice, slice, htake, List.drop_drop]

/-! ## a split -/

/-- **Where a span is after a split**, if it is not empty: wholly in the prefix, as it was, or in one child, over the
characters it was over and within the child's body. -/
def Carried (d parent : DesignText) (sections : List Section) (moving : List (List Moved)) (children : List DesignText)
    (s : SpanView) : Prop :=
  (s ∈ parent.spans ∧ s.stop ≤ utf16Count parent.text ∧ ∀ j, ∀ m ∈ moving.getD j [], m.1 ≠ s) ∨
    ∃ j t child a b, sections[j]? = some t ∧ children[j]? = some child ∧
      (∀ k m, m ∈ moving.getD k [] ∧ m.1 = s ↔ k = j ∧ m = (s, a, b)) ∧
      { s with start := a, stop := b } ∈ child.spans ∧ b ≤ utf16Count child.text ∧
      utf16ToByte d.text s.start = t.start + utf16ToByte child.text a ∧
      utf16ToByte d.text s.stop = t.start + utf16ToByte child.text b ∧
      slice child.text (utf16ToByte child.text a) (utf16ToByte child.text b) =
        slice d.text (utf16ToByte d.text s.start) (utf16ToByte d.text s.stop)

/-- A section and the spans that are moved with it. -/
theorem Assigned.getElem?_zip {d : DesignText} {sections : List Section} {moving : List (List Moved)}
    (h : Assigned d sections moving) {j : Nat} {t : Section} (hj : sections[j]? = some t) :
    (sections.zip moving)[j]? = some (t, moving.getD j []) := by
  have hjm : j < moving.length := by
    rw [h.length]
    exact (List.getElem?_eq_some_iff.mp hj).1
  have hget : moving[j]? = some (moving.getD j []) := by
    rw [List.getD_eq_getElem?_getD, List.getElem?_eq_getElem hjm, Option.getD_some]
  rw [List.zip, List.getElem?_zipWith, hj, hget]

/-- A span that is moved, in its child. -/
theorem Assigned.carried {d parent : DesignText} {sections : List Section} {moving : List (List Moved)}
    (h : Assigned d sections moving) (htail : Tail d.text.length sections) {s : SpanView} (hs : s ∈ d.spans)
    (hanch : s.anchored) {j : Nat} {t : Section} (hj : sections[j]? = some t)
    (hin : Inside s.start s.stop (unitBounds d.text t)) :
    Carried d parent sections moving ((sections.zip moving).map (childText d.text)) s := by
  have ht := htail.inside t (List.mem_of_getElem? hj)
  have hlen : (sectionText d.text t).length = t.stop - t.start := length_slice ht.2
  have hm := (h.moved j t hj _).mpr ⟨s, hs, hanch, hin, rfl⟩
  obtain ⟨⟨ws, hbody, -⟩, hcovered⟩ := @childText_text d.text (t, moving.getD j []) (h.stop_le htail hj)
  have hb := hcovered _ hm
  obtain ⟨hstart, hstop, hne⟩ := hin
  simp only [unitBounds] at hstart hstop
  have hoffset : ∀ u, unitsBefore d.text t.start ≤ u → u ≤ s.stop → utf16ToByte d.text u =
      t.start + utf16ToByte (childText d.text (t, moving.getD j [])).text (u - unitsBefore d.text t.start) := by
    intro u hu hle
    rw [utf16ToByte_sectionText ⟨ht.1.le, ht.2⟩ hu (by omega), hbody, utf16ToByte_append]
    dsimp only at hb
    omega
  have hchild : ((sections.zip moving).map (childText d.text))[j]? = some (childText d.text (t, moving.getD j [])) := by
    rw [List.getElem?_map, h.getElem?_zip hj]
    rfl
  refine Or.inr ⟨j, t, _, s.start - unitsBefore d.text t.start, s.stop - unitsBefore d.text t.start, hj, hchild, ?_,
    List.mem_map.mpr ⟨_, hm, rfl⟩, hb, hoffset _ hstart hne.le, hoffset _ (by omega) (Nat.le_refl _), ?_⟩
  · intro k m
    constructor
    · rintro ⟨hmk, rfl⟩
      have hk : k < sections.length := by
        rw [← h.length]
        by_contra hge
        rw [List.getD_eq_getElem?_getD, List.getElem?_eq_none (Nat.le_of_not_lt hge)] at hmk
        cases hmk
      obtain ⟨s', -, -, hin', rfl⟩ := (h.moved k _ (List.getElem?_eq_getElem hk) m).mp hmk
      obtain rfl := htail.inside_unique (List.getElem?_eq_getElem hk) hj hin' ⟨hstart, hstop, hne⟩
      rw [List.getElem?_eq_getElem hk] at hj
      obtain rfl := Option.some.inj hj
      exact ⟨rfl, rfl⟩
    · rintro ⟨rfl, rfl⟩
      exact ⟨hm, rfl⟩
  · have hbodyLen : (childText d.text (t, moving.getD j [])).text.length ≤ t.stop - t.start := by
      rw [← hlen, hbody, List.length_append]
      exact Nat.le_add_right _ _
    rw [hoffset _ hstart hne.le, hoffset _ (by omega) (Nat.le_refl _)]
    exact slice_sectionText ht.1.le hbody (utf16ToByte_le_length _ _) hbodyLen

/-- What is not blank of many texts is what is not blank of each. -/
theorem nonblank_flatten (ts : List Text) : nonblank ts.flatten = (ts.map nonblank).flatten := List.filter_flatten ..

/-- The prefix and the children publish what the text did. -/
theorem Assigned.nonblank_split {d : DesignText} {first : Section} {rest : List Section} {moving : List (List Moved)}
    (h : Assigned d (first :: rest) moving) (htail : Tail d.text.length (first :: rest)) :
    nonblank (approvedText (parentAfter d (first :: rest) ((first :: rest).map (unitBounds d.text)) moving)) ++
        ((((first :: rest).zip moving).map (childText d.text)).map fun c => nonblank (approvedText c)).flatten =
      nonblank (approvedText d) := by
  have hchildren : (((first :: rest).zip moving).map (childText d.text)).map (fun c => nonblank (approvedText c)) =
      (first :: rest).map fun t => nonblank (pick (published d) t.start (sectionText d.text t)) := by
    refine List.ext_getElem? fun j => ?_
    rw [List.getElem?_map, List.getElem?_map, List.getElem?_map]
    cases hj : (first :: rest)[j]? with
    | none =>
        rw [List.zip, List.getElem?_zipWith, hj]
        rfl
    | some t =>
        rw [h.getElem?_zip hj]
        exact congrArg some (h.nonblank_child htail hj)
  have hle : first.start ≤ d.text.length := by
    have := htail.inside first List.mem_cons_self
    omega
  have hpick : pick (published d) 0 d.text = pick (published d) 0 (d.text.take first.start) ++
      pick (published d) first.start (d.text.drop first.start) := by
    conv_lhs => rw [← List.take_append_drop first.start d.text]
    rw [pick_append, List.length_take, Nat.min_eq_left hle, Nat.zero_add]
  rw [h.nonblank_parent htail, hchildren, nonblank_approvedText d, hpick, nonblank_append, htail.pick_drop,
    nonblank_flatten, List.map_map]
  rfl

/-- **Splitting a design moves every word and span intact.** Where the sections are found, run to the end of the text
and cut no span, the split is made: the prefix and the sections are the text; every span that is not empty is wholly
in the prefix or in one child, over the same characters; and the prefix and the children, in order, publish the
characters that the text did. -/
theorem splitTexts_exact (uid : Text) (level : Nat) (d : DesignText) {sections : List Section}
    {bounds : List (Nat × Nat)} {moving : List (List Moved)}
    (hranges : ∀ s ∈ d.spans, s.anchored → s.start ≤ s.stop ∧ s.stop ≤ utf16Count d.text)
    (hsections : sectionsOf d.text level uid = .ok sections)
    (hassign : assign d.text sections d.spans = .ok (bounds, moving))
    (hcontiguous : contiguous sections = true)
    (hend : sections.getLast?.map (·.stop) = some d.text.length) :
    ∃ parent children, splitTexts uid level d = .ok (parent, children) ∧
      parent.text ++ (sections.map (sectionText d.text)).flatten = d.text ∧
      (∀ s ∈ d.spans, s.anchored → s.start < s.stop → Carried d parent sections moving children s) ∧
      nonblank (approvedText parent) ++ (children.map fun c => nonblank (approvedText c)).flatten =
        nonblank (approvedText d) := by
  obtain ⟨hne, htail⟩ := tail_of_sectionsOf hsections hcontiguous hend
  obtain ⟨hassigned, rfl, hunits⟩ := assigned_of_assign hassign htail
  have hchildren : childrenOf d.text (sections.zip moving) = .ok ((sections.zip moving).map (childText d.text)) := by
    refine childrenOf_eq_ok fun p hp => ?_
    have hmem := (List.of_mem_zip hp).1
    have hin := htail.inside p.1 hmem
    exact ⟨hin.1.le, hin.2, hunits p.1 hmem⟩
  have hsplit : splitTexts uid level d =
      .ok (parentAfter d sections (sections.map (unitBounds d.text)) moving,
        (sections.zip moving).map (childText d.text)) := by
    have hno : ¬ (contiguous sections = false ∨ sections.getLast?.map (·.stop) ≠ some d.text.length) := by
      rintro (hc | he)
      · rw [hcontiguous] at hc
        cases hc
      · exact he hend
    refine Tx.bind_eq_ok.mpr ⟨sections, hsections, ?_⟩
    rw [if_neg hno]
    exact Tx.bind_eq_ok.mpr ⟨_, hassign, Tx.bind_eq_ok.mpr ⟨_, hchildren, rfl⟩⟩
  refine ⟨_, _, hsplit, ?_, ?_, ?_⟩
  all_goals
    obtain ⟨first, rest, rfl⟩ := List.exists_cons_of_ne_nil hne
    have htext : removeSections d.text (first :: rest) = d.text.take first.start := htail.removeSections_eq
  · show removeSections d.text (first :: rest) ++ _ = _
    rw [htext, ← htail.drop_eq, List.take_append_drop]
  · intro s hs hanch hspan
    by_cases hprefix : s.stop ≤ unitsBefore d.text first.start
    · have hstay : s ∉ moving.flatten.map (·.1) := hassigned.not_moved htail (by omega)
      refine Or.inl ⟨List.mem_map.mpr ⟨s, List.mem_filter.mpr ⟨hs, decide_eq_true hstay⟩,
        stay_eq htail hspan.le hprefix⟩, ?_, ?_⟩
      · show _ ≤ utf16Count (removeSections d.text (first :: rest))
        rwa [htext]
      · rintro j m hm rfl
        refine hstay (List.mem_map.mpr ⟨m, List.mem_flatten.mpr ⟨_, ?_, hm⟩, rfl⟩)
        rw [List.getD_eq_getElem?_getD] at hm ⊢
        cases hget : moving[j]? with
        | none =>
            rw [hget] at hm
            cases hm
        | some ms => exact List.mem_of_getElem? hget
    · obtain ⟨t, ht, hstart, hstop⟩ :=
        htail.exists_overlap hspan (Nat.lt_of_not_le hprefix) (hranges s hs hanch).2
      obtain ⟨j, hj⟩ := List.mem_iff_getElem?.mp ht
      obtain ⟨hfrom, hto⟩ := hassigned.uncut s hs hanch t ht hstart hstop
      exact hassigned.carried htail hs hanch hj ⟨hfrom, hto, hspan⟩
  · exact hassigned.nonblank_split htail

/-- A design of a prefix and two sections, with an approved span in each section and one that ends the prefix. -/
def twoSections : DesignText where
  text := "ab\n## B\nc\n\n## C\nd\n".toList
  spans :=
    [{ uid := "p".toList, anchored := true, start := 0, stop := 3, state := .approved },
      { uid := "q".toList, anchored := true, start := 8, stop := 9, state := .staged },
      { uid := "r".toList, anchored := true, start := 16, stop := 18, state := .approved }]

/-- A text of two sections is split, and nothing but blanks is lost. -/
theorem splitTexts_exact_twoSections :
    ∃ parent children, splitTexts "u".toList 2 twoSections = .ok (parent, children) ∧
      nonblank (approvedText parent) ++ (children.map fun c => nonblank (approvedText c)).flatten =
        nonblank (approvedText twoSections) := by
  obtain ⟨parent, children, hsplit, -, -, hwords⟩ := splitTexts_exact "u".toList 2 twoSections
    (List.forall_iff_forall_mem.mp (by decide))
    (rfl : sectionsOf _ _ _ = .ok [⟨3, 11, "B".toList⟩, ⟨11, 18, "C".toList⟩])
    (rfl : assign _ _ _ = .ok ([(3, 11), (11, 18)], [[(_, 5, 6)], [(_, 5, 7)]])) rfl rfl
  exact ⟨parent, children, hsplit, hwords⟩

end Jkb.Design
