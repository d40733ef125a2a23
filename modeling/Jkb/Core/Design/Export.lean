import Jkb.Ranges
import Jkb.Text
import Mathlib.Data.List.Sort

/-!
# Jkb.Core.Design.Export

What a design exports: the text of its approved spans, whole, in text order. Spans may overlap; their ranges are
sorted and written with a cursor, and where text is skipped between two of them the output gets a break.

An offset into a text counts characters here. The code's are in bytes, and always at a character's edge.
-/

namespace Jkb.Design

open Jkb.Text Jkb.Ranges

/-! ## UTF-16 offsets -/

/-- `char::len_utf16`. -/
def lenUtf16 (c : Char) : Nat := if c.toNat < 0x10000 then 1 else 2

/-- `encode_utf16().count()`. -/
def utf16Count (s : Text) : Nat := (s.map lenUtf16).sum

/-- How many UTF-16 code units come before an offset. -/
def unitsBefore (s : Text) (byte : Nat) : Nat := utf16Count (s.take byte)

/-- How many UTF-16 code units a text is, if a document can address them. -/
def utf16Len (s : Text) : Except Fmt Nat :=
  if utf16Count s ≤ 2 ^ 32 - 1 then .ok (utf16Count s)
  else .error ["the text is longer than a design document can address"]

/-- The UTF-16 offset of an offset. -/
def byteToUtf16 (s : Text) (byte : Nat) : Except Fmt Nat := utf16Len (s.take byte)

/-- The loop of `utf16ToByte`, where `seen` units came before. -/
def utf16ToByteFrom (unit : Nat) : Nat → Text → Nat
  | _, [] => 0
  | seen, c :: s => if unit ≤ seen then 0 else 1 + utf16ToByteFrom unit (seen + lenUtf16 c) s

/-- The offset of a UTF-16 offset, clamped to the end. One inside a surrogate pair rounds up. -/
def utf16ToByte (s : Text) (unit : Nat) : Nat := utf16ToByteFrom unit 0 s

/-- The units of two texts, one after the other. -/
theorem utf16Count_append (s t : Text) : utf16Count (s ++ t) = utf16Count s + utf16Count t := by
  rw [utf16Count, List.map_append, List.sum_append]
  rfl

/-- A place is before a unit if fewer units are before it. -/
theorem lt_utf16ToByteFrom {unit seen i : Nat} {s : Text} :
    i < utf16ToByteFrom unit seen s ↔ i < s.length ∧ seen + unitsBefore s i < unit := by
  induction s generalizing seen i with
  | nil => simp [utf16ToByteFrom]
  | cons c s ih =>
      rw [utf16ToByteFrom]
      by_cases hseen : unit ≤ seen
      · rw [if_pos hseen]
        omega
      · rw [if_neg hseen]
        cases i with
        | zero => simp [unitsBefore, utf16Count]; omega
        | succ i =>
            have htake : unitsBefore (c :: s) (i + 1) = lenUtf16 c + unitsBefore s i := by
              simp [unitsBefore, utf16Count]
            rw [htake, Nat.add_comm 1, Nat.succ_lt_succ_iff, ih, List.length_cons, Nat.succ_lt_succ_iff, Nat.add_assoc]

/-- **Where a UTF-16 offset is.** The characters before it are those that begin before that unit. -/
theorem lt_utf16ToByte {unit i : Nat} {s : Text} :
    i < utf16ToByte s unit ↔ i < s.length ∧ unitsBefore s i < unit := by
  rw [utf16ToByte, lt_utf16ToByteFrom, Nat.zero_add]

/-- A unit is found within the text. -/
theorem utf16ToByte_le_length (s : Text) (unit : Nat) : utf16ToByte s unit ≤ s.length := by
  by_contra hlt
  have := (lt_utf16ToByte.mp (Nat.lt_of_not_le hlt)).1
  omega

/-! ## approved text -/

/-- The state of a span. -/
inductive SpanState where
  /-- not, or no longer, the words someone approved -/
  | proposed
  | approved
  | staged
  | implemented
deriving Repr, DecidableEq

/-- A span with its derived state. -/
structure SpanView where
  uid : Text
  anchored : Bool
  /-- UTF-16 start in the current text -/
  start : Nat
  /-- UTF-16 end -/
  stop : Nat
  state : SpanState
deriving Repr, DecidableEq

/-- A design's text and spans at one version. -/
structure DesignText where
  text : Text
  spans : List SpanView
deriving Repr, DecidableEq

/-- `str::rfind` of a character. -/
def rfind (c : Char) (s : Text) : Option Nat :=
  if c ∈ s then some ((s.rdropWhile (· ≠ c)).length - 1) else none

/-- What a skipped `gap` leaves between two approved spans: a blank line, a line break or a space. -/
def separate (out gap : Text) : Text :=
  let content := (trimEnd out).length
  let joined := out.drop content ++ gap
  let lines := joined.splitOn '\n'
  let blank := 2 < lines.length ∧ (lines.drop 1).dropLast.any fun l => trim l = []
  -- indentation that the span took along belongs to the skipped line
  let out :=
    match rfind '\n' (out.drop content) with
    | some at_ => out.take (content + at_ + 1)
    | none => out
  if blank then trimEnd out ++ ['\n', '\n']
  else if out.getLast? ≠ some '\n' then out ++ [if '\n' ∈ gap then '\n' else ' ']
  else out

/-- Tuples in order. -/
def rangeLe (a b : Nat × Nat) : Bool := a.1 < b.1 || (a.1 = b.1 && a.2 ≤ b.2)

/-- The range of the text that a span publishes, if it publishes any. -/
def spanRange (text : Text) (s : SpanView) : Option (Nat × Nat) :=
  if s.anchored ∧ s.state ≠ .proposed ∧ s.stop > s.start then
    some (utf16ToByte text s.start, utf16ToByte text s.stop)
  else none

/-- Write a range from the cursor on. -/
def writeRange (text : Text) (st : Text × Nat) (range : Nat × Nat) : Text × Nat :=
  let start := max range.1 st.2
  if range.2 > start then
    let out := if st.1 ≠ [] ∧ start > st.2 then separate st.1 (slice text st.2 start) else st.1
    (out ++ slice text start range.2, range.2)
  else st

/-- The ranges that are published, sorted. -/
def publishedRanges (d : DesignText) : List (Nat × Nat) :=
  (d.spans.filterMap (spanRange d.text)).insertionSort fun a b => rangeLe a b

/-- The design's approved text. -/
def approvedText (d : DesignText) : Text := ((publishedRanges d).foldl (writeRange d.text) ([], 0)).1

/-! ## what is published -/

/-- A character of a text is published: it begins inside an anchored span that is not PROPOSED. -/
def published (d : DesignText) (i : Nat) : Bool :=
  d.spans.any fun s => s.anchored && s.state ≠ .proposed && s.start ≤ unitsBefore d.text i &&
    unitsBefore d.text i < s.stop

/-- The characters of a text that are not whitespace. -/
def nonblank (s : Text) : Text := s.filter fun c => !isWhitespace c

@[simp] theorem nonblank_append (s t : Text) : nonblank (s ++ t) = nonblank s ++ nonblank t := List.filter_append ..

/-- A text with nothing but blanks has nothing else. -/
theorem nonblank_eq_nil {s : Text} : nonblank s = [] ↔ ∀ c ∈ s, isWhitespace c = true := by
  simp [nonblank]

/-- The ranges that are written cover the characters that are published. -/
theorem covered_spanRange {d : DesignText} {i : Nat} (hi : i < d.text.length) :
    covered (d.spans.filterMap (spanRange d.text)) i = published d i := by
  rw [Bool.eq_iff_iff, covered_iff, published, List.any_eq_true]
  constructor
  · rintro ⟨r, hr, hle, hlt⟩
    obtain ⟨s, hs, hrange⟩ := List.mem_filterMap.mp hr
    unfold spanRange at hrange
    split at hrange
    case isFalse => cases hrange
    case isTrue hwritten =>
      obtain rfl := Option.some.inj hrange
      have hstop := (lt_utf16ToByte.mp hlt).2
      have hstart : s.start ≤ unitsBefore d.text i := by
        by_contra hno
        have := lt_utf16ToByte.mpr ⟨hi, Nat.lt_of_not_le hno⟩
        omega
      exact ⟨s, hs, by simp [hwritten.1, hwritten.2.1, hstart, hstop]⟩
  · rintro ⟨s, hs, hpub⟩
    simp only [Bool.and_eq_true, decide_eq_true_eq] at hpub
    obtain ⟨⟨⟨hanch, hstate⟩, hstart⟩, hstop⟩ := hpub
    refine ⟨_, List.mem_filterMap.mpr ⟨s, hs, if_pos ⟨hanch, hstate, by omega⟩⟩, ?_, lt_utf16ToByte.mpr ⟨hi, hstop⟩⟩
    by_contra hno
    have := (lt_utf16ToByte.mp (Nat.lt_of_not_le hno)).2
    omega

/-! ## the break between two spans -/

/-- A trimmed text is the beginning of the text. -/
theorem take_length_trimEnd (s : Text) : s.take (trimEnd s).length = trimEnd s :=
  (List.prefix_iff_eq_take.mp (List.rdropWhile_prefix isWhitespace s)).symm

/-- A text is what is left of it without the whitespace it ends in, and that whitespace. -/
theorem eq_trimEnd_append (s : Text) : s = trimEnd s ++ s.drop (trimEnd s).length := by
  conv_lhs => rw [← List.take_append_drop (trimEnd s).length s, take_length_trimEnd]

/-- What is trimmed is blank. -/
theorem isWhitespace_drop_trimEnd {s : Text} {c : Char} (hc : c ∈ s.drop (trimEnd s).length) :
    isWhitespace c = true := by
  have hsplit : trimEnd s ++ s.drop (trimEnd s).length = trimEnd s ++ s.rtakeWhile isWhitespace :=
    (eq_trimEnd_append s).symm.trans List.rdropWhile_append_rtakeWhile.symm
  rw [List.append_cancel_left hsplit] at hc
  exact List.mem_rtakeWhile_imp hc

/-- What ends in whitespace is trimmed before it. -/
theorem trimEnd_append_blank {s ws : Text} (h : ∀ c ∈ ws, isWhitespace c = true) : trimEnd (s ++ ws) = trimEnd s :=
  rdropWhile_append_of_pos h

/-- Trimming goes no further back than what is not whitespace. -/
theorem trimEnd_append {s t : Text} (h : trimEnd t ≠ []) : trimEnd (s ++ t) = s ++ trimEnd t := by
  have hdrop : (t.reverse.dropWhile isWhitespace).isEmpty = false := by
    simpa [trimEnd, List.rdropWhile] using h
  rw [trimEnd, trimEnd, List.rdropWhile, List.reverse_append, List.dropWhile_append, hdrop]
  simp [List.rdropWhile]

/-- Trimming takes blanks alone. -/
theorem nonblank_trimEnd (s : Text) : nonblank (trimEnd s) = nonblank s := by
  conv_rhs => rw [eq_trimEnd_append s]
  rw [nonblank_append, nonblank_eq_nil.mpr fun c hc => isWhitespace_drop_trimEnd hc, List.append_nil]

/-- **A break is only whitespace, and some.** -/
theorem separate_eq (out gap : Text) :
    ∃ ws, separate out gap = trimEnd out ++ ws ∧ ws ≠ [] ∧ ∀ c ∈ ws, isWhitespace c = true := by
  -- what is kept of the whitespace the output ends in
  obtain ⟨kept, hkept, hblank⟩ : ∃ kept, (match rfind '\n' (out.drop (trimEnd out).length) with
      | some at_ => out.take ((trimEnd out).length + at_ + 1)
      | none => out) = trimEnd out ++ kept ∧ ∀ c ∈ kept, isWhitespace c = true := by
    have htail : ∀ c ∈ out.drop (trimEnd out).length, isWhitespace c = true := fun c hc =>
      isWhitespace_drop_trimEnd hc
    split
    case h_1 i _ =>
      refine ⟨(out.drop (trimEnd out).length).take (i + 1), ?_, fun c hc => htail c (List.mem_of_mem_take hc)⟩
      rw [Nat.add_assoc, List.take_add, take_length_trimEnd]
    case h_2 => exact ⟨_, eq_trimEnd_append out, htail⟩
  rw [separate]
  simp only [hkept]
  split
  · refine ⟨['\n', '\n'], ?_, List.cons_ne_nil _ _, List.forall_iff_forall_mem.mp (by decide)⟩
    rw [trimEnd_append_blank hblank, trimEnd_trimEnd]
  · split
    case isTrue hlast =>
      refine ⟨kept ++ [if '\n' ∈ gap then '\n' else ' '], by rw [List.append_assoc], by simp, ?_⟩
      intro c hc
      rcases List.mem_append.mp hc with hc | hc
      · exact hblank c hc
      · rw [List.mem_singleton.mp hc]
        split <;> rfl
    case isFalse hlast =>
      refine ⟨kept, rfl, ?_, hblank⟩
      rintro rfl
      rw [List.append_nil, not_not] at hlast
      exact absurd (getLast_of_trimEnd (trimEnd_trimEnd out) hlast) (by decide)

/-! ## writing the ranges -/

/-- Whitespace stands in the output between what is not whitespace before and after. -/
def Parted (out before after : Text) : Prop :=
  ∃ x ws y, out = x ++ ws ++ y ∧ ws ≠ [] ∧ (∀ c ∈ ws, isWhitespace c = true) ∧ nonblank x = before ∧
    nonblank y = after

/-- What is added comes after. -/
theorem Parted.append {out before after : Text} (h : Parted out before after) (t : Text) :
    Parted (out ++ t) before (after ++ nonblank t) := by
  obtain ⟨x, ws, y, rfl, hne, hblank, rfl, rfl⟩ := h
  exact ⟨x, ws, y ++ t, by simp, hne, hblank, rfl, nonblank_append y t⟩

/-- A break after some output parts it from what comes next. -/
theorem parted_separate (out gap : Text) : Parted (separate out gap) (nonblank out) [] := by
  obtain ⟨ws, hsep, hne, hblank⟩ := separate_eq out gap
  exact ⟨trimEnd out, ws, [], by rw [hsep, List.append_nil], hne, hblank, nonblank_trimEnd out, rfl⟩

/-- A separator is blank. -/
theorem nonblank_separate (out gap : Text) : nonblank (separate out gap) = nonblank out := by
  obtain ⟨ws, hsep, -, hblank⟩ := separate_eq out gap
  rw [hsep, nonblank_append, nonblank_trimEnd, nonblank_eq_nil.mpr hblank, List.append_nil]

/-- A break keeps the breaks before it. -/
theorem Parted.separate {out before after : Text} (h : Parted out before after) (gap : Text) :
    Parted (separate out gap) before after := by
  obtain ⟨x, ws, y, rfl, hne, hblank, rfl, rfl⟩ := h
  obtain ⟨ws', hsep, hne', hblank'⟩ := separate_eq (x ++ ws ++ y) gap
  by_cases hy : nonblank y = []
  · -- what was trimmed may reach back over the whole break: the new one stands in its place
    have htrim : trimEnd (x ++ ws ++ y) = trimEnd x := by
      rw [trimEnd_append_blank (nonblank_eq_nil.mp hy), trimEnd_append_blank hblank]
    exact ⟨trimEnd x, ws', [], by rw [hsep, htrim, List.append_nil], hne', hblank', nonblank_trimEnd x, hy.symm⟩
  · have htrim : trimEnd (x ++ ws ++ y) = x ++ ws ++ trimEnd y := by
      refine trimEnd_append fun hnil => hy ?_
      rw [← nonblank_trimEnd, hnil]
      rfl
    refine ⟨x, ws, trimEnd y ++ ws', by rw [hsep, htrim, List.append_assoc], hne, hblank, rfl, ?_⟩
    rw [nonblank_append, nonblank_trimEnd, nonblank_eq_nil.mpr hblank', List.append_nil]

/-- A range that goes on past the cursor covers what was covered, and what of it comes from there on. -/
theorem covered_concat_eq {rs : List (Nat × Nat)} {r : Nat × Nat} {cursor : Nat} (h : Swept rs cursor)
    (hsort : ∀ q ∈ rs, q.1 ≤ r.1) (i : Nat) :
    covered (rs ++ [r]) i = (covered rs i || (max r.1 cursor ≤ i && i < r.2)) := by
  by_cases hi : i < cursor
  · have hle : ¬ max r.1 cursor ≤ i := by omega
    rw [h.covered_concat_of_lt hsort hi]
    simp [hle]
  · have hi : cursor ≤ i := Nat.le_of_not_lt hi
    rw [h.covered_concat_of_le hi, h.covered_eq_false hi]
    simp [hi]

/-- What is picked from a position on, with a range more. -/
theorem pick_covered_concat {rs : List (Nat × Nat)} {r : Nat × Nat} {cursor k : Nat} (text : Text)
    (h : Swept rs cursor) (hsort : ∀ q ∈ rs, q.1 ≤ r.1) (hk : k ≤ max r.1 cursor) :
    pick (fun i => covered (rs ++ [r]) i && k ≤ i) 0 text =
      pick (fun i => covered rs i && k ≤ i) 0 text ++ slice text (max r.1 cursor) r.2 := by
  rw [pick_split _ (max r.1 cursor), ← pick_slice]
  refine congrArg₂ _ (pick_congr fun i _ _ => ?_) (pick_congr fun i _ _ => ?_)
  · rw [covered_concat_eq h hsort]
    by_cases hi : i < max r.1 cursor
    · have hle : ¬ max r.1 cursor ≤ i := by omega
      simp [hi, hle]
    · have hfalse : covered rs i = false := h.covered_eq_false (by omega)
      simp [hi, hfalse]
  · rw [covered_concat_eq h hsort]
    by_cases hi : max r.1 cursor ≤ i
    · have hfalse : covered rs i = false := h.covered_eq_false (by omega)
      have hki : k ≤ i := hk.trans hi
      simp [hi, hfalse, hki]
    · simp [hi]

/-- **What the cursor has written**: the characters of the ranges gone over, and a break wherever one was
skipped. -/
structure Written (text : Text) (rs : List (Nat × Nat)) (st : Text × Nat) : Prop where
  swept : Swept rs st.2
  words : nonblank st.1 = nonblank (pick (covered rs) 0 text)
  parted : ∀ k < st.2, covered rs k = false → nonblank (pick (fun i => covered rs i && i < k) 0 text) ≠ [] →
    Parted st.1 (nonblank (pick (fun i => covered rs i && i < k) 0 text))
      (nonblank (pick (fun i => covered rs i && k ≤ i) 0 text))

/-- A range that covers nothing new is not written. -/
theorem Written.skip {text : Text} {rs : List (Nat × Nat)} {st : Text × Nat} {r : Nat × Nat}
    (h : Written text rs st) (hsort : ∀ q ∈ rs, q.1 ≤ r.1) (hr : r.2 ≤ max r.1 st.2) :
    Written text (rs ++ [r]) st := by
  have hsame : covered (rs ++ [r]) = covered rs := by
    funext i
    have hno : (max r.1 st.2 ≤ i && i < r.2 : Bool) = false := by
      by_cases hi : i < r.2
      · have hle : ¬ max r.1 st.2 ≤ i := by omega
        simp [hle]
      · simp [hi]
    rw [covered_concat_eq h.swept hsort, hno, Bool.or_false]
  exact ⟨h.swept.concat_of_le hr, by rw [hsame]; exact h.words, by rw [hsame]; exact h.parted⟩

/-- A range is written from the cursor on. -/
theorem Written.write {text : Text} {rs : List (Nat × Nat)} {st : Text × Nat} {r : Nat × Nat}
    (h : Written text rs st) (hsort : ∀ q ∈ rs, q.1 ≤ r.1) (hr : max r.1 st.2 < r.2) :
    Written text (rs ++ [r])
      ((if st.1 ≠ [] ∧ max r.1 st.2 > st.2 then separate st.1 (slice text st.2 (max r.1 st.2)) else st.1) ++
        slice text (max r.1 st.2) r.2, r.2) := by
  have hwords : ∀ gap, nonblank (if st.1 ≠ [] ∧ max r.1 st.2 > st.2 then separate st.1 gap else st.1) =
      nonblank st.1 := by
    intro gap
    split
    · exact nonblank_separate st.1 gap
    · rfl
  refine ⟨h.swept.concat_of_lt hr, ?_, ?_⟩
  · have hall := pick_covered_concat text h.swept hsort (Nat.zero_le (max r.1 st.2))
    simp only [Nat.zero_le, decide_true, Bool.and_true] at hall
    rw [nonblank_append, hwords, h.words, hall, nonblank_append]
  · intro k _ hfree hbefore
    have hk : k < max r.1 st.2 := by
      by_contra hge
      rw [covered_concat_eq h.swept hsort, Bool.or_eq_false_iff] at hfree
      have hkr : k < r.2 := by assumption
      simp [Nat.le_of_not_lt hge, hkr] at hfree
    have hsame : pick (fun i => covered (rs ++ [r]) i && i < k) 0 text =
        pick (fun i => covered rs i && i < k) 0 text := by
      refine pick_congr fun i _ _ => ?_
      by_cases hi : i < k
      · have hle : ¬ max r.1 st.2 ≤ i := by omega
        rw [covered_concat_eq h.swept hsort]
        simp [hle]
      · simp [hi]
    rw [hsame] at hbefore ⊢
    rw [pick_covered_concat text h.swept hsort hk.le, nonblank_append]
    refine Parted.append ?_ _
    by_cases hcursor : k < st.2
    · have hfree' : covered rs k = false := by rwa [h.swept.covered_concat_of_lt hsort hcursor] at hfree
      have hold := h.parted k hcursor hfree' hbefore
      split
      · exact hold.separate _
      · exact hold
    · -- the skipped character comes after the cursor, so the break is the new one
      have hcursor : st.2 ≤ k := Nat.le_of_not_lt hcursor
      have hout : pick (fun i => covered rs i && i < k) 0 text = pick (covered rs) 0 text := by
        refine pick_congr fun i _ _ => ?_
        by_cases hi : i < k
        · simp [hi]
        · have hfalse : covered rs i = false := h.swept.covered_eq_false (by omega)
          simp [hfalse]
      have hafter : pick (fun i => covered rs i && k ≤ i) 0 text = [] := by
        refine pick_eq_nil fun i _ _ => ?_
        by_cases hi : k ≤ i
        · have hfalse : covered rs i = false := h.swept.covered_eq_false (by omega)
          simp [hfalse]
        · simp [hi]
      rw [hout, ← h.words] at hbefore ⊢
      have hne : st.1 ≠ [] := fun hnil => hbefore (by rw [hnil]; rfl)
      rw [hafter, if_pos ⟨hne, by omega⟩]
      exact parted_separate st.1 _

/-- The cursor goes over sorted ranges. -/
theorem written_foldl {text : Text} {rest rs : List (Nat × Nat)} {st : Text × Nat} (h : Written text rs st)
    (hsort : (rs ++ rest).Pairwise fun a b => a.1 ≤ b.1) :
    Written text (rs ++ rest) (rest.foldl (writeRange text) st) := by
  induction rest generalizing rs st with
  | nil => rwa [List.append_nil]
  | cons r rest ih =>
      have hbefore : ∀ q ∈ rs, q.1 ≤ r.1 := fun q hq =>
        (List.pairwise_append.mp hsort).2.2 q hq r List.mem_cons_self
      have hstep : Written text (rs ++ [r]) (writeRange text st r) := by
        rw [writeRange]
        split
        case isTrue hr => exact h.write hbefore hr
        case isFalse hr => exact h.skip hbefore (Nat.le_of_not_lt hr)
      rw [← List.singleton_append, ← List.append_assoc] at hsort ⊢
      exact ih hstep hsort

/-! ## what the export says -/

instance : Std.Total (fun a b : Nat × Nat => rangeLe a b = true) := by
  refine ⟨fun a b => ?_⟩
  simp only [rangeLe, Bool.or_eq_true, Bool.and_eq_true, decide_eq_true_eq]
  omega

instance : IsTrans (Nat × Nat) (fun a b => rangeLe a b = true) := by
  refine ⟨fun a b c => ?_⟩
  simp only [rangeLe, Bool.or_eq_true, Bool.and_eq_true, decide_eq_true_eq]
  omega

/-- The ranges that are published are in order. -/
theorem pairwise_publishedRanges (d : DesignText) : (publishedRanges d).Pairwise fun a b => a.1 ≤ b.1 := by
  refine (List.pairwise_insertionSort (fun a b => rangeLe a b = true) _).imp fun {a b} hab => ?_
  simp only [rangeLe, Bool.or_eq_true, Bool.and_eq_true, decide_eq_true_eq] at hab
  omega

/-- They cover what is published. -/
theorem covered_publishedRanges {d : DesignText} {i : Nat} (hi : i < d.text.length) :
    covered (publishedRanges d) i = published d i := by
  rw [publishedRanges, covered_perm (List.perm_insertionSort _ _), covered_spanRange hi]

/-- The approved text is what the cursor writes of the published ranges. -/
theorem written_approvedText (d : DesignText) :
    ∃ cursor, Written d.text (publishedRanges d) (approvedText d, cursor) := by
  have hnone : Written d.text [] ([], 0) := by
    refine ⟨swept_nil, ?_, fun k hk => absurd hk (Nat.not_lt_zero k)⟩
    rw [pick_eq_nil]
    exact fun _ _ _ => rfl
  exact ⟨_, written_foldl hnone (pairwise_publishedRanges d)⟩

/-- What is not whitespace in an export. -/
theorem nonblank_approvedText (d : DesignText) :
    nonblank (approvedText d) = nonblank (pick (published d) 0 d.text) := by
  obtain ⟨cursor, hwritten⟩ := written_approvedText d
  rw [hwritten.words]
  exact congrArg nonblank (pick_congr fun i _ hi => covered_publishedRanges (by omega))

/-- **An export publishes exactly the approved words.** What is not whitespace in it is what is not whitespace of the
published characters, each once and in text order; and where a character is skipped between published ones, whitespace
stands in the output between those before it and those after. -/
theorem approvedText_exact (d : DesignText) :
    nonblank (approvedText d) = nonblank (pick (published d) 0 d.text) ∧
      ∀ k < d.text.length, published d k = false →
        nonblank (pick (fun i => published d i && i < k) 0 d.text) ≠ [] →
        nonblank (pick (fun i => published d i && k < i) 0 d.text) ≠ [] →
        Parted (approvedText d) (nonblank (pick (fun i => published d i && i < k) 0 d.text))
          (nonblank (pick (fun i => published d i && k < i) 0 d.text)) := by
  refine ⟨nonblank_approvedText d, ?_⟩
  obtain ⟨cursor, hwritten⟩ := written_approvedText d
  have hsame : ∀ q : Nat → Bool, pick (fun i => covered (publishedRanges d) i && q i) 0 d.text =
      pick (fun i => published d i && q i) 0 d.text := by
    intro q
    refine pick_congr fun i _ hi => ?_
    rw [covered_publishedRanges (by omega)]
  intro k hk hfree hbefore hafter
  have hfrom : pick (fun i => covered (publishedRanges d) i && k ≤ i) 0 d.text =
      pick (fun i => published d i && k < i) 0 d.text := by
    rw [hsame]
    refine pick_congr fun i _ _ => ?_
    by_cases hik : i = k
    · simp [hik, hfree]
    · have hle : k ≤ i ↔ k < i := by omega
      simp [hle]
  rw [← covered_publishedRanges hk] at hfree
  rw [← hsame, ← hfrom]
  rw [← hsame] at hbefore
  rw [← hfrom] at hafter
  refine hwritten.parted k ?_ hfree hbefore
  by_contra hge
  refine hafter ?_
  rw [pick_eq_nil fun i _ _ => ?_]
  · rfl
  · by_cases hi : k ≤ i
    · rw [hwritten.swept.covered_eq_false (by omega)]
      rfl
    · simp [hi]

end Jkb.Design
