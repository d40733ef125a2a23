import Jkb.Prim
import Mathlib.Data.List.Basic
import Mathlib.Data.List.DropRight
import Mathlib.Data.Nat.Digits.Defs
import Mathlib.Data.Nat.Digits.Lemmas

/-!
# Jkb.Text

Texts as lists of characters, with the operations of the language's strings that a line-based format
uses: trimming, splitting at lines and at whitespace, prefixes, and decimal numbers.

Whitespace is the `White_Space` property of Unicode, which is what the standard library's `char`
reads.
-/

namespace Jkb

/-- A text: its Unicode scalar values in order. -/
abbrev Text := List Char

namespace Text

instance : LawfulBEq Text := List.instLawfulBEq

theorem isAlpha_eq (c : Char) : c.isAlpha = (c.isUpper || c.isLower) := rfl

theorem isUpper_eq (c : Char) : c.isUpper = decide (c.val ≥ 'A'.val ∧ c.val ≤ 'Z'.val) := rfl

theorem isLower_eq (c : Char) : c.isLower = (decide (c.val ≥ 'a'.val) && decide (c.val ≤ 'z'.val)) := rfl

/-! ## whitespace -/

/-- `char::is_whitespace`. -/
def isWhitespace (c : Char) : Bool :=
  let n := c.toNat
  (9 ≤ n && n ≤ 13) || n == 0x20 || n == 0x85 || n == 0xa0 || n == 0x1680 ||
    (0x2000 ≤ n && n ≤ 0x200a) || n == 0x2028 || n == 0x2029 || n == 0x202f || n == 0x205f ||
    n == 0x3000

/-- `str::trim_start`. -/
def trimStart (t : Text) : Text := t.dropWhile isWhitespace

/-- `str::trim_end`. -/
def trimEnd (t : Text) : Text := t.rdropWhile isWhitespace

/-- `str::trim`. -/
def trim (t : Text) : Text := trimEnd (trimStart t)

/-- A text that neither begins nor ends with whitespace is trimmed. -/
theorem trimEnd_eq_self {t : Text} (h : ∀ c, t.getLast? = some c → isWhitespace c = false) :
    trimEnd t = t := by
  rw [trimEnd, List.rdropWhile_eq_self_iff]
  intro hne
  rw [h _ (List.getLast?_eq_some_getLast hne)]
  exact Bool.false_ne_true

/-- A trimmed text does not end in whitespace. -/
theorem getLast_of_trimEnd {t : Text} {c : Char} (h : trimEnd t = t) (hc : t.getLast? = some c) :
    isWhitespace c = false := by
  rw [trimEnd, List.rdropWhile_eq_self_iff] at h
  have hne : t ≠ [] := by
    rintro rfl
    cases hc
  have hlast := h hne
  rw [List.getLast?_eq_some_getLast hne, Option.some.injEq] at hc
  rw [← hc]
  simpa using hlast

/-- Leading whitespace goes, whatever follows it. -/
theorem trimStart_append {s t : Text} (h : ∀ c ∈ s, isWhitespace c = true) :
    trimStart (s ++ t) = trimStart t := by
  induction s with
  | nil => rfl
  | cons c s ih =>
      rw [List.cons_append, trimStart, List.dropWhile_cons_of_pos (h c List.mem_cons_self)]
      exact ih fun d hd => h d (List.mem_cons_of_mem _ hd)

/-- What is trimmed is trimmed. -/
theorem trimStart_trimStart (t : Text) : trimStart (trimStart t) = trimStart t := by
  simp [trimStart, List.dropWhile_idempotent]

theorem trimEnd_trimEnd (t : Text) : trimEnd (trimEnd t) = trimEnd t := List.rdropWhile_idempotent _ _

/-- A trimmed text is no longer. -/
theorem length_trimEnd_le (t : Text) : (trimEnd t).length ≤ t.length :=
  (List.rdropWhile_prefix isWhitespace t).length_le

/-- A text is its leading whitespace and what is left of it without. -/
theorem takeWhile_append_trimStart (t : Text) : t.takeWhile isWhitespace ++ trimStart t = t :=
  List.takeWhile_append_dropWhile

/-- The first character of a text without leading whitespace is none. -/
theorem isWhitespace_head_trimStart {t : Text} {c : Char} (h : (trimStart t).head? = some c) :
    isWhitespace c = false := by
  have hnot := List.head?_dropWhile_not isWhitespace t
  rw [trimStart] at h
  simpa [h] using hnot

/-- Text that does not begin with whitespace is not blank. -/
theorem trimEnd_ne_nil {t : Text} (h : trimStart t = t) (hne : t ≠ []) : trimEnd t ≠ [] := by
  cases t with
  | nil => exact absurd rfl hne
  | cons c t =>
      have hc : isWhitespace c = false := isWhitespace_head_trimStart (by rw [h]; rfl)
      rw [trimEnd, ne_eq, List.rdropWhile_eq_nil_iff]
      intro hall
      exact absurd (hall c List.mem_cons_self) (by simp [hc])

/-- What is dropped from the end can be dropped in two parts. -/
theorem rdropWhile_append_of_pos {α : Type*} {p : α → Bool} {xs ys : List α}
    (h : ∀ y ∈ ys, p y = true) : (xs ++ ys).rdropWhile p = xs.rdropWhile p := by
  have hrev : ∀ y ∈ ys.reverse, p y = true := fun y hy => h y (List.mem_reverse.mp hy)
  simp [List.rdropWhile, List.dropWhile_append_of_pos hrev]

/-- What is taken from the end can be taken in two parts. -/
theorem rtakeWhile_append_of_pos {α : Type*} {p : α → Bool} {xs ys : List α}
    (h : ∀ y ∈ ys, p y = true) : (xs ++ ys).rtakeWhile p = xs.rtakeWhile p ++ ys := by
  have hrev : ∀ y ∈ ys.reverse, p y = true := fun y hy => h y (List.mem_reverse.mp hy)
  simp [List.rtakeWhile, List.takeWhile_append_of_pos hrev]

/-! ## lines -/

/-- Two runs of lines side by side. -/
theorem intercalate_append {α : Type*} {sep : List α} {xs ys : List (List α)} (hxs : xs ≠ [])
    (hys : ys ≠ []) :
    sep.intercalate (xs ++ ys) = sep.intercalate xs ++ sep ++ sep.intercalate ys := by
  induction xs with
  | nil => exact absurd rfl hxs
  | cons x xs ih =>
      by_cases hnil : xs = []
      · subst hnil
        rw [List.singleton_append, List.intercalate_cons_of_ne_nil hys, List.intercalate_singleton]
      · rw [List.cons_append, List.intercalate_cons_of_ne_nil (by simp [hnil]), ih hnil,
          List.intercalate_cons_of_ne_nil hnil]
        simp only [List.append_assoc]

/-- Runs of lines joined, and then joined, are their lines joined. -/
theorem intercalate_flatten {α : Type*} {sep : List α} {runs : List (List (List α))}
    (h : ∀ run ∈ runs, run ≠ []) :
    sep.intercalate (runs.map sep.intercalate) = sep.intercalate runs.flatten := by
  induction runs with
  | nil => rfl
  | cons run runs ih =>
      have hrest := ih fun r hr => h r (List.mem_cons_of_mem _ hr)
      by_cases hnil : runs = []
      · subst hnil
        simp
      · have hflat : runs.flatten ≠ [] := by
          obtain ⟨r, hr⟩ := List.exists_mem_of_ne_nil _ hnil
          obtain ⟨l, hl⟩ := List.exists_mem_of_ne_nil _ (h r (List.mem_cons_of_mem _ hr))
          exact List.ne_nil_of_mem (List.mem_flatten.mpr ⟨r, hr, hl⟩)
        rw [List.map_cons, List.intercalate_cons_of_ne_nil (by simpa using hnil), hrest,
          List.flatten_cons, intercalate_append (h run List.mem_cons_self) hflat]

/-- The pieces of a text hold nothing that it is split at. -/
theorem of_mem_splitOnP {α : Type*} {p : α → Bool} {xs piece : List α} (h : piece ∈ xs.splitOnP p) :
    ∀ c ∈ piece, p c = false := by
  induction xs generalizing piece with
  | nil =>
      rw [List.splitOnP_nil, List.mem_singleton] at h
      simp [h]
  | cons x xs ih =>
      rw [List.splitOnP_cons_eq_if_modifyHead] at h
      split at h
      · rcases List.mem_cons.mp h with rfl | h
        · simp
        · exact ih h
      · rename_i hx
        cases hpieces : xs.splitOnP p with
        | nil => exact absurd hpieces (List.splitOnP_ne_nil p xs)
        | cons q qs =>
            rw [hpieces, List.modifyHead_cons, List.mem_cons] at h
            rcases h with rfl | h
            · have hq := ih (hpieces ▸ List.mem_cons_self)
              grind
            · exact ih (hpieces ▸ List.mem_cons_of_mem _ h)

/-- The pieces of a text hold no separator. -/
theorem notMem_of_mem_splitOn {α : Type*} [DecidableEq α] {sep : α} {xs piece : List α}
    (h : piece ∈ xs.splitOn sep) : sep ∉ piece := fun hsep => by
  have hne := of_mem_splitOnP h sep hsep
  simp at hne

/-! ## prefixes -/

/-- `str::strip_prefix`. -/
def stripPrefix (pfx t : Text) : Option Text := if pfx <+: t then some (t.drop pfx.length) else none

/-- `str::strip_suffix`. -/
def stripSuffix (sfx t : Text) : Option Text :=
  if sfx <:+ t then some (t.take (t.length - sfx.length)) else none

@[simp] theorem stripPrefix_append (pfx t : Text) : stripPrefix pfx (pfx ++ t) = some t := by
  simp [stripPrefix]

/-- A text without its prefix is what comes after it. -/
theorem stripPrefix_eq_some {pfx t s : Text} : stripPrefix pfx t = some s ↔ t = pfx ++ s := by
  constructor
  · intro h
    unfold stripPrefix at h
    split at h
    case isTrue hp =>
      obtain ⟨r, rfl⟩ := hp
      simpa using h
    case isFalse => cases h
  · rintro rfl
    exact stripPrefix_append pfx s

/-! ## splitting -/

/-- `str::split_once` at a character. -/
def splitOnce (sep : Char) (t : Text) : Option (Text × Text) :=
  if sep ∈ t then some (t.takeWhile (· ≠ sep), (t.dropWhile (· ≠ sep)).drop 1) else none

/-- `str::rsplit_once` at a kind of character. -/
def rsplitOnce (sep : Char → Bool) (t : Text) : Option (Text × Text) :=
  if t.any sep then
    some ((t.rdropWhile fun c => !sep c).dropLast, t.rtakeWhile fun c => !sep c)
  else none

/-- `str::rsplit_once` at a text. -/
def rsplitOnceText (sep : Text) : Text → Option (Text × Text)
  | [] => if sep = [] then some ([], []) else none
  | c :: t =>
      match rsplitOnceText sep t with
      | some (before, after) => some (c :: before, after)
      | none => (stripPrefix sep (c :: t)).map fun after => ([], after)

/-- A text is split at its first separator. -/
theorem splitOnce_append {sep : Char} {s t : Text} (h : sep ∉ s) :
    splitOnce sep (s ++ sep :: t) = some (s, t) := by
  have htake : (s ++ sep :: t).takeWhile (· ≠ sep) = s := by
    rw [List.takeWhile_append_of_pos (fun c hc => by simpa using fun e : c = sep => h (e ▸ hc))]
    simp
  have hdrop : (s ++ sep :: t).dropWhile (· ≠ sep) = sep :: t := by
    rw [List.dropWhile_append_of_pos (fun c hc => by simpa using fun e : c = sep => h (e ▸ hc))]
    simp
  simp only [splitOnce, htake, hdrop]
  simp

/-- The two parts are what is before and after a separator. -/
theorem eq_of_splitOnce {sep : Char} {t s rest : Text} (h : splitOnce sep t = some (s, rest)) :
    t = s ++ sep :: rest := by
  by_cases hmem : sep ∈ t
  · obtain ⟨a, b, rfl, hnot⟩ := List.eq_append_cons_of_mem hmem
    rw [splitOnce_append hnot] at h
    obtain ⟨rfl, rfl⟩ := Prod.mk.inj (Option.some.inj h)
    rfl
  · rw [splitOnce, if_neg hmem] at h
    cases h

/-- A text without the separator is not split. -/
theorem splitOnce_eq_none {sep : Char} {t : Text} (h : sep ∉ t) : splitOnce sep t = none := by
  simp [splitOnce, h]

/-- A text is split at its last separator. -/
theorem rsplitOnce_append {sep : Char → Bool} {s w : Text} {c : Char} (hc : sep c = true)
    (hw : ∀ d ∈ w, sep d = false) : rsplitOnce sep (s ++ c :: w) = some (s, w) := by
  have hrev : ∀ d ∈ w.reverse, (!sep d) = true := by
    intro d hd
    simp [hw d (List.mem_reverse.mp hd)]
  have htake : (s ++ c :: w).rtakeWhile (fun c => !sep c) = w := by
    simp [List.rtakeWhile, List.takeWhile_append_of_pos hrev, hc]
  have hdrop : (s ++ c :: w).rdropWhile (fun c => !sep c) = s ++ [c] := by
    simp [List.rdropWhile, List.dropWhile_append_of_pos hrev, hc]
  simp [rsplitOnce, htake, hdrop, hc]

/-- A text without a separator is not split. -/
theorem rsplitOnce_eq_none {sep : Char → Bool} {w : Text} (hw : ∀ d ∈ w, sep d = false) :
    rsplitOnce sep w = none := by
  simp only [rsplitOnce, ite_eq_right_iff, List.any_eq_true]
  rintro ⟨d, hd, hs⟩
  rw [hw d hd] at hs
  cases hs

/-- A text with a separator has a last one. -/
theorem exists_last_separator {sep : Char → Bool} {t : Text} (h : t.any sep = true) :
    ∃ s c w, sep c = true ∧ t = s ++ c :: w ∧ ∀ d ∈ w, sep d = false := by
  induction t with
  | nil => cases h
  | cons a t ih =>
      by_cases ht : t.any sep = true
      · obtain ⟨s, c, w, hc, rfl, hw⟩ := ih ht
        exact ⟨a :: s, c, w, hc, rfl, hw⟩
      · have ha : sep a = true := by simpa [ht] using h
        exact ⟨[], a, t, ha, rfl, by simpa using ht⟩

/-- What `rsplit_once` finds: a last separator, and a word after it with none. -/
theorem rsplitOnce_eq_some {sep : Char → Bool} {t s w : Text} (h : rsplitOnce sep t = some (s, w)) :
    ∃ c, sep c = true ∧ t = s ++ c :: w ∧ ∀ d ∈ w, sep d = false := by
  have hany : t.any sep = true := by
    unfold rsplitOnce at h
    split at h
    · assumption
    · cases h
  obtain ⟨s', c, w', hc, rfl, hw⟩ := exists_last_separator hany
  rw [rsplitOnce_append hc hw] at h
  cases h
  exact ⟨c, hc, rfl, hw⟩

/-! ## decimal numbers -/

/-- A natural number in decimal. -/
def showNat (n : Nat) : Text :=
  if n = 0 then ['0'] else (Nat.digits 10 n).reverse.map Nat.digitChar

/-- An integer in decimal. -/
def showInt : Int → Text
  | .ofNat n => showNat n
  | .negSucc n => '-' :: showNat (n + 1)

/-- The value of an ASCII digit. -/
def digitValue (c : Char) : Option Nat :=
  if '0' ≤ c ∧ c ≤ '9' then some (c.toNat - '0'.toNat) else none

/-- One or more ASCII digits. -/
def parseDigits (t : Text) : Option Nat :=
  if t = [] then none else (t.mapM digitValue).map fun ds => ds.foldl (fun n d => n * 10 + d) 0

/-- `str::parse::<i64>`. -/
def parseI64 (t : Text) : Option Int :=
  let value : Option Int :=
    match t with
    | '+' :: ds => (parseDigits ds).map Int.ofNat
    | '-' :: ds => (parseDigits ds).map fun n => -Int.ofNat n
    | ds => (parseDigits ds).map Int.ofNat
  value.filter fun n => i64Min ≤ n && n ≤ i64Max

/-- A digit is read as it is written. -/
theorem digitValue_digitChar {d : Nat} (h : d < 10) : digitValue (Nat.digitChar d) = some d := by
  have hd : ∀ d : Fin 10, digitValue (Nat.digitChar d) = some d.val := by decide
  exact hd ⟨d, h⟩

/-- A digit is written as a digit. -/
theorem digitChar_isDigit {d : Nat} (h : d < 10) :
    Nat.digitChar d ∈ ['0', '1', '2', '3', '4', '5', '6', '7', '8', '9'] := by
  have hd : ∀ d : Fin 10,
      Nat.digitChar d ∈ ['0', '1', '2', '3', '4', '5', '6', '7', '8', '9'] := by decide
  exact hd ⟨d, h⟩

/-- Digits are read as they are written. -/
theorem mapM_digitValue {ds : List Nat} (h : ∀ d ∈ ds, d < 10) :
    (ds.map Nat.digitChar).mapM digitValue = some ds := by
  induction ds with
  | nil => rfl
  | cons d ds ih =>
      have hd := digitValue_digitChar (h d List.mem_cons_self)
      have hds := ih fun e he => h e (List.mem_cons_of_mem _ he)
      simp [List.mapM_cons, hd, hds]

/-- A number reads back from its decimal form. -/
theorem parseDigits_showNat (n : Nat) : parseDigits (showNat n) = some n := by
  by_cases hn : n = 0
  · subst hn
    decide
  · have hlt : ∀ d ∈ (Nat.digits 10 n).reverse, d < 10 := fun d hd =>
      Nat.digits_lt_base (by decide) (List.mem_reverse.mp hd)
    have hfold : (Nat.digits 10 n).reverse.foldl (fun n d => n * 10 + d) 0 = n := by
      rw [List.foldl_reverse]
      conv_rhs => rw [← Nat.ofDigits_digits 10 n, Nat.ofDigits_eq_foldr]
      congr 1
      funext a b
      simp [Nat.mul_comm, Nat.add_comm]
    have hne : (Nat.digits 10 n).reverse.map Nat.digitChar ≠ [] := by
      simp [Nat.digits_ne_nil_iff_ne_zero.mpr hn]
    rw [showNat, if_neg hn, parseDigits, if_neg hne, mapM_digitValue hlt, Option.map_some, hfold]

/-- The first character of a decimal number is a digit. -/
theorem showNat_chars (n : Nat) :
    ∀ c ∈ showNat n, c ∈ ['0', '1', '2', '3', '4', '5', '6', '7', '8', '9'] := by
  intro c hc
  unfold showNat at hc
  split at hc
  · rw [List.mem_singleton.mp hc]
    decide
  · obtain ⟨d, hd, rfl⟩ := List.mem_map.mp hc
    exact digitChar_isDigit (Nat.digits_lt_base (by decide) (List.mem_reverse.mp hd))

/-- A number is written in digits, after a sign. -/
theorem showInt_chars (n : Int) :
    ∀ c ∈ showInt n, c ∈ ['-', '0', '1', '2', '3', '4', '5', '6', '7', '8', '9'] := by
  intro c hc
  cases n with
  | ofNat n => exact List.mem_cons_of_mem _ (showNat_chars n c hc)
  | negSucc n =>
      rw [showInt, List.mem_cons] at hc
      rcases hc with rfl | hc
      · exact List.mem_cons_self
      · exact List.mem_cons_of_mem _ (showNat_chars _ c hc)

/-- No two numbers are written alike. -/
theorem showNat_injective : Function.Injective showNat := by
  intro a b h
  have hread := congrArg parseDigits h
  rw [parseDigits_showNat, parseDigits_showNat] at hread
  exact Option.some.inj hread

/-- A natural number is written without a sign. -/
theorem showNat_ne_minus {m : Nat} {t : Text} : showNat m ≠ '-' :: t := by
  intro h
  have hmem : '-' ∈ showNat m := by simp [h]
  have := showNat_chars m '-' hmem
  simp at this

/-- No two integers are written alike. -/
theorem showInt_injective : Function.Injective showInt := by
  intro a b h
  cases a with
  | ofNat m =>
      cases b with
      | ofNat n => rw [showNat_injective h]
      | negSucc n => exact absurd h showNat_ne_minus
  | negSucc m =>
      cases b with
      | ofNat n => exact absurd h.symm showNat_ne_minus
      | negSucc n =>
          have hsucc : m + 1 = n + 1 := showNat_injective (List.cons.inj h).2
          rw [Nat.succ.inj hsucc]

/-- **A number of the machine's range reads back from its decimal form.** -/
theorem parseI64_showInt {n : Int} (hlo : i64Min ≤ n) (hhi : n ≤ i64Max) :
    parseI64 (showInt n) = some n := by
  cases n with
  | ofNat n =>
      have hparse := parseDigits_showNat n
      have hchars := showNat_chars n
      cases hshow : showNat n with
      | nil => rw [hshow] at hparse; cases hparse
      | cons c cs =>
          rw [hshow] at hparse hchars
          have hc := hchars c List.mem_cons_self
          have hplus : c ≠ '+' := by rintro rfl; exact absurd hc (by decide)
          have hminus : c ≠ '-' := by rintro rfl; exact absurd hc (by decide)
          have hlo' : i64Min ≤ (n : Int) := hlo
          have hhi' : (n : Int) ≤ i64Max := hhi
          simp [parseI64, showInt, hshow, hparse, hplus, hminus, hlo', hhi']
  | negSucc n =>
      have hparse := parseDigits_showNat (n + 1)
      have hlo' : i64Min ≤ -((n : Int) + 1) := by simpa [Int.negSucc_eq] using hlo
      have hhi' : -((n : Int) + 1) ≤ i64Max := by simpa [Int.negSucc_eq] using hhi
      have hrange : (decide (i64Min ≤ -((n : Int) + 1)) && decide (-((n : Int) + 1) ≤ i64Max)) = true := by
        rw [decide_eq_true hlo', decide_eq_true hhi']
        rfl
      have hvalue : -Int.ofNat (n + 1) = -((n : Int) + 1) := rfl
      simp only [parseI64, showInt, hparse, Option.map_some, hvalue, Option.filter_some, hrange,
        if_true, Int.negSucc_eq]

/-! ## the length of a number -/

/-- A digit that is read is less than ten. -/
theorem digitValue_lt {c : Char} {d : Nat} (h : digitValue c = some d) : d < 10 := by
  unfold digitValue at h
  split at h
  · rename_i hc
    obtain rfl := Option.some.inj h
    have hhi : c.toNat ≤ '9'.toNat := hc.2
    have hlo : '0'.toNat ≤ c.toNat := hc.1
    have h9 : '9'.toNat = 57 := rfl
    have h0 : '0'.toNat = 48 := rfl
    omega
  · cases h

/-- Every character that is read as a digit is one. -/
theorem mapM_digitValue_eq_some {t : Text} {ds : List Nat} (h : t.mapM digitValue = some ds) :
    ds.length = t.length ∧ ∀ d ∈ ds, d < 10 := by
  induction t generalizing ds with
  | nil =>
      obtain rfl : [] = ds := by simpa using h
      simp
  | cons c t ih =>
      rw [List.mapM_cons] at h
      cases hc : digitValue c with
      | none => simp [hc] at h
      | some d =>
          cases ht : t.mapM digitValue with
          | none => simp [hc, ht] at h
          | some ds' =>
              obtain rfl : d :: ds' = ds := by simpa [hc, ht] using h
              obtain ⟨hlen, hlt⟩ := ih ht
              refine ⟨by rw [List.length_cons, List.length_cons, hlen], fun e he => ?_⟩
              rcases List.mem_cons.mp he with rfl | he
              · exact digitValue_lt hc
              · exact hlt e he

/-- Digits make a number of no more digits. -/
theorem foldl_digits_lt {ds : List Nat} (h : ∀ d ∈ ds, d < 10) (n : Nat) :
    ds.foldl (fun n d => n * 10 + d) n < (n + 1) * 10 ^ ds.length := by
  induction ds generalizing n with
  | nil => simp
  | cons d ds ih =>
      have hd := h d List.mem_cons_self
      have hrest := ih (fun e he => h e (List.mem_cons_of_mem _ he)) (n * 10 + d)
      rw [List.foldl_cons, List.length_cons, Nat.pow_succ]
      calc ds.foldl (fun n d => n * 10 + d) (n * 10 + d)
          < (n * 10 + d + 1) * 10 ^ ds.length := hrest
        _ ≤ ((n + 1) * 10) * 10 ^ ds.length := Nat.mul_le_mul_right _ (by omega)
        _ = (n + 1) * (10 ^ ds.length * 10) := by ring

/-- A number is written with no more digits than it was read from. -/
theorem length_showNat_le {t : Text} {n : Nat} (h : parseDigits t = some n) :
    (showNat n).length ≤ t.length := by
  unfold parseDigits at h
  split at h
  · cases h
  · rename_i hne
    obtain ⟨ds, hds, rfl⟩ := Option.map_eq_some_iff.mp h
    obtain ⟨hlen, hlt⟩ := mapM_digitValue_eq_some hds
    unfold showNat
    split
    · exact List.length_pos_iff.mpr hne
    · have hbound := foldl_digits_lt hlt 0
      rw [Nat.zero_add, Nat.one_mul] at hbound
      rw [List.length_map, List.length_reverse, ← hlen]
      exact (Nat.digits_length_le_iff (by decide) _).mpr hbound

/-- A number is written no longer than what it was read from. -/
theorem length_showInt_le {t : Text} {p : Int} (h : parseI64 t = some p) :
    (showInt p).length ≤ t.length := by
  have hneg : ∀ (ds : Text) (n : Nat), parseDigits ds = some n →
      (showInt (-(n : Int))).length ≤ ds.length + 1 := by
    intro ds n hds
    have hle := length_showNat_le hds
    cases n with
    | zero => exact Nat.le_succ_of_le hle
    | succ n =>
        have hshow : showInt (-((n + 1 : Nat) : Int)) = '-' :: showNat (n + 1) := rfl
        rw [hshow, List.length_cons]
        omega
  unfold parseI64 at h
  have hparse := (Option.filter_eq_some_iff.mp h).1
  split at hparse
  · obtain ⟨n, hds, rfl⟩ := Option.map_eq_some_iff.mp hparse
    exact Nat.le_succ_of_le (length_showNat_le hds)
  · obtain ⟨n, hds, rfl⟩ := Option.map_eq_some_iff.mp hparse
    exact hneg _ n hds
  · obtain ⟨n, hds, rfl⟩ := Option.map_eq_some_iff.mp hparse
    exact length_showNat_le hds

end Text

end Jkb
