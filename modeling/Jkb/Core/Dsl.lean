import Jkb.Text

/-!
# Jkb.Core.Dsl

The token rules of `dsl.rs`, which every line format of the program shares: splitting a line into
tokens with quoted spans kept whole, taking a pair of quotes off, and the slug of a text.

A token is read from left to right with one bit of state, whether it is inside a quote. The lemmas
here say how that state composes: a text whose quotes are closed is a place where tokens can be put
side by side.
-/

namespace Jkb.Dsl

open Text

/-! ## tokens -/

/-- The tokens of a text, given the one being read and whether it is inside a quote. -/
def tokenizeFrom : Text → Bool → Text → List Text
  | current, _, [] => if current = [] then [] else [current]
  | current, inQuote, c :: cs =>
      if c = '"' then tokenizeFrom (current ++ [c]) (!inQuote) cs
      else if isWhitespace c && !inQuote then
        (if current = [] then [] else [current]) ++ tokenizeFrom [] false cs
      else tokenizeFrom (current ++ [c]) inQuote cs

/-- Split a text on whitespace, keeping quoted spans together. -/
def tokenize (input : Text) : List Text := tokenizeFrom [] false input

/-- Strip one pair of surrounding double quotes, if there is one. -/
def unquote (s : Text) : Text :=
  ((stripPrefix ['"'] s).bind (stripSuffix ['"'])).getD s

/-- Tokens side by side. -/
def joinWords (words : List Text) : Text := [' '].intercalate words

@[simp] theorem joinWords_singleton (w : Text) : joinWords [w] = w := by
  simp [joinWords]

/-- The characters of joined words are theirs, and blanks. -/
theorem mem_joinWords {words : List Text} {c : Char} (h : c ∈ joinWords words) :
    c = ' ' ∨ ∃ w ∈ words, c ∈ w := by
  induction words with
  | nil => cases h
  | cons w words ih =>
      cases words with
      | nil => exact Or.inr ⟨w, List.mem_cons_self, by simpa using h⟩
      | cons v words =>
          have hjoin : joinWords (w :: v :: words) = w ++ ' ' :: joinWords (v :: words) := by
            simp [joinWords]
          rw [hjoin, List.mem_append, List.mem_cons] at h
          grind

/-! ## the quote state -/

/-- Whether a text that starts inside a quote, or outside one, ends inside one. -/
def quoteState (inQuote : Bool) (t : Text) : Bool :=
  t.foldl (fun q c => if c = '"' then !q else q) inQuote

/-- Every whitespace character of a text is inside a quote. -/
def solid : Bool → Text → Bool
  | _, [] => true
  | inQuote, c :: cs =>
      if c = '"' then solid (!inQuote) cs else (inQuote || !isWhitespace c) && solid inQuote cs

/-- A text that the tokenizer reads as one token. -/
def IsToken (t : Text) : Prop := t ≠ [] ∧ solid false t = true

/-- Every quote of a text is closed. -/
def Closed (t : Text) : Prop := quoteState false t = false

instance (t : Text) : Decidable (Closed t) := inferInstanceAs (Decidable (_ = _))

@[simp] theorem quoteState_nil (q : Bool) : quoteState q [] = q := rfl

@[simp] theorem quoteState_cons (q : Bool) (c : Char) (t : Text) :
    quoteState q (c :: t) = quoteState (if c = '"' then !q else q) t := rfl

@[simp] theorem quoteState_append (q : Bool) (s t : Text) :
    quoteState q (s ++ t) = quoteState (quoteState q s) t := by
  simp [quoteState]

/-- Starting inside a quote flips where a text ends. -/
theorem quoteState_not (q : Bool) (t : Text) : quoteState (!q) t = !quoteState q t := by
  induction t generalizing q with
  | nil => rfl
  | cons c t ih =>
      rw [quoteState_cons, quoteState_cons]
      split
      · exact ih (!q)
      · exact ih q

/-- A text without quotes opens and closes none. -/
theorem quoteState_of_no_quote {q : Bool} {t : Text} (h : '"' ∉ t) : quoteState q t = q := by
  induction t generalizing q with
  | nil => rfl
  | cons c t ih =>
      rw [List.mem_cons, not_or] at h
      rw [quoteState_cons, if_neg (Ne.symm h.1), ih h.2]

/-- Whether two texts have a blank outside of quotes, one after the other. -/
theorem solid_append (q : Bool) (s t : Text) :
    solid q (s ++ t) = (solid q s && solid (quoteState q s) t) := by
  induction s generalizing q with
  | nil => simp [solid]
  | cons c s ih =>
      simp only [List.cons_append, solid, quoteState_cons]
      split
      · exact ih _
      · rw [ih, Bool.and_assoc]

/-- A text without blanks has none outside of quotes. -/
theorem solid_of_no_whitespace {q : Bool} {t : Text} (h : ∀ c ∈ t, isWhitespace c = false) :
    solid q t = true := by
  induction t generalizing q with
  | nil => rfl
  | cons c t ih =>
      have hc := h c List.mem_cons_self
      have ht := fun q => @ih q fun d hd => h d (List.mem_cons_of_mem _ hd)
      simp [solid, hc, ht]

/-- A token whose quotes are closed does not end in whitespace. -/
theorem getLast_of_solid {q : Bool} {t : Text} {c : Char} (hsolid : solid q t = true)
    (hclosed : quoteState q t = false) (h : t.getLast? = some c) : isWhitespace c = false := by
  obtain ⟨s, rfl⟩ := List.getLast?_eq_some_iff.mp h
  by_cases hc : c = '"'
  · subst hc
    decide
  · rw [solid_append, Bool.and_eq_true] at hsolid
    have hq : quoteState q s = false := by simpa [hc] using hclosed
    simpa [solid, hc, hq] using hsolid.2

/-- Whitespace in a token whose quotes are closed is followed by a quote. -/
theorem quote_mem_of_solid {q : Bool} {s t : Text} {c : Char} (hc : isWhitespace c = true)
    (hsolid : solid q (s ++ c :: t) = true) (hclosed : quoteState q (s ++ c :: t) = false) :
    '"' ∈ t := by
  have hne : c ≠ '"' := by
    rintro rfl
    exact absurd hc (by decide)
  by_contra hno
  rw [solid_append, Bool.and_eq_true] at hsolid
  have hopen : quoteState q s = true := by
    have hrest := hsolid.2
    simp only [solid, hne, hc, if_false, Bool.not_true, Bool.or_false, Bool.and_eq_true] at hrest
    exact hrest.1
  rw [quoteState_append, hopen, quoteState_cons, if_neg hne, quoteState_of_no_quote hno] at hclosed
  cases hclosed

/-! ## reading tokens -/

/-- What has no blank outside of quotes goes into one token. -/
theorem tokenizeFrom_solid {q : Bool} {s : Text} (hs : solid q s = true) (current t : Text) :
    tokenizeFrom current q (s ++ t) = tokenizeFrom (current ++ s) (quoteState q s) t := by
  induction s generalizing current q with
  | nil => simp
  | cons c s ih =>
      rw [solid] at hs
      rw [List.cons_append, tokenizeFrom, quoteState_cons]
      by_cases hc : c = '"'
      · rw [if_pos hc] at hs
        rw [if_pos hc, if_pos hc, ih hs, List.append_assoc, List.singleton_append]
      · rw [if_neg hc, Bool.and_eq_true] at hs
        have hsep : (isWhitespace c && !q) = false := by
          cases q <;> simp_all
        rw [if_neg hc, if_neg hc, hsep, if_neg Bool.false_ne_true, ih hs.2, List.append_assoc,
          List.singleton_append]

/-- Outside a quote, whitespace separates what is read before it from what is read after. -/
theorem tokenizeFrom_separator {q : Bool} {s : Text} {c : Char} (hq : quoteState q s = false)
    (hc : isWhitespace c = true) (current t : Text) :
    tokenizeFrom current q (s ++ c :: t) = tokenizeFrom current q s ++ tokenize t := by
  have hne : c ≠ '"' := by
    rintro rfl
    exact absurd hc (by decide)
  induction s generalizing current q with
  | nil =>
      obtain rfl : q = false := hq
      simp [tokenizeFrom, tokenize, hne, hc]
  | cons d s ih =>
      rw [quoteState_cons] at hq
      rw [List.cons_append, tokenizeFrom, tokenizeFrom]
      by_cases hd : d = '"'
      · rw [if_pos hd] at hq
        rw [if_pos hd, if_pos hd, ih hq]
      · rw [if_neg hd] at hq
        rw [if_neg hd, if_neg hd]
        split
        case isTrue hsep =>
          have hqf : q = false := by simpa using (Bool.and_eq_true_iff.mp hsep).2
          rw [ih (hqf ▸ hq), List.append_assoc]
        case isFalse => exact ih hq _

/-- A token is read as one. -/
theorem tokenize_of_isToken {t : Text} (h : IsToken t) : tokenize t = [t] := by
  have hread := tokenizeFrom_solid h.2 [] []
  rw [List.append_nil, List.nil_append] at hread
  rw [tokenize, hread, tokenizeFrom, if_neg h.1]

/-- **Tokens put side by side read back.** Only the last may leave a quote open. -/
theorem tokenize_joinWords {words : List Text} (htoken : ∀ w ∈ words, IsToken w)
    (hclosed : ∀ w ∈ words.dropLast, Closed w) : tokenize (joinWords words) = words := by
  induction words with
  | nil => rfl
  | cons w words ih =>
      have hw := tokenize_of_isToken (htoken w List.mem_cons_self)
      cases words with
      | nil => simpa [joinWords] using hw
      | cons v words =>
          have hwc : Closed w := hclosed w (by simp)
          have hrest := ih (fun u hu => htoken u (List.mem_cons_of_mem _ hu))
            (fun u hu => hclosed u (by
              rw [List.dropLast_cons_of_ne_nil (List.cons_ne_nil v words)]
              exact List.mem_cons_of_mem _ hu))
          have hjoin : joinWords (w :: v :: words) = w ++ ' ' :: joinWords (v :: words) := by
            simp [joinWords]
          rw [hjoin, tokenize, tokenizeFrom_separator hwc (by decide), hrest]
          rw [tokenize] at hw
          rw [hw, List.singleton_append]

/-- A text whose quotes are closed keeps its tokens when others are put after it. -/
theorem tokenize_append_words {t : Text} (ht : Closed t) {words : List Text}
    (htoken : ∀ w ∈ words, IsToken w) (hclosed : ∀ w ∈ words.dropLast, Closed w) :
    tokenize (t ++ ' ' :: joinWords words) = tokenize t ++ words := by
  rw [tokenize, tokenizeFrom_separator ht (by decide), tokenize_joinWords htoken hclosed, tokenize]

/-- The tokens of a text have its characters alone. -/
theorem tokenizeFrom_subset {current : Text} {q : Bool} {s : Text} :
    ∀ t ∈ tokenizeFrom current q s, ∀ c ∈ t, c ∈ current ∨ c ∈ s := by
  induction s generalizing current q with
  | nil =>
      intro t ht c hc
      rw [tokenizeFrom] at ht
      split at ht
      · cases ht
      · exact Or.inl (List.mem_singleton.mp ht ▸ hc)
  | cons d s ih =>
      have hmore : ∀ q', ∀ t ∈ tokenizeFrom (current ++ [d]) q' s, ∀ c ∈ t,
          c ∈ current ∨ c ∈ d :: s := by
        intro q' t ht c hc
        have hmem := ih t ht c hc
        grind
      intro t ht c hc
      rw [tokenizeFrom] at ht
      split at ht
      · exact hmore _ t ht c hc
      · split at ht
        · rcases List.mem_append.mp ht with ht | ht
          · split at ht
            · cases ht
            · exact Or.inl (List.mem_singleton.mp ht ▸ hc)
          · have hmem := ih t ht c hc
            grind
        · exact hmore _ t ht c hc

/-- Tokens hold the characters of the text they are read from. -/
theorem tokenize_subset {s t : Text} (h : t ∈ tokenize s) : ∀ c ∈ t, c ∈ s := fun c hc =>
  (tokenizeFrom_subset t h c hc).resolve_left List.not_mem_nil

/-- A text without its quotes has its characters alone. -/
theorem unquote_subset (t : Text) : ∀ c ∈ unquote t, c ∈ t := by
  intro c hc
  rw [unquote] at hc
  cases hu : (stripPrefix ['"'] t).bind (stripSuffix ['"']) with
  | none => simpa [hu] using hc
  | some s =>
      rw [hu, Option.getD_some] at hc
      obtain ⟨r, hr, hs⟩ := Option.bind_eq_some_iff.mp hu
      rw [stripPrefix_eq_some.mp hr]
      unfold stripSuffix at hs
      split at hs
      · obtain rfl := Option.some.inj hs
        exact List.mem_append_right _ (List.mem_of_mem_take hc)
      · cases hs

/-! ## what is read is a token -/

/-- What the tokenizer reads, token by token: each is one, all but the last leave no quote open, and
the last leaves one open exactly if the text does, and then it runs to the text's end. -/
structure Reads (current : Text) (q : Bool) (s : Text) : Prop where
  tokens : ∀ t ∈ tokenizeFrom current q s, IsToken t
  closed : ∀ t ∈ (tokenizeFrom current q s).dropLast, Closed t
  last : quoteState q s = true →
    ∃ t, (tokenizeFrom current q s).getLast? = some t ∧ ¬ Closed t ∧ t <:+ current ++ s
  allClosed : quoteState q s = false → ∀ t ∈ tokenizeFrom current q s, Closed t

/-- A character that is taken into the token that is being read. -/
theorem Reads.push {current s : Text} {q q' : Bool} {c : Char} (h : Reads (current ++ [c]) q' s)
    (hread : tokenizeFrom current q (c :: s) = tokenizeFrom (current ++ [c]) q' s)
    (hquote : quoteState q (c :: s) = quoteState q' s) : Reads current q (c :: s) where
  tokens := by
    rw [hread]
    exact h.tokens
  closed := by
    rw [hread]
    exact h.closed
  last hopen := by
    rw [hread]
    rw [hquote] at hopen
    simpa using h.last hopen
  allClosed hshut := by
    rw [hread]
    rw [hquote] at hshut
    exact h.allClosed hshut

/-- A character that ends the token that is being read, if there is one. -/
theorem Reads.cut {current s : Text} {q : Bool} {c : Char} {ended : List Text} (h : Reads [] false s)
    (hended : ∀ t ∈ ended, IsToken t ∧ Closed t)
    (hread : tokenizeFrom current q (c :: s) = ended ++ tokenizeFrom [] false s)
    (hquote : quoteState q (c :: s) = quoteState false s) : Reads current q (c :: s) where
  tokens := by
    rw [hread]
    intro t ht
    exact (List.mem_append.mp ht).elim (fun h => (hended t h).1) (h.tokens t)
  closed := by
    rw [hread]
    intro t ht
    by_cases hnil : tokenizeFrom [] false s = []
    · rw [hnil, List.append_nil] at ht
      exact (hended t (List.dropLast_subset _ ht)).2
    · rw [List.dropLast_append_of_ne_nil hnil] at ht
      exact (List.mem_append.mp ht).elim (fun h => (hended t h).2) (h.closed t)
  last hopen := by
    rw [hread]
    rw [hquote] at hopen
    obtain ⟨t, hlast, hopen, hsuffix⟩ := h.last hopen
    refine ⟨t, ?_, hopen, ?_⟩
    · rw [List.getLast?_append, hlast]
      rfl
    · rw [List.nil_append] at hsuffix
      exact hsuffix.trans ((List.suffix_cons c s).trans (List.suffix_append current _))
  allClosed hshut := by
    rw [hread]
    rw [hquote] at hshut
    intro t ht
    exact (List.mem_append.mp ht).elim (fun h' => (hended t h').2) (h.allClosed hshut t)

/-- A text that begins with an open token reads on from it. -/
theorem reads {current : Text} {q : Bool} {s : Text} (hsolid : solid false current = true)
    (hq : quoteState false current = q) : Reads current q s := by
  induction s generalizing current q with
  | nil =>
      by_cases hcur : current = []
      · subst hcur
        obtain rfl : false = q := hq
        constructor <;> simp [tokenizeFrom]
      · refine ⟨?_, ?_, ?_, ?_⟩
        · simpa [tokenizeFrom, hcur] using ⟨hcur, hsolid⟩
        · simp [tokenizeFrom, hcur]
        · intro hopen
          refine ⟨current, by simp [tokenizeFrom, hcur], ?_, by simp⟩
          rw [Closed, hq]
          simpa using hopen
        · intro hshut
          simpa [tokenizeFrom, hcur, Closed, hq] using hshut
  | cons c s ih =>
      by_cases hc : c = '"'
      · have hread := @ih (current ++ [c]) (!q) (by
          rw [solid_append, hsolid, hc]
          rfl) (by rw [quoteState_append, hq, hc]; rfl)
        exact hread.push (by rw [tokenizeFrom, if_pos hc]) (by rw [quoteState_cons, if_pos hc])
      · by_cases hsep : (isWhitespace c && !q) = true
        · have hqf : q = false := by simpa using (Bool.and_eq_true_iff.mp hsep).2
          have hended : ∀ t ∈ (if current = [] then ([] : List Text) else [current]), IsToken t ∧ Closed t := by
            intro t ht
            split at ht
            · cases ht
            · rename_i hne
              rw [List.mem_singleton.mp ht]
              exact ⟨⟨hne, hsolid⟩, hq.trans hqf⟩
          exact (@ih [] false rfl rfl).cut hended (by rw [tokenizeFrom, if_neg hc, if_pos hsep])
            (by rw [quoteState_cons, if_neg hc, hqf])
        · have hsepf : (isWhitespace c && !q) = false := by simpa using hsep
          have hread := @ih (current ++ [c]) q (by
            rw [solid_append, hsolid, hq]
            cases q <;> simp_all [solid]) (by
            rw [quoteState_append, hq, quoteState_cons, if_neg hc]
            rfl)
          exact hread.push (by rw [tokenizeFrom, if_neg hc, if_neg hsep]) (by rw [quoteState_cons, if_neg hc])

/-- The tokens of a text are what it reads as. -/
theorem reads_tokenize (t : Text) : Reads [] false t := reads rfl rfl

/-- Taking a pair of quotes off a text leaves its quotes closed, or open, as they were. -/
theorem closed_unquote {t : Text} : Closed (unquote t) ↔ Closed t := by
  unfold unquote
  cases hp : stripPrefix ['"'] t with
  | none => rfl
  | some s =>
      rw [stripPrefix_eq_some] at hp
      subst hp
      by_cases hs : ['"'] <:+ s
      · obtain ⟨r, rfl⟩ := hs
        have htake : stripSuffix ['"'] (r ++ ['"']) = some r := by
          simp [stripSuffix]
        rw [Option.bind_some, htake, Option.getD_some, Closed, Closed, List.singleton_append,
          quoteState_cons, if_pos rfl, quoteState_append, quoteState_not]
        cases quoteState false r <;> simp [quoteState]
      · simp [stripSuffix, hs]

/-- Joined words have every quote closed if each has. -/
theorem closed_joinWords {words : List Text} (h : ∀ w ∈ words, Closed w) :
    Closed (joinWords words) := by
  induction words with
  | nil => rfl
  | cons w words ih =>
      have hw := h w List.mem_cons_self
      have hrest := ih fun v hv => h v (List.mem_cons_of_mem _ hv)
      cases words with
      | nil => simpa [joinWords] using hw
      | cons v words =>
          have hjoin : joinWords (w :: v :: words) = w ++ ' ' :: joinWords (v :: words) := by
            simp [joinWords]
          rw [hjoin, Closed, quoteState_append, hw, quoteState_cons]
          exact hrest

/-! ## slugs -/

/-- What the standard library's Unicode tables say of a character, as far as slugs read them. -/
structure Tables where
  isAlphanumeric : Char → Bool
  toLowercase : Char → Text
  not_whitespace : ∀ c, isAlphanumeric c = true → isWhitespace c = false
  ascii_alphanumeric : ∀ c, c.toNat < 128 → isAlphanumeric c = c.isAlphanum
  ascii_lowercase : ∀ c, c.isLower || c.isDigit → toLowercase c = [c]
  /-- A lowercase form is lowercase, or the one combining mark that lowercasing makes. -/
  lowercase_closed : ∀ c, isAlphanumeric c = true → ∀ l ∈ toLowercase c,
    (isAlphanumeric l = true ∧ toLowercase l = [l]) ∨ l = Char.ofNat 0x307

/-! ### ASCII -/

/-- The letters and digits of ASCII are of ASCII. -/
theorem toNat_lt_of_isAlphanum {c : Char} (h : c.isAlphanum = true) : c.toNat < 128 := by
  simp only [Char.isAlphanum, isAlpha_eq, isUpper_eq, isLower_eq, Char.isDigit] at h
  simp [UInt32.le_iff_toNat_le] at h
  have hval : c.toNat = c.val.toNat := rfl
  omega

/-- What holds of the first 128 characters holds of all of ASCII. -/
theorem forall_ascii {p : Char → Bool} (h : ∀ n < 128, p (Char.ofNat n) = true) {c : Char}
    (hc : c.toNat < 128) : p c = true := by
  rw [← Char.ofNat_toNat c]
  exact h c.toNat hc

/-- The tables of a text that is ASCII. -/
def asciiTables : Tables where
  isAlphanumeric := Char.isAlphanum
  toLowercase c := [c.toLower]
  not_whitespace c h := by
    have hascii := @forall_ascii (fun c => !c.isAlphanum || !isWhitespace c) (by decide) c
      (toNat_lt_of_isAlphanum h)
    simpa [h] using hascii
  ascii_alphanumeric c _ := rfl
  ascii_lowercase c h := by
    have hlt : c.toNat < 128 := toNat_lt_of_isAlphanum (by
      simp only [Char.isAlphanum, isAlpha_eq]
      revert h
      cases c.isLower <;> cases c.isDigit <;> simp)
    have hascii := @forall_ascii (fun c => !(c.isLower || c.isDigit) || c.toLower == c) (by decide) c hlt
    simpa [h] using hascii
  lowercase_closed c h l hl := by
    obtain rfl := List.mem_singleton.mp hl
    have hascii := @forall_ascii (fun c => !c.isAlphanum ||
      (c.toLower.isAlphanum && c.toLower.toLower == c.toLower)) (by decide) c (toNat_lt_of_isAlphanum h)
    simp only [h, Bool.not_true, Bool.false_or, Bool.and_eq_true, beq_iff_eq] at hascii
    exact Or.inl ⟨hascii.1, by rw [hascii.2]⟩

namespace Tables

variable (tables : Tables)

/-- Whether a slug may hold the character, beside a dash. -/
def isSlugChar (c : Char) : Bool :=
  (tables.isAlphanumeric c && decide (tables.toLowercase c = [c])) || c == Char.ofNat 0x307

/-- The slug of a text, given what is written of it and whether that ends in a dash. -/
def slugFrom : Text → Bool → Text → Text
  | out, _, [] => out
  | out, dash, c :: cs =>
      if tables.isAlphanumeric c then slugFrom (out ++ tables.toLowercase c) false cs
      else if !dash && out ≠ [] then slugFrom (out ++ ['-']) true cs
      else slugFrom out dash cs

/-- `str::trim_matches` of a dash. -/
def trimDashes (t : Text) : Text := (t.dropWhile (· == '-')).rdropWhile (· == '-')

/-- A lowercase slug: runs of other characters than letters and digits become one dash. -/
def slug (text : Text) : Text := trimDashes (tables.slugFrom [] false text)

/-- A text without the dashes around it has its characters alone. -/
theorem trimDashes_subset (t : Text) : ∀ c ∈ trimDashes t, c ∈ t := fun _ hc =>
  (List.dropWhile_suffix _).subset ((List.rdropWhile_prefix _ _).subset hc)

/-- A slug is made of dashes and slug characters. -/
theorem slugFrom_chars {out : Text} {dash : Bool} {t : Text}
    (hout : ∀ c ∈ out, c = '-' ∨ tables.isSlugChar c = true) :
    ∀ c ∈ tables.slugFrom out dash t, c = '-' ∨ tables.isSlugChar c = true := by
  induction t generalizing out dash with
  | nil => exact hout
  | cons a t ih =>
      rw [slugFrom]
      split
      case isTrue ha =>
        refine ih fun c hc => ?_
        rcases List.mem_append.mp hc with hc | hc
        · exact hout c hc
        · rcases tables.lowercase_closed a ha c hc with ⟨h1, h2⟩ | h
          · exact Or.inr (by simp [isSlugChar, h1, h2])
          · exact Or.inr (by simp [isSlugChar, h])
      case isFalse =>
        split
        · refine ih fun c hc => ?_
          rcases List.mem_append.mp hc with hc | hc
          · exact hout c hc
          · exact Or.inl (List.mem_singleton.mp hc)
        · exact ih hout

/-- A slug holds dashes and slug characters only. -/
theorem slug_chars (text : Text) :
    ∀ c ∈ tables.slug text, c = '-' ∨ tables.isSlugChar c = true := fun c hc =>
  tables.slugFrom_chars (by simp) c (trimDashes_subset _ c hc)

/-- No slug character is whitespace. -/
theorem isSlugChar_not_whitespace {c : Char} (h : tables.isSlugChar c = true) :
    isWhitespace c = false := by
  rw [isSlugChar, Bool.or_eq_true, Bool.and_eq_true] at h
  rcases h with h | h
  · exact tables.not_whitespace c h.1
  · rw [beq_iff_eq] at h
    subst h
    decide

/-- A lowercase letter or a digit of ASCII is a slug character. -/
theorem isSlugChar_ascii {c : Char} (h : c.isLower || c.isDigit) (hc : c.toNat < 128) :
    tables.isSlugChar c = true := by
  have halnum : tables.isAlphanumeric c = true := by
    rw [tables.ascii_alphanumeric c hc]
    simp only [Char.isAlphanum, isAlpha_eq, Bool.or_eq_true] at *
    tauto
  simp [isSlugChar, halnum, tables.ascii_lowercase c h]

/-- A character of ASCII that is no letter and no digit is not a slug character. -/
theorem not_isSlugChar_ascii {c : Char} (h : c.isAlphanum = false) (hc : c.toNat < 128) :
    tables.isSlugChar c = false := by
  have hne : c ≠ Char.ofNat 0x307 := by
    rintro rfl
    exact absurd hc (by decide)
  simp [isSlugChar, tables.ascii_alphanumeric c hc, h, hne]

end Tables

end Jkb.Dsl
