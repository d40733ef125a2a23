import Jkb.Core.Dsl

/-!
# Jkb.Core.Dsl.Escaped

The token rules of the strict line formats, which know two escapes: a backslash before a quote or a backslash. Each
scanner reads the escapes on its own; `symbols` is what they all read, and each is restated over it. The one that
takes a pair of quotes off looks at the ends of a token only: `unquoteUnescape_iff` says where that misreads.
-/

namespace Jkb.Dsl

open Text

/-! ## the scanners -/

/-- The tokens of a text in which `\"` is a quote that does not toggle anything and `\\` is a backslash,
given the one being read and whether it is inside a quote. Escapes are kept as they are. -/
def tokenizeEscapedFrom : Text → Bool → Text → List Text
  | current, _, [] => if current = [] then [] else [current]
  | current, inQuote, '\\' :: '"' :: cs => tokenizeEscapedFrom (current ++ ['\\', '"']) inQuote cs
  | current, inQuote, '\\' :: '\\' :: cs => tokenizeEscapedFrom (current ++ ['\\', '\\']) inQuote cs
  | current, inQuote, c :: cs =>
      if c = '"' then tokenizeEscapedFrom (current ++ [c]) (!inQuote) cs
      else if isWhitespace c && !inQuote then
        (if current = [] then [] else [current]) ++ tokenizeEscapedFrom [] false cs
      else tokenizeEscapedFrom (current ++ [c]) inQuote cs

/-- Split a text on whitespace, keeping quoted spans together. -/
def tokenizeEscaped (input : Text) : List Text := tokenizeEscapedFrom [] false input

/-- Whether a text, read from outside a quote or from inside one, ends inside one. -/
def unterminatedFrom : Bool → Text → Bool
  | inQuote, [] => inQuote
  | inQuote, '\\' :: '"' :: cs => unterminatedFrom inQuote cs
  | inQuote, '\\' :: '\\' :: cs => unterminatedFrom inQuote cs
  | inQuote, c :: cs => unterminatedFrom (if c = '"' then !inQuote else inQuote) cs

/-- Whether a text opens a quote that it never closes. -/
def hasUnterminatedQuote (input : Text) : Bool := unterminatedFrom false input

/-- Resolve escaped quotes and backslashes. -/
def unescape : Text → Text
  | [] => []
  | '\\' :: '"' :: cs => '"' :: unescape cs
  | '\\' :: '\\' :: cs => '\\' :: unescape cs
  | c :: cs => c :: unescape cs

/-- Strip one pair of surrounding quotes, and resolve the escapes. -/
def unquoteUnescape (s : Text) : Text :=
  unescape (if 2 ≤ s.length ∧ s.head? = some '"' ∧ s.getLast? = some '"' then (s.drop 1).dropLast else s)

/-! ## what the scanners read -/

/-- A character of a text, or an escaped one. -/
inductive Symbol where
  | plain (c : Char)
  | escaped (c : Char)
deriving Repr, DecidableEq

/-- The character that a symbol stands for. -/
def Symbol.char : Symbol → Char
  | .plain c => c
  | .escaped c => c

/-- How a symbol is written. -/
def Symbol.text : Symbol → Text
  | .plain c => [c]
  | .escaped c => ['\\', c]

/-- What a text with escapes is made of. -/
def symbols : Text → List Symbol
  | [] => []
  | '\\' :: '"' :: cs => .escaped '"' :: symbols cs
  | '\\' :: '\\' :: cs => .escaped '\\' :: symbols cs
  | c :: cs => .plain c :: symbols cs

/-- What a token stands for: without its ends where both are quotes that are not escaped, and each escape read. -/
def decoded (s : Text) : Text :=
  let read := symbols s
  (if 2 ≤ read.length ∧ read.head? = some (.plain '"') ∧ read.getLast? = some (.plain '"') then read.tail.dropLast
    else read).map Symbol.char

/-- A text that starts with a quote and ends with an escaped one. -/
def EndsEscaped (s : Text) : Prop := s.head? = some '"' ∧ (symbols s).getLast? = some (.escaped '"')

instance (s : Text) : Decidable (EndsEscaped s) := inferInstanceAs (Decidable (_ ∧ _))

/-- What is no backslash is itself. -/
theorem symbols_cons_of_ne {c : Char} (hc : c ≠ '\\') (cs : Text) : symbols (c :: cs) = .plain c :: symbols cs := by
  rw [symbols]
  · exact fun _ h _ => hc h
  · exact fun _ h _ => hc h

/-- **Resolving the escapes** reads each symbol once. -/
theorem unescape_eq (s : Text) : unescape s = (symbols s).map Symbol.char := by
  induction s using unescape.induct with
  | case1 => rfl
  | case2 cs ih => rw [unescape, symbols, ih]; rfl
  | case3 cs ih => rw [unescape, symbols, ih]; rfl
  | case4 c cs hquote hslash ih =>
      rw [unescape, symbols, ih]
      · rfl
      · exact hquote
      · exact hslash
      · exact hquote
      · exact hslash

/-! ## the ends of a token -/

/-- Only the empty text has no symbols. -/
theorem symbols_eq_nil {s : Text} : symbols s = [] ↔ s = [] := by
  fun_cases symbols s <;> simp

/-- Symbols with a quote after them. -/
def withQuote (read : List Symbol) : List Symbol :=
  if read.getLast? = some (.plain '\\') then read.dropLast ++ [.escaped '"'] else read ++ [.plain '"']

/-- A symbol before what a quote closes. -/
theorem cons_withQuote {u : Symbol} {read : List Symbol} (h : read = [] → u ≠ .plain '\\') :
    u :: withQuote read = withQuote (u :: read) := by
  cases read with
  | nil => simp [withQuote, h rfl]
  | cons v read =>
      simp only [withQuote, List.getLast?_cons_cons, List.dropLast_cons_cons]
      split <;> rfl

/-- **A quote put after a text** is read on its own, unless a backslash that is not escaped stands before it. -/
theorem symbols_append_quote (s : Text) : symbols (s ++ ['"']) = withQuote (symbols s) := by
  induction s using symbols.induct with
  | case1 => rfl
  | case2 cs ih =>
      rw [List.cons_append, List.cons_append, symbols, symbols, ih, cons_withQuote]
      exact nofun
  | case3 cs ih =>
      rw [List.cons_append, List.cons_append, symbols, symbols, ih, cons_withQuote]
      exact nofun
  | case4 c cs hquote hslash ih =>
      by_cases hc : c = '\\'
      · subst hc
        cases cs with
        | nil => rfl
        | cons d cs =>
            have hd : d ≠ '"' := fun h => hquote cs rfl (h ▸ rfl)
            have hd' : d ≠ '\\' := fun h => hslash cs rfl (h ▸ rfl)
            have hplain : ∀ cs, symbols ('\\' :: d :: cs) = .plain '\\' :: symbols (d :: cs) := by
              intro cs
              rw [symbols]
              · exact fun _ _ h => hd (List.cons.inj h).1
              · exact fun _ _ h => hd' (List.cons.inj h).1
            rw [List.cons_append, List.cons_append, hplain, hplain, ← List.cons_append, ih, cons_withQuote]
            exact fun h => absurd (symbols_eq_nil.mp h) (List.cons_ne_nil _ _)
      · rw [List.cons_append, symbols_cons_of_ne hc, symbols_cons_of_ne hc, ih, cons_withQuote]
        exact fun _ h => hc (Symbol.plain.inj h)

/-- A text is its symbols, as they are written. -/
theorem flatMap_symbols (s : Text) : (symbols s).flatMap Symbol.text = s := by
  induction s using symbols.induct with
  | case1 => rfl
  | case2 cs ih => rw [symbols, List.flatMap_cons, ih]; rfl
  | case3 cs ih => rw [symbols, List.flatMap_cons, ih]; rfl
  | case4 c cs hquote hslash ih =>
      rw [symbols, List.flatMap_cons, ih]
      · rfl
      · exact hquote
      · exact hslash

/-- A text ends with the character of its last symbol. -/
theorem getLast?_of_symbols {s : Text} {u : Symbol} (h : (symbols s).getLast? = some u) :
    s.getLast? = some u.char := by
  obtain ⟨read, hread⟩ := List.getLast?_eq_some_iff.mp h
  rw [← flatMap_symbols s, hread, List.flatMap_append]
  cases u <;> simp [Symbol.text, Symbol.char]

/-- A text begins with its first symbol, if that is not escaped. -/
theorem head?_of_symbols {s : Text} {c : Char} (h : (symbols s).head? = some (.plain c)) : s.head? = some c := by
  revert h
  fun_cases symbols s <;> simp

/-- A text whose ends are quotes, and which is not one quote. -/
theorem exists_quoted {s : Text} (hhead : s.head? = some '"') (hlast : s.getLast? = some '"') (hne : s ≠ ['"']) :
    ∃ m, s = '"' :: (m ++ ['"']) := by
  obtain ⟨t, rfl⟩ := List.head?_eq_some_iff.mp hhead
  have ht : t ≠ [] := fun h => hne (by rw [h])
  rw [List.getLast?_cons_of_ne_nil ht] at hlast
  obtain ⟨m, rfl⟩ := List.getLast?_eq_some_iff.mp hlast
  exact ⟨m, rfl⟩

/-- **Where the ends of a token are read rightly**: taking a pair of quotes off agrees with reading the token unless
it starts with a quote and ends with an escaped one. -/
theorem unquoteUnescape_iff (s : Text) : unquoteUnescape s = decoded s ↔ ¬ EndsEscaped s := by
  by_cases hquoted : ∃ m, s = '"' :: (m ++ ['"'])
  · obtain ⟨m, rfl⟩ := hquoted
    have hread : symbols ('"' :: (m ++ ['"'])) = .plain '"' :: withQuote (symbols m) := by
      rw [symbols_cons_of_ne (by decide), symbols_append_quote]
    have hcode : unquoteUnescape ('"' :: (m ++ ['"'])) = (symbols m).map Symbol.char := by
      have hends : 2 ≤ ('"' :: (m ++ ['"'])).length ∧ ('"' :: (m ++ ['"'])).head? = some '"' ∧
          ('"' :: (m ++ ['"'])).getLast? = some '"' :=
        ⟨by simp, rfl, by rw [← List.cons_append, List.getLast?_concat]⟩
      rw [unquoteUnescape, if_pos hends, List.drop_one, List.tail_cons, List.dropLast_concat, unescape_eq]
    rw [hcode, decoded, EndsEscaped, hread, withQuote]
    split
    · rename_i hslash
      -- the pair that is taken off is not one, and the backslash that is left stands for nothing
      have hlen : 0 < (symbols m).length := List.length_pos_of_ne_nil fun h => by simp [h] at hslash
      have hlast : (Symbol.plain '"' :: ((symbols m).dropLast ++ [.escaped '"'])).getLast? = some (.escaped '"') := by
        rw [← List.cons_append, List.getLast?_concat]
      refine iff_of_false (fun heq => ?_) fun h => h ⟨rfl, hlast⟩
      rw [if_neg (by simp [hlast])] at heq
      have hlength := congrArg List.length heq
      simp only [List.length_map, List.length_cons, List.length_append, List.length_dropLast, List.length_nil]
        at hlength
      omega
    · have hlast : (Symbol.plain '"' :: (symbols m ++ [.plain '"'])).getLast? = some (.plain '"') := by
        rw [← List.cons_append, List.getLast?_concat]
      rw [if_pos ⟨by simp, rfl, hlast⟩, List.tail_cons, List.dropLast_concat]
      exact iff_of_true rfl fun h => by simp [hlast] at h
  · have hends : ¬ EndsEscaped s := fun h => hquoted
      (exists_quoted h.1 (getLast?_of_symbols h.2) fun heq => by
        rw [heq] at h
        exact absurd h (by decide))
    have hcode : ¬ (2 ≤ s.length ∧ s.head? = some '"' ∧ s.getLast? = some '"') := fun h => hquoted
      (exists_quoted h.2.1 h.2.2 fun heq => by simp [heq] at h)
    have hread : ¬ (2 ≤ (symbols s).length ∧ (symbols s).head? = some (.plain '"') ∧
        (symbols s).getLast? = some (.plain '"')) := fun h => hquoted
      (exists_quoted (head?_of_symbols h.2.1) (getLast?_of_symbols h.2.2) fun heq => by
        rw [heq] at h
        exact absurd h (by decide))
    rw [unquoteUnescape, decoded, if_neg hcode, if_neg hread, unescape_eq]
    exact ⟨fun _ => hends, fun _ => rfl⟩

/-! ## texts without a backslash -/

/-- A character that escapes nothing is read on its own. -/
theorem tokenizeEscapedFrom_plain {current : Text} {q : Bool} {c : Char} {cs : Text}
    (hquote : ∀ u, c = '\\' → cs ≠ '"' :: u) (hslash : ∀ u, c = '\\' → cs ≠ '\\' :: u) :
    tokenizeEscapedFrom current q (c :: cs) =
      if c = '"' then tokenizeEscapedFrom (current ++ [c]) (!q) cs
      else if isWhitespace c && !q then
        (if current = [] then [] else [current]) ++ tokenizeEscapedFrom [] false cs
      else tokenizeEscapedFrom (current ++ [c]) q cs := by
  rw [tokenizeEscapedFrom]
  · exact hquote
  · exact hslash

/-- A character that escapes nothing is read alone. -/
theorem unterminatedFrom_plain {q : Bool} {c : Char} {cs : Text}
    (hquote : ∀ u, c = '\\' → cs ≠ '"' :: u) (hslash : ∀ u, c = '\\' → cs ≠ '\\' :: u) :
    unterminatedFrom q (c :: cs) = unterminatedFrom (if c = '"' then !q else q) cs := by
  rw [unterminatedFrom]
  · exact hquote
  · exact hslash

/-- What is no backslash is read as without escapes. -/
theorem tokenizeEscapedFrom_cons_of_ne {current : Text} {q : Bool} {c : Char} (hc : c ≠ '\\') (cs : Text) :
    tokenizeEscapedFrom current q (c :: cs) =
      if c = '"' then tokenizeEscapedFrom (current ++ [c]) (!q) cs
      else if isWhitespace c && !q then
        (if current = [] then [] else [current]) ++ tokenizeEscapedFrom [] false cs
      else tokenizeEscapedFrom (current ++ [c]) q cs :=
  tokenizeEscapedFrom_plain (fun _ h => absurd h hc) fun _ h => absurd h hc

/-- A text without backslashes is read as without escapes. -/
theorem tokenizeEscapedFrom_eq {current : Text} {q : Bool} {s : Text} (h : '\\' ∉ s) :
    tokenizeEscapedFrom current q s = tokenizeFrom current q s := by
  induction s generalizing current q with
  | nil => rfl
  | cons c s ih =>
      rw [List.mem_cons, not_or] at h
      rw [tokenizeEscapedFrom_cons_of_ne (Ne.symm h.1), tokenizeFrom]
      simp only [ih h.2]

/-- **Without a backslash**, the strict formats split a text as the lenient ones do. -/
theorem tokenizeEscaped_eq {input : Text} (h : '\\' ∉ input) : tokenizeEscaped input = tokenize input :=
  tokenizeEscapedFrom_eq h

/-! ## tokens side by side -/

/-- Words are joined by a blank. -/
theorem joinWords_cons {w : Text} {words : List Text} (h : words ≠ []) :
    joinWords (w :: words) = w ++ ' ' :: joinWords words := by
  cases words with
  | nil => exact absurd rfl h
  | cons v words => simp [joinWords]

/-- What follows a text does not change what its last character escapes, where it is itself no escape. -/
theorem append_ne_of_ne {c d : Char} {cs t : Text} (hd : d ≠ ' ') (h : ∀ u, c = '\\' → cs ≠ d :: u) (u : Text)
    (hc : c = '\\') : cs ++ ' ' :: t ≠ d :: u := by
  intro heq
  cases cs with
  | nil => exact hd (List.cons.inj heq).1.symm
  | cons e cs =>
      obtain ⟨rfl, -⟩ := List.cons.inj heq
      exact h cs hc rfl

/-- A space outside a quote cuts a text in two. -/
theorem tokenizeEscapedFrom_space {current : Text} {q : Bool} {s : Text} (h : unterminatedFrom q s = false)
    (t : Text) : tokenizeEscapedFrom current q (s ++ ' ' :: t) =
      tokenizeEscapedFrom current q s ++ tokenizeEscapedFrom [] false t := by
  induction s using symbols.induct generalizing current q with
  | case1 =>
      obtain rfl : q = false := h
      rfl
  | case2 cs ih =>
      rw [List.cons_append, List.cons_append, tokenizeEscapedFrom, tokenizeEscapedFrom]
      exact ih h
  | case3 cs ih =>
      rw [List.cons_append, List.cons_append, tokenizeEscapedFrom, tokenizeEscapedFrom]
      exact ih h
  | case4 c cs hquote hslash ih =>
      -- a backslash at the end of the text does not escape the space
      rw [unterminatedFrom_plain hquote hslash] at h
      rw [List.cons_append, tokenizeEscapedFrom_plain (append_ne_of_ne (by decide) hquote)
        (append_ne_of_ne (by decide) hslash), tokenizeEscapedFrom_plain hquote hslash]
      by_cases hc : c = '"'
      · rw [if_pos hc] at h
        rw [if_pos hc, if_pos hc, ih h]
      · rw [if_neg hc] at h
        rw [if_neg hc, if_neg hc]
        by_cases hspace : (isWhitespace c && !q) = true
        · obtain rfl : q = false := by simpa using (Bool.and_eq_true_iff.mp hspace).2
          rw [if_pos hspace, if_pos hspace, ih h, List.append_assoc]
        · rw [if_neg hspace, if_neg hspace, ih h]

/-- A blank after closed quotes closes nothing. -/
theorem unterminatedFrom_space {q : Bool} {s : Text} (h : unterminatedFrom q s = false) (t : Text) :
    unterminatedFrom q (s ++ ' ' :: t) = unterminatedFrom false t := by
  induction s using symbols.induct generalizing q with
  | case1 =>
      obtain rfl : q = false := h
      rfl
  | case2 cs ih => exact ih h
  | case3 cs ih => exact ih h
  | case4 c cs hquote hslash ih =>
      rw [unterminatedFrom_plain hquote hslash] at h
      rw [List.cons_append, unterminatedFrom_plain (append_ne_of_ne (by decide) hquote)
        (append_ne_of_ne (by decide) hslash), ih h]

/-- A token of its own: it is read as one, and closes its quotes. -/
structure Alone (t : Text) : Prop where
  token : tokenizeEscaped t = [t]
  closed : hasUnterminatedQuote t = false

/-- **Tokens read back**, side by side. -/
theorem tokenizeEscaped_joinWords {words : List Text} (h : ∀ w ∈ words, Alone w) :
    tokenizeEscaped (joinWords words) = words ∧ hasUnterminatedQuote (joinWords words) = false := by
  induction words with
  | nil => exact ⟨rfl, rfl⟩
  | cons w words ih =>
      obtain ⟨hw, hwords⟩ := List.forall_mem_cons.mp h
      by_cases hnil : words = []
      · subst hnil
        rw [joinWords_singleton]
        exact ⟨hw.token, hw.closed⟩
      · obtain ⟨htokens, hclosed⟩ := ih hwords
        rw [joinWords_cons hnil]
        refine ⟨?_, (unterminatedFrom_space hw.closed _).trans hclosed⟩
        exact (tokenizeEscapedFrom_space hw.closed _).trans (congrArg₂ _ hw.token htokens)

/-! ## quoting -/

/-- A character with an escape before it where it needs one. -/
def escapeChar (c : Char) : Text := if c = '\\' ∨ c = '"' then ['\\', c] else [c]

/-- A word in quotes, with its backslashes and quotes escaped. -/
def quoted (word : Text) : Text := '"' :: (word.flatMap escapeChar ++ ['"'])

/-- A character that is escaped is one symbol. -/
theorem symbols_escapeChar (c : Char) (s : Text) :
    ∃ u : Symbol, symbols (escapeChar c ++ s) = u :: symbols s ∧ u.char = c := by
  unfold escapeChar
  split_ifs with hc
  · rcases hc with rfl | rfl
    · exact ⟨.escaped '\\', rfl, rfl⟩
    · exact ⟨.escaped '"', rfl, rfl⟩
  · rw [not_or] at hc
    exact ⟨.plain c, symbols_cons_of_ne hc.1 s, rfl⟩

/-- Reading a character that is written with its escape moves the tokenizer past it, inside a quote. -/
theorem tokenizeEscapedFrom_escapeChar (current : Text) (c : Char) (s : Text) :
    tokenizeEscapedFrom current true (escapeChar c ++ s) = tokenizeEscapedFrom (current ++ escapeChar c) true s := by
  unfold escapeChar
  split_ifs with hc
  · rcases hc with rfl | rfl <;> rfl
  · rw [not_or] at hc
    rw [List.singleton_append, tokenizeEscapedFrom_cons_of_ne hc.1, if_neg hc.2]
    simp

/-- A character that is escaped opens and closes no quote. -/
theorem unterminatedFrom_escapeChar (q : Bool) (c : Char) (s : Text) :
    unterminatedFrom q (escapeChar c ++ s) = unterminatedFrom q s := by
  unfold escapeChar
  split_ifs with hc
  · rcases hc with rfl | rfl <;> rfl
  · rw [not_or] at hc
    rw [List.singleton_append, unterminatedFrom, if_neg hc.2]
    · exact fun _ h _ => hc.1 h
    · exact fun _ h _ => hc.1 h

/-- A word that is escaped is read inside of its quotes. -/
theorem tokenizeEscapedFrom_escape (current word s : Text) :
    tokenizeEscapedFrom current true (word.flatMap escapeChar ++ s) =
      tokenizeEscapedFrom (current ++ word.flatMap escapeChar) true s := by
  induction word generalizing current with
  | nil => simp
  | cons c word ih =>
      rw [List.flatMap_cons, List.append_assoc, tokenizeEscapedFrom_escapeChar, ih, List.append_assoc]

/-- A word that is escaped opens and closes no quote. -/
theorem unterminatedFrom_escape (q : Bool) (word s : Text) :
    unterminatedFrom q (word.flatMap escapeChar ++ s) = unterminatedFrom q s := by
  induction word with
  | nil => rfl
  | cons c word ih => rw [List.flatMap_cons, List.append_assoc, unterminatedFrom_escapeChar, ih]

/-- A quoted word is a token. -/
theorem alone_quoted (word : Text) : Alone (quoted word) := by
  have hshut : ∀ current, tokenizeEscapedFrom current true ['"'] = [current ++ ['"']] := by
    intro current
    rw [tokenizeEscapedFrom_cons_of_ne (by decide), if_pos rfl, tokenizeEscapedFrom, if_neg (by simp)]
  constructor
  · show tokenizeEscapedFrom ['"'] true (word.flatMap escapeChar ++ ['"']) = _
    rw [tokenizeEscapedFrom_escape, hshut]
    rfl
  · show unterminatedFrom true (word.flatMap escapeChar ++ ['"']) = _
    rw [unterminatedFrom_escape]
    rfl

/-- **Quoted words read back**, side by side. -/
theorem tokenizeEscaped_quoted (words : List Text) :
    tokenizeEscaped (joinWords (words.map quoted)) = words.map quoted ∧
      hasUnterminatedQuote (joinWords (words.map quoted)) = false :=
  tokenizeEscaped_joinWords fun _ h => by
    obtain ⟨word, -, rfl⟩ := List.mem_map.mp h
    exact alone_quoted word

/-- A word that is escaped is read as it was. -/
theorem symbols_escape (word : Text) : (symbols (word.flatMap escapeChar)).map Symbol.char = word := by
  induction word with
  | nil => rfl
  | cons c word ih =>
      obtain ⟨u, hread, hchar⟩ := symbols_escapeChar c (word.flatMap escapeChar)
      rw [List.flatMap_cons, hread, List.map_cons, hchar, ih]

/-- **A quoted word stands for the word.** -/
theorem unquoteUnescape_quoted (word : Text) : unquoteUnescape (quoted word) = word := by
  have hends : 2 ≤ (quoted word).length ∧ (quoted word).head? = some '"' ∧ (quoted word).getLast? = some '"' :=
    ⟨by simp [quoted], rfl, by rw [quoted, ← List.cons_append, List.getLast?_concat]⟩
  rw [unquoteUnescape, if_pos hends, quoted, List.drop_one, List.tail_cons, List.dropLast_concat, unescape_eq,
    symbols_escape]

end Jkb.Dsl
