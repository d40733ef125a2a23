import Jkb.Ranges
import Jkb.Text

/-!
# Jkb.Ingest.Chunk

Splitting a long text into the windows that are embedded one by one. The windows begin a stride apart,
the last one is the first that comes to the end of the text, and a last one that is too short is moved
back until it is as long as a window can be.

`Tiles` is what the windows are to be: nothing of the text lies between two of them.
-/

namespace Jkb.Ingest

/-! ## windows over a text -/

/-- The characters from `start` up to `stop`. -/
structure Window where
  start : Nat
  stop : Nat
  deriving DecidableEq, Repr

namespace Window

variable {α : Type}

/-- What a window shows of a list. -/
def of (w : Window) (xs : List α) : List α := Ranges.slice xs w.start w.stop

theorem length_of {w : Window} {xs : List α} (h : w.stop ≤ xs.length) : (w.of xs).length = w.stop - w.start :=
  Ranges.length_slice h

/-- A window up to the end of a list. -/
theorem of_length (xs : List α) (start : Nat) : Window.of ⟨start, xs.length⟩ xs = xs.drop start := by
  rw [of, Ranges.slice, List.take_length]

end Window

/-- **Windows that tile.** They begin at 0 and end at `n`, and each begins after the one before it, sharing
at least `lap` positions with it. -/
structure Tiles (n lap : Nat) (ws : List Window) : Prop where
  first : ∀ w, ws.head? = some w → w.start = 0
  last : ∀ w, ws.getLast? = some w → w.stop = n
  inside : ∀ w ∈ ws, w.start < w.stop ∧ w.stop ≤ n
  next : ws.IsChain fun v w => v.start < w.start ∧ w.start + lap ≤ v.stop

/-- From any window on, every position up to the end lies in a window. -/
theorem exists_mem_window {lap i : Nat} {v : Window} {ws : List Window}
    (hnext : (v :: ws).IsChain fun v w => v.start < w.start ∧ w.start + lap ≤ v.stop) (hv : v.start ≤ i)
    (hi : i < ((v :: ws).getLast (List.cons_ne_nil v ws)).stop) : ∃ w ∈ v :: ws, w.start ≤ i ∧ i < w.stop := by
  induction ws generalizing v with
  | nil => exact ⟨v, List.mem_cons_self, hv, hi⟩
  | cons w ws ih =>
      rw [List.isChain_cons_cons] at hnext
      by_cases hiv : i < v.stop
      · exact ⟨v, List.mem_cons_self, hv, hiv⟩
      · obtain ⟨u, hu, hin⟩ := ih hnext.2 (by omega) (by rwa [List.getLast_cons_cons] at hi)
        exact ⟨u, List.mem_cons_of_mem v hu, hin⟩

/-- **Tiling windows leave nothing out.** -/
theorem Tiles.covers {n lap i : Nat} {ws : List Window} (h : Tiles n lap ws) (hne : ws ≠ []) (hi : i < n) :
    ∃ w ∈ ws, w.start ≤ i ∧ i < w.stop := by
  cases ws with
  | nil => exact absurd rfl hne
  | cons v ws =>
      refine exists_mem_window h.next (by rw [h.first v rfl]; exact Nat.zero_le i) ?_
      rw [h.last _ (List.getLast?_eq_some_getLast hne)]
      exact hi

/-! ## the configuration -/

/-- How a text is split. The overlap is less than the maximum, so the stride is not zero. -/
structure ChunkConfig where
  /-- Most characters of a chunk. -/
  max : Nat
  /-- Characters that chunks next to each other share. -/
  overlap : Nat
  /-- A last chunk shorter than this is folded into a full window. -/
  min : Nat
  max_pos : 0 < max
  overlap_lt : overlap < max

/-- Why a configuration is refused. -/
inductive ConfigError where
  | zeroMax
  | overlapTooLarge (overlap max : Nat)
  deriving DecidableEq, Repr

namespace ChunkConfig

/-- A checked configuration. -/
def new (maxChars overlapChars minChars : Nat) : Except ConfigError ChunkConfig :=
  if hmax : maxChars = 0 then .error .zeroMax
  else if hover : overlapChars ≥ maxChars then .error (.overlapTooLarge overlapChars maxChars)
  else .ok ⟨maxChars, overlapChars, minChars, Nat.pos_of_ne_zero hmax, Nat.lt_of_not_le hover⟩

/-- How far apart windows begin. -/
def step (cfg : ChunkConfig) : Nat := cfg.max - cfg.overlap

theorem step_pos (cfg : ChunkConfig) : 0 < cfg.step := Nat.sub_pos_of_lt cfg.overlap_lt

/-- A configuration that is made has the values it was asked for. -/
theorem new_eq_ok {maxChars overlapChars minChars : Nat} {cfg : ChunkConfig}
    (h : new maxChars overlapChars minChars = .ok cfg) :
    cfg.max = maxChars ∧ cfg.overlap = overlapChars ∧ cfg.min = minChars := by
  unfold new at h
  split at h
  · cases h
  · split at h <;> cases h
    exact ⟨rfl, rfl, rfl⟩

end ChunkConfig

/-! ## splitting -/

section Chunk

variable (cfg : ChunkConfig)

/-- The loop of `chunkText`: push the window from `start` on, and stop at the one that ends the text. -/
def pushWindows (chars : Text) (start : Nat) (chunks : List Text) : List Text :=
  if start < chars.length then
    let stop := min (start + cfg.max) chars.length
    let chunks := chunks ++ [Ranges.slice chars start stop]
    if stop = chars.length then chunks
    else pushWindows chars (start + cfg.step) chunks
  else chunks
termination_by chars.length - start
decreasing_by
  have := cfg.step_pos
  omega

/-- Fold a last window that is too small into a full one that ends where the text does. -/
def foldTail (chars : Text) (chunks : List Text) : List Text :=
  if 1 < chunks.length ∧ chunks.getLast?.any (fun last => last.length < cfg.min) then
    chunks.dropLast ++ [chars.drop (chars.length - cfg.max)]
  else chunks

end Chunk

/-- The chunks of a text. -/
def chunkText (text : Text) (cfg : ChunkConfig) : List Text :=
  if text = [] then []
  else if text.length ≤ cfg.max then [text]
  else foldTail cfg text (pushWindows cfg text 0 [])

/-! ## the windows of the loop -/

section Windows

variable (cfg : ChunkConfig)

/-- The windows the loop pushes from `start` on, of a text of `n` characters. -/
def windowsFrom (n start : Nat) : List Window :=
  if start + cfg.max < n then ⟨start, start + cfg.max⟩ :: windowsFrom n (start + cfg.step)
  else [⟨start, n⟩]
termination_by n - start
decreasing_by
  have := cfg.step_pos
  omega

/-- The loop pushes what the windows show. -/
theorem pushWindows_eq (chars : Text) (start : Nat) (chunks : List Text) (h : start < chars.length) :
    pushWindows cfg chars start chunks =
      chunks ++ (windowsFrom cfg chars.length start).map (·.of chars) := by
  induction start using windowsFrom.induct cfg chars.length generalizing chunks with
  | case1 start hlt ih =>
      have hnext : start + cfg.step < chars.length := by
        have : cfg.step ≤ cfg.max := Nat.sub_le _ _
        omega
      rw [pushWindows, if_pos h, windowsFrom, if_pos hlt]
      simp only [Nat.min_eq_left hlt.le]
      rw [if_neg hlt.ne, ih _ hnext, List.map_cons, List.append_assoc, List.singleton_append, Window.of]
  | case2 start hge =>
      rw [pushWindows, if_pos h, windowsFrom, if_neg hge]
      simp only [Nat.min_eq_right (Nat.le_of_not_lt hge), if_true]
      rw [List.map_singleton, Window.of]

/-- The windows before the fold: they begin at `start`, and each but the last is as long as it may be. -/
structure Strides (n start : Nat) (ws : List Window) : Prop where
  first : ∀ w, ws.head? = some w → w.start = start
  last : ∀ w, ws.getLast? = some w → w.stop = n ∧ n ≤ w.start + cfg.max
  inside : ∀ w ∈ ws, w.start < w.stop ∧ w.stop ≤ n ∧ w.stop ≤ w.start + cfg.max
  full : ∀ w ∈ ws.dropLast, w.stop = w.start + cfg.max ∧ w.stop < n
  next : ws.IsChain fun v w => w.start = v.start + cfg.step

theorem windowsFrom_ne_nil (n start : Nat) : windowsFrom cfg n start ≠ [] := by
  rw [windowsFrom]
  split <;> exact List.cons_ne_nil _ _

theorem strides_windowsFrom {n start : Nat} (h : start < n) : Strides cfg n start (windowsFrom cfg n start) := by
  induction start using windowsFrom.induct cfg n with
  | case1 start hlt ih =>
      have hstep : cfg.step ≤ cfg.max := Nat.sub_le _ _
      have hrest := ih (by omega)
      obtain ⟨w, ws, hws⟩ := List.exists_cons_of_ne_nil (windowsFrom_ne_nil cfg n (start + cfg.step))
      rw [windowsFrom, if_pos hlt]
      rw [hws] at hrest ⊢
      have hpos := cfg.max_pos
      constructor
      · rintro _ ⟨⟩
        rfl
      · exact fun u hu => hrest.last u hu
      · exact List.forall_mem_cons.mpr ⟨⟨Nat.lt_add_of_pos_right hpos, hlt.le, le_refl _⟩, hrest.inside⟩
      · rw [List.dropLast_cons_cons]
        exact List.forall_mem_cons.mpr ⟨⟨rfl, hlt⟩, hrest.full⟩
      · exact List.isChain_cons_cons.mpr ⟨hrest.first w rfl, hrest.next⟩
  | case2 start hge =>
      have hle := Nat.le_of_not_lt hge
      rw [windowsFrom, if_neg hge]
      constructor
      · rintro _ ⟨⟩
        rfl
      · rintro _ ⟨⟩
        exact ⟨rfl, hle⟩
      · exact List.forall_mem_singleton.mpr ⟨h, le_refl n, hle⟩
      · rintro _ ⟨⟩
      · exact List.isChain_singleton _

variable {cfg}

/-- Windows a stride apart tile, whatever becomes of the last one. -/
theorem Strides.next_lap {n start : Nat} {ws : List Window} (h : Strides cfg n start ws) :
    ws.IsChain fun v w => v.start < w.start ∧ w.start + cfg.overlap ≤ v.stop := by
  have hstep := cfg.step_pos
  have hlap : cfg.step + cfg.overlap = cfg.max := Nat.sub_add_cancel cfg.overlap_lt.le
  induction ws generalizing start with
  | nil => exact List.isChain_nil
  | cons v ws ih =>
      cases ws with
      | nil => exact List.isChain_singleton v
      | cons w ws =>
          have hvw := List.isChain_cons_cons.mp h.next
          have hv := h.full v (by rw [List.dropLast_cons_cons]; exact List.mem_cons_self)
          have hrest : Strides cfg n w.start (w :: ws) := by
            refine ⟨?_, fun u hu => h.last u hu, fun u hu => h.inside u (List.mem_cons_of_mem v hu),
              fun u hu => h.full u ?_, hvw.2⟩
            · rintro _ ⟨⟩
              rfl
            · rw [List.dropLast_cons_cons]
              exact List.mem_cons_of_mem v hu
          exact List.isChain_cons_cons.mpr ⟨by omega, ih hrest⟩

theorem Strides.tiles {n : Nat} {ws : List Window} (h : Strides cfg n 0 ws) : Tiles n cfg.overlap ws :=
  ⟨h.first, fun w hw => (h.last w hw).1, fun w hw => ⟨(h.inside w hw).1, (h.inside w hw).2.1⟩, h.next_lap⟩

/-- Moving the last of several windows back to a full one leaves no gap and does not repeat the one before. -/
theorem Strides.tiles_fold {n : Nat} {v w : Window} {ws : List Window}
    (h : Strides cfg n 0 (ws ++ [v] ++ [w])) :
    Tiles n cfg.overlap (ws ++ [v] ++ [⟨n - cfg.max, n⟩]) := by
  have hlast := h.last w List.getLast?_concat
  have hw := h.inside w (List.mem_append_right _ List.mem_cons_self)
  have hv := h.full v (by simp)
  have hlap := h.next_lap
  have hpos := cfg.max_pos
  rw [List.isChain_append] at hlap
  obtain ⟨hinit, -, hjoin⟩ := hlap
  have hvw := hjoin v (by simp) w (by simp)
  refine ⟨?_, ?_, ?_, ?_⟩
  · intro u hu
    refine h.first u ?_
    rw [List.head?_append_of_ne_nil _ (by simp)] at hu ⊢
    exact hu
  · intro u hu
    rw [List.getLast?_concat] at hu
    obtain rfl := Option.some.inj hu
    rfl
  · intro u hu
    rcases List.mem_append.mp hu with hu | hu
    · have := h.inside u (List.mem_append_left _ hu)
      exact ⟨this.1, this.2.1⟩
    · obtain rfl := List.mem_singleton.mp hu
      exact ⟨by show n - cfg.max < n; omega, le_refl n⟩
  · refine List.isChain_append.mpr ⟨hinit, List.isChain_singleton _, ?_⟩
    intro a ha b hb
    rw [List.getLast?_concat] at ha
    obtain rfl := Option.some.inj ha
    obtain rfl := Option.some.inj hb
    show v.start < n - cfg.max ∧ n - cfg.max + cfg.overlap ≤ v.stop
    omega

/-- The fold, as what it does to the windows. -/
theorem foldTail_eq (text : Text) {ws : List Window} {v w : Window} (hstop : w.stop ≤ text.length) :
    foldTail cfg text ((ws ++ [v] ++ [w]).map (·.of text)) =
      (if w.stop - w.start < cfg.min then ws ++ [v] ++ [⟨text.length - cfg.max, text.length⟩]
        else ws ++ [v] ++ [w]).map (·.of text) := by
  have hlen : (w.of text).length = w.stop - w.start := Window.length_of hstop
  have hmany : 1 < ((ws ++ [v] ++ [w]).map (·.of text)).length := by simp
  rw [foldTail, @List.map_append _ _ _ (ws ++ [v]) [w], List.map_singleton, List.getLast?_concat,
    Option.any_some, hlen, List.dropLast_concat]
  rw [@List.map_append _ _ _ (ws ++ [v]) [w], List.map_singleton] at hmany
  by_cases hshort : w.stop - w.start < cfg.min
  · rw [if_pos ⟨hmany, decide_eq_true hshort⟩, if_pos hshort, @List.map_append _ _ _ (ws ++ [v]),
      List.map_singleton, Window.of_length]
  · rw [if_neg (fun h => hshort (of_decide_eq_true h.2)), if_neg hshort, @List.map_append _ _ _ (ws ++ [v]) [w],
      List.map_singleton]

/-- The chunks of a text that is longer than one may be. -/
theorem foldTail_windows {text : Text} (hlong : cfg.max < text.length) :
    ∃ ws, ws ≠ [] ∧ foldTail cfg text (pushWindows cfg text 0 []) = ws.map (·.of text) ∧
      Tiles text.length cfg.overlap ws ∧
      ∀ w ∈ ws, w.stop - w.start ≤ cfg.max ∧ min cfg.min cfg.max ≤ w.stop - w.start := by
  have hpos : 0 < text.length := Nat.zero_lt_of_lt hlong
  have hs := strides_windowsFrom cfg hpos
  have hne := windowsFrom_ne_nil cfg text.length 0
  rw [pushWindows_eq cfg text 0 [] hpos, List.nil_append]
  generalize windowsFrom cfg text.length 0 = all at hs hne
  rcases List.eq_nil_or_concat' all with rfl | ⟨init, w, rfl⟩
  · exact absurd rfl hne
  rcases List.eq_nil_or_concat' init with rfl | ⟨ws, v, rfl⟩
  · -- one window would be too short for the text
    have hfirst := hs.first w rfl
    have hlast := hs.last w rfl
    omega
  have hw := hs.inside w (List.mem_append_right _ List.mem_cons_self)
  have hfull : ∀ u ∈ ws ++ [v], u.stop = u.start + cfg.max := fun u hu =>
    (hs.full u (by rwa [List.dropLast_concat])).1
  rw [foldTail_eq text hw.2.1]
  split_ifs with hshort
  · refine ⟨_, by simp, rfl, hs.tiles_fold, fun u hu => ?_⟩
    rcases List.mem_append.mp hu with hu | hu
    · have := hfull u hu
      omega
    · obtain rfl := List.mem_singleton.mp hu
      show text.length - (text.length - cfg.max) ≤ _ ∧ _ ≤ text.length - (text.length - cfg.max)
      omega
  · refine ⟨_, by simp, rfl, hs.tiles, fun u hu => ?_⟩
    rcases List.mem_append.mp hu with hu | hu
    · have := hfull u hu
      omega
    · obtain rfl := List.mem_singleton.mp hu
      omega

end Windows

/-- **Chunking covers the text.** For a configuration that is accepted, the chunks are what windows show that
begin at 0 and each after the one before, end where the text does, and share at least the overlap; none is longer
than the maximum, and of a text longer than that none is shorter than the minimum, or the maximum if that is less. -/
theorem chunkText_windows (text : Text) {maxChars overlapChars minChars : Nat} {cfg : ChunkConfig}
    (h : ChunkConfig.new maxChars overlapChars minChars = .ok cfg) :
    ∃ ws : List Window, chunkText text cfg = ws.map (·.of text) ∧ (text ≠ [] → ws ≠ []) ∧
      Tiles text.length overlapChars ws ∧
      (∀ i < text.length, ∃ w ∈ ws, w.start ≤ i ∧ i < w.stop) ∧
      (∀ c ∈ chunkText text cfg, c.length ≤ maxChars) ∧
      (maxChars < text.length → ∀ c ∈ chunkText text cfg, min minChars maxChars ≤ c.length) := by
  obtain ⟨rfl, rfl, rfl⟩ := ChunkConfig.new_eq_ok h
  unfold chunkText
  split_ifs with hempty hshort
  · subst hempty
    refine ⟨[], rfl, fun hne => absurd rfl hne, ⟨?_, ?_, ?_, List.isChain_nil⟩, ?_, ?_, ?_⟩ <;> simp
  · have hpos : 0 < text.length := List.length_pos_iff.mpr hempty
    have htiles : Tiles text.length cfg.overlap [⟨0, text.length⟩] := by
      refine ⟨?_, ?_, List.forall_mem_singleton.mpr ⟨hpos, le_refl _⟩, List.isChain_singleton _⟩
      · rintro _ ⟨⟩
        rfl
      · rintro _ ⟨⟩
        rfl
    refine ⟨[⟨0, text.length⟩], ?_, fun _ => List.cons_ne_nil _ _, htiles,
      fun i hi => htiles.covers (List.cons_ne_nil _ _) hi, ?_, fun hlong => absurd hshort (Nat.not_le.mpr hlong)⟩
    · rw [List.map_singleton, Window.of_length, List.drop_zero]
    · exact List.forall_mem_singleton.mpr hshort
  · obtain ⟨ws, hne, hchunks, htiles, hlen⟩ := foldTail_windows (Nat.lt_of_not_le hshort)
    rw [hchunks]
    have hof : ∀ w ∈ ws, (w.of text).length = w.stop - w.start := fun w hw =>
      Window.length_of (htiles.inside w hw).2
    refine ⟨ws, rfl, fun _ => hne, htiles, fun i hi => htiles.covers hne hi, ?_, fun _ => ?_⟩
    · intro c hc
      obtain ⟨w, hw, rfl⟩ := List.mem_map.mp hc
      rw [hof w hw]
      exact (hlen w hw).1
    · intro c hc
      obtain ⟨w, hw, rfl⟩ := List.mem_map.mp hc
      rw [hof w hw]
      exact (hlen w hw).2

/-- A text of 11 characters in windows of 4 that share 1, with a tail that is folded. -/
theorem chunkText_windows_fold :
    ∃ ws : List Window, ∃ cfg, ChunkConfig.new 4 1 3 = .ok cfg ∧ Tiles 11 1 ws ∧
      chunkText "abcdefghijk".toList cfg = ws.map (·.of "abcdefghijk".toList) ∧
      ∀ c ∈ chunkText "abcdefghijk".toList cfg, 3 ≤ c.length := by
  have hnew : ChunkConfig.new 4 1 3 = .ok ⟨4, 1, 3, by decide, by decide⟩ := rfl
  obtain ⟨ws, hws, -, htiles, -, -, hmin⟩ := chunkText_windows "abcdefghijk".toList hnew
  exact ⟨ws, _, hnew, htiles, hws, hmin (by decide)⟩

end Jkb.Ingest
