import Mathlib.Data.List.Basic
import Mathlib.Data.List.TakeWhile
import SqlRiver.Proofs.Text.Case

/-!
# Blanks at the ends of a text and between its words

Every reader trims the text it leaves, and a statement is read from its words.
This module says what trimming takes off, and how words behave when texts are
put one after the other.

Main definitions and statements:

* `Text.Blank`, `Text.Trimmed`: texts of blanks only, and texts without a blank
  at either end.
* `Text.trim_pad`, `Text.exists_trim`: trimming takes off blanks, and all that
  it can.
* `Text.words_append`: a blank divides the words of a text.
* `Text.Spaced`: texts whose words have single spaces between them,
  `Text.spaced_join` for texts put together with single spaces.
-/

namespace SqlRiver.Text

/-! ## Trimming -/

/-- The text has no other characters than blanks. -/
def Blank (t : Text) : Prop := ∀ c ∈ t, isBlank c = true

/-- The text has no blank at its start or at its end. -/
structure Trimmed (t : Text) : Prop where
  start : ∀ c ∈ t.head?, isBlank c = false
  stop : ∀ c ∈ t.getLast?, isBlank c = false

theorem blank_nil : Blank [] := by simp [Blank]

theorem blank_cons {c : Char} {t : Text} :
    Blank (c :: t) ↔ isBlank c = true ∧ Blank t := by
  simp [Blank]

theorem blank_append {t u : Text} : Blank (t ++ u) ↔ Blank t ∧ Blank u := by
  simp [Blank, or_imp, forall_and]

theorem blank_spaces (n : Nat) : Blank (spaces n) := by
  intro c hc
  obtain rfl : c = ' ' := List.eq_of_mem_replicate hc
  rfl

theorem trimmed_nil : Trimmed [] := ⟨by simp, by simp⟩

/-- A text without any blank is trimmed. -/
theorem trimmed_of_forall {t : Text} (h : ∀ c ∈ t, isBlank c = false) :
    Trimmed t :=
  ⟨fun c hc => h c (List.mem_of_mem_head? hc),
    fun c hc => h c (List.mem_of_getLast? hc)⟩

/-- Spaces before a text that starts with none are taken off. -/
theorem trimStart_pad {l x : Text} (hl : Blank l)
    (hx : ∀ c ∈ x.head?, isBlank c = false) : trimStart (l ++ x) = x := by
  induction l with
  | nil =>
    cases x with
    | nil => rfl
    | cons c x => simp [trimStart, hx c rfl]
  | cons c l ih =>
    obtain ⟨hc, hl⟩ := blank_cons.1 hl
    have := ih hl
    simpa [trimStart, hc] using this

theorem trimEnd_eq_reverse (t : Text) :
    trimEnd t = (trimStart t.reverse).reverse :=
  rfl

theorem blank_reverse {t : Text} : Blank t.reverse ↔ Blank t := by simp [Blank]

theorem trimEnd_pad {x r : Text} (hr : Blank r)
    (hx : ∀ c ∈ x.getLast?, isBlank c = false) : trimEnd (x ++ r) = x := by
  rw [trimEnd_eq_reverse, List.reverse_append,
    trimStart_pad (blank_reverse.2 hr), List.reverse_reverse]
  simpa using hx

/-- Trimming takes off the blanks around a trimmed text. -/
theorem trim_pad {l x r : Text} (hl : Blank l) (hx : Trimmed x) (hr : Blank r) :
    trim (l ++ x ++ r) = x := by
  by_cases hx₀ : x = []
  · subst hx₀
    have : trimStart (l ++ r) = [] := by
      have := trimStart_pad (x := []) (blank_append.2 ⟨hl, hr⟩) (by simp)
      simpa using this
    simp [trim, this, trimEnd]
  · rw [trim, List.append_assoc, trimStart_pad hl, trimEnd_pad hr hx.stop]
    rw [List.head?_append_of_ne_nil _ hx₀]
    exact hx.start

theorem trim_of_trimmed {x : Text} (hx : Trimmed x) : trim x = x := by
  simpa using trim_pad blank_nil hx blank_nil

/-- Trimming a text that ends like a trimmed one takes off the blanks before
it. -/
theorem trim_padStart {l x : Text} (hl : Blank l) (hx : Trimmed x) :
    trim (l ++ x) = x := by
  simpa using trim_pad hl hx blank_nil

/-- Trimming a text that starts like a trimmed one takes off the blanks behind
it. -/
theorem trim_padEnd {x r : Text} (hx : Trimmed x) (hr : Blank r) :
    trim (x ++ r) = x := by
  simpa using trim_pad blank_nil hx hr

theorem trimStart_eq_nil {t : Text} (h : Blank t) : trimStart t = [] := by
  simpa using trimStart_pad (x := []) h (by simp)

/-- A text is its leading spaces and the rest, which starts with none. -/
theorem exists_trimStart (t : Text) :
    ∃ l, Blank l ∧ t = l ++ trimStart t ∧
      ∀ c ∈ (trimStart t).head?, isBlank c = false := by
  refine ⟨t.takeWhile isBlank, ?_, ?_, ?_⟩
  · intro c hc
    exact List.mem_takeWhile_imp hc
  · exact (List.takeWhile_append_dropWhile).symm
  · intro c hc
    have := List.head?_dropWhile_not isBlank t
    simp only [trimStart] at hc
    simp only [Option.mem_def] at hc
    rw [hc] at this
    simpa using this

/-- A text is its trailing spaces behind the rest, which ends with none. -/
theorem exists_trimEnd (t : Text) :
    ∃ r, Blank r ∧ t = trimEnd t ++ r ∧
      ∀ c ∈ (trimEnd t).getLast?, isBlank c = false := by
  obtain ⟨l, hl, ht, hs⟩ := exists_trimStart t.reverse
  refine ⟨l.reverse, blank_reverse.2 hl, ?_, ?_⟩
  · rw [trimEnd_eq_reverse, ← List.reverse_append, ← ht, List.reverse_reverse]
  · rw [trimEnd_eq_reverse]
    simpa using hs

/-- What trimming leaves has blanks around it. -/
theorem exists_trim (t : Text) :
    ∃ l r, Blank l ∧ Blank r ∧ t = l ++ trim t ++ r := by
  obtain ⟨l, hl, ht, -⟩ := exists_trimStart t
  obtain ⟨r, hr, hs, -⟩ := exists_trimEnd (trimStart t)
  exact ⟨l, r, hl, hr, by rw [List.append_assoc, trim, ← hs, ← ht]⟩

theorem isInfix_trim (t : Text) : trim t <:+: t := by
  obtain ⟨l, r, -, -, e⟩ := exists_trim t
  exact ⟨l, r, e.symm⟩

theorem length_trim_le (t : Text) : (trim t).length ≤ t.length :=
  (isInfix_trim t).length_le

/-- What trimming leaves is trimmed. -/
theorem trimmed_trim (t : Text) : Trimmed (trim t) := by
  obtain ⟨-, -, -, hs⟩ := exists_trimStart t
  obtain ⟨r, hr, ht, he⟩ := exists_trimEnd (trimStart t)
  refine ⟨?_, he⟩
  intro c hc
  refine hs c ?_
  rw [ht, List.head?_append_of_ne_nil]
  · exact hc
  · intro h
    rw [trim, h] at hc
    simp at hc

@[simp] theorem trim_trim (t : Text) : trim (trim t) = trim t :=
  trim_of_trimmed (trimmed_trim t)

theorem trim_blank_append {l : Text} (hl : Blank l) (t : Text) :
    trim (l ++ t) = trim t := by
  obtain ⟨l', r, hl', hr, e⟩ := exists_trim t
  conv => lhs; rw [e, ← List.append_assoc, ← List.append_assoc]
  exact trim_pad (blank_append.2 ⟨hl, hl'⟩) (trimmed_trim t) hr

/-- A text of blanks only is trimmed to nothing. -/
theorem trim_eq_nil_iff {t : Text} : trim t = [] ↔ Blank t := by
  constructor
  · intro h
    obtain ⟨l, r, hl, hr, ht⟩ := exists_trim t
    rw [ht, h, List.append_nil]
    exact blank_append.2 ⟨hl, hr⟩
  · intro h
    simp [trim, trimStart_eq_nil h, trimEnd]

/-- Trimming takes no character from within. -/
theorem mem_of_mem_trim {t : Text} {c : Char} (h : c ∈ trim t) : c ∈ t := by
  obtain ⟨l, r, -, -, ht⟩ := exists_trim t
  rw [ht]
  simp [h]

/-! ## Joining -/

/-- The parts behind the first one are each led by the separator. -/
theorem join_cons (sep part : Text) (parts : List Text) :
    join sep (part :: parts) = part ++ parts.flatMap (sep ++ ·) := by
  induction parts generalizing part with
  | nil => simp [join]
  | cons next parts ih => simp [join, ih]

theorem join_append (sep : Text) {xs ys : List Text} (hx : xs ≠ [])
    (hy : ys ≠ []) :
    join sep (xs ++ ys) = join sep xs ++ sep ++ join sep ys := by
  obtain ⟨x, xs, rfl⟩ := List.exists_cons_of_ne_nil hx
  obtain ⟨y, ys, rfl⟩ := List.exists_cons_of_ne_nil hy
  simp [join_cons]

/-- Joining in groups and then joining the groups is joining all at once. -/
theorem join_flatten (sep : Text) :
    ∀ {xss : List (List Text)}, (∀ xs ∈ xss, xs ≠ []) →
      join sep (xss.map (join sep)) = join sep xss.flatten
  | [], _ => rfl
  | [xs], _ => by simp [join]
  | xs :: ys :: xss, h => by
    have hrest : (ys :: xss).flatten ≠ [] := by
      have := h ys (by simp)
      simp [this]
    have ih :
        join sep ((ys :: xss).map (join sep)) = join sep (ys :: xss).flatten :=
      join_flatten sep fun zs hz => h zs (List.mem_cons_of_mem _ hz)
    rw [List.flatten_cons, join_append sep (h xs (by simp)) hrest, ← ih]
    simp [join]

theorem mem_of_mem_join {sep : Text} {ts : List Text} {c : Char}
    (h : c ∈ join sep ts) : c ∈ sep ∨ ∃ t ∈ ts, c ∈ t := by
  cases ts with
  | nil => cases h
  | cons t ts =>
    rw [join_cons] at h
    rcases List.mem_append.1 h with h | h
    · exact .inr ⟨t, by simp, h⟩
    · obtain ⟨u, hu, h⟩ := List.mem_flatMap.1 h
      exact (List.mem_append.1 h).imp id fun h => ⟨u, by simp [hu], h⟩

/-! ## Words -/

/-- The text is a word: not empty, and without a blank. -/
structure Solid (t : Text) : Prop where
  ne_nil : t ≠ []
  noBlank : ∀ c ∈ t, isBlank c = false

theorem splitWhere_ne_nil (p : Char → Bool) (t : Text) :
    splitWhere p t ≠ [] := by
  cases t with
  | nil => simp [splitWhere]
  | cons c t =>
    rw [splitWhere]
    split
    · simp
    · cases splitWhere p t <;> simp [consFirst]

/-- A character that divides texts divides their runs. -/
theorem splitWhere_append {p : Char → Bool} {c : Char} (hc : p c = true)
    (t u : Text) :
    splitWhere p (t ++ c :: u) = splitWhere p t ++ splitWhere p u := by
  induction t with
  | nil => simp [splitWhere, hc]
  | cons d t ih =>
    rw [List.cons_append, splitWhere, splitWhere, ih]
    split
    · rfl
    · obtain ⟨run, runs, hr⟩ :=
        List.exists_cons_of_ne_nil (splitWhere_ne_nil p t)
      simp [hr, consFirst]

theorem splitWhere_of_forall {p : Char → Bool} {t : Text}
    (h : ∀ c ∈ t, p c = false) : splitWhere p t = [t] := by
  induction t with
  | nil => rfl
  | cons c t ih =>
    have hc : p c = false := h c (by simp)
    rw [splitWhere, ih fun d hd => h d (List.mem_cons_of_mem _ hd)]
    simp [hc, consFirst]

@[simp] theorem words_nil : words [] = [] := rfl

/-- A blank divides the words of a text. -/
theorem words_append {c : Char} (hc : isBlank c = true) (t u : Text) :
    words (t ++ c :: u) = words t ++ words u := by
  rw [words, splitWhere_append hc, List.filter_append]
  rfl

theorem words_cons {c : Char} (hc : isBlank c = true) (t : Text) :
    words (c :: t) = words t := by
  simpa using words_append hc [] t

theorem words_of_solid {t : Text} (h : Solid t) : words t = [t] := by
  rw [words, splitWhere_of_forall h.noBlank]
  simp [h.ne_nil]

/-- Blanks at the start of a text belong to no word. -/
theorem words_blank_append {g : Text} (hg : Blank g) (t : Text) :
    words (g ++ t) = words t := by
  induction g with
  | nil => rfl
  | cons c g ih =>
    obtain ⟨hc, hg⟩ := blank_cons.1 hg
    rw [List.cons_append, words_cons hc, ih hg]

/-- Induction over the words of a text: the text has no blank, or a blank
follows its first run. -/
@[elab_as_elim]
theorem words_induction {P : Text → Prop}
    (last : ∀ v, (∀ c ∈ v, isBlank c = false) → P v)
    (cut : ∀ v c u, (∀ c ∈ v, isBlank c = false) → isBlank c = true → P u →
    P (v ++ c :: u)) (t : Text) : P t := by
  generalize hn : t.length = n
  induction n using Nat.strongRecOn generalizing t with
  | _ n ih =>
    have hsplit :=
      List.takeWhile_append_dropWhile (p := fun c => !isBlank c) (l := t)
    have hrun : ∀ c ∈ t.takeWhile (fun c => !isBlank c), isBlank c = false := by
      intro c hc
      have := List.mem_takeWhile_imp hc
      rwa [Bool.not_eq_true'] at this
    cases hu : t.dropWhile (fun c => !isBlank c) with
    | nil =>
      rw [hu, List.append_nil] at hsplit
      rw [hsplit] at hrun
      exact last t hrun
    | cons c u =>
      have hc : isBlank c = true := by
        have := List.head?_dropWhile_not (fun c => !isBlank c) t
        rw [hu] at this
        simpa using this
      rw [← hsplit, hu]
      refine cut _ c u hrun hc (ih u.length ?_ u rfl)
      rw [← hn, ← hsplit, hu, List.length_append, List.length_cons]
      omega

theorem words_of_noBlank {t : Text} (h : ∀ c ∈ t, isBlank c = false) :
    words t = if t = [] then [] else [t] := by
  split
  · next h₀ => rw [h₀]; rfl
  · next h₀ => exact words_of_solid ⟨h₀, h⟩

/-- What holds of two texts exactly if it holds of both with a blank between
them holds of a text exactly if it holds of its words. -/
theorem forall_words {P : Text → Prop} (nil : P [])
    (cut : ∀ u c v, isBlank c = true → (P (u ++ c :: v) ↔ P u ∧ P v))
    (t : Text) : P t ↔ ∀ w ∈ words t, P w := by
  have hrun : ∀ v : Text, (∀ c ∈ v, isBlank c = false) →
      (P v ↔ ∀ w ∈ words v, P w) := by
    intro v hv
    rw [words_of_noBlank hv]
    split
    · next h₀ => simp [h₀, nil]
    · simp
  induction t using words_induction with
  | last v hv => exact hrun v hv
  | cut v c u hv hc ih =>
    rw [cut v c u hc, words_append hc, List.forall_mem_append, ← hrun v hv]
    exact and_congr_right fun _ => ih

theorem words_blank {t : Text} (h : Blank t) : words t = [] := by
  simpa using words_blank_append h []

/-- Blanks between two texts divide their words. -/
theorem words_append_blank {g : Text} (hg : Blank g) (hg₀ : g ≠ [])
    (t u : Text) : words (t ++ g ++ u) = words t ++ words u := by
  obtain ⟨c, g, rfl⟩ := List.exists_cons_of_ne_nil hg₀
  obtain ⟨hc, hg⟩ := blank_cons.1 hg
  rw [List.append_assoc, List.cons_append, words_append hc,
    words_blank_append hg]

theorem mem_splitWhere {p : Char → Bool} :
    ∀ {t run : Text}, run ∈ splitWhere p t → ∀ c ∈ run, p c = false
  | [], run, h => by simp_all [splitWhere]
  | d :: t, run, h => by
    obtain ⟨first, runs, hr⟩ :=
      List.exists_cons_of_ne_nil (splitWhere_ne_nil p t)
    rw [splitWhere, hr] at h
    split at h
    · rcases List.mem_cons.1 h with rfl | h
      · simp
      · exact mem_splitWhere (hr ▸ h)
    · next hd =>
      rcases List.mem_cons.1 h with rfl | h
      · intro c hc
        rcases List.mem_cons.1 hc with rfl | hc
        · simpa using hd
        · exact mem_splitWhere (p := p) (hr ▸ List.mem_cons_self) c hc
      · exact mem_splitWhere (hr ▸ List.mem_cons_of_mem _ h)

theorem solid_of_mem_words {t w : Text} (h : w ∈ words t) : Solid w := by
  obtain ⟨hw, hne⟩ := List.mem_filter.1 h
  exact ⟨by simpa using hne, mem_splitWhere hw⟩

/-- Words that are joined with spaces are found again. -/
theorem words_join {ws : List Text} (h : ∀ w ∈ ws, Solid w) :
    words (join [' '] ws) = ws := by
  induction ws with
  | nil => rfl
  | cons w ws ih =>
    have hw := words_of_solid (h w (by simp))
    have ih := ih fun v hv => h v (List.mem_cons_of_mem _ hv)
    cases ws with
    | nil => simpa [join] using hw
    | cons v ws =>
      have : join [' '] (w :: v :: ws) = w ++ ' ' :: join [' '] (v :: ws) := by
        simp [join]
      rw [this, words_append rfl, hw, ih]
      rfl

theorem splitWhere_map {p : Char → Bool} {f : Char → Char}
    (h : ∀ c, p (f c) = p c) (t : Text) :
    splitWhere p (t.map f) = (splitWhere p t).map (List.map f) := by
  induction t with
  | nil => rfl
  | cons c t ih =>
    rw [List.map_cons, splitWhere, splitWhere, h, ih]
    split
    · rfl
    · obtain ⟨first, runs, hr⟩ :=
        List.exists_cons_of_ne_nil (splitWhere_ne_nil p t)
      rw [hr]
      rfl

/-- Letter case does not change where the words of a text are. -/
theorem words_lower (t : Text) : words (lower t) = (words t).map lower := by
  rw [words, lower, splitWhere_map isBlank_toLower, List.filter_map]
  congr 2
  funext run
  cases run <;> rfl

@[simp] theorem words_collapse (t : Text) : words (collapse t) = words t :=
  words_join fun _ => solid_of_mem_words

/-! ## Single spaces -/

/-- The text is its words with single spaces between them. -/
def Spaced (t : Text) : Prop := collapse t = t

theorem spaced_collapse (t : Text) : Spaced (collapse t) := by
  rw [Spaced, collapse, words_collapse]
  rfl

theorem spaced_of_solid {t : Text} (h : Solid t) : Spaced t := by
  rw [Spaced, collapse, words_of_solid h]
  rfl

theorem words_ne_nil {t : Text} (h : Spaced t) (h₀ : t ≠ []) :
    words t ≠ [] := by
  intro hw
  rw [Spaced, collapse, hw] at h
  exact h₀ h.symm

/-- The words of joined texts are the words of these texts. -/
theorem words_join_space (ts : List Text) :
    words (join [' '] ts) = ts.flatMap words := by
  induction ts with
  | nil => rfl
  | cons t ts ih =>
    cases ts with
    | nil => simp [join]
    | cons u ts =>
      have : join [' '] (t :: u :: ts) = t ++ ' ' :: join [' '] (u :: ts) := by
        simp [join]
      rw [this, words_append rfl, ih]
      simp

/-- Texts with single spaces, joined by single spaces, give such a text. -/
theorem spaced_join {ts : List Text} (h : ∀ t ∈ ts, Spaced t)
    (h₀ : ∀ t ∈ ts, t ≠ []) : Spaced (join [' '] ts) := by
  have hmap : ts = (ts.map words).map (join [' ']) := by
    rw [List.map_map]
    refine (List.map_id ts).symm.trans (List.map_congr_left fun t ht => ?_)
    exact (h t ht).symm
  have hne : ∀ ws ∈ ts.map words, ws ≠ [] := by
    intro ws hws
    obtain ⟨t, ht, rfl⟩ := List.mem_map.1 hws
    exact words_ne_nil (h t ht) (h₀ t ht)
  have hjoin : join [' '] ts = join [' '] (ts.map words).flatten := by
    conv => lhs; rw [hmap]
    exact join_flatten _ hne
  rw [Spaced, collapse, words_join_space, hjoin]
  rfl

section Stick

variable {t : Text} {c : Char} (h : Spaced t) (h₀ : t ≠ [])
  (hc : isBlank c = false)
include h h₀ hc

/-- A character that sticks to the end of a text leaves its spaces single. -/
theorem spaced_concat : Spaced (t ++ [c]) := by
  obtain ⟨us, u, hu⟩ :=
    (List.eq_nil_or_concat' (words t)).resolve_left (words_ne_nil h h₀)
  have hsolid : ∀ w ∈ us ++ [u], Solid w :=
    fun w hw => solid_of_mem_words (hu ▸ hw)
  have hlast : Solid (u ++ [c]) := by
    refine ⟨by simp, fun d hd => ?_⟩
    rcases List.mem_append.1 hd with hd | hd
    · exact (hsolid u (by simp)).noBlank d hd
    · rwa [List.mem_singleton.1 hd]
  have e : t ++ [c] = join [' '] (us ++ [u ++ [c]]) := by
    conv => lhs; rw [← h, collapse, hu]
    by_cases hus : us = []
    · subst hus
      rfl
    · rw [join_append _ hus (by simp), join_append _ hus (by simp)]
      simp [join]
  have key : ∀ w ∈ us ++ [u ++ [c]], Solid w := by
    intro w hw
    rcases List.mem_append.1 hw with hw | hw
    · exact hsolid w (by simp [hw])
    · rwa [List.mem_singleton.1 hw]
  rw [e]
  exact spaced_join (fun w hw => spaced_of_solid (key w hw)) fun w hw =>
    (key w hw).ne_nil

/-- A character that sticks to the start of a text leaves its spaces single. -/
theorem spaced_cons : Spaced (c :: t) := by
  obtain ⟨u, us, hu⟩ := List.exists_cons_of_ne_nil (words_ne_nil h h₀)
  have hsolid : ∀ w ∈ u :: us, Solid w :=
    fun w hw => solid_of_mem_words (hu ▸ hw)
  have e : c :: t = join [' '] ((c :: u) :: us) := by
    conv => lhs; rw [← h, collapse, hu]
    rw [join_cons, join_cons, List.cons_append]
  have key : ∀ w ∈ (c :: u) :: us, Solid w := by
    intro w hw
    rcases List.mem_cons.1 hw with rfl | hw
    · refine ⟨by simp, fun d hd => ?_⟩
      rcases List.mem_cons.1 hd with rfl | hd
      · exact hc
      · exact (hsolid u (by simp)).noBlank d hd
    · exact hsolid w (by simp [hw])
  rw [e]
  exact spaced_join (fun w hw => spaced_of_solid (key w hw)) fun w hw =>
    (key w hw).ne_nil

end Stick

/-- The only blanks of a text are spaces. -/
def SpaceOnly (t : Text) : Prop := ∀ c ∈ t, isBlank c = true → c = ' '

theorem SpaceOnly.of_subset {t u : Text} (h : SpaceOnly t) (hu : u ⊆ t) :
    SpaceOnly u :=
  fun c hc => h c (hu hc)

theorem SpaceOnly.append {t u : Text} (ht : SpaceOnly t) (hu : SpaceOnly u) :
    SpaceOnly (t ++ u) :=
  fun c hc => (List.mem_append.1 hc).elim (ht c) (hu c)

theorem trim_subset (t : Text) : trim t ⊆ t := fun _ => mem_of_mem_trim

/-- A text with single spaces has no other blanks. -/
theorem spaceOnly_of_spaced {t : Text} (h : Spaced t) : SpaceOnly t := by
  have key : ∀ ws : List Text, (∀ w ∈ ws, Solid w) →
      ∀ c ∈ join [' '] ws, isBlank c = true → c = ' ' := by
    intro ws hws c hc hb
    cases ws with
    | nil => simp [join] at hc
    | cons w ws =>
      rw [join_cons] at hc
      rcases List.mem_append.1 hc with hc | hc
      · rw [(hws w (by simp)).noBlank c hc] at hb
        cases hb
      · obtain ⟨v, hv, hc⟩ := List.mem_flatMap.1 hc
        rcases List.mem_append.1 hc with hc | hc
        · simpa using hc
        · rw [(hws v (List.mem_cons_of_mem _ hv)).noBlank c hc] at hb
          cases hb
  rw [← h]
  exact key _ fun _ => solid_of_mem_words

/-- Trimmed texts make a trimmed text, whatever stands between them. -/
theorem trimmed_join (sep : Text) :
    ∀ {ts : List Text}, (∀ t ∈ ts, Trimmed t) → (∀ t ∈ ts, t ≠ []) →
      Trimmed (join sep ts) ∧ (ts ≠ [] → join sep ts ≠ [])
  | [], _, _ => ⟨trimmed_nil, fun h => absurd rfl h⟩
  | [t], ht, h₀ => ⟨ht t (by simp), fun _ => h₀ t (by simp)⟩
  | t :: t' :: ts, ht, h₀ => by
    have ih : Trimmed (join sep (t' :: ts)) ∧
        (t' :: ts ≠ [] → join sep (t' :: ts) ≠ []) :=
      trimmed_join sep (fun x hx => ht x (List.mem_cons_of_mem _ hx))
        fun x hx => h₀ x (List.mem_cons_of_mem _ hx)
    have hne := ih.2 (by simp)
    have htne := h₀ t (by simp)
    rw [join]
    · refine ⟨⟨?_, ?_⟩, fun _ => by simp [hne]⟩
      · rw [List.append_assoc, List.head?_append_of_ne_nil _ htne]
        exact (ht t (by simp)).start
      · rw [List.getLast?_append_of_ne_nil _ hne]
        exact ih.1.stop
    · simp

theorem trimmed_of_spaced {t : Text} (h : Spaced t) : Trimmed t := by
  rw [← h]
  exact (trimmed_join [' ']
    (fun w hw => trimmed_of_forall (solid_of_mem_words hw).noBlank) fun w hw =>
    (solid_of_mem_words hw).ne_nil).1

/-- A text without blanks at its ends has single spaces if all its blanks are
spaces and no two of them are neighbours. -/
theorem spaced_of_trimmed {t : Text} (h : Trimmed t) (hs : SpaceOnly t)
    (hd : ¬ [' ', ' '] <:+: t) : Spaced t := by
  refine words_induction (P := fun t => Trimmed t → SpaceOnly t →
    ¬ [' ', ' '] <:+: t → Spaced t) ?_ ?_ t h hs hd
  · intro v hv _ _ _
    by_cases h₀ : v = []
    · subst h₀
      rfl
    · exact spaced_of_solid ⟨h₀, hv⟩
  · intro v c u hv hc ih h hs hd
    obtain rfl : c = ' ' := hs c (by simp) hc
    -- a blank at an end of the text, or behind another one, is excluded
    have hv₀ : v ≠ [] := by
      rintro rfl
      cases h.start ' ' rfl
    have hu₀ : u ≠ [] := by
      rintro rfl
      cases h.stop ' ' (by rw [List.getLast?_concat]; rfl)
    have hu : Trimmed u := by
      refine ⟨fun d hd' => ?_, fun d hd' => h.stop d ?_⟩
      · by_contra hb
        obtain ⟨u, rfl⟩ := List.head?_eq_some_iff.1 hd'
        obtain rfl : d = ' ' := hs d (by simp) (by simpa using hb)
        exact hd ⟨v, u, by simp⟩
      · rwa [List.append_cons, List.getLast?_append_of_ne_nil _ hu₀]
    have hsu : Spaced u := ih hu (hs.of_subset fun d hd => by simp [hd])
      fun hi => hd (hi.trans ⟨v ++ [' '], [], by simp⟩)
    have hjoin : v ++ ' ' :: u = join [' '] [v, u] := by simp [join]
    rw [hjoin]
    refine spaced_join ?_ ?_ <;> simp [spaced_of_solid ⟨hv₀, hv⟩, hsu, hv₀, hu₀]

/-! ## The last word -/

theorem cutLast_eq_none_iff {c : Char} :
    ∀ {t : Text}, cutLast c t = none ↔ c ∉ t
  | [] => by simp [cutLast]
  | d :: t => by
    have ih := cutLast_eq_none_iff (c := c) (t := t)
    unfold cutLast
    cases h : cutLast c t with
    | none =>
      have hc := ih.1 h
      by_cases hd : d = c
      · simp [hd]
      · simp [hd, hc, Ne.symm hd]
    | some cut =>
      have hc : c ∈ t := by
        by_contra hc
        rw [ih.2 hc] at h
        cases h
      simp [hc]

theorem cutLast_append {c : Char} {a b : Text} (hb : c ∉ b) :
    cutLast c (a ++ c :: b) = some (a, b) := by
  induction a with
  | nil => simp [cutLast, cutLast_eq_none_iff.2 hb]
  | cons d a ih =>
    rw [List.cons_append, cutLast, ih]

/-- A text is cut at a character that does not follow again. -/
theorem cutLast_eq_some_iff {c : Char} {t a b : Text} :
    cutLast c t = some (a, b) ↔ t = a ++ c :: b ∧ c ∉ b := by
  constructor
  · intro h
    have hc : c ∈ t := by
      by_contra hc
      rw [cutLast_eq_none_iff.2 hc] at h
      cases h
    -- the last `c` of a text is the first one of its reverse
    obtain ⟨u, v, e, hu⟩ := List.eq_append_cons_of_mem (List.mem_reverse.2 hc)
    have e' : t = v.reverse ++ c :: u.reverse := by
      rw [← List.reverse_inj, e]
      simp
    rw [e', cutLast_append (by simpa using hu)] at h
    cases h
    exact ⟨e', by simpa using hu⟩
  · rintro ⟨rfl, hb⟩
    exact cutLast_append hb

theorem afterLast_of_not_mem {c : Char} {t : Text} (h : c ∉ t) :
    afterLast c t = t := by
  rw [afterLast, cutLast_eq_none_iff.2 h]

theorem afterLast_append {c : Char} {a b : Text} (hb : c ∉ b) :
    afterLast c (a ++ c :: b) = b := by
  rw [afterLast, cutLast_append hb]

/-- What follows the last `c` starts the text or stands behind a `c`. -/
theorem exists_afterLast (c : Char) (t : Text) :
    ∃ a, t = a ++ afterLast c t ∧ (a = [] ∨ a.getLast? = some c) ∧
      c ∉ afterLast c t := by
  cases h : cutLast c t with
  | none =>
    have hc := cutLast_eq_none_iff.1 h
    rw [afterLast_of_not_mem hc]
    exact ⟨[], rfl, .inl rfl, hc⟩
  | some cut =>
    obtain ⟨a, b⟩ := cut
    obtain ⟨rfl, hb⟩ := cutLast_eq_some_iff.1 h
    rw [afterLast_append hb]
    exact ⟨a ++ [c], by simp, .inr (by simp), hb⟩

/-! ## Normal form -/

/-- Without a final semicolon, the normal form of a text is its words with
single spaces. -/
theorem normalize_eq_collapse {t : Text}
    (h : (collapse t).getLast? ≠ some ';') : normalize t = collapse t := by
  unfold normalize
  split
  · next before hb =>
    refine absurd ?_ h
    rw [List.getLast?_eq_head?_reverse, hb]
    rfl
  · rfl

/-- The normal form is the words with single spaces, less a semicolon and a
blank at the end. -/
theorem normalize_cases (t : Text) :
    normalize t = collapse t ∨ ∃ r, Blank r ∧
      collapse t = normalize t ++ r ++ [';'] := by
  unfold normalize
  split
  · next before hb =>
    obtain ⟨r, hr, e, -⟩ := exists_trimEnd before.reverse
    refine .inr ⟨r, hr, ?_⟩
    rw [← e, ← List.reverse_inj, hb]
    simp
  · exact .inl rfl

/-- The normal form starts the collapsed text: at most a semicolon is taken off
its end. -/
theorem normalize_isPrefix (t : Text) : normalize t <+: collapse t := by
  rcases normalize_cases t with h | ⟨r, -, h⟩
  · exact h ▸ List.prefix_rfl
  · exact ⟨r ++ [';'], by rw [h, List.append_assoc]⟩

theorem spaceOnly_normalize (t : Text) : SpaceOnly (normalize t) :=
  (spaceOnly_of_spaced (spaced_collapse t)).of_subset
    (normalize_isPrefix t).subset

end SqlRiver.Text
