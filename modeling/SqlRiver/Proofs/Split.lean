import Mathlib.Order.WellFounded
import SqlRiver.Proofs.Keyword.Absence
import SqlRiver.Split

/-!
# Splits at commas and keywords

A text is split at the first separator of its top level, and what follows is
split in the same way. For a keyword the separators are the places where it
stands, for a comma all commas of the top level. With these equations a split is
never unfolded again.

Main statements:

* `split_of_absent`, `split_of_stands`: splits at a keyword.
* `split_of_noTop`, `split_comma`: splits at commas.
* `split_phrase_induction`, `split_comma_induction`: induction along a split.
-/

namespace SqlRiver

/-- A separator is spelled by `m` at depth zero, as a whole word if it is like
one, when a text starts at depth `d` behind the character `before`. -/
structure Separator (sep : Text) (before : Option Char) (d : Int)
    (a m c : Text) : Prop where
  spelled : m.lower = sep.lower
  top : d + depth a = 0
  whole : isWordLike sep = true →
    atEdge (a.getLast?.or before) = true ∧ atEdge c.head? = true

section General

variable {sep : Text}

/-- A separator stands at a place if the text ahead starts with it. -/
theorem separates_iff (h₀ : sep ≠ []) {before : Option Char} {t : Text} :
    separates sep before t = true ↔
    ∃ m c, t = m ++ c ∧ Separator sep before 0 [] m c := by
  simp only [separates, Bool.and_eq_true, Bool.not_eq_true',
    List.isEmpty_eq_false_iff, Bool.or_eq_true, isWhole, Text.leads_iff]
  constructor
  · rintro ⟨⟨-, m, c, rfl, hm⟩, h⟩
    refine ⟨m, c, rfl, hm, rfl, fun hl => ?_⟩
    rcases h with h | ⟨hb, hc⟩
    · rw [h] at hl
      cases hl
    · exact ⟨by simpa using hb,
        by simpa [← Text.length_eq_of_lower_eq hm] using hc⟩
  · rintro ⟨m, c, rfl, hs⟩
    refine ⟨⟨h₀, m, c, rfl, hs.spelled⟩, ?_⟩
    cases hl : isWordLike sep with
    | false => exact .inl rfl
    | true =>
      obtain ⟨hb, hc⟩ := hs.whole hl
      exact .inr ⟨by simpa using hb,
        by simpa [← Text.length_eq_of_lower_eq hs.spelled] using hc⟩

/-- No separator is taken at a place where there is none. -/
theorem separates_eq_false (h₀ : sep ≠ []) {before : Option Char} {d : Int}
    {t : Text} (h : ∀ m c, t = m ++ c → ¬ Separator sep before d [] m c) :
    (d == 0 && separates sep before t) = false := by
  rw [Bool.eq_false_iff]
  intro hsep
  obtain ⟨hd, hsep⟩ := Bool.and_eq_true_iff.1 hsep
  obtain ⟨m, c, hmc, hs⟩ := (separates_iff h₀).1 hsep
  obtain rfl : d = 0 := by simpa using hd
  exact h m c hmc hs

/-- A separator behind the first character of a text is one behind that
character. -/
theorem separator_cons_iff {before : Option Char} {d : Int} {e : Char}
    {a m c : Text} :
    Separator sep before d (e :: a) m c ↔
    Separator sep (some e) (d + depthStep e) a m c := by
  have hlast := getLast?_cons_or e a before
  constructor
  · intro h
    refine ⟨h.spelled, ?_, fun hl => hlast ▸ h.whole hl⟩
    rw [← h.top, depth_cons, Int.add_assoc]
  · intro h
    refine ⟨h.spelled, ?_, fun hl => hlast.symm ▸ h.whole hl⟩
    rw [← h.top, depth_cons, Int.add_assoc]

/-- The characters of a separator that has been read are passed over. -/
theorem splitFrom_inside (sep : Text) :
    ∀ (x : Text) (before : Option Char) (d : Int) (t : Text), splitFrom sep
      x.length before d (x ++ t) = splitFrom sep 0 (x.getLast?.or before) d t
  | [], before, d, t => by simp
  | c :: x, before, d, t => by
    rw [List.length_cons, List.cons_append, splitFrom,
      splitFrom_inside sep x (some c) d t, getLast?_cons_or]

/-- A text without a separator is not split. -/
theorem splitFrom_of_forall (h₀ : sep ≠ []) :
    ∀ {t : Text} {before : Option Char} {d : Int},
      (∀ a m c, t = a ++ m ++ c → ¬ Separator sep before d a m c) →
      splitFrom sep 0 before d t = ⟨t, []⟩
  | [], _, _, _ => rfl
  | e :: t, before, d, h => by
    have hhere := separates_eq_false h₀ fun m c => h [] m c
    rw [splitFrom, if_neg (by simp [hhere]), splitFrom_of_forall h₀]
    · rfl
    · rintro a m c rfl hs
      exact h (e :: a) m c rfl (separator_cons_iff.2 hs)

/-- A text is split at the first separator, and then behind it. -/
theorem splitFrom_of_separator (h₀ : sep ≠ []) :
    ∀ {a m c : Text} {before : Option Char} {d : Int},
      Separator sep before d a m c → (∀ u x n v, a = u ++ x → x ≠ [] →
      x ++ m ++ c = n ++ v → ¬ Separator sep before d u n v) →
      splitFrom sep 0 before d (a ++ m ++ c) =
      ⟨a, (m, (splitFrom sep 0 m.getLast? 0 c).first) ::
      (splitFrom sep 0 m.getLast? 0 c).rest⟩
  | [], m, c, before, d, hs, _ => by
    obtain rfl : d = 0 := by simpa using hs.top
    have hlen : m.length = sep.length := Text.length_eq_of_lower_eq hs.spelled
    obtain ⟨e, m', rfl⟩ : ∃ e m', m = e :: m' := by
      refine List.exists_cons_of_ne_nil fun hm => h₀ ?_
      rw [hm] at hlen
      exact List.length_eq_zero_iff.1 hlen.symm
    have hsep : separates sep before (e :: (m' ++ c)) = true :=
      (separates_iff h₀).2 ⟨e :: m', c, rfl, hs⟩
    have hinside : sep.length - 1 = m'.length := by
      rw [← hlen, List.length_cons, Nat.add_sub_cancel]
    have htake : (e :: (m' ++ c)).take sep.length = e :: m' := by
      rw [← hlen, ← List.cons_append, List.take_left']
      rfl
    have hlast : m'.getLast?.or (some e) = (e :: m').getLast? := by
      rw [← getLast?_cons_or e m' none, Option.or_none]
    rw [List.nil_append, List.cons_append, splitFrom, if_pos (by simp [hsep]),
      hinside, htake, splitFrom_inside, hlast]
  | e :: a, m, c, before, d, hs, h => by
    have hhere := separates_eq_false h₀ (t := e :: a ++ m ++ c) fun n v hnv =>
      h [] (e :: a) n v rfl (by simp) hnv
    have ih := splitFrom_of_separator h₀ (separator_cons_iff.1 hs)
      fun u x n v hux hx hnv hs' =>
      h (e :: u) x n v (by simp [hux]) hx hnv (separator_cons_iff.2 hs')
    rw [List.cons_append, List.cons_append, splitFrom,
      if_neg (by simpa using hhere), ih]
    rfl

/-- A text is one piece, or it is split at the first separator. -/
theorem splitFrom_cases (h₀ : sep ≠ []) (before : Option Char) (d : Int)
    (t : Text) :
    ((∀ a m c, t = a ++ m ++ c → ¬ Separator sep before d a m c) ∧
      splitFrom sep 0 before d t = ⟨t, []⟩) ∨
    ∃ a m c, t = a ++ m ++ c ∧ Separator sep before d a m c ∧
      (∀ u x n v, a = u ++ x → x ≠ [] → x ++ m ++ c = n ++ v →
      ¬ Separator sep before d u n v) ∧ splitFrom sep 0 before d t =
      ⟨a, (m, (splitFrom sep 0 m.getLast? 0 c).first) ::
      (splitFrom sep 0 m.getLast? 0 c).rest⟩ := by
  by_cases h : ∃ a m c, t = a ++ m ++ c ∧ Separator sep before d a m c
  · obtain ⟨a, ⟨m, c, rfl, hs⟩, hleast⟩ :=
      WellFounded.has_min (measure List.length).wf {a | ∃ m c, t = a ++ m ++ c ∧
        Separator sep before d a m c} h
    have hfirst : ∀ u x n v, a = u ++ x → x ≠ [] → x ++ m ++ c = n ++ v →
        ¬ Separator sep before d u n v := by
      rintro u x n v rfl hx hnv hs'
      have hshorter : u.length < (u ++ x).length := by
        have := List.length_pos_iff.2 hx
        rw [List.length_append]
        omega
      refine hleast u ⟨n, v, ?_, hs'⟩ hshorter
      rw [List.append_assoc u n, ← hnv]
      simp only [List.append_assoc]
    exact .inr ⟨a, m, c, rfl, hs, hfirst, splitFrom_of_separator h₀ hs hfirst⟩
  · have habs : ∀ a m c, t = a ++ m ++ c → ¬ Separator sep before d a m c :=
      fun a m c ht hs => h ⟨a, m, c, ht, hs⟩
    exact .inl ⟨habs, splitFrom_of_forall h₀ habs⟩

/-- The character before a text matters only for a separator at the start of the
text. -/
theorem splitFrom_before {t : Text}
    (h : isWordLike sep = false ∨ Text.leads sep t = false) (b b' : Option Char)
    (d : Int) : splitFrom sep 0 b d t = splitFrom sep 0 b' d t := by
  cases t with
  | nil => rfl
  | cons c t =>
    have hsep : separates sep b (c :: t) = separates sep b' (c :: t) := by
      rcases h with h | h
      · simp [separates, h]
      · simp [separates, h]
    rw [splitFrom, splitFrom, hsep]

end General

/-! ## Splits at keywords -/

section Phrase

variable {word : Text}

/-- A phrase separates as a whole word. -/
theorem isWordLike_of_isPhrase (hw : isPhrase word = true) :
    isWordLike word = true := by
  obtain ⟨c, hc, hl⟩ := head?_spelling hw rfl
  have hlower : c.isLower = true := by
    rw [← lower_of_isPhrase hw, Text.lower, List.head?_map,
      Option.map_eq_some_iff] at hc
    obtain ⟨d, -, rfl⟩ := hc
    simpa using hl
  have halpha : c.isAlpha = true := isAlpha_iff.2 (.inr (isLower_iff.1 hlower))
  simp [isWordLike, hc, isWordChar, Char.isAlphanum, halpha]

/-- A phrase separates a text where it stands. -/
theorem separator_iff_stands (hw : isPhrase word = true) {a m c : Text} :
    Separator word none 0 a m c ↔ Stands word a m c := by
  constructor
  · intro h
    obtain ⟨hl, hr⟩ := h.whole (isWordLike_of_isPhrase hw)
    exact ⟨h.spelled, by simpa using h.top, by simpa using hl, hr⟩
  · intro h
    exact ⟨h.spelled, by simpa using h.top,
      fun _ => ⟨by simpa using h.left, h.right⟩⟩

/-- A text in which a keyword is absent is not split at it. -/
theorem split_of_absent (hw : isPhrase word = true) {t : Text}
    (h : Absent word t) : split word t = ⟨t, []⟩ :=
  splitFrom_of_forall (ne_nil_of_isPhrase hw) fun a m c ht hs =>
    h a m c ht ((separator_iff_stands hw).1 hs)

/-- A text is split at the first place where a keyword stands. -/
theorem split_of_stands (hw : isPhrase word = true) {a m c : Text}
    (hs : Stands word a m c) (h : AbsentIn word a (m ++ c)) :
    split word (a ++ m ++ c) =
      ⟨a, (m, (split word c).first) :: (split word c).rest⟩ := by
  -- what follows a whole word does not start with the word
  have hlead : Text.leads word c = false := by
    rw [Bool.eq_false_iff]
    intro hl
    obtain ⟨n, v, rfl, hn⟩ := Text.leads_iff.1 hl
    have hright := hs.right
    rw [List.head?_append_of_ne_nil _ (spelling_ne_nil hw hn),
      isEdge_head_spelling hw hn] at hright
    cases hright
  rw [split, splitFrom_of_separator (ne_nil_of_isPhrase hw)
    ((separator_iff_stands hw).2 hs),
    splitFrom_before (.inr hlead) m.getLast? none 0]
  · rfl
  · intro u x n v hux hx hnv hs'
    exact h u x n v hux hx (by simpa using hnv)
      ((separator_iff_stands hw).1 hs')

/-- A text is one piece, or it is split at the first place where the keyword
stands. -/
theorem split_phrase_cases (hw : isPhrase word = true) (t : Text) :
    (Absent word t ∧ split word t = ⟨t, []⟩) ∨
    ∃ a m c, t = a ++ m ++ c ∧ Stands word a m c ∧ AbsentIn word a (m ++ c) ∧
      split word t = ⟨a, (m, (split word c).first) :: (split word c).rest⟩ := by
  cases h : aroundFirst? word t with
  | none =>
    have habs := (aroundFirst?_eq_none_iff hw).1 h
    exact .inl ⟨habs, split_of_absent hw habs⟩
  | some ac =>
    obtain ⟨a, c⟩ := ac
    obtain ⟨m, rfl, hs, habs⟩ := (aroundFirst?_eq_some_iff hw).1 h
    exact .inr ⟨a, m, c, rfl, hs, habs, split_of_stands hw hs habs⟩

/-- Induction along a split at a keyword. -/
theorem split_phrase_induction (hw : isPhrase word = true)
    {P : Text → Split → Prop} (last : ∀ t, Absent word t → P t ⟨t, []⟩)
    (cut : ∀ a m c s, Stands word a m c → AbsentIn word a (m ++ c) → P c s →
    P (a ++ m ++ c) ⟨a, (m, s.first) :: s.rest⟩) (t : Text) :
    P t (split word t) := by
  generalize hn : t.length = n
  induction n using Nat.strongRecOn generalizing t with
  | _ n ih =>
    rcases split_phrase_cases hw t with ⟨habs, e⟩ | ⟨a, m, c, rfl, hs, habs, e⟩
    · rw [e]
      exact last t habs
    · rw [e]
      refine cut a m c _ hs habs (ih c.length ?_ c rfl)
      have := List.length_pos_iff.2 (spelling_ne_nil hw hs.spelled)
      simp only [List.length_append] at hn
      omega

end Phrase

/-! ## Splits at commas -/

/-- Is the character a comma? -/
def isComma (c : Char) : Bool := c == ','

theorem lower_eq_comma {m : Text} (h : m.lower = Text.lower [',']) :
    m = [','] := by
  obtain ⟨c, rfl⟩ := List.length_eq_one_iff.1 (Text.length_eq_of_lower_eq h)
  have hc : c.toLower = ',' := (List.cons.inj h).1
  rw [(toLower_eq_iff rfl).1 hc]

/-- A text without a comma at its top level is not split. -/
theorem split_of_noTop {t : Text} (h : NoTop isComma t) :
    split [','] t = ⟨t, []⟩ := by
  refine splitFrom_of_forall (by simp) fun a m c ht hs => ?_
  obtain rfl := lower_eq_comma hs.spelled
  have := h a ',' c (by simp [ht]) (by simpa using hs.top)
  cases this

/-- A text is split at the first comma of its top level. -/
theorem split_comma {a c : Text} (ha : NoTop isComma a) (hd : depth a = 0) :
    split [','] (a ++ ',' :: c) =
      ⟨a, ([','], (split [','] c).first) :: (split [','] c).rest⟩ := by
  have hs : Separator [','] none 0 a [','] c :=
    ⟨rfl, by simpa using hd, fun h => absurd h (by decide)⟩
  have happ : a ++ ',' :: c = a ++ [','] ++ c := by simp
  rw [happ, split, splitFrom_of_separator (by simp) hs,
    splitFrom_before (.inl (by decide)) _ none 0]
  · rfl
  · rintro u x n v rfl hx hnv hs'
    obtain rfl := lower_eq_comma hs'.spelled
    obtain ⟨e, x, rfl⟩ := List.exists_cons_of_ne_nil hx
    obtain ⟨rfl, -⟩ := List.cons.inj hnv
    have := ha u ',' x rfl (by simpa using hs'.top)
    cases this

/-- Induction along a split at commas. -/
theorem split_comma_induction {P : Text → Split → Prop}
    (last : ∀ t, NoTop isComma t → P t ⟨t, []⟩)
    (cut : ∀ a c s, NoTop isComma a → depth a = 0 → P c s →
    P (a ++ ',' :: c) ⟨a, ([','], s.first) :: s.rest⟩) (t : Text) :
    P t (split [','] t) := by
  generalize hn : t.length = n
  induction n using Nat.strongRecOn generalizing t with
  | _ n ih =>
    cases h : topPosition? isComma t with
    | none =>
      have hno := topPosition?_eq_none_iff.1 h
      rw [split_of_noTop hno]
      exact last t hno
    | some pos =>
      obtain ⟨a, d, c, rfl, -, hd, hcomma, hno⟩ := topPosition?_eq_some h
      obtain rfl : d = ',' := by simpa [isComma] using hcomma
      rw [split_comma hno hd]
      refine cut a c _ hno hd (ih c.length ?_ c rfl)
      simp only [List.length_append, List.length_cons] at hn
      omega

end SqlRiver
