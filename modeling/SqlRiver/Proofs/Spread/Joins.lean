import SqlRiver.Proofs.Reading.Grounded
import SqlRiver.Proofs.Spread.Clauses

/-!
# Joins and sources of spread texts

The words before `join` that choose its kind are looked for from the end of a
piece, one after the other, as far back as spaces part them from what stands
before. Where none of them touches a sign, the same words are taken off the
spread text.

Main definitions and statements:

* `Behind`: words that choose a kind stand behind a text.
* `Unjoined`: behind no sign of a text do only such words follow.
* `Spread.exists_lastWord`, `Spread.isJoinModifier_lastWord`,
  `Spread.modifiersStart`, `Spread.trailingModifiers`: the words before `join`.
* `Spread.alike_joinKind`: the kind they choose.
* `alike_readMore`, `Alike.readSources`: sources behind commas, which are joins
  too.
* `Spread.alike_readJoin`, `JoinedAlike.alike_joinsOf`: one join, and all of
  them.
-/

namespace SqlRiver

open Text

variable {s : Char} [Sign s] {G : Text → Prop} {t u : Text}

/-! ## Words that choose a kind -/

/-- Each character of a text that is not blank is in one of its words. -/
theorem mem_words_of_mem {t : Text} {d : Char} (hd : d ∈ t)
    (hb : isBlank d = false) : ∃ w ∈ words t, d ∈ w := by
  induction t using words_induction with
  | last v hv =>
    have h₀ : v ≠ [] := List.ne_nil_of_mem hd
    exact ⟨v, by simp [words_of_solid ⟨h₀, hv⟩], hd⟩
  | cut v e u hv he ih =>
    rw [words_append he]
    rcases List.mem_append.1 hd with hd | hd
    · have h₀ : v ≠ [] := List.ne_nil_of_mem hd
      exact ⟨v, by simp [words_of_solid ⟨h₀, hv⟩], hd⟩
    · rcases List.mem_cons.1 hd with rfl | hd
      · rw [he] at hb
        cases hb
      · obtain ⟨w, hw, hdw⟩ := ih hd
        exact ⟨w, List.mem_append_right _ hw, hdw⟩

/-- A word that chooses a kind of join has letters only, and no `j`. -/
theorem isLower_of_isJoinModifier {w : Text} (h : isJoinModifier w = true) :
    ∀ d ∈ w, d.toLower.isLower = true ∧ d.toLower ≠ 'j' := by
  have hall : ∀ k ∈ Keyword.all, k.isJoinModifier = true →
      ∀ d ∈ k.text, d.isLower = true ∧ d ≠ 'j' := by
    decide
  unfold isJoinModifier at h
  split at h
  · next k hk =>
    have hlower : k.text = w.lower := by simpa using List.find?_some hk
    intro d hd
    refine hall k (List.mem_of_find?_eq_some hk) h d.toLower ?_
    rw [hlower]
    exact List.mem_map_of_mem hd
  · cases h

/-- The words for the kinds of joins have no space in them. -/
theorem solid_of_isJoinModifier {w : Text} (h : isJoinModifier w = true) :
    Solid w := by
  refine ⟨?_, fun c hc => ?_⟩
  · rintro rfl
    rw [isJoinModifier_nil] at h
    cases h
  · rw [← isBlank_toLower]
    exact isBlank_of_isLower (isLower_of_isJoinModifier h c hc).1

theorem Sign.not_mem_modifier {w : Text} (h : isJoinModifier w = true) :
    s ∉ w := fun hmem => by
  have hl := (isLower_of_isJoinModifier h s hmem).1
  rw [Sign.not_letter s] at hl
  cases hl

/-- A word that stands apart at the end of a text is found as its last
word. -/
theorem lastWord_append {pre w r : Text} (hw : Solid w) (hr : Blank r)
    (hpre : pre = [] ∨ pre.getLast? = some ' ') (tail : Text) :
    lastWord (pre ++ w ++ r ++ tail) (pre ++ w ++ r).length = w ∧
      lastWordStart (pre ++ w ++ r ++ tail) (pre ++ w ++ r).length =
        pre.length := by
  have hend : trimEnd (pre ++ w ++ r) = pre ++ w := by
    refine trimEnd_pad hr fun c hc => hw.noBlank c (List.mem_of_getLast? ?_)
    rwa [List.getLast?_append_of_ne_nil _ hw.ne_nil] at hc
  have hsp : ' ' ∉ w := fun hmem => by cases hw.noBlank _ hmem
  have hlast : afterLast ' ' (pre ++ w) = w := by
    rcases hpre with rfl | hpre
    · exact afterLast_of_not_mem hsp
    · obtain ⟨x, rfl⟩ := List.getLast?_eq_some_iff.1 hpre
      rw [List.append_assoc, List.singleton_append, afterLast_append hsp]
  rw [lastWord, lastWordStart, List.take_left, hend, hlast, List.length_append]
  exact ⟨rfl, by omega⟩

/-- The words of `tail` choose a kind of join, and blanks part them from the
text before them. -/
structure Behind (h tail : Text) : Prop where
  words : ∀ w ∈ words tail, isJoinModifier w = true
  apart : tail = [] ∨ h = [] ∨ h.getLast? = some ' '

/-- One more word that chooses a kind. -/
theorem Behind.words_cons {h pre w r tail : Text} (hb : Behind h tail)
    (e : h = pre ++ w ++ r) (hm : isJoinModifier w = true) (hr : Blank r) :
    ∀ v ∈ Text.words (w ++ r ++ tail), isJoinModifier v = true := by
  have hw := solid_of_isJoinModifier hm
  by_cases hr₀ : r = []
  · subst hr₀
    -- the text does not end with a blank, so nothing stands behind it
    obtain rfl : tail = [] := by
      refine hb.apart.resolve_right ?_
      rintro (rfl | hl)
      · simp [hw.ne_nil] at e
      · rw [e, List.append_nil, List.getLast?_append_of_ne_nil _ hw.ne_nil]
          at hl
        cases hw.noBlank _ (List.mem_of_getLast? hl)
    simpa [words_of_solid hw] using hm
  · rw [words_append_blank hr hr₀, words_of_solid hw]
    simpa [hm] using hb.words

/-- Behind no sign that leaves the depth at zero do only words follow that
choose a kind of join, unless a space parts them from it. -/
def Unjoined (s : Char) (t : Text) : Prop :=
  ∀ x y, t = x ++ s :: y → depth x + depthStep s = 0 → y.head? ≠ some ' ' →
    y ≠ [] → ¬ ∀ w ∈ words y, isJoinModifier w = true

omit [Sign s] in
/-- Blanks at the ends of a text do not join what stands in it. -/
theorem Unjoined.trim (h : Unjoined s t) : Unjoined s t.trim := by
  obtain ⟨l, r, hl, hr, e⟩ := exists_trim t
  intro x y exy hx hy h₀ hg
  rw [exy] at e
  have hd : depth (l ++ x) + depthStep s = 0 := by
    rwa [depth_append, depth_blank hl, Int.zero_add]
  refine h (l ++ x) (y ++ r) (by rw [e]; simp) hd ?_ (by simp [h₀]) ?_
  · rwa [List.head?_append_of_ne_nil _ h₀]
  · intro w hw
    refine hg w ?_
    by_cases hr₀ : r = []
    · simpa [hr₀] using hw
    · have hwords := words_append_blank hr hr₀ y []
      rw [List.append_nil] at hwords
      simpa [hwords] using hw

namespace Spread

/-- A last word that chooses a kind stands at the end of the spread text, too,
and what stands before it is spread. -/
theorem exists_lastWord {h h' tail : Text} (hG : Kept G) (hb : Behind h tail)
    (hl : Spread s G 0 h h')
    (hm : isJoinModifier (lastWord (h ++ tail) h.length) = true) :
    isJoinModifier (lastWord (h' ++ tail) h'.length) = true ∧
      ∃ pre pre' v, h = pre ++ v ∧ h' = pre' ++ v ∧ v ≠ [] ∧
        Spread s G 0 pre pre' ∧
        lastWordStart (h ++ tail) h.length = pre.length ∧
        lastWordStart (h' ++ tail) h'.length = pre'.length ∧
        Behind pre (v ++ tail) := by
  obtain ⟨pre, r, e, hr, hpre, hstart⟩ := SqlRiver.exists_lastWord h tail
  generalize lastWord (h ++ tail) h.length = w at *
  have hw := solid_of_isJoinModifier hm
  have hvb : Behind pre (w ++ r ++ tail) := ⟨hb.words_cons e hm hr, .inr hpre⟩
  have hcut : Apart pre (w ++ r) := by
    refine .inl fun c hc => ?_
    rcases hpre with rfl | hpre
    · cases hc
    · obtain rfl : ' ' = c := Option.some.inj (hpre.symm.trans hc)
      rfl
  rw [e, List.append_assoc] at hl
  obtain ⟨pre', z, rfl, hp, hz⟩ := hl.cut hG hcut
  have hnot : s ∉ w ++ r := by
    rw [List.mem_append]
    exact not_or.2 ⟨Sign.not_mem_modifier hm, Sign.not_mem_blank s hr⟩
  obtain rfl := hz.eq_of_not_mem hnot
  have hpre' : pre' = [] ∨ pre'.getLast? = some ' ' := by
    rcases hpre with rfl | hpre
    · exact .inl (hp.eq_nil_iff.2 rfl)
    · exact .inr (hp.getLast?_cases.elim (fun hlast => by rw [hlast, hpre])
        fun hlast => hlast.2.1)
  obtain ⟨hlast, hstart'⟩ := lastWord_append hw hr hpre' tail
  rw [← List.append_assoc]
  exact ⟨by rw [hlast, hm], pre, pre', w ++ r, by simp [e], by simp,
    by simp [hw.ne_nil], hp, hstart, hstart', by simpa using hvb⟩

/-- Where the last word chooses no kind, that of the spread text chooses none:
only words for a kind would follow a sign. -/
theorem isJoinModifier_lastWord {h h' tail : Text}
    (hu : Unjoined s (h ++ tail)) (hb : Behind h tail)
    (hl : Spread s G 0 h h')
    (hm : isJoinModifier (lastWord (h ++ tail) h.length) = false) :
    isJoinModifier (lastWord (h' ++ tail) h'.length) = false := by
  by_contra hm'
  have hm' : isJoinModifier (lastWord (h' ++ tail) h'.length) = true := by
    simpa using hm'
  obtain ⟨pre', r, e, hr, hpre', -⟩ := SqlRiver.exists_lastWord h' tail
  generalize lastWord (h' ++ tail) h'.length = w at *
  have hw := solid_of_isJoinModifier hm'
  rw [e, List.append_assoc] at hl
  have hcut : pre'.getLast? ≠ some s := by
    rcases hpre' with rfl | hpre'
    · simp
    · simpa [hpre'] using (Sign.ne_space s).symm
  obtain ⟨pre, z, rfl, hp, hz⟩ := hl.exists_parts (.inl hcut)
  have hnot : s ∉ z := by
    rw [← hz.mem_iff (Sign.ne_space s), List.mem_append]
    exact not_or.2 ⟨Sign.not_mem_modifier hm', Sign.not_mem_blank s hr⟩
  obtain rfl := hz.eq_of_not_mem hnot
  have e' : pre ++ (w ++ r) = pre ++ w ++ r := by simp
  rcases hp.getLast?_cases with hlast | ⟨hlast, -, hd⟩
  · -- the word stands apart in the text as well
    have hpre : pre = [] ∨ pre.getLast? = some ' ' := by
      rwa [← hlast, ← hp.eq_nil_iff]
    rw [e', (lastWord_append hw hr hpre tail).1, hm'] at hm
    cases hm
  · -- or only words that choose a kind follow a sign
    obtain ⟨x, rfl⟩ := List.getLast?_eq_some_iff.1 hlast
    rw [depth_append, depth_cons, depth_nil, Int.add_zero, Int.zero_add] at hd
    refine hu x (w ++ r ++ tail) (by simp) hd ?_ (by simp [hw.ne_nil])
      (hb.words_cons e' hm' hr)
    rw [List.append_assoc, List.head?_append_of_ne_nil _ hw.ne_nil]
    intro hhead
    cases hw.noBlank _ (List.mem_of_head? hhead)

/-- As many words are taken off the spread text as off the text. -/
theorem modifiersStart (hG : Kept G) :
    ∀ {n k : Nat} {h h' tail : Text}, h.length ≤ n → h'.length ≤ k →
      Unjoined s (h ++ tail) → Behind h tail → Spread s G 0 h h' →
      ∃ x x' y, h ++ tail = x ++ y ∧ h' ++ tail = x' ++ y ∧
        Spread s G 0 x x' ∧
        SqlRiver.modifiersStart (h ++ tail) n h.length = x.length ∧
        SqlRiver.modifiersStart (h' ++ tail) k h'.length = x'.length := by
  intro n
  induction n with
  | zero =>
    intro k h h' tail hn _ _ _ hl
    obtain rfl : h = [] := by simpa using hn
    obtain rfl : h' = [] := hl.eq_nil_iff.2 rfl
    refine ⟨[], [], tail, rfl, rfl, .nil 0, rfl, ?_⟩
    cases k with
    | zero => rfl
    | succ k =>
      have hm : isJoinModifier (lastWord tail 0) = false := isJoinModifier_nil
      exact if_neg (by simp [hm])
  | succ n ih =>
    intro k h h' tail hn hk hu hb hl
    cases hm : isJoinModifier (lastWord (h ++ tail) h.length) with
    | false =>
      have hm' := hl.isJoinModifier_lastWord hu hb hm
      refine ⟨h, h', tail, rfl, rfl, hl, ?_, ?_⟩
      · rw [SqlRiver.modifiersStart, if_neg (by simp [hm])]
      · cases k with
        | zero => rfl
        | succ k => rw [SqlRiver.modifiersStart, if_neg (by simp [hm'])]
    | true =>
      obtain ⟨hm', pre, pre', v, rfl, rfl, hv, hp, hstart, hstart', hb'⟩ :=
        hl.exists_lastWord hG hb hm
      have hlen := List.length_pos_iff.2 hv
      simp only [List.length_append] at hn hk
      cases k with
      | zero => omega
      | succ k =>
        rw [SqlRiver.modifiersStart, if_pos hm, SqlRiver.modifiersStart,
          if_pos hm', hstart, hstart']
        simp only [List.append_assoc] at hu ⊢
        exact ih (by omega) (by omega) hu hb' hp

/-- The same words are taken off both texts, and what is left is spread. -/
theorem trailingModifiers (hG : Kept G) (hu : Unjoined s t)
    (h : Spread s G 0 t u) :
    (SqlRiver.trailingModifiers u).2 = (SqlRiver.trailingModifiers t).2 ∧
      ∃ x x', Spread s G 0 x x' ∧ (SqlRiver.trailingModifiers t).1 = x.trim ∧
        (SqlRiver.trailingModifiers u).1 = x'.trim := by
  have hb : Behind t [] := ⟨by simp [Text.words_blank blank_nil], .inl rfl⟩
  obtain ⟨x, x', y, e, e', hx, hlen, hlen'⟩ :=
    h.modifiersStart hG (Nat.le_refl _) (Nat.le_refl _) (by simpa using hu) hb
  simp only [List.append_nil] at e e' hlen hlen'
  rw [SqlRiver.trailingModifiers, SqlRiver.trailingModifiers, hlen, hlen', e,
    e']
  simp only [List.take_left, List.drop_left, true_and]
  exact ⟨x, x', hx, rfl, rfl⟩

end Spread

/-! ## Kinds -/

/-- A sign is in no word that chooses a kind. -/
theorem joinKind_of_mem {modifiers : Text} (h : s ∈ modifiers) :
    ∃ e, joinKind modifiers = .error e := by
  obtain ⟨w, hw, hmem⟩ := mem_words_of_mem h (Sign.not_blank (s := s))
  have hnone : modifierWords.find?
      (fun entry => entry.1 == modifiers.words.map Text.lower) = none := by
    refine List.find?_eq_none.2 fun entry he hwords => ?_
    have hall : ∀ entry ∈ modifierWords, ∀ v ∈ entry.1, ∀ d ∈ v,
        d.isLower = true := by
      decide
    have hl := hall entry he w.lower (by
      rw [beq_iff_eq.1 hwords]
      exact List.mem_map_of_mem hw) s.toLower (List.mem_map_of_mem hmem)
    rw [Sign.not_letter s] at hl
    cases hl
  exact ⟨_, by rw [joinKind, hnone]⟩

/-- A space before `join` does not change the kind. -/
theorem Spread.alike_joinKind (h : Spread s G 0 t u) :
    Alike Eq (joinKind t) (joinKind u) := by
  by_cases hb : s ∈ t
  · obtain ⟨e, ht⟩ := joinKind_of_mem hb
    obtain ⟨e', hu⟩ := joinKind_of_mem ((h.mem_iff (Sign.ne_space s)).2 hb)
    rw [ht, hu]
    trivial
  · rw [h.eq_of_not_mem hb]
    exact alike_refl (fun _ => rfl) _

variable {nested : Nested} {literals : LiteralTable}

/-! ## Sources behind commas -/

section Listed

variable {R : Text → Text → Prop}
  (hhead : ∀ {t u : Text}, R t u → u.head? = t.head?)
  (hlisted : ∀ {tail tail' : Text}, R (',' :: tail) (',' :: tail') →
    Alike (fun p q => p.1 = q.1 ∧ R p.2 q.2)
      (readListed nested literals tail.trim)
      (readListed nested literals tail'.trim))
include hhead hlisted

/-- The sources behind commas are the same in related texts, if behind each
comma the same source is read and leaves related texts again. -/
theorem alike_readMore :
    ∀ (bound : Nat) {t u : Text}, R t u →
      Alike (fun p q => p.1 = q.1 ∧ R p.2 q.2)
        (readMore nested literals bound t) (readMore nested literals bound u)
  | 0, _, _, h => ⟨rfl, h⟩
  | bound + 1, t, u, h => by
    by_cases hc : t.head? = some ','
    · obtain ⟨tail, rfl⟩ := List.head?_eq_some_iff.1 hc
      obtain ⟨tail', rfl⟩ := List.head?_eq_some_iff.1 ((hhead h).trans hc)
      simp only [readMore, stripComma?]
      refine (hlisted h).bind ?_
      rintro ⟨source, rest⟩ ⟨_, rest'⟩ ⟨rfl, hrest⟩
      refine (alike_readMore bound hrest).bind ?_
      rintro ⟨more, rest⟩ ⟨_, rest'⟩ ⟨rfl, hrest⟩
      exact ⟨rfl, hrest⟩
    · rw [readMore_of_head _ hc, readMore_of_head _ (by rwa [hhead h])]
      exact ⟨rfl, h⟩

/-- The sources behind `from` are the same, if the first of them is and leaves
related texts. -/
theorem Alike.readSources
    (hfirst : Alike (fun p q => p.1 = q.1 ∧ R p.2 q.2)
      (readListed nested literals t) (readListed nested literals u)) :
    Alike (fun p q => p.1 = q.1 ∧ R p.2 q.2)
      (SqlRiver.readSources nested literals t)
      (SqlRiver.readSources nested literals u) := by
  refine hfirst.bind ?_
  rintro ⟨source, rest⟩ ⟨_, rest'⟩ ⟨rfl, hrest⟩
  -- a larger bound lets no more sources be read, so both may have the same
  have hbound := readMore_eq nested literals (Nat.le_refl _)
    (Nat.le_max_left rest.length rest'.length)
  have hbound' := readMore_eq nested literals (Nat.le_refl _)
    (Nat.le_max_right rest.length rest'.length)
  simp only [hbound, hbound']
  refine (alike_readMore hhead hlisted _ hrest).bind ?_
  rintro ⟨joins, rest⟩ ⟨_, rest'⟩ ⟨rfl, hrest⟩
  exact ⟨rfl, hrest⟩

end Listed

/-! ## One join -/

omit [Sign s] in
/-- Both texts hold the same list in brackets, or neither ends with one. -/
theorem Spread.alike_usingList (h : Spread s G 0 t u) (hu : Trimmed u) :
    Alike Eq (usingList t) (usingList u) := by
  rcases h.unwrap?_cases with
    ⟨ht, hu⟩ | ⟨inside, tail, tail', v, -, e, ht, hu', hv, htail⟩
  · simp only [usingList, ht, hu]
    trivial
  · -- no space stands behind the bracket at the end
    have hnil : tail' = [] ↔ tail = [] := by
      rcases hv with rfl | ⟨-, rfl⟩
      · exact htail.eq_nil_iff
      · refine iff_of_false (by simp) ?_
        rintro rfl
        obtain rfl : v = [] := htail.eq_nil_iff.2 rfl
        have hlast : u = '(' :: inside ++ [')'] ++ [' '] := by simp [e]
        cases hu.stop ' ' (by rw [hlast, List.getLast?_concat]; rfl)
    simp only [usingList, ht, hu']
    cases tail with
    | nil =>
      rw [hnil.2 rfl]
      exact alike_refl (fun _ => rfl) _
    | cons c tail =>
      have hne : tail' ≠ [] := fun h₀ => by cases hnil.1 h₀
      obtain ⟨c', tail', rfl⟩ := List.exists_cons_of_ne_nil hne
      trivial

/-- The joins of two pieces differ in the blanks of their predicates only, if
the same source is read from both and what is left is spread. -/
theorem Spread.alike_readJoin (hG : Kept G) (kind : JoinKind)
    (hsource : Alike (fun p q => p.1 = q.1 ∧ Spread s G 0 p.2 q.2)
      (readSource nested literals joinSourceEnds .join t.trim)
      (readSource nested literals joinSourceEnds .join u.trim)) :
    Alike (fun j j' => j'.squeezedOn = j.squeezedOn)
      (readJoin nested literals kind t) (readJoin nested literals kind u) := by
  refine hsource.bind ?_
  rintro ⟨source, rest⟩ ⟨_, rest'⟩ ⟨rfl, hrest⟩
  simp only at hrest
  simp only [hrest.isEmpty_eq]
  split
  · rfl
  · rcases hrest.stripWord?_cases (isPhrase_phrase .joinOn) with
      ⟨ht, hu⟩ | ⟨m, c, c', -, -, hc, ht, hu⟩
    · simp only [ht, hu]
      rcases hrest.stripWord?_cases (isPhrase_phrase .joinUsing) with
        ⟨ht, hu⟩ | ⟨m, c, c', -, -, hc, ht, hu⟩
      · simp only [ht, hu]
        trivial
      · simp only [ht, hu]
        refine ((hc.trim hG).alike_usingList (trimmed_trim c')).bind ?_
        rintro columns _ rfl
        rfl
    · have hc := hc.trim hG
      simp only [ht, hu, hc.isEmpty_eq]
      split
      · trivial
      · simp only [Alike, Join.squeezedOn, Option.map_some, hc.squeeze_eq]

/-! ## All joins -/

variable (nested literals) in
/-- Pieces behind the places of `join` of which one gives the joins of the
other, but for blanks: the same words stand before the next `join`, and what
stands before these words is read alike. -/
inductive JoinedAlike : List Text → List Text → Prop
  | last {t u : Text}
    (h : ∀ kind, Alike (fun j j' => j'.squeezedOn = j.squeezedOn)
      (readJoin nested literals kind t) (readJoin nested literals kind u)) :
    JoinedAlike [t] [u]
  | cons {t u : Text} {ts us : List Text}
    (hnext : (trailingModifiers u).2 = (trailingModifiers t).2)
    (h : ∀ kind, Alike (fun j j' => j'.squeezedOn = j.squeezedOn)
      (readJoin nested literals kind (trailingModifiers t).1)
      (readJoin nested literals kind (trailingModifiers u).1))
    (hmore : JoinedAlike ts us) : JoinedAlike (t :: ts) (u :: us)

/-- No list of pieces is empty. -/
theorem JoinedAlike.exists_cons {ts us : List Text}
    (h : JoinedAlike nested literals ts us) :
    ∃ p more p' more', ts = p :: more ∧ us = p' :: more' := by
  cases h with
  | last => exact ⟨_, _, _, _, rfl, rfl⟩
  | cons => exact ⟨_, _, _, _, rfl, rfl⟩

/-- The joins of the pieces differ in the blanks of their predicates only, if
the words before the first of them choose the same kind. -/
theorem JoinedAlike.alike_joinsOf {ts us : List Text}
    (h : JoinedAlike nested literals ts us) :
    ∀ {modifiers modifiers' : Text},
      Alike Eq (joinKind modifiers) (joinKind modifiers') →
      Alike (fun js js' => js'.map Join.squeezedOn = js.map Join.squeezedOn)
        (joinsOf nested literals modifiers ts)
        (joinsOf nested literals modifiers' us) := by
  induction h with
  | last h =>
    intro modifiers modifiers' hm
    refine hm.bind ?_
    rintro kind _ rfl
    refine (h kind).bind fun j j' hj => ?_
    simp only [Alike, List.map_cons, List.map_nil, hj]
  | @cons t u ts us hnext h hmore ih =>
    intro modifiers modifiers' hm
    obtain ⟨p, more, p', more', rfl, rfl⟩ := hmore.exists_cons
    simp only [joinsOf]
    refine hm.bind ?_
    rintro kind _ rfl
    refine (h kind).bind fun j j' hj => ?_
    rw [hnext]
    refine (ih (alike_refl (fun _ => rfl) _)).bind fun js js' hjs => ?_
    simp only [Alike, List.map_cons, hj, hjs]

end SqlRiver
