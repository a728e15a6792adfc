import Mathlib.Data.List.Chain
import SqlRiver.Proofs.Line.Joins
import SqlRiver.Proofs.Reading.Nested

/-!
# Texts in good order

A masked text is read once its blanks are single spaces and its brackets are
balanced. Every reader cuts such a text at places of depth zero, so what it
reads and what it leaves are in good order again.

Main definitions and statements:

* `Text.Thin`, `spaced_of_thin`: texts without two blanks in a row.
* `Orderly`: thin texts with balanced brackets, and the cuts that keep them so.
* `IsEntry`, `entries_commaList`: the entries of a list.
* `orderly_regroup`, `conditions_sound`: the predicates of a clause.
* `orderly_trailingModifiers`: the words before `join`.
-/

namespace SqlRiver

open Text

/-! ## Single spaces -/

namespace Text

/-- All blanks are spaces, and no two of them stand in a row. -/
structure Thin (t : Text) : Prop where
  spaceOnly : SpaceOnly t
  apart : t.IsChain fun c d => c ≠ ' ' ∨ d ≠ ' '

theorem Thin.of_isInfix {t u : Text} (h : Thin t) (hu : u <:+: t) : Thin u := by
  refine ⟨h.spaceOnly.of_subset hu.subset, ?_⟩
  obtain ⟨a, b, rfl⟩ := hu
  exact h.apart.left_of_append.right_of_append

theorem thin_of_noBlank {t : Text} (h : ∀ c ∈ t, isBlank c = false) :
    Thin t := by
  have hsp : ∀ c ∈ t, c ≠ ' ' := by
    rintro c hc rfl
    cases h _ hc
  refine ⟨fun c hc hb => ?_, ?_⟩
  · rw [h c hc] at hb
    cases hb
  · induction t with
    | nil => exact .nil
    | cons c t ih =>
      refine List.isChain_cons.2 ⟨fun d _ => .inl (hsp c (by simp)), ih ?_ ?_⟩
      · exact fun d hd => h d (List.mem_cons_of_mem _ hd)
      · exact fun d hd => hsp d (List.mem_cons_of_mem _ hd)

/-- Words with single spaces between them have no two spaces together. -/
theorem thin_join {ws : List Text} (h : ∀ w ∈ ws, Solid w) :
    Thin (join [' '] ws) := by
  induction ws with
  | nil => exact thin_of_noBlank (by simp [join])
  | cons w ws ih =>
    have hw := h w (List.mem_cons_self ..)
    have ih := ih fun v hv => h v (List.mem_cons_of_mem _ hv)
    cases ws with
    | nil => exact thin_of_noBlank hw.noBlank
    | cons v ws =>
      have hv := h v (by simp)
      have hhead : ∀ c ∈ (join [' '] (v :: ws)).head?, c ≠ ' ' := by
        rw [join_cons, List.head?_append_of_ne_nil _ hv.ne_nil]
        rintro c hc rfl
        cases hv.noBlank _ (List.mem_of_head? hc)
      have hw' := thin_of_noBlank hw.noBlank
      have hsp : SpaceOnly (w ++ [' ']) :=
        hw'.spaceOnly.append (by simp [SpaceOnly])
      refine ⟨hsp.append ih.spaceOnly, ?_⟩
      have e : join [' '] (w :: v :: ws) = w ++ ' ' :: join [' '] (v :: ws) :=
        by simp [join]
      rw [e]
      refine List.isChain_append.2 ⟨hw'.apart,
        List.isChain_cons.2 ⟨fun d hd => .inr (hhead d hd), ih.apart⟩, ?_⟩
      rintro c hc d -
      refine .inl ?_
      rintro rfl
      cases hw.noBlank _ (List.mem_of_getLast? hc)

theorem thin_collapse (t : Text) : Thin (collapse t) :=
  thin_join fun _ => solid_of_mem_words

theorem thin_of_spaced {t : Text} (h : t.Spaced) : Thin t := by
  rw [← h]
  exact thin_collapse t

/-- A normal form has no two spaces together. -/
theorem thin_normalize (t : Text) : Thin (normalize t) :=
  (thin_collapse t).of_isInfix (normalize_isPrefix t).isInfix

/-- Without blanks around it, a thin text has the blanks that a collapsed one
has. -/
theorem spaced_of_thin (t : Text) : Thin t → Trimmed t → Spaced t := by
  refine words_induction (P := fun t => Thin t → Trimmed t → Spaced t) ?_ ?_ t
  · intro v hv _ _
    by_cases h₀ : v = []
    · subst h₀
      rfl
    · exact spaced_of_solid ⟨h₀, hv⟩
  · intro v c u hv hc ih ht htrim
    obtain rfl : c = ' ' := ht.spaceOnly c (by simp) hc
    have hv₀ : v ≠ [] := by
      rintro rfl
      cases htrim.start _ rfl
    have hu₀ : u ≠ [] := by
      rintro rfl
      cases htrim.stop ' ' (by simp)
    have hu : Thin u :=
      ht.of_isInfix (List.IsSuffix.isInfix ⟨v ++ [' '], by simp⟩)
    have hutrim : Trimmed u := by
      refine ⟨fun d hd => ?_, fun d hd => htrim.stop d ?_⟩
      · -- another space would follow the one before it
        by_contra hb
        have hd' : d = ' ' :=
          hu.spaceOnly d (List.mem_of_head? hd) (by simpa using hb)
        have hchain :=
          (List.isChain_cons.1 (List.isChain_append.1 ht.apart).2.1).1 d hd
        simp [hd'] at hchain
      · rwa [List.getLast?_append_of_ne_nil _ (List.cons_ne_nil _ _),
          List.getLast?_cons_of_ne_nil hu₀]
    have hu' := ih hu hutrim
    rw [Spaced, collapse, words_append rfl, words_of_solid ⟨hv₀, hv⟩,
      join_append [' '] (List.cons_ne_nil _ _) (words_ne_nil hu' hu₀)]
    rw [Spaced, collapse] at hu'
    rw [hu']
    simp [join]

end Text

/-! ## Orderly texts -/

/-- A text with single spaces and balanced brackets. -/
structure Orderly (t : Text) : Prop where
  thin : t.Thin
  balanced : isBalanced t = true

variable {t a b m c word : Text}

theorem Orderly.append (h : Orderly (a ++ b)) (hd : depth a = 0) :
    Orderly a ∧ Orderly b := by
  obtain ⟨ha, hb⟩ := (isBalanced_append hd).1 h.balanced
  exact ⟨⟨h.thin.of_isInfix (List.prefix_append _ _).isInfix, ha⟩,
    ⟨h.thin.of_isInfix (List.suffix_append _ _).isInfix, hb⟩⟩

/-- An orderly text without the spaces around it is orderly. -/
theorem Orderly.trim (h : Orderly t) : Orderly t.trim := by
  obtain ⟨l, r, hl, hr, e⟩ := exists_trim t
  rw [e] at h
  have hdepth : depth (l ++ t.trim) = 0 := by
    have := depth_of_isBalanced h.balanced
    rw [depth_append, depth_blank hr] at this
    simpa using this
  exact ((h.append hdepth).1.append (depth_blank hl)).2

theorem Orderly.tidy (h : Orderly t) (h₀ : t.trim ≠ []) : Tidy t.trim :=
  ⟨h₀, spaced_of_thin _ h.trim.thin (trimmed_trim t), h.trim.balanced⟩

/-- What stands before a keyword, and what stands behind it. -/
theorem Orderly.stands (h : Orderly (a ++ m ++ c)) (hw : isPhrase word = true)
    (hs : Stands word a m c) : Orderly a ∧ Orderly c := by
  obtain ⟨ham, hc⟩ := h.append (hs.depth_eq hw)
  exact ⟨(ham.append hs.top).1, hc⟩

/-- What stands in brackets, and what stands behind them. -/
theorem Orderly.brackets {inside tail : Text}
    (h : Orderly ('(' :: inside ++ ')' :: tail))
    (hi : isBalanced inside = true) : Orderly inside ∧ Orderly tail := by
  have hd : depth ('(' :: inside ++ [')']) = 0 := by
    simp [depth_of_isBalanced hi, depthStep]
  have e : '(' :: inside ++ ')' :: tail = '(' :: inside ++ [')'] ++ tail :=
    by simp
  rw [e] at h
  obtain ⟨ho, ht⟩ := h.append hd
  exact ⟨⟨ho.thin.of_isInfix ⟨['('], [')'], by simp⟩, hi⟩, ht⟩

/-- A text that ends where one of several keywords stands. -/
theorem Orderly.upTo {words : List Text} (h : Orderly (a ++ b))
    (hu : UpTo words a b) : Orderly a ∧ Orderly b := by
  rcases hu.stop with rfl | ⟨w, hmem, m, c, rfl, hs⟩
  · rw [List.append_nil] at h
    exact ⟨h, ⟨thin_of_noBlank (by simp), rfl⟩⟩
  · exact h.append hs.top

/-! ## Lists -/

/-- An entry of a list. -/
structure IsEntry (e : Text) : Prop where
  tidy : Tidy e
  noComma : NoTop isComma e

theorem NoTop.trim {p : Char → Bool} (h : NoTop p t) : NoTop p t.trim := by
  obtain ⟨l, r, hl, hr, e⟩ := exists_trim t
  rw [e, List.append_assoc, noTop_append (depth_blank hl)] at h
  exact h.2.left

/-- The parts between the commas of an orderly text are orderly, and have no
comma at the top level. -/
theorem orderly_comma (t : Text) :
    Orderly t → ∀ p ∈ (split [','] t).parts, Orderly p ∧ NoTop isComma p := by
  refine split_comma_induction (P := fun t s => Orderly t →
    ∀ p ∈ s.parts, Orderly p ∧ NoTop isComma p) ?_ ?_ t
  · intro t ht ho p hp
    obtain rfl : p = t := by simpa [Split.parts] using hp
    exact ⟨ho, ht⟩
  · intro a c s ha hd ih ho p hp
    obtain ⟨hoa, hoc⟩ := ho.append hd
    rcases List.mem_cons.1 hp with rfl | hp
    · exact ⟨hoa, ha⟩
    · refine ih ?_ p hp
      exact (Orderly.append (a := [',']) (b := c) hoc rfl).2

/-- The entries of an orderly list are entries. -/
theorem entries_commaList {clause : Clause} {body : Text} {entries : List Text}
    (ho : Orderly body) (h : commaList clause body = .ok entries) :
    ∀ e ∈ entries, IsEntry e := by
  obtain ⟨-, rfl, hne⟩ := commaList_eq_ok_iff.1 h
  intro e he
  obtain ⟨p, hp, rfl⟩ := List.mem_map.1 he
  obtain ⟨hop, hcomma⟩ := orderly_comma _ ho.trim p hp
  exact ⟨hop.tidy (hne _ he), hcomma.trim⟩

theorem commaList_ne_nil {clause : Clause} {body : Text} {entries : List Text}
    (h : commaList clause body = .ok entries) : entries ≠ [] := by
  obtain ⟨-, rfl, -⟩ := commaList_eq_ok_iff.1 h
  simp [Split.pieces, Split.parts]

/-! ## Conditions -/

/-- The predicates of a clause are cut where an `and` stands. -/
theorem orderly_regroup (t : Text) :
    ∀ u : Text, depth u = 0 → Orderly (u ++ t) →
      ∀ p ∈ regroup (u ++ (split "and".toList t).first)
        (split "and".toList t).rest, Orderly p := by
  refine split_phrase_induction isPhrase_and (P := fun t s =>
    ∀ u : Text, depth u = 0 → Orderly (u ++ t) →
      ∀ p ∈ regroup (u ++ s.first) s.rest, Orderly p) ?_ ?_ t
  · intro t _ u _ ho p hp
    obtain rfl : p = u ++ t := by simpa [regroup] using hp
    exact ho
  · intro a m c s hs _ ih u hu ho p hp
    have hm := depth_spelling isPhrase_and hs.spelled
    simp only [regroup] at hp
    split at hp
    · -- an open predicate goes on behind the `and`
      refine ih (u ++ a ++ m) ?_ (by simpa using ho) p (by simpa using hp)
      rw [depth_append, depth_append, hu, hs.top, hm]
      rfl
    · have e : u ++ (a ++ m ++ c) = (u ++ a) ++ (m ++ c) := by simp
      rw [e] at ho
      obtain ⟨hoa, hoc⟩ := ho.append (by rw [depth_append, hu, hs.top]; rfl)
      rcases List.mem_cons.1 hp with rfl | hp
      · exact hoa
      · exact ih [] rfl (hoc.append hm).2 p hp

/-- The conditions of an orderly body have tidy predicates, joined by `and`. -/
theorem conditions_sound {clause : Clause} {body : Text}
    {conds : List Condition} (ho : Orderly body)
    (h : conditions clause body = .ok conds) :
    ∀ cond ∈ conds, cond.combinator = .and ∧ Tidy cond.predicate := by
  obtain ⟨-, hne, rfl⟩ := conditions_eq_ok_iff.1 h
  intro cond hcond
  obtain ⟨p, hp, rfl⟩ := List.mem_map.1 hcond
  obtain ⟨p', hp', rfl⟩ := List.mem_map.1 hp
  exact ⟨rfl, (orderly_regroup _ [] rfl ho.trim p' hp').tidy (hne _ hp)⟩

/-! ## Words before `join` -/

/-- The modifiers at the end of a piece hold no bracket. -/
theorem exists_modifiersStart_depth :
    ∀ (bound : Nat) (h tail : Text), ∃ x y, h ++ tail = x ++ y ∧ modifiersStart
      (h ++ tail) bound h.length = x.length ∧ depth y = depth tail
  | 0, h, tail => ⟨h, tail, rfl, rfl, rfl⟩
  | bound + 1, h, tail => by
    rw [modifiersStart]
    split
    · next hm =>
      obtain ⟨pre, r, e, hr, -, hstart⟩ := exists_lastWord h tail
      have hword : depth (lastWord (h ++ tail) h.length) = 0 := by
        refine depth_eq_zero fun c hc => ?_
        have := isEdge_of_isReserved (isReserved_of_isJoinModifier hm) c hc
        simp only [isEdge, Bool.or_eq_false_iff] at this
        simp [depthStep, this]
      generalize lastWord (h ++ tail) h.length = w at *
      have e' : h ++ tail = pre ++ (w ++ r ++ tail) := by
        conv => lhs; rw [e]
        simp
      rw [hstart, e']
      obtain ⟨x, y, hxy, hlen, hy⟩ :=
        exists_modifiersStart_depth bound pre (w ++ r ++ tail)
      refine ⟨x, y, hxy, hlen, ?_⟩
      rw [hy, depth_append, depth_append, hword, depth_blank hr]
      simp
    · exact ⟨h, tail, rfl, rfl, rfl⟩

/-- What is left before the words for a join is orderly. -/
theorem orderly_trailingModifiers {piece : Text} (ho : Orderly piece) :
    Orderly (trailingModifiers piece).1 := by
  obtain ⟨x, y, e, hlen, hy⟩ :=
    exists_modifiersStart_depth piece.length piece []
  rw [List.append_nil] at e hlen
  have hdepth : depth x = 0 := by
    have := depth_of_isBalanced ho.balanced
    rw [e, depth_append, hy] at this
    simpa using this
  rw [trailingModifiers, hlen]
  conv => arg 1; arg 1; arg 1; rw [e, List.take_left]
  rw [e] at ho
  exact (ho.append hdepth).1.trim

/-- The parts between the places of a word in an orderly text are orderly. -/
theorem orderly_split (hw : isPhrase word = true) (t : Text) :
    Orderly t → ∀ p ∈ (split word t).parts, Orderly p := by
  refine split_phrase_induction hw (P := fun t s => Orderly t →
    ∀ p ∈ s.parts, Orderly p) ?_ ?_ t
  · intro t _ ho p hp
    obtain rfl : p = t := by simpa [Split.parts] using hp
    exact ho
  · intro a m c s hs _ ih ho p hp
    obtain ⟨hoa, hoc⟩ := ho.stands hw hs
    rcases List.mem_cons.1 hp with rfl | hp
    · exact hoa
    · exact ih hoc p hp

/-- The trimmed parts between the places of a word in an orderly text are
orderly. -/
theorem orderly_pieces (hw : isPhrase word = true) (ho : Orderly t) :
    ∀ p ∈ (split word t).pieces, Orderly p := by
  intro p hp
  obtain ⟨part, hpart, rfl⟩ := List.mem_map.1 hp
  exact (orderly_split hw t ho part hpart).trim

end SqlRiver
