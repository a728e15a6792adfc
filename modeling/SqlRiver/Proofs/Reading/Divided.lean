import SqlRiver.Proofs.Reading.Without

/-!
# What is divided

The predicates of a clause are divided at every `and` before which nothing is
open, the joins at every `join` and before the words that choose the kind of the
next one, and an entry of a select list before its alias. So none of the parts
can be divided again.

Main definitions and statements:

* `OpenIn`: a text in which something is open before each `and`.
* `divided_conditions`: the predicates of a clause are divided.
* `conditions_rejoined`: dividing them again, put together, changes nothing.
* `closed_readJoins`: no predicate but the last one ends with the word before
  another `join`.
* `clean_readSelect`: the columns of a select list are read back.
-/

namespace SqlRiver

open Text

variable {t rest : Text} {clause : Clause} {nested : Nested}
  {literals : LiteralTable}

/-! ## Predicates that are divided -/

/-- Before each `and` that starts in `u`, where `t` follows, a `between` or a
`case` is open. -/
def OpenIn (u t : Text) : Prop :=
  ∀ x y m c, u = x ++ y → y ≠ [] → y ++ t = m ++ c → Stands "and".toList x m c →
    isOpen x = true

section OpenIn

variable {u t a b m c : Text}

/-- A word that stands behind `u` stands in what follows `u`. -/
theorem Stands.of_append {v : Text} (hs : Stands v (u ++ a) m c)
    (hu : depth u = 0) : Stands v a m c := by
  refine ⟨hs.spelled, ?_, ?_, hs.right⟩
  · have htop := hs.top
    rwa [depth_append, hu, Int.zero_add] at htop
  · cases a with
    | nil => rfl
    | cons d a =>
      have hleft := hs.left
      rwa [List.getLast?_append_of_ne_nil _ (by simp)] at hleft

theorem openIn_nil (t : Text) : OpenIn [] t := by
  intro x y m c e hy
  exact absurd (List.append_eq_nil_iff.1 e.symm).2 hy

/-- No `and` starts in `a`. -/
theorem OpenIn.append (h : OpenIn u (a ++ b)) (hu : depth u = 0)
    (ha : AbsentIn "and".toList a b) : OpenIn (u ++ a) b := by
  intro x y m c e hy e' hs
  rcases List.append_eq_append_iff.1 e with ⟨z, rfl, rfl⟩ | ⟨z, rfl, rfl⟩
  · exact absurd (hs.of_append hu) (ha z y m c rfl hy e')
  · by_cases hz : z = []
    · subst hz
      rw [List.append_nil] at hu
      exact absurd (Stands.of_append (a := []) (by rwa [List.append_nil]) hu)
        (ha [] a m c rfl hy e')
    · exact h x z m c rfl hz (by rw [← e', List.append_assoc]) hs

/-- An `and` before which a `between` or a `case` is open. -/
theorem OpenIn.and (h : OpenIn u (m ++ c))
    (hm : m.lower = Text.lower "and".toList) (hu : isOpen u = true) :
    OpenIn (u ++ m) c := by
  intro x y m' c' e hy e' hs
  rcases List.append_eq_append_iff.1 e with ⟨z, rfl, rfl⟩ | ⟨z, rfl, rfl⟩
  · rcases List.eq_nil_or_concat' z with rfl | ⟨z, d, rfl⟩
    · rwa [List.append_nil]
    · -- the letter before it is no edge
      have hleft := hs.left
      rw [← List.append_assoc, List.getLast?_concat] at hleft
      have hedge :=
        isEdge_of_mem_spelling isPhrase_and (by decide) hm d (by simp)
      rw [atEdge, hedge] at hleft
      cases hleft
  · by_cases hz : z = []
    · subst hz
      rwa [List.append_nil] at hu
    · exact h x z m' c' rfl hz (by rw [← e', List.append_assoc]) hs

/-- An open text before one without `and` is one predicate with it. -/
theorem OpenIn.whole (h : OpenIn u t) (hu : depth u = 0)
    (ht : Absent "and".toList t) : Whole (u ++ t) := by
  intro x m c e hs
  rw [List.append_assoc] at e
  rcases List.append_eq_append_iff.1 e with ⟨z, rfl, rfl⟩ | ⟨z, rfl, e'⟩
  · exact absurd (hs.of_append hu) (ht z m c (by simp))
  · by_cases hz : z = []
    · subst hz
      rw [List.append_nil] at hu
      exact absurd (Stands.of_append (a := []) (by rwa [List.append_nil]) hu)
        (ht [] m c (by simpa using e'.symm))
    · exact h x z m c rfl hz e'.symm hs

/-- A text is one predicate if it is open before another one. -/
theorem OpenIn.whole_left (h : OpenIn u t) (hu : atEdge u.getLast? = true) :
    Whole u := by
  rintro x m c rfl hs
  have hm := spelling_ne_nil isPhrase_and hs.spelled
  refine h x (m ++ c) m (c ++ t) (by simp) (by simp [hm]) (by simp)
    ⟨hs.spelled, hs.top, hs.left, ?_⟩
  cases c with
  | cons d c => exact hs.right
  | nil =>
    -- a word that ends where `u` ends does not end at an edge
    rw [List.append_nil, List.getLast?_append_of_ne_nil _ hm,
      isEdge_last_spelling isPhrase_and hs.spelled] at hu
    cases hu

end OpenIn

/-- Each text of a regrouping is one predicate, and nothing is open in it unless
it is the last one. -/
theorem divided_regroup (t : Text) :
    ∀ u : Text, depth u = 0 → (u = [] ∨ atEdge t.head? = true) → OpenIn u t →
      Divided (regroup (u ++ (split "and".toList t).first)
      (split "and".toList t).rest) := by
  refine split_phrase_induction isPhrase_and (P :=
    fun t s => ∀ u : Text, depth u = 0 → (u = [] ∨ atEdge t.head? = true) →
    OpenIn u t → Divided (regroup (u ++ s.first) s.rest)) ?_ ?_ t
  · intro t habs u hu _ h
    refine ⟨?_, by simp [regroup]⟩
    simpa [regroup] using h.whole hu habs
  · intro a m c s hs habs ih u hu hedge h
    have hua : depth (u ++ a) = 0 := by rw [depth_append, hu, hs.top]; rfl
    have hm := depth_spelling isPhrase_and hs.spelled
    have h' : OpenIn (u ++ a) (m ++ c) :=
      (List.append_assoc a m c ▸ h).append hu habs
    simp only [regroup]
    split
    · next hopen =>
      have hd : depth (u ++ a ++ m) = 0 := by rw [depth_append, hua, hm]; rfl
      simpa using ih (u ++ a ++ m) hd (.inr hs.right) (h'.and hs.spelled hopen)
    · next hopen =>
      obtain ⟨hwhole, hclosed⟩ := ih [] rfl (.inl rfl) (openIn_nil c)
      rw [List.nil_append] at hwhole hclosed
      have hne := regroup_ne_nil s.first s.rest
      refine ⟨List.forall_mem_cons.2 ⟨?_, hwhole⟩, ?_⟩
      · exact h'.whole_left (atEdge_getLast?_append hs hedge isPhrase_and)
      · rw [List.dropLast_cons_of_ne_nil hne]
        exact List.forall_mem_cons.2 ⟨by simpa using hopen, hclosed⟩

section Trim

variable {p : Text}

theorem gap_of_thin {l : Text} (hb : Blank l) (ht : l.Thin) : Gap l := by
  match l, hb, ht with
  | [], _, _ => exact .inl rfl
  | [c], hb, ht =>
    obtain rfl := ht.spaceOnly c (by simp) (hb c (by simp))
    exact .inr rfl
  | c :: d :: l, hb, ht =>
    obtain rfl := ht.spaceOnly c (by simp) (hb c (by simp))
    obtain rfl := ht.spaceOnly d (by simp) (hb d (by simp))
    cases ht.apart with
    | cons_cons h _ => simp at h

/-- A thin text has at most one space on either side. -/
theorem exists_trim_gap (h : p.Thin) :
    ∃ l r, Gap l ∧ Gap r ∧ p = l ++ p.trim ++ r := by
  obtain ⟨l, r, hl, hr, e⟩ := exists_trim p
  have hl' : l <:+: p := ⟨[], p.trim ++ r, by simpa using e.symm⟩
  have hr' : r <:+: p := ⟨l ++ p.trim, [], by simpa using e.symm⟩
  exact ⟨l, r, gap_of_thin hl (h.of_isInfix hl'),
    gap_of_thin hr (h.of_isInfix hr'), e⟩

/-- A word still stands in a text with a space on either side. -/
theorem Stands.pad {v l a m c r : Text} (hs : Stands v a m c) (hl : Gap l)
    (hr : Gap r) : Stands v (l ++ a) m (c ++ r) := by
  refine ⟨hs.spelled, by rw [depth_append, hl.top, hs.top]; rfl, ?_, ?_⟩
  · cases a with
    | cons d a =>
      rw [List.getLast?_append_of_ne_nil _ (by simp)]
      exact hs.left
    | nil => rcases hl with rfl | rfl <;> rfl
  · cases c with
    | cons d c => exact hs.right
    | nil => rcases hr with rfl | rfl <;> rfl

/-- The spaces around a predicate do not finish it. -/
theorem isOpen_trim (ho : Orderly p) : isOpen p.trim = isOpen p := by
  obtain ⟨l, r, hl, hr, e⟩ := exists_trim_gap ho.thin
  conv => rhs; rw [e]
  exact (isOpen_pad hl hr (depth_of_isBalanced ho.trim.balanced)).symm

/-- A predicate is one without the spaces around it. -/
theorem Whole.trim (h : Whole p) (ho : Orderly p) : Whole p.trim := by
  obtain ⟨l, r, hl, hr, e⟩ := exists_trim_gap ho.thin
  intro a m c e' hs
  have hopen := h (l ++ a) m (c ++ r) (by rw [e, e']; simp) (hs.pad hl hr)
  have hpad := isOpen_pad hl (.inl rfl) hs.top
  rw [List.append_nil] at hpad
  rwa [hpad] at hopen

end Trim

/-- The conditions of an orderly body are predicates that `and` divides
again. -/
theorem divided_conditions {conds : List Condition} (ho : Orderly t)
    (hc : conditions clause t = .ok conds) :
    Divided (conds.map Condition.predicate) := by
  obtain ⟨-, -, rfl⟩ := conditions_eq_ok_iff.1 hc
  obtain ⟨hwhole, hclosed⟩ :=
    divided_regroup t.trim [] rfl (.inl rfl) (openIn_nil _)
  have horderly := orderly_regroup t.trim [] rfl ho.trim
  rw [List.nil_append] at hwhole hclosed horderly
  rw [List.map_map, predicates, List.map_map]
  refine ⟨List.forall_mem_map.2 fun p hp => (hwhole p hp).trim (horderly p hp),
    ?_⟩
  rw [← List.map_dropLast]
  refine List.forall_mem_map.2 fun p hp => ?_
  exact (isOpen_trim (horderly p (List.dropLast_subset _ hp))).trans
    (hclosed p hp)

/-- Predicates that are put together again are divided as before. -/
theorem conditions_rejoined {clause : Clause} {body : Text}
    {conds : List Condition} (ho : Orderly body)
    (h : conditions clause body = .ok conds) :
    conditions clause (Text.join " and ".toList
      (conds.map Condition.predicate)) = .ok conds := by
  have hsound := conditions_sound ho h
  have htidy : ∀ p ∈ conds.map Condition.predicate, Tidy p :=
    List.forall_mem_map.2 fun cond hcond => (hsound cond hcond).2
  have hne : conds.map Condition.predicate ≠ [] := by
    obtain ⟨-, -, rfl⟩ := conditions_eq_ok_iff.1 h
    simp [predicates, regroup_ne_nil]
  have hconds :
      (conds.map Condition.predicate).map (fun p => ⟨.and, p⟩) = conds := by
    rw [List.map_map]
    refine (List.map_congr_left fun cond hcond => ?_).trans (List.map_id conds)
    show Condition.mk .and cond.predicate = cond
    rw [← (hsound cond hcond).1]
  have hbody : (Text.join " and ".toList (conds.map Condition.predicate)).trim =
      andText {} (conds.map Condition.predicate) :=
    trim_of_trimmed (trimmed_tidy " and ".toList hne htidy).1
  rw [conditions_andText hne htidy (divided_conditions ho h) hbody, hconds]

/-- An `and` of a `between`, one inside a `case`, two at brackets, and a
`between` that is left open. -/
def heldText : Text :=
  "x between 1 and 5 and case when a and b then 1 end = 1 and (y and z)and(w) and v between 3".toList

/-- An `and` stands inside `between`, inside `case` and in brackets, between
brackets without a space, and behind an unfinished `between`. -/
theorem conditions_rejoined_held :
    let conds : List Condition :=
      [⟨.and, "x between 1 and 5".toList⟩,
        ⟨.and, "case when a and b then 1 end = 1".toList⟩,
        ⟨.and, "(y and z)".toList⟩, ⟨.and, "(w)".toList⟩,
        ⟨.and, "v between 3".toList⟩]
    conditions .having heldText = .ok conds ∧
      conditions .having (Text.join " and ".toList
        (conds.map Condition.predicate)) = .ok conds := by
  intro conds
  have h : conditions .having heldText = .ok conds := by decide +kernel
  have ho : Orderly heldText := ⟨thin_normalize heldText, by decide⟩
  exact ⟨h, conditions_rejoined ho h⟩

/-! ## Joins that are divided -/

section Modifiers

theorem isJoinModifier_nil : isJoinModifier [] = false := by decide

/-- A modifier has letters, so the place before it is an earlier one. -/
theorem lastWordStart_lt {piece : Text} {cut : Nat}
    (h : isJoinModifier (lastWord piece cut) = true) :
    lastWordStart piece cut < cut := by
  have hne : lastWord piece cut ≠ [] := by
    intro h₀
    rw [h₀, isJoinModifier_nil] at h
    cases h
  have hword := List.length_pos_iff.2 hne
  obtain ⟨a, e, -⟩ := exists_afterLast ' ' (Text.trimEnd (piece.take cut))
  obtain ⟨r, -, e', -⟩ := exists_trimEnd (piece.take cut)
  have hhead := congrArg List.length e
  have hcut := congrArg List.length e'
  rw [List.length_append] at hhead hcut
  rw [List.length_take] at hcut
  rw [lastWord] at hword
  rw [lastWordStart]
  omega

/-- As many modifiers are taken off as there are. -/
theorem isJoinModifier_modifiersStart (piece : Text) :
    ∀ bound cut, cut ≤ bound →
      isJoinModifier (lastWord piece (modifiersStart piece bound cut)) = false
  | 0, cut, h => by
    obtain rfl : cut = 0 := by omega
    exact isJoinModifier_nil
  | bound + 1, cut, h => by
    rw [modifiersStart]
    split
    · next hm =>
      have := lastWordStart_lt hm
      exact isJoinModifier_modifiersStart piece bound _ (by omega)
    · next hm => simpa using hm

/-- What is left before the words for a join does not end with such a word. -/
theorem isJoinModifier_trailingModifiers {piece : Text} (h : piece.Thin) :
    isJoinModifier (afterLast ' ' (trailingModifiers piece).1) = false := by
  have hlast :=
    isJoinModifier_modifiersStart piece piece.length piece.length le_rfl
  rw [trailingModifiers]
  simp only
  generalize modifiersStart piece piece.length piece.length = cut at hlast
  rw [lastWord] at hlast
  obtain ⟨l, r, hl, hr, e⟩ :=
    exists_trim_gap (h.of_isInfix (List.take_prefix cut piece).isInfix)
  have htrim := trimmed_trim (piece.take cut)
  generalize Text.trim (piece.take cut) = x at htrim e
  by_cases h₀ : x = []
  · rw [h₀]
    exact isJoinModifier_nil
  · have hend : ∀ c ∈ (l ++ x).getLast?, isBlank c = false := by
      rw [List.getLast?_append_of_ne_nil _ h₀]
      exact htrim.stop
    rw [e, trimEnd_pad hr.blank hend] at hlast
    rcases hl with rfl | rfl
    · exact hlast
    · exact
        (congrArg isJoinModifier (afterLast_append_space [] x)).symm.trans hlast

end Modifiers

section Suffix

theorem isSuffix_trim {u : Text} (ht : t.Trimmed) (h : u <:+ t) :
    u.trim <:+ t := by
  obtain ⟨l, r, hl, hr, e⟩ := exists_trim u
  rcases List.eq_nil_or_concat' r with rfl | ⟨r, d, rfl⟩
  · exact List.IsSuffix.trans ⟨l, by simpa using e.symm⟩ h
  · -- a blank at the end would be one of the text
    obtain ⟨x, rfl⟩ := h
    have hlast : (x ++ u).getLast? = some d := by
      rw [e, ← List.append_assoc, ← List.append_assoc, List.getLast?_concat]
    have hd := ht.stop d hlast
    rw [hr d (by simp)] at hd
    cases hd

/-- What a source leaves of a text is the end of the text. -/
theorem isSuffix_readSource {ends : List Text}
    (he : ∀ v ∈ ends, isPhrase v = true) {s : Source} (ht : t.Trimmed)
    (hr : readSource nested literals ends clause t = .ok (s, rest)) :
    rest <:+ t := by
  obtain ⟨s₀, x, y, v, hbare, -, -, -, rfl⟩ := (readSource_eq_ok_iff he).1 hr
  refine isSuffix_trim ht ((List.suffix_append x y).trans ?_)
  rcases readBare_eq_ok_iff.1 hbare with
    ⟨inside, tail, q, rfl, -, -, -, e⟩ | ⟨name, tail, rfl, -, -, -, -, -, e⟩
  · rw [e]
    exact isSuffix_trim ht ⟨'(' :: inside ++ [')'], by simp⟩
  · rw [e]
    exact isSuffix_trim ht (List.suffix_append name tail)

/-- What follows `on` ends as the text of the join does. -/
theorem closed_readJoin {kind : JoinKind} {j : Join} (ho : Orderly t)
    (ht : t.Trimmed) (hlast : isJoinModifier (afterLast ' ' t) = false)
    (hr : readJoin nested literals kind t = .ok j) :
    ∀ p ∈ j.onPredicate, isJoinModifier (afterLast ' ' p) = false := by
  obtain ⟨s, rest, hs, hc⟩ := readJoin_eq_ok_iff.1 hr
  rw [trim_of_trimmed ht] at hs
  have hsuffix := isSuffix_readSource isPhrase_of_mem_joinSourceEnds ht hs
  cases hc with
  | bare => simp
  | columns _ _ _ => simp
  | @predicate m c hon hne =>
    rintro _ ⟨⟩
    obtain ⟨a, rfl⟩ := hsuffix
    have hthin : c.Thin := ho.thin.of_isInfix ⟨a ++ m, [], by simp⟩
    obtain ⟨l, r, hl, hr, e⟩ := exists_trim_gap hthin
    have hr₀ : r = [] := by
      refine hr.resolve_right fun hr₁ => ?_
      have hlast : (a ++ (m ++ c)).getLast? = some ' ' := by
        rw [e, hr₁, ← List.append_assoc, ← List.append_assoc,
          List.getLast?_concat]
      cases ht.stop ' ' hlast
    rw [hr₀, List.append_nil] at e
    rcases hl with rfl | rfl
    · -- the predicate starts with a bracket
      rw [List.nil_append] at e
      rw [← e] at hne ⊢
      obtain ⟨pre, e', hpre, -⟩ := exists_afterLast ' ' c
      rcases hpre with rfl | hpre
      · rw [List.nil_append] at e'
        rw [← e', Bool.eq_false_iff]
        intro hm
        obtain ⟨d, c, rfl⟩ := List.exists_cons_of_ne_nil hne
        have hedge :=
          isEdge_of_isReserved (isReserved_of_isJoinModifier hm) d (by simp)
        have hright := hon.right
        rw [List.head?_cons, atEdge, hedge] at hright
        cases hright
      · obtain ⟨pre, rfl⟩ := List.getLast?_eq_some_iff.1 hpre
        have e₁ :
            a ++ (m ++ c) = (a ++ (m ++ pre)) ++ ' ' :: afterLast ' ' c := by
          conv => lhs; rw [e']
          simp
        rw [e₁, afterLast_append_space] at hlast
        rw [List.append_assoc] at e'
        rw [e', List.singleton_append, afterLast_append_space]
        exact hlast
    · rw [e, ← List.append_assoc, ← List.append_assoc,
        List.append_assoc (a ++ m)] at hlast
      rwa [List.singleton_append, afterLast_append_space] at hlast

end Suffix

theorem joinsOf_ne_nil {mods piece : Text} {more : List Text} {js : List Join}
    (h : joinsOf nested literals mods (piece :: more) = .ok js) : js ≠ [] := by
  cases more with
  | nil =>
    simp only [joinsOf, bind_eq_ok] at h
    obtain ⟨kind, -, j, -, h⟩ := h
    cases h
    simp
  | cons piece' more =>
    simp only [joinsOf, bind_eq_ok] at h
    obtain ⟨kind, -, j, -, js', -, h⟩ := h
    cases h
    simp

/-- No predicate before another join ends with a word for the kind of a join. -/
theorem closed_joinsOf :
    ∀ {pieces : List Text} {mods : Text} {js : List Join},
      (∀ p ∈ pieces, Orderly p) → joinsOf nested literals mods pieces = .ok js →
      ∀ j ∈ js.dropLast, ∀ p ∈ j.onPredicate,
      isJoinModifier (afterLast ' ' p) = false
  | [], mods, js, _, h => by
    cases h
    simp
  | [piece], mods, js, _, h => by
    simp only [joinsOf, bind_eq_ok] at h
    obtain ⟨kind, -, j, -, h⟩ := h
    cases h
    simp
  | piece :: piece' :: more, mods, js, ho, h => by
    simp only [joinsOf, bind_eq_ok] at h
    obtain ⟨kind, -, j, hj, js', hjs, h⟩ := h
    cases h
    have hpiece := ho piece (by simp)
    rw [List.dropLast_cons_of_ne_nil (joinsOf_ne_nil hjs)]
    refine List.forall_mem_cons.2 ⟨?_, ?_⟩
    · exact closed_readJoin (orderly_trailingModifiers hpiece) (trimmed_trim _)
        (isJoinModifier_trailingModifiers hpiece.thin) hj
    · exact closed_joinsOf (fun p hp => ho p (List.mem_cons_of_mem _ hp)) hjs

/-- No predicate but the last one ends with a word that chooses the kind of the
next join. -/
theorem closed_readJoins {js : List Join} (ho : Orderly t)
    (h : readJoins nested literals t = .ok (js, rest)) :
    ∀ j ∈ js.dropLast, ∀ p ∈ j.onPredicate,
      isJoinModifier (afterLast ' ' p) = false := by
  obtain ⟨region, tail, rfl, hu,
      ⟨-, rfl, rfl⟩ | ⟨-, mods, p, ps, hp, hj, rfl⟩⟩ :=
    readJoins_eq_ok_iff.1 h
  · simp
  · have hpieces := orderly_pieces (isPhrase_phrase .join) (ho.upTo hu).1
    rw [hp] at hpieces
    exact closed_joinsOf
      (fun piece hpiece => hpieces piece (List.mem_cons_of_mem _ hpiece)) hj

/-! ## Columns that are divided -/

/-- The column of an entry is read back. -/
theorem clean_columnOf (literals : LiteralTable) {e : Text} (he : IsEntry e) :
    CleanColumn literals (columnOf literals e) := by
  obtain ⟨⟨htidy, hcomma⟩, halias⟩ := sound_columnOf literals he
  refine ⟨htidy, hcomma, fun n hn => ⟨(halias n hn).2, ?_⟩, fun hnone => ?_⟩
  · rcases columnOf_cases literals e with h | ⟨x, n', -, hq, h⟩
    · rw [h] at hn
      cases hn
    · rw [h] at hn
      cases hn
      exact hq
  · rcases columnOf_cases literals e with h | ⟨x, n, -, -, h⟩
    · rw [h]
      exact h
    · rw [h] at hnone
      cases hnone

/-- The columns of an orderly text are read back. -/
theorem clean_readSelect {d : Bool} {columns : List Column} (ho : Orderly t)
    (h : readSelect literals t = .ok ((d, columns), rest)) :
    ∀ column ∈ columns, CleanColumn literals column := by
  obtain ⟨entries, rfl, hentries, -⟩ := entries_readSelect ho h
  exact List.forall_mem_map.2 fun e he =>
    clean_columnOf literals (hentries e he)

end SqlRiver
