import SqlRiver.Proofs.Closing.Clauses

/-!
# Sources of parted texts

The name of a table ends at a space, so it ends earlier where a space comes to
stand behind a bracket in it. Where no name holds a keyword, the sources of a
parted text are those of the text. A query in brackets, which is below the top
level, and an alias stay as they are.

Main statements:

* `Respaced.nameEnds`, `Spread.upToComma`: the name of a source and its alias.
* `Respaced.alike_readBare`, `Respaced.alike_readSource`: one source, without
  its alias and with it.
* `NoneHeld`, `Respaced.alike_readSources`: the sources behind `from`.
* `rest_of_readSource`, `rest_of_readSources`: what they leave.
-/

namespace SqlRiver

open Text

variable {t u rest : Text} {clause : Clause} {nested : Nested}
  {literals : LiteralTable}

/-! ## Names and aliases -/

/-- A name ends at the same place of the parted text, if it does not go on
behind a bracket with a keyword behind it. -/
theorem Respaced.nameEnds {name tail : Text} (h : Respaced (name ++ tail) u)
    (hn : NameEnds name tail) (ho : (name ++ tail).head? ≠ some '(')
    (hh : nameHeld (name ++ tail) = false) :
    ∃ tail', u = name ++ tail' ∧ NameEnds name tail' ∧ Parted 0 tail tail' := by
  have hlast : u.getLast? ≠ some ' ' := fun hl => by cases h.trimmed.stop _ hl
  obtain ⟨name', tail', rfl, hname, htail⟩ :=
    (h.parted.followed hlast).exists_append
  obtain rfl : name' = name := by
    refine hname.eq_of_forall ?_
    rintro a b rfl hd ⟨hs, hne⟩
    rw [Int.zero_add] at hd
    have hd := depth_bracket hd
    -- the name would hold the keyword behind the bracket
    have hclosing : (a, b ++ tail) ∈ closings (a ++ ')' :: b ++ tail) := by
      simpa using mem_closings hd (b ++ tail)
    have hin : topPosition? endsName a = none :=
      topPosition?_eq_none_iff.2 hn.inside.left
    have hled : leadsKeyword (b ++ tail) = true :=
      leadsKeyword_iff.2 (hs.resolve_left hne)
    rw [nameHeld, bne_iff_ne.2 ho, Bool.true_and] at hh
    have := List.any_eq_false.1 hh _ hclosing
    simp [hin, hled] at this
  refine ⟨tail', rfl,
    ⟨hn.inside, fun c hc => hn.stop c (by rwa [htail.head?_eq] at hc)⟩, ?_⟩
  have htail' : Parted (0 + depth name') tail tail' :=
    htail.mono fun _ _ hg => hg.1
  cases tail with
  | nil => cases htail'; exact .nil 0
  | cons c tail => rwa [(hn.stop c rfl).1] at htail'

/-- A word or a comma that an alias may end at stands at the same place of the
parted text. -/
theorem Spread.upToComma {ends : List Text} (hw : ∀ w ∈ ends, isPhrase w = true)
    {x y : Text} (hu : UpToComma ends x y) (h : Parted 0 (x ++ y) u) :
    ∃ x' y', u = x' ++ y' ∧ UpToComma ends x' y' ∧ Parted 0 x x' ∧
      Parted 0 y y' := by
  have hcut : Apart x y := by
    rcases hu.stop with rfl | ⟨-, hcomma⟩ | ⟨w, -, m, c, rfl, hs⟩
    · exact .inr (by simp)
    · obtain ⟨y, rfl⟩ := List.head?_eq_some_iff.1 hcomma
      exact apart_sign ',' x y
    · exact Cut.apart (.inl hs.left)
  obtain ⟨x', y', rfl, hx, hy⟩ := h.cut kept_stuck hcut
  rw [Int.zero_add] at hy
  have habs := absentIn hw hu.absent not_detachedFirst_bracket hx hy
  have hcomma : NoTop isComma x' := hx.noTop rfl hu.noComma
  rcases hu.stop with rfl | ⟨hd, hhead⟩ | ⟨w, hmem, m, c, rfl, hs⟩
  · cases hy
    exact ⟨x', [], rfl, ⟨habs, hcomma, .inl rfl⟩, hx, .nil 0⟩
  · rw [hd] at hy
    have hcomma' : depth x' = 0 ∧ y'.head? = some ',' :=
      ⟨by rw [hx.depth_eq, hd], by rw [hy.head?_eq, hhead]⟩
    exact ⟨x', y', rfl, ⟨habs, hcomma, .inr (.inl hcomma')⟩, hx, hy⟩
  · rw [hs.top] at hy
    obtain ⟨c', rfl, hc⟩ := exists_spelling (hw w hmem) hs.spelled hy
    exact ⟨x', m ++ c', rfl, ⟨habs, hcomma,
      .inr (.inr ⟨w, hmem, m, c', rfl, stands hs hx hc⟩)⟩, hx, hy⟩

/-- The alias of a source is that of the parted text. -/
theorem Spread.alike_sourceAlias (h : Parted 0 t u) :
    Alike Eq (sourceAlias literals t) (sourceAlias literals u) := by
  simp only [sourceAlias, h.respaced.isEmpty_eq]
  split
  · rfl
  · have hname :
        Respaced (((stripWord? "as".toList t.trim).map Text.trim).getD t.trim)
        (((stripWord? "as".toList u.trim).map Text.trim).getD u.trim) := by
      rcases h.respaced.parted.stripWord?_cases isPhrase_as with
        ⟨ht, hu⟩ | ⟨m, c, c', -, -, hc, ht, hu⟩
      · rw [ht, hu]
        exact h.respaced
      · rw [ht, hu]
        exact hc.respaced
    rw [hname.isAlias_eq]
    split
    · next ha => exact congrArg some (hname.eq_of_isAlias ha).symm
    · trivial

/-! ## One source -/

/-- A source without an alias is that of the parted text, if its name does not
hold a keyword. -/
theorem Respaced.alike_readBare (h : Respaced t u) (hh : nameHeld t = false) :
    Alike (Rests Eq) (readBare nested clause t) (readBare nested clause u) := by
  simp only [readBare, h.isEmpty_eq, h.parted.head?_eq]
  split
  · trivial
  · split
    · rcases h.parted.unwrap?_cases with
        ⟨ht, hu⟩ | ⟨inside, tail, tail', v, -, -, ht, hu, hv, htail⟩
      · simp only [ht, hu]
        trivial
      · have htrim : Text.trim tail' = Text.trim v := by
          rcases hv with rfl | ⟨-, rfl⟩
          · rfl
          · exact trim_blank_append (l := [' ']) (blank_spaces 1) v
        simp only [ht, hu, htrim]
        refine (alike_refl (fun _ => rfl) _).bind ?_
        rintro query _ rfl
        exact ⟨rfl, htail.respaced⟩
    · next ho =>
      have hn := nameEnds_namePosition t
      have e := List.take_append_drop (namePosition t) t
      generalize t.take (namePosition t) = name at *
      generalize t.drop (namePosition t) = tail at *
      subst e
      obtain ⟨tail', rfl, hn', htail⟩ := h.nameEnds hn (by simpa using ho) hh
      simp only [namePosition_append hn', List.take_left, List.drop_left]
      split
      · trivial
      · exact ⟨rfl, htail.respaced⟩

/-- A source is that of the parted text, if its name does not hold a keyword. -/
theorem Respaced.alike_readSource {ends : List Text}
    (he : ∀ w ∈ ends, isPhrase w = true) (h : Respaced t u)
    (hh : nameHeld t = false) :
    Alike (Rests Eq) (readSource nested literals ends clause t)
      (readSource nested literals ends clause u) := by
  refine (h.alike_readBare hh).bind ?_
  rintro ⟨source, behind⟩ ⟨_, behind'⟩ ⟨rfl, hl⟩
  obtain ⟨x, y, e, hu⟩ := exists_upToComma he behind
  simp only at hl
  subst e
  obtain ⟨x', y', rfl, hu', hx, hy⟩ := hl.parted.upToComma he hu
  simp only [aliasPosition_append he hu, aliasPosition_append he hu',
    List.take_left, List.drop_left]
  refine hx.alike_sourceAlias.bind ?_
  rintro name _ rfl
  exact ⟨rfl, hy.respaced⟩

/-- A source without an alias leaves what stands behind its name. -/
theorem rest_of_readBare {s : Source}
    (h : readBare nested clause t = .ok (s, rest)) : rest = behindName t := by
  unfold readBare at h
  split at h
  · cases h
  · split at h
    · split at h
      · cases h
      · next hu =>
        obtain ⟨query, -, h⟩ := bind_eq_ok.1 h
        cases h
        rw [behindName, hu]
    · next ho =>
      have hu : unwrap? t = none := by
        unfold unwrap?
        split
        · simp at ho
        · rfl
      simp only at h
      split at h
      · cases h
      · cases h
        rw [behindName, hu]

/-- A source leaves what stands behind it and its alias. -/
theorem rest_of_readSource {ends : List Text} {s : Source}
    (h : readSource nested literals ends clause t = .ok (s, rest)) :
    rest = behindSource ends t := by
  obtain ⟨⟨source, behind⟩, hb, h⟩ := bind_eq_ok.1 h
  obtain ⟨name, -, h⟩ := bind_eq_ok.1 h
  cases h
  rw [behindSource, ← rest_of_readBare hb]

/-! ## Sources behind commas -/

/-- No source behind the commas of a text has a name that holds a keyword. -/
def NoneHeld (t : Text) : Prop :=
  ∃ bound, t.length ≤ bound ∧
    ∀ source ∈ (listed bound t).1, nameHeld source = false

theorem NoneHeld.nameHeld_eq {tail : Text} (h : NoneHeld (',' :: tail)) :
    nameHeld tail.trim = false := by
  obtain ⟨_ | bound, hb, hh⟩ := h
  · simp at hb
  · exact hh _ (by simp [listed, stripComma?])

/-- The source behind the comma leaves a text of this kind again. -/
theorem NoneHeld.behind {tail : Text} {s : Source} (h : NoneHeld (',' :: tail))
    (hs : readListed nested literals tail.trim = .ok (s, rest)) :
    NoneHeld rest := by
  obtain ⟨_ | bound, hb, hh⟩ := h
  · simp at hb
  · simp only [listed, stripComma?, List.mem_cons, forall_eq_or_imp] at hh
    refine ⟨bound, ?_, rest_of_readSource hs ▸ hh.2⟩
    have hlt := length_readSource_lt isPhrase_of_mem_sourceEnds hs
    have hle := length_trim_le tail
    rw [List.length_cons] at hb
    omega

/-- The sources behind a comma leave what stands behind the last of them. -/
theorem rest_of_readMore : ∀ {n : Nat} {t rest : Text} {joins : List Join},
    readMore nested literals n t = .ok (joins, rest) → rest = (listed n t).2
  | 0, _, _, _, h => by
    cases h
    rfl
  | n + 1, t, rest, joins, h => by
    cases hc : t.stripComma? with
    | none =>
      simp only [readMore, hc] at h
      cases h
      simp only [listed, hc]
    | some source =>
      simp only [readMore, hc] at h
      obtain ⟨⟨s, rest'⟩, hs, h⟩ := bind_eq_ok.1 h
      obtain ⟨⟨more, rest''⟩, hm, h⟩ := bind_eq_ok.1 h
      cases h
      have hrest := rest_of_readMore hm
      simp only [listed, hc]
      rwa [rest_of_readSource hs] at hrest

/-- The sources are those of the parted text, if no name holds a keyword. -/
theorem Respaced.alike_readSources (h : Respaced t u)
    (hh : ∀ source ∈ (sourceTexts t).1, nameHeld source = false) :
    Alike (Rests Eq) (readSources nested literals t)
      (readSources nested literals u) := by
  have he := isPhrase_of_mem_sourceEnds
  simp only [sourceTexts, List.mem_cons, forall_eq_or_imp] at hh
  have hfirst : Alike (fun p q => p.1 = q.1 ∧ Respaced p.2 q.2 ∧ NoneHeld p.2)
      (readListed nested literals t) (readListed nested literals u) := by
    refine (h.alike_readSource he hh.1).imp_of_eq ?_
    rintro ⟨source, rest⟩ ⟨_, rest'⟩ hs - ⟨rfl, hrest⟩
    rw [← rest_of_readSource hs] at hh
    exact ⟨rfl, hrest, _, Nat.le_refl _, hh.2⟩
  refine (Alike.readSources (R := fun t u => Respaced t u ∧ NoneHeld t)
    (fun h => h.1.parted.head?_eq) ?_ hfirst).imp
    fun p q hpq => ⟨hpq.1, hpq.2.1⟩
  rintro tail tail' ⟨h, hnone⟩
  cases h.parted with
  | keep hp =>
    refine (hp.respaced.alike_readSource he hnone.nameHeld_eq).imp_of_eq ?_
    rintro ⟨source, rest⟩ ⟨_, rest'⟩ hs - ⟨rfl, hrest⟩
    exact ⟨rfl, hrest, hnone.behind hs⟩

/-- The sources leave what stands behind them. -/
theorem rest_of_readSources {v : Source × List Join}
    (h : readSources nested literals t = .ok (v, rest)) :
    rest = (sourceTexts t).2 := by
  obtain ⟨⟨source, rest'⟩, hs, h⟩ := bind_eq_ok.1 h
  obtain ⟨⟨joins, rest''⟩, hm, h⟩ := bind_eq_ok.1 h
  cases h
  have hrest := rest_of_readMore hm
  rwa [rest_of_readSource hs] at hrest

end SqlRiver
