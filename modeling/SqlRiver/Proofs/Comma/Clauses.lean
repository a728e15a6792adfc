import SqlRiver.Proofs.Comma.Overt

/-!
# Clauses of loosened texts

A comma is *tight* if no space follows it. A text is loosened by putting a
space behind commas of its top level. A reader that is handed a loosened text
gives what it gives for the text, but for blanks: both are refused, or the
values differ in blanks only, and the text that is left of one is the
loosened text that is left of the other. What stands between commas is
trimmed, so lists do not differ at all.

Main definitions and statements:

* `Loosened`: a text with spaces put behind some of its commas.
* `Loosened.eq_of_noTop`: a text without a comma of the top level stays as it
  is.
* `Loosened.pieces_comma`: the entries of a list stay as they are.
* `Leaves`: results that differ in blanks only.
* `alike_readTrailing`, `alike_readOrderBy`: the clauses at the end.
* `alike_readSelect`: the select list.
* `alike_readFilter`, `alike_readGroupBy`, `alike_readHaving`: the clauses at
  the start.
-/

namespace SqlRiver

open Text

/-- The text `u` is `t` with a space put behind some of the commas at depth
zero, when `t` starts at depth `d`. -/
abbrev Loosened : Int → Text → Text → Prop := Spread ',' fun _ => True

variable {t u : Text} {clause : Clause} {literals : LiteralTable}

/-! ## Entries -/

namespace Loosened

/-- Only commas of the top level are loosened. -/
theorem eq_of_noTop (h : Loosened 0 t u) (hn : NoTop isComma t) : u = t := by
  refine h.eq_of_forall fun a b e hd _ => ?_
  rw [Int.zero_add] at hd
  cases hn a ',' b e (depth_comma hd)

theorem split_space (t : Text) :
    split [','] (' ' :: t) = (split [','] t).push ' ' := by
  have hsep : separates [','] none (' ' :: t) = false := by
    simp [separates, Text.leads]
  rw [split, splitFrom, hsep, splitFrom_before (.inl (by decide)) _ none]
  rfl

/-- The entries between commas are trimmed, so that a space behind a comma is
lost. -/
theorem pieces_comma (h : Loosened 0 t u) :
    (split [','] u).pieces = (split [','] t).pieces := by
  refine split_comma_induction (P := fun t s => ∀ u, Loosened 0 t u →
    (split [','] u).pieces = s.pieces) ?_ ?_ t u h
  · intro t hn u h
    rw [eq_of_noTop h hn, split_of_noTop hn]
  · intro a c s hn hd ih u h
    obtain ⟨a', v, rfl, ha, hv⟩ := h.exists_append
    obtain rfl := eq_of_noTop ha hn
    rw [hd] at hv
    -- the entry behind the comma has a space before it or not
    obtain ⟨w, rfl, hw⟩ : ∃ w, v = ',' :: w ∧
        (split [','] w).pieces = s.pieces := by
      cases hv with
      | @keep _ _ _ w hv => exact ⟨w, rfl, ih w hv⟩
      | @space _ _ w _ _ hv =>
        have htrim : Text.trim (' ' :: (split [','] w).first) =
            (split [','] w).first.trim :=
          trim_blank_append (l := [' ']) (blank_spaces 1) _
        refine ⟨' ' :: w, rfl, ?_⟩
        rw [← ih w hv, split_space]
        simp only [Split.pieces, Split.parts, Split.push, List.map_cons, htrim]
    rw [split_comma hn hd]
    simp only [Split.pieces, Split.parts, List.map_cons] at hw ⊢
    rw [hw]

end Loosened

/-! ## Results -/

/-- What a reader has read is related, and the text that is left is loosened. -/
def Leaves {α : Type} (R : α → α → Prop) (p q : α × Text) : Prop :=
  R p.1 q.1 ∧ Overt p.2 ∧ Loosened 0 p.2 q.2

/-! ## Lists and trailing clauses -/

/-- The entries of a loosened list are the same: they are trimmed. -/
theorem Loosened.commaList_eq (h : Loosened 0 t u) :
    commaList clause u = commaList clause t := by
  simp only [commaList, (h.trim kept_true).isEmpty_eq,
    Loosened.pieces_comma (h.trim kept_true)]

/-- A clause at the end of an overt text is that of the loosened text, but for
its blanks. -/
theorem alike_readTrailing (hmem : clause ∈ trailingClauses) (ho : Overt t)
    (h : Loosened 0 t u) :
    Alike (Leaves fun v v' => v'.map squeeze = v.map squeeze)
      (readTrailing clause t) (readTrailing clause u) := by
  have hp := isPhrase_phrase clause
  rcases h.aroundLast?_cases hp kept_true (ho.not_detached hmem) with
    ⟨ht, hu⟩ | ⟨a, m, c, a', c', rfl, hs, ha, hc, ht, hu⟩
  · simp only [readTrailing, ht, hu]
    exact ⟨rfl, ho, h⟩
  · simp only [readTrailing, ht, hu, (hc.trim kept_true).isEmpty_eq]
    split
    · trivial
    · exact ⟨congrArg some (hc.trim kept_true).squeeze_eq,
        (ho.stands hp hs).1.trim, (ha.trim kept_true)⟩

/-- The ordering of an overt text is that of the loosened text. -/
theorem alike_readOrderBy (ho : Overt t) (h : Loosened 0 t u) :
    Alike (Leaves Eq) (readOrderBy t) (readOrderBy u) := by
  have hp := isPhrase_phrase .orderBy
  rcases h.aroundLast?_cases hp kept_true (ho.not_detached (by decide)) with
    ⟨ht, hu⟩ | ⟨a, m, c, a', c', rfl, hs, ha, hc, ht, hu⟩
  · simp only [readOrderBy, ht, hu]
    exact ⟨rfl, ho, h⟩
  · simp only [readOrderBy, ht, hu, Loosened.commaList_eq hc]
    refine (alike_refl (fun _ => rfl) _).bind ?_
    rintro entries _ rfl
    exact ⟨rfl, (ho.stands hp hs).1.trim, (ha.trim kept_true)⟩

/-! ## The select list -/

/-- The columns of an overt text are those of the loosened text. -/
theorem alike_readSelect (ho : Overt t) (h : Loosened 0 t u) :
    Alike (Leaves Eq) (readSelect literals t) (readSelect literals u) := by
  have hp := isPhrase_phrase .select
  rcases h.stripWord?_cases hp with ⟨ht, hu⟩ | ⟨m, c, c', rfl, hs, hc, ht, hu⟩
  · simp only [readSelect, ht, hu]
    trivial
  · have hmem : (Clause.select, [Clause.source]) ∈ clauseEnds := by decide
    have hd : ¬ DetachedFirst ',' [Clause.source.phrase] c :=
      Overt.not_detachedFirst (a := []) hmem ho hs
    simp only [readSelect, ht, hu]
    rcases hc.aroundFirst?_cases (isPhrase_phrase .source) kept_true hd with
      ⟨ht, hu⟩ | ⟨list, m', tail, list', tail', rfl, hs', hlist, htail, ht, hu⟩
    · simp only [ht, hu]
      trivial
    · obtain ⟨hflag, hrest⟩ := (hlist.trim kept_true).stripDistinct
      simp only [ht, hu, hflag, hrest.isEmpty_eq, Loosened.commaList_eq hrest]
      split
      · trivial
      · refine (alike_refl (fun _ => rfl) _).bind ?_
        rintro entries _ rfl
        have hbehind := (Overt.stands (a := []) ho hp hs).2
        exact ⟨rfl, (hbehind.stands (isPhrase_phrase .source) hs').2.trim,
          (htail.trim kept_true)⟩

/-! ## Conditions -/

/-- A word that is detached in a text without blanks at its ends is detached
in the text. -/
theorem Detached.of_trim {w : Text} (h : Detached ',' w t.trim)
    (hw : isPhrase w = true) (hs : t.SpaceOnly) : Detached ',' w t := by
  obtain ⟨l, r, hl, hr, e⟩ := exists_trim t
  have hr' : r.SpaceOnly := hs.of_subset fun d hd => by rw [e]; simp [hd]
  rw [e, List.append_assoc]
  exact (h.append_right hw (cut_blank_right hr hr' _)).append_left
    (depth_blank hl)

/-- Conditions are those of the loosened text, but for the blanks of their
predicates, if no comma hides a mark. -/
theorem alike_conditions (hs : t.SpaceOnly)
    (hd : ∀ k : Mark, ¬ Detached ',' k.word t) (h : Loosened 0 t u) :
    Alike (fun v v' => v'.map Condition.squeezed = v.map Condition.squeezed)
      (conditions clause t) (conditions clause u) :=
  Spread.alike_conditions (fun k hk => hd k (hk.of_trim k.isPhrase_word hs)) h

/-! ## Clauses at the start -/

/-- The part of a clause behind its phrase, with the text behind that part. -/
theorem Loosened.bodyOf?_cases {ends : List Clause}
    (hmem : (clause, ends) ∈ clauseEnds) (ho : Overt t) (h : Loosened 0 t u) :
    bodyOf? clause ends t = none ∧ bodyOf? clause ends u = none ∨
      ∃ body rest body' rest', bodyOf? clause ends t = some (body, rest) ∧
        bodyOf? clause ends u = some (body', rest') ∧
        Overt body ∧ Loosened 0 body body' ∧
        Overt rest ∧ Loosened 0 rest rest' ∧
        (clause = .filter ∨ clause = .having →
          ∀ k : Mark, ¬ Detached ',' k.word body) := by
  have hp := isPhrase_phrase clause
  have hd (m c : Text) (e : t = m ++ c) (hs : Stands clause.phrase [] m c) :
      ¬ DetachedFirst ',' (ends.map Clause.phrase) c := by
    subst e
    exact Overt.not_detachedFirst (a := []) hmem ho hs
  rcases Spread.bodyOf?_cases kept_true hd h with
    hnone | ⟨m, x, y, x', y', rfl, hs, hup, hx, hy, ht, hu⟩
  · exact .inl hnone
  · obtain ⟨hbody, hrest⟩ := (Overt.stands (a := []) ho hp hs).2.upTo hup
    exact .inr ⟨x, y.trim, x', y'.trim, ht, hu, hbody, hx, hrest.trim,
      hy.trim kept_true,
      fun hclause => Overt.not_detached_body hmem hclause ho hs hup⟩

/-- The grouping of an overt text is that of the loosened text. -/
theorem alike_readGroupBy (ho : Overt t) (h : Loosened 0 t u) :
    Alike (Leaves Eq) (readGroupBy t) (readGroupBy u) := by
  have hmem : (Clause.groupBy, [.having, .orderBy, .limit]) ∈ clauseEnds :=
    by decide
  rcases Loosened.bodyOf?_cases hmem ho h with
    ⟨ht, hu⟩ | ⟨body, rest, body', rest', ht, hu, -, hbody, hrest, hrest', -⟩
  · simp only [readGroupBy, ht, hu]
    exact ⟨rfl, ho, h⟩
  · simp only [readGroupBy, ht, hu, Loosened.commaList_eq hbody]
    refine (alike_refl (fun _ => rfl) _).bind ?_
    rintro entries _ rfl
    exact ⟨rfl, hrest, hrest'⟩

/-- The filter of an overt text is that of the loosened text, but for its
blanks. -/
theorem alike_readFilter (ho : Overt t) (h : Loosened 0 t u) :
    Alike (Leaves fun v v' => v'.map Condition.squeezed =
      v.map Condition.squeezed) (readFilter t) (readFilter u) := by
  have hmem : (Clause.filter, [.groupBy, .having, .orderBy, .limit]) ∈
      clauseEnds := by decide
  rcases Loosened.bodyOf?_cases hmem ho h with
    ⟨ht, hu⟩ | ⟨body, rest, body', rest', ht, hu, hbo, hbody, hrest, hrest', hd⟩
  · simp only [readFilter, ht, hu]
    exact ⟨rfl, ho, h⟩
  · simp only [readFilter, ht, hu]
    refine (alike_conditions hbo.orderly.thin.spaceOnly
      (hd (.inl rfl)) hbody).bind ?_
    intro conds conds' hconds
    exact ⟨hconds, hrest, hrest'⟩

/-- The filter of groups of an overt text is that of the loosened text, but for
its blanks. -/
theorem alike_readHaving {grouped : Bool} (ho : Overt t) (h : Loosened 0 t u) :
    Alike (Leaves fun v v' => v'.map Condition.squeezed = v.map
      Condition.squeezed) (readHaving grouped t) (readHaving grouped u) := by
  have hmem : (Clause.having, [.orderBy, .limit]) ∈ clauseEnds := by decide
  rcases Loosened.bodyOf?_cases hmem ho h with
    ⟨ht, hu⟩ | ⟨body, rest, body', rest', ht, hu, hbo, hbody, hrest, hrest', hd⟩
  · simp only [readHaving, ht, hu]
    exact ⟨rfl, ho, h⟩
  · simp only [readHaving, ht, hu]
    split
    · refine (alike_conditions hbo.orderly.thin.spaceOnly
        (hd (.inr rfl)) hbody).bind ?_
      intro conds conds' hconds
      exact ⟨hconds, hrest, hrest'⟩
    · trivial

end SqlRiver
