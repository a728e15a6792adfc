import SqlRiver.Proofs.Closing.Held
import SqlRiver.Proofs.Spread.Query

/-!
# Clauses of parted texts

A reader that is handed a parted text gives what it gives for the text, but for
blanks, and what is left of one is the parted text that is left of the other.
The last word of an entry may become an alias, or no longer be one, when the
word before it comes apart from a bracket; this is what has to be asked of
entries.

Main definitions and statements:

* `Respaced`, `Rests`: trimmed texts, and results that differ in blanks only.
* `alike_readTrailing`, `alike_readOrderBy`: the clauses at the end.
* `Respaced.columnOf`, `alike_readSelect`: the select list.
* `alike_readFilter`, `alike_readGroupBy`, `alike_readHaving`: the clauses at
  the start.
-/

namespace SqlRiver

open Text

/-- A trimmed text with spaces between brackets and keywords, none of them at
its end. -/
structure Respaced (t u : Text) : Prop where
  parted : Parted 0 t u
  trimmed : Trimmed u

/-- What a reader has read is related, and so are the texts that are left. -/
def Rests {α : Type} (R : α → α → Prop) (p q : α × Text) : Prop :=
  R p.1 q.1 ∧ Respaced p.2 q.2

variable {t u rest : Text} {clause : Clause} {literals : LiteralTable}

theorem Spread.respaced (h : Parted 0 t u) : Respaced t.trim u.trim :=
  ⟨h.trim kept_stuck, trimmed_trim u⟩

namespace Respaced

theorem isEmpty_eq (h : Respaced t u) : u.isEmpty = t.isEmpty :=
  h.parted.isEmpty_eq

theorem squeeze_eq (h : Respaced t u) : squeeze u = squeeze t :=
  h.parted.squeeze_eq

theorem getLast?_eq (h : Respaced t u) : u.getLast? = t.getLast? := by
  refine h.parted.getLast?_cases.resolve_right ?_
  rintro ⟨-, hl, -⟩
  cases h.trimmed.stop _ hl

theorem left (h : Respaced t u) : Trimmed t :=
  ⟨h.parted.head?_eq ▸ h.trimmed.start, h.getLast?_eq ▸ h.trimmed.stop⟩

end Respaced

/-! ## Lists and trailing clauses -/

/-- Between commas stand respaced pieces. -/
theorem Spread.pieces_comma (h : Parted 0 t u) :
    List.Forall₂ Respaced (split [','] t).pieces (split [','] u).pieces := by
  rw [Split.pieces, Split.pieces, List.forall₂_map_left_iff,
    List.forall₂_map_right_iff]
  exact (h.parts_comma kept_stuck).imp fun _ _ h => h.respaced

/-- The entries of a parted list are respaced. -/
theorem Spread.alike_commaList (h : Parted 0 t u) :
    Alike (List.Forall₂ Respaced) (commaList clause t)
      (commaList clause u) := by
  have hpieces := h.respaced.parted.pieces_comma
  have hempty := congrArg (List.any · id)
    (map_eq_of_forall₂ hpieces fun _ _ _ h => h.isEmpty_eq)
  simp only [List.any_map, Function.comp_def, id_eq] at hempty
  simp only [commaList, h.respaced.isEmpty_eq, hempty]
  split
  · trivial
  · split
    · trivial
    · exact hpieces

/-- A clause at the end is that of the parted text, but for its blanks. -/
theorem Respaced.alike_readTrailing (clause : Clause) (h : Respaced t u) :
    Alike (Rests fun v v' => v'.map squeeze = v.map squeeze)
      (readTrailing clause t) (readTrailing clause u) := by
  rcases h.parted.aroundLast?_cases
    (isPhrase_phrase clause) kept_stuck not_detached_bracket with
    ⟨ht, hu⟩ | ⟨a, m, c, a', c', -, -, ha, hc, ht, hu⟩
  · simp only [readTrailing, ht, hu]
    exact ⟨rfl, h⟩
  · simp only [readTrailing, ht, hu, hc.respaced.isEmpty_eq]
    split
    · trivial
    · exact ⟨congrArg some hc.respaced.squeeze_eq, ha.respaced⟩

/-- The ordering is that of the parted text, but for its blanks. -/
theorem Respaced.alike_readOrderBy (h : Respaced t u) :
    Alike (Rests fun v v' =>
      v'.map squeeze = v.map squeeze) (readOrderBy t) (readOrderBy u) := by
  rcases h.parted.aroundLast?_cases
    (isPhrase_phrase .orderBy) kept_stuck not_detached_bracket with
    ⟨ht, hu⟩ | ⟨a, m, c, a', c', -, -, ha, hc, ht, hu⟩
  · simp only [readOrderBy, ht, hu]
    exact ⟨rfl, h⟩
  · simp only [readOrderBy, ht, hu]
    refine hc.alike_commaList.bind ?_
    intro entries entries' hentries
    exact ⟨map_eq_of_forall₂ hentries fun _ _ _ h => h.squeeze_eq, ha.respaced⟩

/-- A clause at the end leaves what stands before its last occurrence. -/
theorem rest_of_readTrailing {v : Option Text}
    (h : readTrailing clause t = .ok (v, rest)) :
    rest = beforeLast clause t := by
  unfold readTrailing at h
  split at h
  · next ha =>
    cases h
    rw [beforeLast, ha]
  · next ha =>
    simp only at h
    split at h
    · cases h
    · cases h
      rw [beforeLast, ha]

/-- The ordering leaves what stands before its last occurrence. -/
theorem rest_of_readOrderBy {v : List Text}
    (h : readOrderBy t = .ok (v, rest)) : rest = beforeLast .orderBy t := by
  unfold readOrderBy at h
  split at h
  · next ha =>
    cases h
    rw [beforeLast, ha]
  · next ha =>
    obtain ⟨entries, -, h⟩ := bind_eq_ok.1 h
    cases h
    rw [beforeLast, ha]

/-! ## Aliases -/

theorem isAlias_of_bracket (h : ')' ∈ t) : isAlias t = false := by
  rw [Bool.eq_false_iff]
  intro ha
  cases isEdge_of_isAlias ha _ h

/-- A keyword at the start of a text is no part of an alias. -/
theorem isAlias_of_stuck (h : Stuck t) : isAlias t = false := by
  rw [Bool.eq_false_iff]
  intro ha
  obtain ⟨k, hk, m, c, rfl, hs⟩ := h.resolve_left (ne_nil_of_isAlias ha)
  have hkeyed : ∀ k ∈ Keyword.all, Keyed k.text := by decide
  exact absent_alias ha (hkeyed k hk) [] m c rfl hs

/-- A text is an alias in parted form if it is one. -/
theorem Respaced.isAlias_eq (h : Respaced t u) : isAlias u = isAlias t := by
  by_cases hb : ')' ∈ t
  · rw [isAlias_of_bracket hb,
      isAlias_of_bracket ((h.parted.mem_iff (by decide)).2 hb)]
  · rw [h.parted.eq_of_not_mem hb]

theorem Respaced.eq_of_isAlias (h : Respaced t u) (ha : isAlias t = true) :
    u = t := by
  refine h.parted.eq_of_not_mem fun hb => ?_
  rw [isAlias_of_bracket hb] at ha
  cases ha

/-- An expression and its alias, but for the blanks of the expression. -/
def squeezeFirst (p : Text × Text) : Text × Text := (p.1.squeeze, p.2)

/-- An alias behind `as` is that of the parted text, and so is the expression,
but for its blanks. -/
theorem Respaced.explicitAlias?_eq (h : Respaced t u) :
    (explicitAlias? u).map squeezeFirst =
      (explicitAlias? t).map squeezeFirst := by
  rcases h.parted.aroundLast?_cases isPhrase_as kept_stuck
    not_detached_bracket with
    ⟨ht, hu⟩ | ⟨a, m, c, a', c', -, -, ha, hc, ht, hu⟩
  · simp only [explicitAlias?, ht, hu]
  · simp only [explicitAlias?, ht, hu, ha.respaced.isEmpty_eq,
      hc.respaced.isAlias_eq]
    split
    · next hn =>
      obtain ⟨-, hn⟩ : _ ∧ isAlias c.trim = true := by simpa using hn
      simp only [Option.map_some, squeezeFirst, ha.respaced.squeeze_eq,
        hc.respaced.eq_of_isAlias hn]
    · rfl

/-- Of two characters in a text one stands behind the other. -/
theorem mem_or_mem_of_append {a b c d : Text} {x y : Char}
    (e : a ++ x :: b = c ++ y :: d) (hne : x ≠ y) : y ∈ b ∨ x ∈ d := by
  rcases List.append_eq_append_iff.1 e with ⟨z, rfl, hz⟩ | ⟨z, rfl, hz⟩
  · cases z with
    | nil => exact absurd (List.cons.inj hz).1 hne
    | cons x' z =>
      obtain ⟨rfl, rfl⟩ := List.cons.inj hz
      exact .inl (by simp)
  · cases z with
    | nil => exact absurd (List.cons.inj hz).1.symm hne
    | cons y' z =>
      obtain ⟨rfl, rfl⟩ := List.cons.inj hz
      exact .inr (by simp)

/-- The word behind a bracket. -/
theorem bracket_mem_afterLast {a w : Text} (hw : ' ' ∉ w) :
    ')' ∈ afterLast ' ' (a ++ ')' :: w) := by
  obtain ⟨pre, e, hpre, hsp⟩ := exists_afterLast ' ' (a ++ ')' :: w)
  generalize afterLast ' ' (a ++ ')' :: w) = v at *
  rcases hpre with rfl | hpre
  · rw [List.nil_append] at e
    simp [← e]
  · obtain ⟨pre, rfl⟩ := List.getLast?_eq_some_iff.1 hpre
    rw [List.append_assoc, List.singleton_append] at e
    exact (mem_or_mem_of_append e (by decide)).resolve_left hw

/-- A keyword that an entry holds behind a bracket is an `end`, if a possible
alias is the next word. -/
theorem text_of_entryHeld {entry a w r n : Text} {k : Keyword}
    (hh : entryHeld entry = false) (hx : explicitAlias? entry = none)
    (e : entry = a ++ ')' :: (w ++ r ++ ' ' :: n)) (hd : depth a = 1)
    (hw : ∀ c ∈ w.getLast?, isBlank c = false) (hr : Blank r)
    (hn : isAlias n = true) (hk : Keyword.ofWord? w = some k) :
    k.text = "end".toList := by
  by_contra hne
  simp only [entryHeld, hx, Option.isNone_none, Bool.true_and] at hh
  have hmem : (a, w ++ r ++ ' ' :: n) ∈ closings entry := by
    rw [e]
    exact mem_closings hd _
  have htest := List.any_eq_false.1 hh _ hmem
  simp only [cutLast_append (space_not_mem_alias hn), trimEnd_pad hr hw, hn, hk,
    Bool.true_and] at htest
  exact htest (bne_iff_ne.2 hne)

/-- The last word of a trimmed expression. -/
theorem continues_eq {e e' r n : Text} (h : Parted 0 e e')
    (he' : ∀ c ∈ e'.getLast?, isBlank c = false) (hr : Blank r)
    (hn : isAlias n = true) (hx : explicitAlias? (e ++ r ++ ' ' :: n) = none)
    (hh : entryHeld (e ++ r ++ ' ' :: n) = false) :
    continues e' = continues e := by
  have hlast : e'.getLast? = e.getLast? := by
    refine h.getLast?_cases.resolve_right ?_
    rintro ⟨-, hl, -⟩
    cases he' _ hl
  rcases h.cutLast_cases with
    ⟨rfl, -⟩ | ⟨a, a', w, rfl, rfl, hsp, -⟩ | ⟨a, a', w, rfl, rfl, hsp, hd, -⟩
  · rfl
  · simp only [continues, hlast, afterLast_append hsp]
  · -- the word behind the bracket is no keyword, or an `end`
    have hw : w ≠ [] := by
      rintro rfl
      simp at he'
      cases he'
    have hwl : ∀ c ∈ w.getLast?, isBlank c = false := by
      obtain ⟨d, w, rfl⟩ := List.exists_cons_of_ne_nil hw
      simpa using he'
    have hnone : Keyword.ofWord? (afterLast ' ' (a ++ ')' :: w)) = none := by
      rw [← Option.not_isSome_iff_eq_none]
      intro hres
      cases isEdge_of_isReserved hres _ (bracket_mem_afterLast hsp)
    have hafter : afterLast ' ' (a' ++ ')' :: ' ' :: w) = w := by
      rw [List.append_cons, afterLast_append hsp]
    simp only [continues, hlast, hafter, hnone]
    cases hk : Keyword.ofWord? w with
    | none => rfl
    | some k =>
      have e : a ++ ')' :: w ++ r ++ ' ' :: n =
          a ++ ')' :: (w ++ r ++ ' ' :: n) := by simp
      have hend := text_of_entryHeld hh hx e (by simpa using hd) hwl hr hn hk
      simp [hend]

/-- There is no alias without `as` if the last word is none. -/
theorem implicitAlias?_of_not_isAlias (h : ∀ a n, t = a ++ ' ' :: n → ' ' ∉ n →
    isAlias n = false) : implicitAlias? t = none := by
  cases ht : implicitAlias? t with
  | none => rfl
  | some p =>
    obtain ⟨-, a, e, hsp, -, -, ha, -⟩ := implicitAlias?_eq_some_iff.1 ht
    rw [h a p.2 e hsp] at ha
    cases ha

/-- An alias without `as` is that of the parted text, if no bracket holds the
word before it. -/
theorem Respaced.implicitAlias?_eq (h : Respaced t u)
    (hx : explicitAlias? t = none) (hh : entryHeld t = false) :
    (implicitAlias? u).map squeezeFirst =
      (implicitAlias? t).map squeezeFirst := by
  rcases h.parted.cutLast_cases with
    ⟨rfl, -⟩ | ⟨a, a', n, rfl, rfl, hsp, ha⟩ | ⟨a, a', w, rfl, rfl, hsp, -, hg⟩
  · rfl
  · simp only [implicitAlias?, Text.endsWith, h.getLast?_eq, cutLast_append hsp]
    split
    · rfl
    · by_cases hn : isAlias n = true
      · obtain ⟨r, hr, e, hlast⟩ := exists_trimEnd a
        have hcut : Apart a (' ' :: n) := .inr (by rintro _ ⟨⟩; rfl)
        have hpart := (ha.of_append kept_stuck hcut).trimEnd kept_stuck
        obtain ⟨-, -, -, hlast'⟩ := exists_trimEnd a'
        have hcont : continues (Text.trimEnd a') = continues (Text.trimEnd a) :=
          continues_eq hpart hlast' hr hn (by rwa [← e]) (by rwa [← e])
        simp only [hpart.isEmpty_eq, hcont]
        split
        · rfl
        · simp only [Option.map_some, squeezeFirst, hpart.squeeze_eq]
      · simp [hn]
  · rw [implicitAlias?_of_not_isAlias, implicitAlias?_of_not_isAlias]
    · intro b n e hn
      exact isAlias_of_bracket
        ((mem_or_mem_of_append e (by decide)).resolve_left hsp)
    · intro b n e hn
      rw [List.append_cons] at e
      have := congrArg (cutLast ' ') e
      rw [cutLast_append hsp, cutLast_append hn] at this
      cases this
      exact isAlias_of_stuck hg

/-! ## The select list -/

/-- The alias of an entry is that of the parted text, if no bracket holds the
word before it. -/
theorem Respaced.alias?_eq (h : Respaced t u) (hh : entryHeld t = false) :
    ((explicitAlias? u).or (implicitAlias? u)).map squeezeFirst =
      ((explicitAlias? t).or (implicitAlias? t)).map squeezeFirst := by
  have he := h.explicitAlias?_eq
  cases ht : explicitAlias? t with
  | none =>
    rw [ht, Option.map_none, Option.map_eq_none_iff] at he
    rw [he, Option.none_or, Option.none_or, h.implicitAlias?_eq ht hh]
  | some p =>
    rw [ht, Option.map_some, Option.map_eq_some_iff] at he
    obtain ⟨q, hu, e⟩ := he
    rw [hu, Option.some_or, Option.some_or, Option.map_some, Option.map_some, e]

/-- The column of an entry is that of the parted entry, but for blanks. -/
theorem Respaced.squeezed_columnOf (h : Respaced t u)
    (hh : entryHeld t = false) :
    (columnOf literals u).squeezed = (columnOf literals t).squeezed := by
  have hcut := h.alias?_eq hh
  unfold columnOf splitAlias
  generalize (explicitAlias? t).or (implicitAlias? t) = p at hcut ⊢
  generalize (explicitAlias? u).or (implicitAlias? u) = p' at hcut ⊢
  cases p with
  | none =>
    obtain rfl : p' = none := by simpa using hcut
    simp only [Column.squeezed, h.squeeze_eq]
  | some p =>
    obtain ⟨q, rfl, hq⟩ := Option.map_eq_some_iff.1 hcut
    obtain ⟨hexpr, hname⟩ : q.1.squeeze = p.1.squeeze ∧ q.2 = p.2 :=
      Prod.mk.injEq .. ▸ hq
    simp only [hname]
    split
    · simp only [Column.squeezed, h.squeeze_eq]
    · simp only [Column.squeezed, hexpr]

/-- The columns are those of the parted text, if no bracket holds a keyword in
an entry. -/
theorem Respaced.alike_readSelect (h : Respaced t u)
    (hh : ∀ list rest, selected? t = some (list, rest) →
    ∀ entry ∈ (split [','] (Text.trim list)).pieces, entryHeld entry = false) :
    Alike (Rests fun v v' => v'.1 = v.1 ∧ v'.2.map Column.squeezed = v.2.map
      Column.squeezed) (readSelect literals t) (readSelect literals u) := by
  rcases h.parted.stripWord?_cases (isPhrase_phrase .select) with
    ⟨ht, hu⟩ | ⟨m, c, c', -, -, hc, ht, hu⟩
  · simp only [readSelect, ht, hu]
    trivial
  · simp only [selected?, ht, Option.bind_some] at hh
    simp only [readSelect, ht, hu]
    rcases hc.aroundFirst?_cases
      (isPhrase_phrase .source) kept_stuck not_detachedFirst_bracket with
      ⟨ht, hu⟩ | ⟨list, m', tail, list', tail', -, -, hlist, htail, ht, hu⟩
    · simp only [ht, hu]
      trivial
    · obtain ⟨hflag, hrest⟩ := hlist.respaced.parted.stripDistinct
      have hentries := hh _ _ (by rw [ht, Option.map_some])
      simp only [ht, hu, hflag, hrest.isEmpty_eq]
      split
      · trivial
      · refine hrest.alike_commaList.bind_of_eq ?_
        intro entries entries' he _ hentry
        obtain ⟨-, rfl, -⟩ := commaList_eq_ok_iff.1 he
        refine ⟨⟨rfl, ?_⟩, htail.respaced⟩
        rw [List.map_map, List.map_map]
        exact map_eq_of_forall₂ hentry fun entry hmem _ h =>
          h.squeezed_columnOf (hentries entry hmem)

/-- The columns leave what stands behind their `from`. -/
theorem selected?_of_readSelect {v : Bool × List Column}
    (h : readSelect literals t = .ok (v, rest)) :
    ∃ list, selected? t = some (list, rest) := by
  obtain ⟨m, list, m', tail, l, entries, rfl, hs, hs', habs, hd, -, -, -,
      rfl⟩ :=
    readSelect_eq_ok_iff.1 h
  have hb := stripWord?_eq_some_iff.2 ⟨m, rfl, hs⟩
  have hf :=
    (aroundFirst?_eq_some_iff (isPhrase_phrase .source)).2 ⟨m', rfl, hs', habs⟩
  exact ⟨l, by rw [selected?, hb, Option.bind_some, hf, Option.map_some, hd]⟩

/-! ## Clauses at the start -/

/-- The part of a clause behind its phrase, with the text behind that part. -/
theorem Respaced.bodyOf?_cases (h : Respaced t u) (clause : Clause)
    (ends : List Clause) :
    bodyOf? clause ends t = none ∧ bodyOf? clause ends u = none ∨
      ∃ body rest body' rest', bodyOf? clause ends t = some (body, rest) ∧
        bodyOf? clause ends u = some (body', rest') ∧
        Parted 0 body body' ∧ Respaced rest rest' := by
  rcases h.parted.bodyOf?_cases kept_stuck fun _ _ _ _ =>
    not_detachedFirst_bracket with
    hnone | ⟨m, x, y, x', y', -, -, -, hx, hy, ht, hu⟩
  · exact .inl hnone
  · exact .inr ⟨x, y.trim, x', y'.trim, ht, hu, hx, hy.respaced⟩

/-- The grouping is that of the parted text, but for its blanks. -/
theorem Respaced.alike_readGroupBy (h : Respaced t u) :
    Alike (Rests fun v v' =>
      v'.map squeeze = v.map squeeze) (readGroupBy t) (readGroupBy u) := by
  rcases h.bodyOf?_cases .groupBy [.having, .orderBy, .limit] with
    ⟨ht, hu⟩ | ⟨body, rest, body', rest', ht, hu, hbody, hrest⟩
  · simp only [readGroupBy, ht, hu]
    exact ⟨rfl, h⟩
  · simp only [readGroupBy, ht, hu]
    refine hbody.alike_commaList.bind ?_
    intro entries entries' hentries
    exact ⟨map_eq_of_forall₂ hentries fun _ _ _ h => h.squeeze_eq, hrest⟩

/-- The filter is that of the parted text, but for its blanks. -/
theorem Respaced.alike_readFilter (h : Respaced t u) :
    Alike (Rests fun v v' => v'.map Condition.squeezed =
      v.map Condition.squeezed) (readFilter t) (readFilter u) := by
  rcases h.bodyOf?_cases .filter [.groupBy, .having, .orderBy, .limit] with
    ⟨ht, hu⟩ | ⟨body, rest, body', rest', ht, hu, hbody, hrest⟩
  · simp only [readFilter, ht, hu]
    exact ⟨rfl, h⟩
  · simp only [readFilter, ht, hu]
    refine (hbody.alike_conditions fun _ => not_detached_bracket).bind ?_
    intro conds conds' hconds
    exact ⟨hconds, hrest⟩

/-- The filter of groups is that of the parted text, but for its blanks. -/
theorem Respaced.alike_readHaving {grouped : Bool} (h : Respaced t u) :
    Alike (Rests fun v v' => v'.map Condition.squeezed = v.map
      Condition.squeezed) (readHaving grouped t) (readHaving grouped u) := by
  rcases h.bodyOf?_cases .having [.orderBy, .limit] with
    ⟨ht, hu⟩ | ⟨body, rest, body', rest', ht, hu, hbody, hrest⟩
  · simp only [readHaving, ht, hu]
    exact ⟨rfl, h⟩
  · simp only [readHaving, ht, hu]
    split
    · refine (hbody.alike_conditions fun _ => not_detached_bracket).bind ?_
      intro conds conds' hconds
      exact ⟨hconds, hrest⟩
    · trivial

end SqlRiver
