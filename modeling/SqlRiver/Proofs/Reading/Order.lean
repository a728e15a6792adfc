import SqlRiver.Proofs.Reading.Tokens

/-!
# Nothing is lost, repeated or moved by reading

The readers of select lists, sources and joins take tokens off a text as the
other readers do, also where a source is a query in brackets. Put together, the
normal form of a text is laid out of the tokens of the query that is read from
it: its pieces stand there in the order of the query, apart from each other, and
between them there is nothing but spaces, commas and whole keywords.

Main statements:

* `takes_readSelect`, `takes_readSource`, `takes_readSources`,
  `takes_readJoins`: the other readers.
* `laid_readQuery`: a text is laid out of the tokens of its query.
* `laid_of_parse`: the same for the text that a query is parsed from.
-/

namespace SqlRiver

variable {nested : Nested} {literals : LiteralTable} {clause : Clause}
  {t rest : Text}

/-! ## The select list -/

theorem isFiller_as : isFiller "as".toList = true := by decide

theorem isFiller_distinct : isFiller "distinct".toList = true := by decide

/-- A column is laid out of its expression and its alias. -/
theorem free_columnOf (literals : LiteralTable) (e : Text) (he : e.SpaceOnly)
    (h₀ : e ≠ []) : Free (columnOf literals e).tokens e := by
  rcases columnOf_cases literals e with h | ⟨x, n, hx, -, h⟩
  · rw [h]
    exact free_piece h₀
  rw [h]
  rcases splitAlias_eq_some_iff.1 hx with hx | ⟨-, hx⟩
  · obtain ⟨a, m, c, rfl, hs, -, hx₀, hn, rfl, rfl⟩ :=
      explicitAlias?_eq_some_iff.1 hx
    intro b d hb hd
    have ha₀ : a ≠ [] := by
      rintro rfl
      exact hx₀ rfl
    have hc₀ : c.trim ≠ [] := by
      intro hc
      rw [hc] at hn
      cases hn
    have hleft : Laid b [.piece a.trim] a none := laid_piece_trim
      (he.of_subset (by simp)) hx₀ (runsOn_of_left hb _) (runsOn_of_right rfl _)
    have hright : Laid none [.piece c.trim] c d :=
      laid_piece_trim (he.of_subset (by simp)) hc₀ rfl (runsOn_of_right hd _)
    refine .stands_between isFiller_as isPhrase_as hs.spelled ?_ ?_ hleft hright
    · obtain ⟨l, hl⟩ := Option.isSome_iff_exists.1 (List.getLast?_isSome.2 ha₀)
      simpa [hl] using hs.left
    · obtain ⟨f, tail, rfl⟩ :=
        List.exists_cons_of_ne_nil (l := c) (by rintro rfl; exact hc₀ rfl)
      exact hs.right
  · obtain ⟨-, a, rfl, -, rfl, hx₀, hn, -⟩ := implicitAlias?_eq_some_iff.1 hx
    have hn₀ : n ≠ [] := by
      rintro rfl
      cases hn
    -- the blanks between the expression and the alias
    obtain ⟨r, hr, ha, -⟩ := Text.exists_trimEnd a
    have hgap : Text.Blank (r ++ [' ']) :=
      Text.blank_append.2 ⟨hr, Text.blank_cons.2 ⟨rfl, Text.blank_nil⟩⟩
    generalize Text.trimEnd a = x at *
    subst ha
    have := (free_piece hx₀).gap hgap (he.of_subset (by simp)) (by simp)
      (free_piece hn₀)
    rw [List.append_assoc]
    simpa [Column.tokens] using this

/-- The text behind a leading `distinct`. -/
theorem laid_stripDistinct {l : Text} {d : Bool} {ks : List Token}
    (ht : t.SpaceOnly) (h : stripDistinct t = (d, l))
    (hl : l ⊆ t → Laid none ks l none) : Laid none ks t none := by
  unfold stripDistinct at h
  split at h
  · next behind hb =>
    cases h
    obtain ⟨m, rfl, hs⟩ := stripWord?_eq_some_iff.1 hb
    obtain ⟨r, hr, e, -⟩ := Text.exists_trimStart behind
    have hsub : r ⊆ m ++ behind := by
      rw [e]
      simp
    have hbehind : Laid none ([] ++ ks) behind none := by
      rw [e]
      refine (laid_blank hr (ht.of_subset hsub)).append_cut (hl ?_)
        (cut_blank_left hr (ht.of_subset hsub) _)
      conv => rhs; rw [e]
      simp
    simpa using Laid.stands isFiller_distinct isPhrase_distinct hs .nil hbehind
  · cases h
    exact hl (List.Subset.refl _)

/-- The columns are laid out at the start of what is read. -/
theorem takes_readSelect {d : Bool} {columns : List Column} (ht : t.SpaceOnly)
    (h : readSelect literals t = .ok ((d, columns), rest)) :
    Takes (columns.flatMap Column.tokens) [] t rest := by
  obtain ⟨m, list, m', tail, l, entries, rfl, hs, hs', -, hd, -, hl, rfl,
      rfl⟩ :=
    readSelect_eq_ok_iff.1 h
  have hlist : list.SpaceOnly := ht.of_subset (by simp)
  have htail : tail ⊆ m ++ (list ++ m' ++ tail) := fun c hc => by simp [hc]
  refine ⟨List.Subset.trans (Text.trim_subset tail) htail, fun ks hks => ?_⟩
  have hentries : Laid none
      ((entries.map (columnOf literals)).flatMap Column.tokens) list none := by
    have hsub := hlist.of_subset (Text.trim_subset list)
    rw [List.flatMap_map]
    refine .of_trim hlist (laid_stripDistinct hsub hd fun h => ?_)
    exact laid_commaList (free_columnOf literals) (hsub.of_subset h) hl
  have hbehind := Laid.stands (isFiller_phrase .source)
    (isPhrase_phrase .source) hs' hentries (.of_trim (ht.of_subset htail) hks)
  simpa using Laid.stands (isFiller_phrase .select)
    (isPhrase_phrase .select) hs .nil hbehind

/-! ## Sources -/

/-- The reader of queries in brackets takes all of a text. -/
def NestedLaid (nested : Nested) : Prop :=
  ∀ t q, Text.SpaceOnly t → nested t = .ok q → Laid none q.tokens t none

/-- An alias is one more token behind those of a source. -/
theorem Source.tokens_withAlias (s : Source) (h : s.aliasName? = none)
    (v : Option Text) :
    (v.elim s s.withAlias).tokens = s.tokens ++ v.toList.map .piece := by
  cases v with
  | none => simp
  | some name =>
    cases s with
    | table n a =>
      obtain rfl : a = none := h
      simp [Source.withAlias, Source.tokens]
    | subquery q a =>
      obtain rfl : a = none := h
      simp [Source.withAlias, Source.tokens]

theorem laid_opening : Laid none [.opening] ['('] none :=
  .token (k := .opening) (t := []) (by simp [Token.text]) rfl rfl .nil

theorem laid_closing : Laid none [.closing] [')'] none :=
  .token (k := .closing) (t := []) (by simp [Token.text]) rfl rfl .nil

/-- A text in brackets, and what follows them. -/
theorem laid_brackets {inside tail : Text} {ks ls : List Token}
    (hi : Laid none ks inside none) (ht : Laid none ls tail none) :
    Laid none (.opening :: ks ++ .closing :: ls)
      ('(' :: inside ++ ')' :: tail) none := by
  have ho := laid_opening.append_cut hi (.inl rfl)
  have hc := ho.append_cut laid_closing (.inr rfl)
  have h := hc.append_cut ht (.inl (by rw [List.getLast?_concat]; rfl))
  simpa using h

theorem aliasName?_of_readBare {s : Source}
    (h : readBare nested clause t = .ok (s, rest)) : s.aliasName? = none := by
  rcases readBare_eq_ok_iff.1 h with
    ⟨_, _, _, _, _, _, rfl, _⟩ | ⟨_, _, _, _, _, _, _, rfl, _⟩ <;> rfl

/-- Reading takes `front` off the start of a text that may follow any character
which is not part of a word. -/
structure TakesFirst (front : List Token) (t rest : Text) : Prop where
  subset : rest ⊆ t
  laid : ∀ b ks, offWord b = true → Laid none ks rest none →
    Laid b (front ++ ks) t none

theorem TakesFirst.takes {front : List Token} {t rest : Text}
    (h : TakesFirst front t rest) : Takes front [] t rest :=
  ⟨h.subset, fun ks hks => by simpa using h.laid none ks rfl hks⟩

/-- What is taken first and what is taken behind it are laid out one behind the
other. -/
theorem TakesFirst.trans {front front' : List Token} {t u v : Text}
    (h : TakesFirst front t u) (h' : Takes front' [] u v) :
    TakesFirst (front ++ front') t v := by
  refine ⟨List.Subset.trans h'.subset h.subset, fun b ks hb hks => ?_⟩
  simpa using h.laid b _ hb (h'.laid ks hks)

/-- The tokens of a source without an alias are laid out first. -/
theorem takesFirst_readBare (hn : NestedLaid nested) {s : Source}
    (ht : t.SpaceOnly) (h : readBare nested clause t = .ok (s, rest)) :
    TakesFirst s.tokens t rest := by
  rcases readBare_eq_ok_iff.1 h with ⟨inside, tail, q, rfl, -, hq, rfl, rfl⟩ |
    ⟨name, tail, rfl, -, h₀, hends, -, rfl, rfl⟩
  · have hi : Text.SpaceOnly inside := ht.of_subset fun c hc => by simp [hc]
    have hsub : tail ⊆ '(' :: inside ++ ')' :: tail := fun c hc => by simp [hc]
    refine ⟨List.Subset.trans (Text.trim_subset tail) hsub,
      fun b ks _ hks => ?_⟩
    have hq' := hn _ q (hi.of_subset (Text.trim_subset inside)) hq
    have := laid_brackets (.of_trim hi hq') (.of_trim (ht.of_subset hsub) hks)
    simpa [Source.tokens] using this.before (.inr rfl)
  · have hsub : tail ⊆ name ++ tail := by simp
    refine ⟨List.Subset.trans (Text.trim_subset tail) hsub,
      fun b ks hb hks => ?_⟩
    have htail := Laid.of_trim (ht.of_subset hsub) hks
    -- a space or a comma follows the name
    have hoff : offWord tail.head? = true := by
      cases h : tail.head? with
      | none => rfl
      | some c =>
        have := (hends.stop c h).2
        simp only [endsName, Bool.or_eq_true, beq_iff_eq] at this
        rcases this with rfl | rfl <;> rfl
    have :=
      (free_piece h₀ b (tail.head?.or none) hb (by rwa [Option.or_none])).append
        (htail.before (.inr hoff))
    simpa [Source.tokens] using this

/-- The alias of a source, up to a place where no word goes on. -/
theorem laid_sourceAlias {x : Text} {v : Option Text} {a : Option Char}
    (hx : x.SpaceOnly)
    (h : sourceAlias literals x = .ok v) (ha : runsOn x.getLast? a = false) :
    Laid none (v.toList.map .piece) x a := by
  rcases sourceAlias_eq_ok_iff.1 h with
    ⟨h₀, rfl⟩ | ⟨h₀, name, rfl, hn, ⟨-, rfl⟩ | ⟨m, c, e, hs, rfl⟩⟩
  · exact laid_blank (Text.trim_eq_nil_iff.1 h₀) hx
  · exact laid_piece_trim hx h₀ rfl ha
  · obtain ⟨l, r, hl, hr, ex⟩ := Text.exists_trim x
    rw [e] at ex
    have hc₀ : c.trim ≠ [] := by
      intro hc
      rw [hc] at hn
      cases hn
    have hc : c ≠ [] := by
      rintro rfl
      exact hc₀ rfl
    have hl' : l.SpaceOnly := hx.of_subset (by rw [ex]; simp)
    -- the blanks behind the alias trim away
    obtain ⟨l', r', hl₂, hr₂, ec⟩ := Text.exists_trim c
    have hcr : Text.trim (c ++ r) = c.trim := by
      conv => lhs; arg 1; rw [ec, List.append_assoc]
      exact Text.trim_pad hl₂ (Text.trimmed_trim c)
        (Text.blank_append.2 ⟨hr₂, hr⟩)
    have ex' : x = l ++ m ++ (c ++ r) := by
      rw [ex]
      simp
    have hname : Laid none [.piece c.trim] (c ++ r) a := by
      rw [← hcr] at hc₀ ⊢
      refine laid_piece_trim (hx.of_subset ?_) hc₀ rfl ?_
      · rw [ex']
        simp
      · rwa [ex', List.getLast?_append_of_ne_nil _ (by simp [hc])] at ha
    have hright : atEdge ((c ++ r).head?.or a) = true := by
      obtain ⟨d, c', rfl⟩ := List.exists_cons_of_ne_nil hc
      exact hs.right
    have hleft : atEdge (l.getLast?.or none) = true := by
      rw [Option.or_none]
      rcases cut_blank_left hl hl' ['x'] with h | h
      · exact h
      · cases h
    rw [ex']
    exact .stands_between isFiller_as isPhrase_as hs.spelled hleft hright
      (laid_blank hl hl') hname

/-- The tokens of a source are laid out first. -/
theorem takesFirst_readSource {ends : List Text}
    (hw : ∀ w ∈ ends, isPhrase w = true)
    (hn : NestedLaid nested) {s : Source} (ht : t.SpaceOnly)
    (h : readSource nested literals ends clause t = .ok (s, rest)) :
    TakesFirst s.tokens t rest := by
  obtain ⟨s₀, x, y, v, hb, hu, hv, rfl, rfl⟩ := (readSource_eq_ok_iff hw).1 h
  have hbare := takesFirst_readBare hn ht hb
  have hxy := ht.of_subset hbare.subset
  have hy : y ⊆ x ++ y := by simp
  -- the alias and what follows it do not run on into each other
  have hmeet : runsOn x.getLast? y.head? = false ∧
      (atEdge x.getLast? = true ∨ offWord y.head? = true) := by
    rcases hu.stop with rfl | ⟨-, hy⟩ | ⟨w, hm, m, c, rfl, hs⟩
    · exact ⟨runsOn_of_right rfl _, .inr rfl⟩
    · rw [hy]
      exact ⟨runsOn_of_right rfl _, .inr rfl⟩
    · exact ⟨runsOn_of_left (offWord_of_atEdge hs.left) _, .inl hs.left⟩
  rw [Source.tokens_withAlias s₀ (aliasName?_of_readBare hb)]
  have halias : Takes (v.toList.map .piece) [] (x ++ y) y.trim := by
    refine ⟨List.Subset.trans (Text.trim_subset y) hy, fun ks hks => ?_⟩
    have hx : Laid none (v.toList.map .piece) x (y.head?.or none) :=
      laid_sourceAlias (hxy.of_subset (by simp)) hv
        (by rw [Option.or_none]; exact hmeet.1)
    have hrest : Laid (x.getLast?.or none) ks y none :=
      (Laid.of_trim (hxy.of_subset hy) hks).before
        (by rw [Option.or_none]; exact hmeet.2)
    rw [List.append_nil]
    exact hx.append hrest
  exact hbare.trans halias

/-- A source behind a comma. -/
theorem takes_comma {tail : Text} {front : List Token}
    (ht : Text.SpaceOnly (',' :: tail)) (h : TakesFirst front tail.trim rest) :
    Takes front [] (',' :: tail) rest := by
  have htail : tail.SpaceOnly := ht.of_subset (by simp)
  refine ⟨fun c hc => List.mem_cons_of_mem
    _ (Text.trim_subset tail (h.subset hc)), fun ks hks => ?_⟩
  rw [List.append_nil]
  refine .comma (.of_trim_between htail fun b a hb ha => ?_)
  have hoff : offWord b = true := by
    rcases hb with rfl | rfl <;> rfl
  have hx := h.laid b ks hoff hks
  rcases ha with rfl | rfl
  · exact hx
  · exact hx.behind (.inl rfl)

theorem takesFirst_readListed (hn : NestedLaid nested) {s : Source}
    (ht : t.SpaceOnly) (h : readListed nested literals t = .ok (s, rest)) :
    TakesFirst s.tokens t rest :=
  takesFirst_readSource isPhrase_of_mem_sourceEnds hn ht h

/-- The tokens of the sources behind a comma are laid out in their order, by
induction on the bound of the loop. -/
theorem takes_readMore (hn : NestedLaid nested) :
    ∀ {bound : Nat} {t rest : Text} {js : List Join}, t.SpaceOnly →
      readMore nested literals bound t = .ok (js, rest) →
      Takes (Join.allTokens js) [] t rest
  | 0, t, rest, js, _, h => by
    rw [readMore] at h
    cases h
    exact takes_self t
  | bound + 1, t, rest, js, ht, h => by
    rw [readMore] at h
    split at h
    · cases h
      exact takes_self t
    · next behind hb =>
      obtain ⟨⟨s, u⟩, hs, h⟩ := bind_eq_ok.1 h
      obtain ⟨⟨more, v⟩, hm, h⟩ := bind_eq_ok.1 h
      cases h
      obtain ⟨tail, rfl, rfl⟩ : ∃ tail, t = ',' :: tail ∧
          behind = Text.trim tail := by
        unfold Text.stripComma? at hb
        split at hb
        · next tail => exact ⟨tail, rfl, by cases hb; rfl⟩
        · cases hb
      have htail : Text.SpaceOnly tail := ht.of_subset (by simp)
      have hfirst := takes_comma ht
        (takesFirst_readListed hn (htail.of_subset (Text.trim_subset tail)) hs)
      have hrest := takes_readMore hn (ht.of_subset hfirst.subset) hm
      simpa [Join.allTokens, Join.tokens] using hfirst.trans hrest

/-- The tokens of the sources are laid out at the start of what is read. -/
theorem takes_readSources (hn : NestedLaid nested) {s : Source} {js : List Join}
    (ht : t.SpaceOnly)
    (h : readSources nested literals t = .ok ((s, js), rest)) :
    Takes (s.tokens ++ Join.allTokens js) [] t rest := by
  simp only [readSources, bind_eq_ok] at h
  obtain ⟨⟨s', u⟩, hs, ⟨js', v⟩, hm, h⟩ := h
  cases h
  have hfirst := (takesFirst_readListed hn ht hs).takes
  exact hfirst.trans (takes_readMore hn (ht.of_subset hfirst.subset) hm)

/-! ## Joins -/

theorem mem_fillerWords_of_modifier {mods : List Text × JoinKind}
    (h : mods ∈ modifierWords) : ∀ w ∈ mods.1, w ∈ fillerWords := by
  revert mods
  decide

/-- The words before `join` are filler. -/
theorem laid_modifiers {mods : Text} {kind : JoinKind} (hm : mods.SpaceOnly)
    (h : joinKind mods = .ok kind) : Laid none [] mods none := by
  unfold joinKind at h
  split at h
  · next entry k he =>
    have hmem := List.mem_of_find?_eq_some he
    have hwords := List.find?_some he
    refine laid_keywords hm fun w hw =>
      mem_fillerWords_of_modifier hmem w.lower ?_
    simp only [beq_iff_eq] at hwords
    rw [hwords]
    exact List.mem_map_of_mem hw
  · cases h

/-- What follows the source of a join is the layout of its condition. -/
theorem laid_conditioned {kind : JoinKind} {s : Source} {j : Join}
    (ht : t.SpaceOnly) (h : Conditioned kind s t j) :
    ∃ ks, Laid none ks t none ∧ j.tokens = s.tokens ++ ks := by
  cases h with
  | bare => exact ⟨[], .nil, by simp [Join.tokens]⟩
  | @predicate m c hs h₀ =>
    have hc := laid_piece_trim (b := none) (a :=
      none) (ht.of_subset (by simp)) h₀ rfl (runsOn_of_right rfl _)
    refine ⟨_, Laid.stands (isFiller_phrase .joinOn)
      (isPhrase_phrase .joinOn) hs .nil hc, ?_⟩
    simp [Join.tokens]
  | @columns m c columns _ hs hl =>
    obtain ⟨inside, e, -, hl⟩ := usingList_eq_ok_iff.1 hl
    have hc : c.SpaceOnly := ht.of_subset (by simp)
    have hi : Text.SpaceOnly inside := by
      refine hc.of_subset fun d hd => Text.trim_subset c ?_
      rw [e]
      simp [hd]
    have hlist := laid_brackets (laid_entries hi hl) .nil
    rw [← e] at hlist
    refine ⟨_, Laid.stands (isFiller_phrase .joinUsing)
      (isPhrase_phrase .joinUsing) hs .nil (.of_trim hc hlist), ?_⟩
    have h₀ : columns ≠ [] := by
      obtain ⟨-, rfl, -⟩ := commaList_eq_ok_iff.1 hl
      simp [Split.pieces, Split.parts]
    simp [Join.tokens, h₀]

/-- The tokens of a join are laid out in its text. -/
theorem laid_readJoin (hn : NestedLaid nested) {kind : JoinKind} {body : Text}
    {j : Join}
    (hb : body.SpaceOnly) (h : readJoin nested literals kind body = .ok j) :
    Laid none j.tokens body none := by
  obtain ⟨s, rest, hs, hc⟩ := readJoin_eq_ok_iff.1 h
  have hb' := hb.of_subset (Text.trim_subset body)
  have hsource :=
    (takesFirst_readSource isPhrase_of_mem_joinSourceEnds hn hb' hs).takes
  obtain ⟨ks, hks, e⟩ := laid_conditioned (hb'.of_subset hsource.subset) hc
  have hl := hsource.laid ks hks
  rw [List.append_nil, ← e] at hl
  exact .of_trim hb hl

/-- The joins behind a `join`, with the words before the first of them. -/
theorem laid_joinsOf (hn : NestedLaid nested) (t : Text) :
    t.SpaceOnly → ∀ mods js, Text.SpaceOnly mods →
      joinsOf nested literals mods (split Clause.join.phrase t).pieces =
      .ok js →
      Laid none [] mods none ∧ Laid none (Join.allTokens js) t none := by
  refine split_phrase_induction (isPhrase_phrase .join) (P :=
    fun t s => t.SpaceOnly → ∀ mods js, Text.SpaceOnly mods →
    joinsOf nested literals mods s.pieces = .ok js →
    Laid none [] mods none ∧ Laid none (Join.allTokens js) t none) ?_ ?_ t
  · intro t _ ht mods js hmods h
    have hpieces : Split.pieces ⟨t, []⟩ = [t.trim] := rfl
    simp only [hpieces, joinsOf, bind_eq_ok] at h
    obtain ⟨kind, hk, j, hj, h⟩ := h
    cases h
    refine ⟨laid_modifiers hmods hk, .of_trim ht ?_⟩
    simpa [Join.allTokens]
      using laid_readJoin hn (ht.of_subset (Text.trim_subset t)) hj
  · intro a m c s hs _ ih ht mods js hmods h
    have ha : a.SpaceOnly := ht.of_subset (by simp)
    -- the piece before this `join` ends with the modifiers of the next one
    obtain ⟨x, y, e, hcut, hmod⟩ := exists_trailingModifiers a.trim
    have hxy := ha.of_subset (Text.trim_subset a)
    have hx : x.SpaceOnly := hxy.of_subset (by rw [e]; simp)
    have hy : y.SpaceOnly := hxy.of_subset (by rw [e]; simp)
    have hpieces :
        Split.pieces ⟨a, (m, s.first) :: s.rest⟩ = a.trim :: s.pieces := rfl
    obtain ⟨p, ps, hp⟩ : ∃ p ps, s.pieces = p :: ps := ⟨_, _, rfl⟩
    rw [hpieces, hp] at h
    simp only [joinsOf, hmod, bind_eq_ok] at h
    obtain ⟨kind, hk, j, hj, js', hjs, h⟩ := h
    cases h
    rw [← hp] at hjs
    obtain ⟨hnext, hrest⟩ := ih (ht.of_subset (by simp)) y.trim js'
      (hy.of_subset (Text.trim_subset y)) hjs
    refine ⟨laid_modifiers hmods hk, ?_⟩
    have hbody :=
      Laid.of_trim hx (laid_readJoin hn (hx.of_subset (Text.trim_subset x)) hj)
    have hpiece := hbody.append_cut (.of_trim hy hnext) hcut
    rw [← e, List.append_nil] at hpiece
    have := Laid.stands (isFiller_phrase .join) (isPhrase_phrase .join) hs
      (.of_trim ha hpiece) hrest
    simpa [Join.allTokens] using this

/-- The tokens of the joins are laid out at the start of what is read. -/
theorem takes_readJoins (hn : NestedLaid nested) {js : List Join}
    (ht : t.SpaceOnly) (h : readJoins nested literals t = .ok (js, rest)) :
    Takes (Join.allTokens js) [] t rest := by
  obtain ⟨region, tail, rfl, hu,
      ⟨-, rfl, rfl⟩ | ⟨-, mods, p, ps, hp, hj, rfl⟩⟩ :=
    readJoins_eq_ok_iff.1 h
  · exact takes_self _
  · have htail : tail ⊆ region ++ tail := by simp
    refine ⟨List.Subset.trans (Text.trim_subset tail) htail, fun ks hks => ?_⟩
    have hregion : region.SpaceOnly := ht.of_subset (by simp)
    -- the first piece holds the words before the first `join`
    have hlaid : Laid none (Join.allTokens js) region none := by
      rcases split_phrase_cases (isPhrase_phrase .join) region with
        ⟨-, e⟩ | ⟨a, m, c, rfl, hs, -, e⟩
      · rw [e] at hp
        cases hp
      · have ha : a.SpaceOnly := hregion.of_subset (by simp)
        have hpieces : (split Clause.join.phrase (a ++ m ++ c)).pieces =
            a.trim :: (split Clause.join.phrase c).pieces := by
          rw [e]
          rfl
        rw [hpieces] at hp
        obtain ⟨rfl, hps⟩ := List.cons.inj hp
        rw [← hps] at hj
        obtain ⟨hmods, hc⟩ := laid_joinsOf hn c (hregion.of_subset (by simp))
          a.trim js (ha.of_subset (Text.trim_subset a)) hj
        exact .stands (isFiller_phrase .join) (isPhrase_phrase .join) hs
          (.of_trim ha hmods) hc
    rw [List.append_nil]
    exact hlaid.append_cut (.of_trim (ht.of_subset htail) hks) hu.cut

/-! ## Queries -/

/-- The clauses of a query take all of its text. -/
theorem laid_readClauses (hn : NestedLaid nested) {depth : Nat} {q : Query}
    (ht : t.SpaceOnly) (h : readClauses nested literals depth t = .ok q) :
    Laid none q.tokens t none := by
  simp only [readClauses, bind_eq_ok] at h
  obtain ⟨⟨limit, t₁⟩, h₁, ⟨offset, t₂⟩, h₂, ⟨orderBy, t₃⟩, h₃,
      ⟨⟨distinct, columns⟩, t₄⟩, h₄, ⟨⟨source, listed⟩, t₅⟩, h₅, ⟨joined, t₆⟩,
      h₆, ⟨filter, t₇⟩, h₇, ⟨groupBy, t₈⟩, h₈, ⟨having, t₉⟩, h₉, ⟨⟩, hend, h⟩ :=
    h
  have k₁ := takes_readTrailing ht h₁
  have k₂ := k₁.trans (takes_readTrailing (ht.of_subset k₁.subset) h₂)
  have k₃ := k₂.trans (takes_readOrderBy (ht.of_subset k₂.subset) h₃)
  have k₄ := k₃.trans (takes_readSelect (ht.of_subset k₃.subset) h₄)
  have k₅ := k₄.trans (takes_readSources hn (ht.of_subset k₄.subset) h₅)
  have k₆ := k₅.trans (takes_readJoins hn (ht.of_subset k₅.subset) h₆)
  have k₇ := k₆.trans (takes_readFilter (ht.of_subset k₆.subset) h₇)
  have k₈ := k₇.trans (takes_readGroupBy (ht.of_subset k₇.subset) h₈)
  have k₉ := k₈.trans (takes_readHaving (ht.of_subset k₈.subset) h₉)
  obtain rfl : t₉ = [] := by
    unfold finish at hend
    split at hend
    · next h₀ => simpa using h₀
    · cases hend
  cases h
  simpa [Query.tokens, Join.allTokens_append] using k₉.laid [] .nil

/-- The tokens of a statement are laid out in its text, if those of the queries
in brackets are in theirs. -/
theorem laid_readStatement (hn : NestedLaid nested) {depth : Nat} {q : Query}
    (ht : t.SpaceOnly) (h : readStatement nested literals depth t = .ok q) :
    Laid none q.tokens t none := by
  unfold readStatement at h
  split at h
  · cases h
  · split at h
    · split at h
      · exact laid_readClauses hn ht h
      · split at h <;> cases h
    · cases h

/-- A text is laid out of the tokens of the query that is read from it, with a
query in brackets at every level. -/
theorem laid_readQuery (literals : LiteralTable) :
    ∀ room, NestedLaid (readQuery literals room)
  | 0, _, _, ht, h => laid_readStatement (fun _ _ _ h => by cases h) ht h
  | room + 1, _, _, ht, h =>
    laid_readStatement (laid_readQuery literals room) ht h

/-- A masked text, once it is normalised, is laid out of the tokens of the query
that is read from it. -/
theorem laid_readMasked {literals : LiteralTable} {masked : Text} {q : Query}
    (h : readMasked literals masked = .ok q) :
    Laid none q.tokens masked.normalize none := by
  have hspace := Text.spaceOnly_normalize masked
  simp only [readMasked] at h
  split at h
  · cases h
  · split at h
    · cases h
    · have htrim := hspace.of_subset (Text.trim_subset _)
      exact .of_trim hspace (laid_readQuery literals maxDepth _ q htrim h)

/-- The normal form of a text is laid out of the tokens of the query that is
parsed from it, before the quoted spans of its select lists are put back: the
pieces of the query stand in it in their order and apart from each other, and
all else are spaces, commas, the brackets of queries and column lists, and whole
keywords. -/
theorem laid_of_parse {t : Text} {parsed : Query} (h : parse t = .ok parsed) :
    ∃ masked literals q, protect t = .ok (masked, literals) ∧
      readMasked literals masked = .ok q ∧
      parsed = q.restoreColumns ∧ Laid none q.tokens masked.normalize none := by
  simp only [parse, bind_eq_ok] at h
  obtain ⟨⟨masked, literals⟩, hp, q, hq, h⟩ := h
  cases h
  exact ⟨masked, literals, q, hp, hq, rfl, laid_readMasked hq⟩

/-- A text with a quoted span, a query in brackets and a list of columns is laid
out so. -/
theorem laid_of_parse_subquery :
    ∃ parsed, parse
      "select f(a, 'b') x from (select 1 from t) s join u using (k, l);".toList =
      .ok parsed ∧ ∃ masked literals q, protect
      "select f(a, 'b') x from (select 1 from t) s join u using (k, l);".toList =
      .ok (masked, literals) ∧
      readMasked literals masked = .ok q ∧ parsed = q.restoreColumns ∧
      Laid none q.tokens masked.normalize none := by
  have hok : (parse
      "select f(a, 'b') x from (select 1 from t) s join u using (k, l);".toList).isOk =
      true := by
    decide +kernel
  cases h : parse
    "select f(a, 'b') x from (select 1 from t) s join u using (k, l);".toList with
  | error e =>
    rw [h] at hok
    cases hok
  | ok parsed => exact ⟨parsed, rfl, laid_of_parse h⟩

end SqlRiver
