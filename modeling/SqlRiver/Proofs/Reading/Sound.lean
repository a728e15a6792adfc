import SqlRiver.Proofs.Reading.Aliased
import SqlRiver.Proofs.Reading.Order

/-!
# What every query that is read is like

The invariant of queries: which texts their parts hold, what depth and which
table of quoted spans they have. It is kept by every reader, and it holds of a
query and of all queries inside it.

Main definitions and statements:

* `Query.Sound`: the invariant of one query, its placeholders not yet restored.
* `Within`: a query that stands inside another one, some levels below it.
* `sound_readQuery`: what is read is sound at every level.
* `sound_of_parse`: the invariant of every query that a text writes.
-/

namespace SqlRiver

open Text

/-! ## The invariant -/

/-- An alias is a tidy word that is not reserved. -/
def SoundAlias (aliasName : Option Text) : Prop :=
  ∀ n ∈ aliasName, Tidy n ∧ isAlias n = true

/-- The invariant of a source, without the query in it. -/
def Source.Sound : Source → Prop
  | .table name aliasName =>
    Tidy name ∧ NoTop endsName name ∧ isReserved name = false ∧
      SoundAlias aliasName
  | .subquery _ aliasName => SoundAlias aliasName

/-- The invariant of a join, without its source. -/
structure Join.Sound (j : Join) : Prop where
  predicate : ∀ p ∈ j.onPredicate, Tidy p
  columns : ∀ e ∈ j.usingColumns, IsEntry e
  one : j.onPredicate = none ∨ j.usingColumns = []

/-- What a query selects from: its source and the sources of its joins. -/
def Query.sources (q : Query) : List Source :=
  q.source :: q.joins.map Join.source

theorem mem_sources {q : Query} {j : Join} (hj : j ∈ q.joins) :
    j.source ∈ q.sources :=
  List.mem_cons_of_mem _ (List.mem_map_of_mem hj)

theorem mem_sources_of_eq {q : Query} {s : Source} (h : q.source = s) :
    s ∈ q.sources := by
  rw [← h]
  exact List.mem_cons_self

/-- The invariant of a query at a level, without the queries in its sources. -/
structure Query.Sound (literals : LiteralTable) (level : Nat) (q : Query) :
    Prop where
  columns_ne_nil : q.columns ≠ []
  level : q.depth = level
  level_le : q.depth ≤ maxDepth
  literals : q.literals = literals
  columns : ∀ column ∈ q.columns, IsEntry column.expression ∧
    SoundAlias column.aliasName
  sources : ∀ s ∈ q.sources, s.Sound
  joins : ∀ j ∈ q.joins, j.Sound
  conditions : ∀ cond ∈ q.filter ++ q.having, cond.combinator = .and ∧
    Tidy cond.predicate
  grouped : q.having ≠ [] → q.groupBy ≠ []
  entries : ∀ e ∈ q.groupBy ++ q.orderBy, IsEntry e
  expressions : ∀ e ∈ q.limit.toList ++ q.offset.toList, Tidy e

/-- The second query stands inside the first one, so many levels below it. -/
inductive Within : Nat → Query → Query → Prop
  /-- The query itself. -/
  | self (q : Query) : Within 0 q q
  /-- A query inside one of its sources. -/
  | source {n : Nat} {q inner : Query} {query : Query}
    {aliasName : Option Text} : .subquery query aliasName ∈ q.sources →
    Within n query inner → Within (n + 1) q inner

/-- A query one level further inside. -/
theorem Within.snoc {n : Nat} {q parent inner : Query} {aliasName : Option Text}
    (h : Within n q parent) (hs : .subquery inner aliasName ∈ parent.sources) :
    Within (n + 1) q inner := by
  induction h with
  | self q => exact .source hs (.self _)
  | source hmem _ ih => exact .source hmem (ih hs)

/-! ## Columns and aliases -/

variable {nested : Nested} {literals : LiteralTable} {clause : Clause}
  {t rest : Text}

theorem soundAlias_some {n : Text} (h : isAlias n = true) :
    SoundAlias (some n) := by
  rintro _ ⟨⟩
  exact ⟨tidy_alias h, h⟩

theorem soundAlias_none : SoundAlias none := by
  rintro _ ⟨⟩

/-- The expression of a column is an entry, and its alias is sound. -/
theorem sound_columnOf (literals : LiteralTable) {e : Text} (he : IsEntry e) :
    IsEntry (columnOf literals e).expression ∧
    SoundAlias (columnOf literals e).aliasName := by
  rcases columnOf_cases literals e with h | ⟨x, n, hx, -, h⟩
  · rw [h]
    exact ⟨he, soundAlias_none⟩
  · obtain ⟨htidy, hn, gap, -, rfl⟩ :=
      aliased_splitAlias he.tidy.spaced he.tidy.balanced hx
    rw [h]
    rw [List.append_assoc] at he
    exact ⟨⟨htidy, he.noComma.left⟩, soundAlias_some hn⟩

/-! ## Clauses -/

/-- A clause at the end is tidy, and leaves an orderly text. -/
theorem sound_readTrailing {v : Option Text} (ho : Orderly t)
    (h : readTrailing clause t = .ok (v, rest)) :
    (∀ e ∈ v, Tidy e) ∧ Orderly rest := by
  rcases readTrailing_eq_ok_iff.1 h with
    ⟨-, rfl, rfl⟩ | ⟨a, m, c, rfl, hs, -, hc, rfl, rfl⟩
  · exact ⟨by simp, ho⟩
  · obtain ⟨ha, hc'⟩ := ho.stands (isPhrase_phrase _) hs
    exact ⟨by simpa using hc'.tidy hc, ha.trim⟩

/-- The ordering has entries, and leaves an orderly text. -/
theorem sound_readOrderBy {entries : List Text} (ho : Orderly t)
    (h : readOrderBy t = .ok (entries, rest)) :
    (∀ e ∈ entries, IsEntry e) ∧ Orderly rest := by
  rcases readOrderBy_eq_ok_iff.1 h with
    ⟨-, rfl, rfl⟩ | ⟨a, m, c, rfl, hs, -, hl, rfl⟩
  · exact ⟨by simp, ho⟩
  · obtain ⟨ha, hc⟩ := ho.stands (isPhrase_phrase _) hs
    exact ⟨entries_commaList hc hl, ha.trim⟩

/-- The body of a clause, and what follows it. -/
theorem orderly_bodyOf {ends : List Clause} {body : Text} (ho : Orderly t)
    (h : bodyOf? clause ends t = some (body, rest)) :
    Orderly body ∧ Orderly rest := by
  obtain ⟨m, tail, rfl, hs, hu, rfl⟩ := bodyOf?_eq_some_iff.1 h
  obtain ⟨-, hbehind⟩ := Orderly.stands (a := []) ho (isPhrase_phrase _) hs
  obtain ⟨hb, ht⟩ := hbehind.upTo hu
  exact ⟨hb, ht.trim⟩

/-- The filter has tidy predicates, and leaves an orderly text. -/
theorem sound_readFilter {conds : List Condition} (ho : Orderly t)
    (h : readFilter t = .ok (conds, rest)) :
    (∀ cond ∈ conds, cond.combinator = .and ∧ Tidy cond.predicate) ∧
    Orderly rest := by
  rcases readFilter_eq_ok_iff.1 h with ⟨-, rfl, rfl⟩ | ⟨body, hb, hc⟩
  · exact ⟨by simp, ho⟩
  · obtain ⟨hbody, hrest⟩ := orderly_bodyOf ho hb
    exact ⟨conditions_sound hbody hc, hrest⟩

/-- The grouping has entries, and leaves an orderly text. -/
theorem sound_readGroupBy {entries : List Text} (ho : Orderly t)
    (h : readGroupBy t = .ok (entries, rest)) :
    (∀ e ∈ entries, IsEntry e) ∧ Orderly rest := by
  rcases readGroupBy_eq_ok_iff.1 h with ⟨-, rfl, rfl⟩ | ⟨body, hb, hl⟩
  · exact ⟨by simp, ho⟩
  · obtain ⟨hbody, hrest⟩ := orderly_bodyOf ho hb
    exact ⟨entries_commaList hbody hl, hrest⟩

/-- The filter of groups has tidy predicates, and there is none without a
grouping. -/
theorem sound_readHaving {grouped : Bool} {conds : List Condition}
    (ho : Orderly t) (h : readHaving grouped t = .ok (conds, rest)) :
    (∀ cond ∈ conds, cond.combinator = .and ∧ Tidy cond.predicate) ∧
    (conds ≠ [] → grouped = true) := by
  rcases readHaving_eq_ok_iff.1 h with ⟨-, rfl, rfl⟩ | ⟨body, hb, hg, hc⟩
  · simp
  · exact ⟨conditions_sound (orderly_bodyOf ho hb).1 hc, fun _ => hg⟩

/-- The columns without `distinct` are orderly. -/
theorem orderly_stripDistinct {d : Bool} {l : Text} (ho : Orderly t)
    (h : stripDistinct t = (d, l)) : Orderly l.trim := by
  unfold stripDistinct at h
  split at h
  · next c hc =>
    cases h
    obtain ⟨m, rfl, hs⟩ := stripWord?_eq_some_iff.1 hc
    have hoc := (Orderly.stands (a := []) ho isPhrase_distinct hs).2
    obtain ⟨l, hl, e, -⟩ := exists_trimStart c
    rw [e] at hoc
    exact (hoc.append (depth_blank hl)).2.trim
  · cases h
    exact ho.trim

/-- The columns are those of entries, and leave an orderly text. -/
theorem entries_readSelect {d : Bool} {columns : List Column} (ho : Orderly t)
    (h : readSelect literals t = .ok ((d, columns), rest)) :
    ∃ entries : List Text, columns = entries.map (columnOf literals) ∧
      (∀ e ∈ entries, IsEntry e) ∧ Orderly rest := by
  obtain ⟨m, list, m', tail, l, entries, rfl, hs, hs', -, hd, -, hl, rfl,
      rfl⟩ :=
    readSelect_eq_ok_iff.1 h
  obtain ⟨-, hbehind⟩ := Orderly.stands (a := []) ho (isPhrase_phrase _) hs
  obtain ⟨hlist, htail⟩ := hbehind.stands (isPhrase_phrase _) hs'
  have hl' : commaList .select l.trim = .ok entries := by
    simpa only [commaList, trim_trim] using hl
  exact ⟨entries, rfl,
    entries_commaList (orderly_stripDistinct hlist.trim hd) hl', htail.trim⟩

/-- The columns are sound, and leave an orderly text. -/
theorem sound_readSelect {d : Bool} {columns : List Column} (ho : Orderly t)
    (h : readSelect literals t = .ok ((d, columns), rest)) :
    (∀ column ∈ columns, IsEntry column.expression ∧
      SoundAlias column.aliasName) ∧ Orderly rest := by
  obtain ⟨entries, rfl, hentries, hrest⟩ := entries_readSelect ho h
  exact ⟨List.forall_mem_map.2 fun e he =>
    sound_columnOf literals (hentries e he), hrest⟩

/-! ## Sources -/

/-- What is known of a source from its reader: a name does not start like a
query in brackets, and a query is read from an orderly text. -/
structure Source.Drawn (nested : Nested) (s : Source) : Prop where
  sound : s.Sound
  name : ∀ name aliasName, s = .table name aliasName → name.head? ≠ some '('
  query : ∀ query aliasName, s = .subquery query aliasName →
    ∃ t, Orderly t ∧ nested t = .ok query

/-- A drawn source may be given an alias. -/
theorem Source.Drawn.withAlias {s : Source} (h : s.Drawn nested) {n : Text}
    (hn : isAlias n = true) : (s.withAlias n).Drawn nested := by
  cases s with
  | table name aliasName =>
    obtain ⟨htidy, htop, hfree, -⟩ := h.sound
    refine ⟨⟨htidy, htop, hfree, soundAlias_some hn⟩, ?_, ?_⟩
    · rintro _ _ ⟨⟩
      exact h.name name aliasName rfl
    · rintro _ _ ⟨⟩
  | subquery query aliasName =>
    refine ⟨soundAlias_some hn, ?_, ?_⟩
    · rintro _ _ ⟨⟩
    · rintro _ _ ⟨⟩
      exact h.query query aliasName rfl

/-- A source without an alias is drawn, and leaves an orderly text. -/
theorem drawn_readBare {s : Source} (ho : Orderly t) (htrim : t.Trimmed)
    (h : readBare nested clause t = .ok (s, rest)) :
    s.Drawn nested ∧ Orderly rest := by
  rcases readBare_eq_ok_iff.1 h with ⟨inside, tail, q, rfl, hi, hq, rfl, rfl⟩ |
    ⟨name, tail, rfl, hopen, h₀, hn, hfree, rfl, rfl⟩
  · obtain ⟨hinside, htail⟩ := ho.brackets hi
    refine ⟨⟨soundAlias_none, ?_, ?_⟩, htail.trim⟩
    · rintro _ _ ⟨⟩
    · rintro _ _ ⟨⟩
      exact ⟨_, hinside.trim, hq⟩
  · -- a name ends at the top level or with the text
    have hd : depth name = 0 := by
      cases htail : tail.head? with
      | none =>
        rw [List.head?_eq_none_iff.1 htail, List.append_nil] at ho
        exact depth_of_isBalanced ho.balanced
      | some c => exact (hn.stop c htail).1
    obtain ⟨hname, htail⟩ := ho.append hd
    have hsolid : name.Trimmed := by
      refine ⟨fun c hc => htrim.start c ?_, fun c hc => ?_⟩
      · rwa [List.head?_append_of_ne_nil _ h₀]
      · -- a space at its end would end it before
        obtain ⟨name, rfl⟩ := List.getLast?_eq_some_iff.1 hc
        by_contra hb
        have hsp : c = ' ' :=
          hname.thin.spaceOnly c (by simp) (by simpa using hb)
        subst hsp
        have hd' : depth name = 0 := by simpa [depthStep] using hd
        cases hn.inside name ' ' [] rfl hd'
    have htidy := hname.tidy (by rwa [trim_of_trimmed hsolid])
    rw [trim_of_trimmed hsolid] at htidy
    refine ⟨⟨⟨htidy, hn.inside, hfree, soundAlias_none⟩, ?_, ?_⟩, htail.trim⟩
    · rintro _ _ ⟨⟩
      exact hopen
    · rintro _ _ ⟨⟩

/-- A source is drawn, and leaves an orderly text. -/
theorem drawn_readSource {ends : List Text} (hw : ∀ w ∈ ends, isPhrase w = true)
    {s : Source} (ho : Orderly t) (htrim : t.Trimmed)
    (h : readSource nested literals ends clause t = .ok (s, rest)) :
    s.Drawn nested ∧ Orderly rest := by
  obtain ⟨s₀, x, y, v, hbare, hu, hv, rfl, rfl⟩ := (readSource_eq_ok_iff hw).1 h
  obtain ⟨hs₀, hxy⟩ := drawn_readBare ho htrim hbare
  constructor
  · rcases sourceAlias_eq_ok_iff.1 hv with ⟨-, rfl⟩ | ⟨-, n, rfl, hn, -⟩
    · exact hs₀
    · exact hs₀.withAlias hn
  · rcases hu.stop with rfl | ⟨hd, -⟩ | ⟨w, -, m, c, rfl, hs⟩
    · exact ⟨thin_of_noBlank (by simp [Text.trim, trimEnd, trimStart]), rfl⟩
    · exact (hxy.append hd).2.trim
    · exact (hxy.append hs.top).2.trim

/-- The sources behind a comma are drawn and the joins of them sound, by
induction on the bound of the loop. -/
theorem drawn_readMore :
    ∀ {bound : Nat} {t rest : Text} {js : List Join}, Orderly t →
      readMore nested literals bound t = .ok (js, rest) →
      (∀ j ∈ js, j.source.Drawn nested ∧ j.Sound) ∧ Orderly rest
  | 0, t, rest, js, ho, h => by
    cases h
    exact ⟨by simp, ho⟩
  | bound + 1, t, rest, js, ho, h => by
    rw [readMore] at h
    split at h
    · cases h
      exact ⟨by simp, ho⟩
    · next behind hb =>
      simp only [bind_eq_ok] at h
      obtain ⟨⟨s, u⟩, hs, ⟨more, v⟩, hm, h⟩ := h
      cases h
      obtain ⟨c, rfl, rfl⟩ := stripComma?_eq_some_iff.1 hb
      have hoc := (Orderly.append (a := [',']) ho rfl).2.trim
      obtain ⟨hdrawn, hou⟩ :=
        drawn_readSource isPhrase_of_mem_sourceEnds hoc (trimmed_trim c) hs
      obtain ⟨hmore, hov⟩ := drawn_readMore hou hm
      refine ⟨fun j hj => ?_, hov⟩
      rcases List.mem_cons.1 hj with rfl | hj
      · exact ⟨hdrawn, by simp, by simp, .inl rfl⟩
      · exact hmore j hj

/-! ## Joins -/

/-- A join is sound, and its source is drawn. -/
theorem sound_readJoin {kind : JoinKind} {body : Text} {j : Join}
    (ho : Orderly body) (h : readJoin nested literals kind body = .ok j) :
    j.source.Drawn nested ∧ j.Sound := by
  obtain ⟨s, rest, hs, hc⟩ := readJoin_eq_ok_iff.1 h
  obtain ⟨hdrawn, hrest⟩ := drawn_readSource isPhrase_of_mem_joinSourceEnds
    ho.trim (trimmed_trim body) hs
  cases hc with
  | bare => exact ⟨hdrawn, by simp, by simp, .inl rfl⟩
  | predicate hon hc =>
    obtain ⟨-, hoc⟩ := Orderly.stands (a := []) hrest (isPhrase_phrase _) hon
    exact ⟨hdrawn, by simpa using hoc.tidy hc, by simp, .inr rfl⟩
  | columns _ husing hl =>
    obtain ⟨-, hoc⟩ := Orderly.stands (a := []) hrest (isPhrase_phrase _) husing
    obtain ⟨inside, e, hi, hl⟩ := usingList_eq_ok_iff.1 hl
    have hoc' := hoc.trim
    rw [e] at hoc'
    exact ⟨hdrawn, by simp, entries_commaList (hoc'.brackets hi).1 hl, .inl rfl⟩

/-- Joins are sound and their sources drawn, by induction on the pieces. -/
theorem sound_joinsOf : ∀ {pieces : List Text} {mods : Text} {js : List Join},
    (∀ p ∈ pieces, Orderly p) → joinsOf nested literals mods pieces = .ok js →
      ∀ j ∈ js, j.source.Drawn nested ∧ j.Sound
  | [], mods, js, _, h => by
    cases h
    simp
  | [piece], mods, js, ho, h => by
    simp only [joinsOf, bind_eq_ok] at h
    obtain ⟨kind, -, j, hj, h⟩ := h
    cases h
    intro j' hj'
    obtain rfl := List.mem_singleton.1 hj'
    exact sound_readJoin (ho piece (by simp)) hj
  | piece :: piece' :: more, mods, js, ho, h => by
    simp only [joinsOf, bind_eq_ok] at h
    obtain ⟨kind, -, j, hj, js', hjs, h⟩ := h
    cases h
    intro j' hj'
    rcases List.mem_cons.1 hj' with rfl | hj'
    · exact sound_readJoin (orderly_trailingModifiers (ho piece (by simp))) hj
    · exact sound_joinsOf
        (fun p hp => ho p (List.mem_cons_of_mem _ hp)) hjs j' hj'

/-- The joins of an orderly text are sound, and leave an orderly text. -/
theorem sound_readJoins {js : List Join} (ho : Orderly t)
    (h : readJoins nested literals t = .ok (js, rest)) :
    (∀ j ∈ js, j.source.Drawn nested ∧ j.Sound) ∧ Orderly rest := by
  obtain ⟨region, tail, rfl, hu,
      ⟨-, rfl, rfl⟩ | ⟨-, mods, p, ps, hp, hj, rfl⟩⟩ :=
    readJoins_eq_ok_iff.1 h
  · exact ⟨by simp, ho⟩
  · obtain ⟨hregion, htail⟩ := ho.upTo hu
    have hpieces := orderly_pieces (isPhrase_phrase .join) hregion
    rw [hp] at hpieces
    exact ⟨sound_joinsOf (fun piece hpiece =>
      hpieces piece (List.mem_cons_of_mem _ hpiece)) hj, htail.trim⟩

/-! ## Queries -/

/-- The sources are drawn and their joins sound, and leave an orderly text. -/
theorem drawn_readSources {s : Source} {js : List Join} (ho : Orderly t)
    (htrim : t.Trimmed)
    (h : readSources nested literals t = .ok ((s, js), rest)) :
    s.Drawn nested ∧ (∀ j ∈ js, j.source.Drawn nested ∧ j.Sound) ∧
    Orderly rest := by
  simp only [readSources, bind_eq_ok] at h
  obtain ⟨⟨s', u⟩, hs, ⟨js', v⟩, hm, h⟩ := h
  cases h
  obtain ⟨hdrawn, hou⟩ :=
    drawn_readSource isPhrase_of_mem_sourceEnds ho htrim hs
  exact ⟨hdrawn, drawn_readMore hou hm⟩

theorem trimmed_readSelect {d : Bool} {columns : List Column}
    (h : readSelect literals t = .ok ((d, columns), rest)) : rest.Trimmed := by
  obtain ⟨m, list, m', tail, l, entries, -, -, -, -, -, -, -, -, rfl⟩ :=
    readSelect_eq_ok_iff.1 h
  exact trimmed_trim tail

/-- The clauses of an orderly text make up a sound query, and the queries in its
sources are read from orderly texts again. -/
theorem sound_readClauses {level : Nat} {q : Query} (hlevel : level ≤ maxDepth)
    (ho : Orderly t) (h : readClauses nested literals level t = .ok q) :
    q.Sound literals level ∧ ∀ s ∈ q.sources, s.Drawn nested := by
  simp only [readClauses, bind_eq_ok] at h
  obtain ⟨⟨limit, t₁⟩, h₁, ⟨offset, t₂⟩, h₂, ⟨orderBy, t₃⟩, h₃,
      ⟨⟨distinct, columns⟩, t₄⟩, h₄, ⟨⟨source, listed⟩, t₅⟩, h₅, ⟨joined, t₆⟩,
      h₆, ⟨filter, t₇⟩, h₇, ⟨groupBy, t₈⟩, h₈, ⟨having, t₉⟩, h₉, ⟨⟩, -, h⟩ := h
  cases h
  obtain ⟨hlimit, ho₁⟩ := sound_readTrailing ho h₁
  obtain ⟨hoffset, ho₂⟩ := sound_readTrailing ho₁ h₂
  obtain ⟨horder, ho₃⟩ := sound_readOrderBy ho₂ h₃
  obtain ⟨hcolumns, ho₄⟩ := sound_readSelect ho₃ h₄
  obtain ⟨hsource, hlisted, ho₅⟩ :=
    drawn_readSources ho₄ (trimmed_readSelect h₄) h₅
  obtain ⟨hjoined, ho₆⟩ := sound_readJoins ho₅ h₆
  obtain ⟨hfilter, ho₇⟩ := sound_readFilter ho₆ h₇
  obtain ⟨hgroup, ho₈⟩ := sound_readGroupBy ho₇ h₈
  obtain ⟨hhaving, hgrouped⟩ := sound_readHaving ho₈ h₉
  have hjoins : ∀ j ∈ listed ++ joined, j.source.Drawn nested ∧ j.Sound := by
    intro j hj
    exact (List.mem_append.1 hj).elim (hlisted j) (hjoined j)
  have hsources : ∀ s ∈ source :: (listed ++ joined).map Join.source,
      s.Drawn nested := by
    intro s hs
    rcases List.mem_cons.1 hs with rfl | hs
    · exact hsource
    · obtain ⟨j, hj, rfl⟩ := List.mem_map.1 hs
      exact (hjoins j hj).1
  refine ⟨{
    columns_ne_nil := columns_readSelect h₄
    level := rfl
    level_le := hlevel
    literals := rfl
    columns := hcolumns
    sources := fun s hs => (hsources s hs).sound
    joins := fun j hj => (hjoins j hj).2
    conditions := fun cond hcond =>
      (List.mem_append.1 hcond).elim (hfilter cond) (hhaving cond)
    grouped := fun hne => by simpa using hgrouped hne
    entries := fun e he => (List.mem_append.1 he).elim (hgroup e) (horder e)
    expressions := fun e he => ?_ }, hsources⟩
  rcases List.mem_append.1 he with he | he
  · exact hlimit e (Option.mem_toList.1 he)
  · exact hoffset e (Option.mem_toList.1 he)

/-- A query that is read is sound, and so is every query inside it, at the level
where it stands. -/
theorem sound_readQuery :
    ∀ room ≤ maxDepth, ∀ t q, Orderly t → readQuery literals room t = .ok q →
      ∀ n inner, Within n q inner →
      inner.Sound literals (maxDepth - room + n) := by
  intro room
  induction room with
  | zero =>
    intro _ t q ho h n inner hw
    obtain ⟨hsound, hdrawn⟩ :=
      sound_readClauses le_rfl ho (readStatement_eq_ok h)
    cases hw with
    | self => exact hsound
    | source hmem _ =>
      -- below the last level nothing is read
      obtain ⟨t', -, ht'⟩ := (hdrawn _ hmem).query _ _ rfl
      cases ht'
  | succ room ih =>
    intro hroom t q ho h n inner hw
    obtain ⟨hsound, hdrawn⟩ :=
      sound_readClauses (Nat.sub_le _ _) ho (readStatement_eq_ok h)
    cases hw with
    | self => exact hsound
    | @source n _ _ query _ hmem hw =>
      obtain ⟨t', ho', ht'⟩ := (hdrawn _ hmem).query _ _ rfl
      have hinner := ih (Nat.le_of_succ_le hroom) t' query ho' ht' n inner hw
      have e : maxDepth - (room + 1) + (n + 1) = maxDepth - room + n := by omega
      rwa [e]

/-- A query of a masked text is sound, and so are the queries inside it at their
levels. -/
theorem sound_readMasked {masked : Text} {q : Query}
    (h : readMasked literals masked = .ok q) :
    ∀ n inner, Within n q inner → inner.Sound literals n := by
  simp only [readMasked] at h
  split at h
  · cases h
  · split at h
    · cases h
    · next hbal =>
      have ho : Orderly masked.normalize :=
        ⟨thin_normalize masked, by simpa using hbal⟩
      intro n inner hw
      simpa using sound_readQuery maxDepth le_rfl _ q ho.trim h n inner hw

/-! ## Quoted spans in select lists -/

theorem restoreAll_eq_map :
    ∀ js : List Join, Join.restoreAll js = js.map Join.restoreColumns
  | [] => rfl
  | j :: js => by rw [Join.restoreAll, restoreAll_eq_map js, List.map_cons]

/-- The sources of a restored query are the restored sources. -/
theorem sources_restoreColumns (q : Query) :
    q.restoreColumns.sources = q.sources.map Source.restoreColumns := by
  obtain ⟨distinct, columns, source, joins, filter, groupBy, having, orderBy,
      limit, offset, literals, depth⟩ := q
  have hjoin :
      ∀ j : Join, j.restoreColumns.source = j.source.restoreColumns := by
    rintro ⟨kind, s, p, columns⟩
    rw [Join.restoreColumns]
  simp [Query.restoreColumns, Query.sources, restoreAll_eq_map, hjoin]

theorem depth_restoreColumns (q : Query) :
    q.restoreColumns.depth = q.depth := by
  obtain ⟨⟩ := q
  rw [Query.restoreColumns]

theorem literals_restoreColumns (q : Query) :
    q.restoreColumns.literals = q.literals := by
  obtain ⟨⟩ := q
  rw [Query.restoreColumns]

/-- The columns of a restored query are restored with its own table. -/
theorem columns_restoreColumns (q : Query) :
    q.restoreColumns.columns = q.columns.map (Column.restore q.literals) := by
  obtain ⟨⟩ := q
  rw [Query.restoreColumns]

/-- A query inside a restored query is a restored query inside it. -/
theorem within_restoreColumns {n : Nat} {q inner : Query}
    (h : Within n q.restoreColumns inner) :
    ∃ unrestored, Within n q unrestored ∧
      inner = unrestored.restoreColumns := by
  generalize hq : q.restoreColumns = restored at h
  induction h generalizing q with
  | self => exact ⟨q, .self q, hq.symm⟩
  | @source n _ inner query aliasName hmem _ ih =>
    subst hq
    rw [sources_restoreColumns] at hmem
    obtain ⟨s, hs, e⟩ := List.mem_map.1 hmem
    cases s with
    | table name a => rw [Source.restoreColumns] at e; cases e
    | subquery query' a =>
      rw [Source.restoreColumns] at e
      injection e with hquery _
      obtain ⟨unrestored, hw, rfl⟩ := ih hquery
      exact ⟨unrestored, .source hs hw, rfl⟩

/-- What a text writes is read from the text with placeholders. -/
theorem exists_of_parse {parsed : Query} (h : parse t = .ok parsed) :
    ∃ masked literals q, protect t = .ok (masked, literals) ∧
      readMasked literals masked = .ok q ∧ parsed = q.restoreColumns := by
  simp only [parse, bind_eq_ok] at h
  obtain ⟨⟨masked, literals⟩, hp, q, hq, h⟩ := h
  cases h
  exact ⟨masked, literals, q, hp, hq, rfl⟩

/-- Every query that a text writes is sound at every level: the query itself and
each query inside it, before the quoted spans of its select list are put
back. -/
theorem sound_of_parse {parsed : Query} (h : parse t = .ok parsed) :
    ∃ masked literals q, protect t = .ok (masked, literals) ∧
      readMasked literals masked = .ok q ∧
      parsed = q.restoreColumns ∧ ∀ n inner, Within n parsed inner →
      ∃ unrestored, Within n q unrestored ∧ inner = unrestored.restoreColumns ∧
      unrestored.Sound literals n := by
  simp only [parse, bind_eq_ok] at h
  obtain ⟨⟨masked, literals⟩, hp, q, hq, h⟩ := h
  cases h
  refine ⟨masked, literals, q, hp, hq, rfl, fun n inner hw => ?_⟩
  obtain ⟨unrestored, hq', rfl⟩ := within_restoreColumns hw
  exact ⟨unrestored, hq', rfl, sound_readMasked hq n unrestored hq'⟩

/-- A query in brackets, with a quoted span, a list of columns and a grouped
condition, is sound so. -/
theorem sound_of_parse_grouped :
    ∃ parsed, parse
      ("select 'a' x from (select k, count(*) from t group by k having count(*) > 1) s "
      ++ "join u using (k)").toList = .ok parsed ∧ ∃ masked literals q, protect
      ("select 'a' x from (select k, count(*) from t group by k having count(*) > 1) s "
      ++ "join u using (k)").toList = .ok (masked, literals) ∧
      readMasked literals masked = .ok q ∧ parsed = q.restoreColumns ∧
      ∀ n inner, Within n parsed inner →
      ∃ unrestored, Within n q unrestored ∧ inner = unrestored.restoreColumns ∧
      unrestored.Sound literals n := by
  have hok : (parse
      ("select 'a' x from (select k, count(*) from t group by k having count(*) > 1) s "
      ++ "join u using (k)").toList).isOk = true := by
    decide +kernel
  cases h : parse
    ("select 'a' x from (select k, count(*) from t group by k having count(*) > 1) s "
    ++ "join u using (k)").toList with
  | error e =>
    rw [h] at hok
    cases hok
  | ok parsed => exact ⟨parsed, rfl, sound_of_parse h⟩

end SqlRiver
