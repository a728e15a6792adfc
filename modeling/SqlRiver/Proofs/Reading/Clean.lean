import SqlRiver.Proofs.Reading.Divided

/-!
# Queries that are read are read back

A reader does not look for keywords next to a comma: in `a,from b` the word
`from` does not stand. On the line of a query there is a space behind each
comma, and a word that starts an entry of a list stands there. The name of a
table behind a comma is not searched for keywords at all, and on the line it
stands in a join, which is. Apart from that, what is read is read back.

Main definitions and statements:

* `headings`: the keywords that start a part of a query.
* `Query.HeadingFree`: no heading stands in an entry of a list or in the name of
  a table.
* `clean_readClauses`: a query that is read is clean, if no heading stands in
  its entries and names.
* `readsBack_readQuery`: so it is read back from its line.
-/

namespace SqlRiver

open Text

variable {w t rest : Text} {nested : Nested} {literals : LiteralTable}
  {o : Options} {q : Query}

/-! ## Headings -/

/-- The keywords that start a part of a query. -/
def headings : List Text :=
  "distinct".toList :: [Clause.source, .join, .filter, .groupBy, .having,
    .orderBy, .offset, .limit].map Clause.phrase

/-- No heading stands at the top level of a text. -/
def HeadingFree (t : Text) : Prop := ∀ w ∈ headings, findTop t w 1 = none

instance (t : Text) : Decidable (HeadingFree t) :=
  inferInstanceAs (Decidable (∀ w ∈ headings, findTop t w 1 = none))

theorem HeadingFree.absent (h : HeadingFree t) (hw : w ∈ headings) :
    Absent w t := by
  have hphrase : ∀ w ∈ headings, isPhrase w = true := by decide
  exact (findTop_eq_none_iff (hphrase w hw)).1 (h w hw)

/-- No heading stands in an entry of a list of the query, or in the name of a
table. -/
structure Query.HeadingFree (q : Query) : Prop where
  columns : ∀ column ∈ q.columns, SqlRiver.HeadingFree column.expression
  names : ∀ s ∈ q.sources, ∀ n ∈ s.name?, SqlRiver.HeadingFree n
  entries : ∀ e ∈ q.groupBy ++ q.orderBy, SqlRiver.HeadingFree e

instance (q : Query) : Decidable q.HeadingFree :=
  decidable_of_iff
    ((∀ column ∈ q.columns, SqlRiver.HeadingFree column.expression) ∧
    (∀ s ∈ q.sources, ∀ n ∈ s.name?, SqlRiver.HeadingFree n) ∧
    ∀ e ∈ q.groupBy ++ q.orderBy, SqlRiver.HeadingFree e) ⟨fun ⟨hc, hn, he⟩ =>
    ⟨hc, hn, he⟩, fun ⟨hc, hn, he⟩ => ⟨hc, hn, he⟩⟩

/-! ## Clauses -/

/-- The conditions of a clause are read back, when the same clauses may
follow. -/
theorem clean_bodyOf {clause clause' : Clause} {ends : List Clause}
    {body : Text} {conds : List Condition}
    (ho : Orderly t) (hb : bodyOf? clause ends t = some (body, rest))
    (hc : conditions clause' body = .ok conds) :
    CleanConditions ends conds := by
  obtain ⟨m, tail, rfl, hs, hu, rfl⟩ := bodyOf?_eq_some_iff.1 hb
  have hbehind := (Orderly.stands (a := []) ho (isPhrase_phrase _) hs).2
  have hbody := (hbehind.upTo hu).1
  have hsound := conditions_sound hbody hc
  refine ⟨fun c hmem => (hsound c hmem).1, fun c hmem => (hsound c hmem).2,
    fun c hmem e he => ?_, divided_conditions hbody hc⟩
  have hwithout :=
    without_of_upTo (isPhrase_phrase e) hbehind hu (List.mem_map_of_mem he)
  exact without_conditions (isPhrase_phrase e) hwithout hc c hmem

theorem cleanConditions_nil (ends : List Clause) : CleanConditions ends [] :=
  ⟨by simp, by simp, by simp, by simp, by simp⟩

/-- The conditions of `where` are read back. -/
theorem clean_readFilter {conds : List Condition} (ho : Orderly t)
    (h : readFilter t = .ok (conds, rest)) :
    CleanConditions [.groupBy, .having, .orderBy, .limit] conds := by
  rcases readFilter_eq_ok_iff.1 h with ⟨-, rfl, -⟩ | ⟨body, hb, hc⟩
  · exact cleanConditions_nil _
  · exact clean_bodyOf ho hb hc

theorem clean_readHaving {grouped : Bool} {conds : List Condition}
    (ho : Orderly t) (h : readHaving grouped t = .ok (conds, rest)) :
    CleanConditions [.orderBy, .limit] conds := by
  rcases readHaving_eq_ok_iff.1 h with ⟨-, rfl, -⟩ | ⟨body, hb, -, hc⟩
  · exact cleanConditions_nil _
  · exact clean_bodyOf ho hb hc

/-- The word of a clause at the end does not stand in what the clause keeps, nor
in the text if there is no such clause. -/
theorem absent_readTrailing {clause : Clause} {v : Option Text} (ho : Orderly t)
    (h : readTrailing clause t = .ok (v, rest)) :
    (∀ p ∈ v, Absent clause.phrase p) ∧
    (v = none → Without clause.phrase t) := by
  rcases readTrailing_eq_ok_iff.1 h with
    ⟨habs, rfl, rfl⟩ | ⟨a, m, c, rfl, hs, habs, -, rfl, rfl⟩
  · exact ⟨by simp, fun _ => ⟨ho, habs⟩⟩
  · have hc := (ho.stands (isPhrase_phrase _) hs).2
    have hwithout : Without clause.phrase c.trim :=
      Without.trim (isPhrase_phrase _) ⟨hc, habs⟩
    exact ⟨by simpa using hwithout.absent, by simp⟩

/-- Without an ordering no `order by` is left. -/
theorem absent_readOrderBy {entries : List Text} (ho : Orderly t)
    (h : readOrderBy t = .ok (entries, rest)) (h₀ : entries = []) :
    Without Clause.orderBy.phrase rest := by
  rcases readOrderBy_eq_ok_iff.1 h with
    ⟨habs, -, rfl⟩ | ⟨a, m, c, rfl, -, -, hl, rfl⟩
  · exact ⟨ho, habs⟩
  · exact absurd h₀ (commaList_ne_nil hl)

/-- The sources behind a comma have no predicates. -/
theorem bare_readMore :
    ∀ {bound : Nat} {t rest : Text} {js : List Join},
      readMore nested literals bound t = .ok (js, rest) →
      ∀ j ∈ js, j.onPredicate = none
  | 0, t, rest, js, h => by
    cases h
    simp
  | bound + 1, t, rest, js, h => by
    rw [readMore] at h
    split at h
    · cases h
      simp
    · simp only [bind_eq_ok] at h
      obtain ⟨⟨s, u⟩, -, ⟨more, v⟩, hm, h⟩ := h
      cases h
      exact List.forall_mem_cons.2 ⟨rfl, bare_readMore hm⟩

/-- The sources of a list have no predicates. -/
theorem bare_readSources {s : Source} {js : List Join}
    (h : readSources nested literals t = .ok ((s, js), rest)) :
    ∀ j ∈ js, j.onPredicate = none := by
  simp only [readSources, bind_eq_ok] at h
  obtain ⟨⟨s', u⟩, -, ⟨js', v⟩, hm, h⟩ := h
  cases h
  exact bare_readMore hm

/-! ## Queries -/

/-- The predicates in a text without a word, behind the clauses that are taken
off its end, do not hold the word. -/
theorem absent_predicates {t₃ t₄ t₅ t₆ t₇ t₈ t₉ : Text}
    {distinct grouped : Bool} {columns : List Column} {source : Source}
    {listed joined : List Join} {filter having : List Condition}
    {groupBy : List Text} (hw : isPhrase w = true) (h₃ : Without w t₃)
    (h₄ : readSelect literals t₃ = .ok ((distinct, columns), t₄))
    (h₅ : readSources nested literals t₄ = .ok ((source, listed), t₅))
    (h₆ : readJoins nested literals t₅ = .ok (joined, t₆))
    (h₇ : readFilter t₆ = .ok (filter, t₇))
    (h₈ : readGroupBy t₇ = .ok (groupBy, t₈))
    (h₉ : readHaving grouped t₈ = .ok (having, t₉)) :
    (∀ j ∈ listed ++ joined, ∀ p ∈ j.onPredicate, Absent w p) ∧
    ∀ cond ∈ filter ++ having, Absent w cond.predicate := by
  have hw₅ := without_readSources hw (without_readSelect hw h₃ h₄) h₅
  obtain ⟨hjoins, hrest⟩ := without_readJoins hw hw₅.orderly h₆
  obtain ⟨hfilter, hw₇⟩ := without_readFilter hw (hrest hw₅) h₇
  have hhaving := without_readHaving hw (without_readGroupBy hw hw₇ h₈) h₉
  refine ⟨List.forall_mem_append.2 ⟨fun j hj p hp => ?_, hjoins (.inr hw₅)⟩,
    List.forall_mem_append.2 ⟨hfilter, hhaving⟩⟩
  rw [bare_readSources h₅ j hj] at hp
  cases hp

/-- The entries and names of a query lack a heading, and so does the query if
its predicates do. -/
theorem Query.HeadingFree.lacks (h : q.HeadingFree) (hw : w ∈ headings)
    (hp : (∀ j ∈ q.joins, ∀ p ∈ j.onPredicate, Absent w p) ∧
      ∀ cond ∈ q.filter ++ q.having, Absent w cond.predicate) : q.Lacks w where
  columns c hc := (h.columns c hc).absent hw
  name n hn := (h.names q.source List.mem_cons_self n hn).absent hw
  joins j hj :=
    ⟨fun n hn => (h.names j.source (mem_sources hj) n hn).absent hw, hp.1 j hj⟩
  conditions := hp.2
  groupBy e he := (h.entries e (List.mem_append_left _ he)).absent hw

/-- A source that was read is read back, if the query in it is. -/
theorem Source.Drawn.clean {s : Source} (h : s.Drawn nested)
    (hr : s.Holds (ReadsBack nested o)) : CleanSource nested o s := by
  cases s with
  | table name aliasName =>
    obtain ⟨htidy, htop, hfree, halias⟩ := h.sound
    exact ⟨⟨htidy, htop, h.name name aliasName rfl, hfree⟩,
      fun n hn => (halias n hn).2⟩
  | subquery query aliasName =>
    exact ⟨hr query aliasName rfl, fun n hn => (h.sound n hn).2⟩

theorem cleanList_of_headingFree {ends : List Clause} {entries : List Text}
    (he : ∀ e ∈ entries, IsEntry e) (hf : ∀ e ∈ entries, HeadingFree e)
    (hends : ∀ c ∈ ends, c.phrase ∈ headings) : CleanList ends entries :=
  ⟨fun e hmem => (he e hmem).tidy, fun e hmem => (he e hmem).noComma,
    fun e hmem c hc => (hf e hmem).absent (hends c hc)⟩

/-- Joins that are listed behind `from`, and those behind them. -/
theorem cleanJoins_append {listed joined : List Join}
    (hbare : ∀ j ∈ listed, j.onPredicate = none)
    (heach : ∀ j ∈ listed ++ joined, CleanJoin nested o j)
    (hclosed : ∀ j ∈ joined.dropLast, ∀ p ∈ j.onPredicate,
    isJoinModifier (afterLast ' ' p) = false) :
    CleanJoins nested o (listed ++ joined) := by
  refine ⟨heach, fun j hj p hp => ?_⟩
  have hlisted : j ∉ listed := by
    intro hmem
    rw [hbare j hmem] at hp
    cases hp
  by_cases h₀ : joined = []
  · rw [h₀, List.append_nil] at hj
    exact absurd (List.dropLast_subset _ hj) hlisted
  · rw [List.dropLast_append_of_ne_nil h₀] at hj
    exact hclosed j ((List.mem_append.1 hj).resolve_left hlisted) p hp

/-- The joins that are read are clean, if their sources are and no heading
stands in their names. -/
theorem clean_readJoins {s : Source} {listed joined : List Join} {t₅ t₆ : Text}
    (ho : Orderly t₅)
    (h₅ : readSources nested literals t = .ok ((s, listed), t₅))
    (h₆ : readJoins nested literals t₅ = .ok (joined, t₆))
    (hsound : ∀ j ∈ listed ++ joined, j.Sound)
    (hclean : ∀ j ∈ listed ++ joined, CleanSource nested o j.source)
    (hnames : ∀ j ∈ listed ++ joined, ∀ n ∈ j.source.name?, HeadingFree n) :
    CleanJoins nested o (listed ++ joined) := by
  have hends : ∀ v ∈ Clause.join.phrase :: joinEnds, isPhrase v = true ∧
      v ∈ headings := by decide
  have hbare := bare_readSources h₅
  refine cleanJoins_append hbare (fun j hj => ?_) (closed_readJoins ho h₆)
  refine ⟨hclean j hj, (hsound j hj).predicate, fun e he => ?_,
    (hsound j hj).one, fun v hv => ⟨?_, fun p hp => ?_⟩⟩
  · exact ⟨((hsound j hj).columns e he).tidy,
      ((hsound j hj).columns e he).noComma⟩
  · exact fun n hn => (hnames j hj n hn).absent (hends v hv).2
  · rcases List.mem_append.1 hj with hj | hj
    · rw [hbare j hj] at hp
      cases hp
    · exact (without_readJoins (hends v hv).1 ho h₆).1 (.inl hv) j hj p hp

/-- A query that is read is clean, if no heading stands in its entries and
names, and if the queries in its sources are read back. -/
theorem clean_readClauses {level : Nat} (hlevel : level ≤ maxDepth)
    (ho : Orderly t) (h : readClauses nested literals level t = .ok q)
    (hq : q.HeadingFree) (hr : ∀ s ∈ q.sources, s.Holds (ReadsBack nested o)) :
    CleanQuery nested literals o q := by
  obtain ⟨hsound, hdrawn⟩ := sound_readClauses hlevel ho h
  have hclean : ∀ s ∈ q.sources, CleanSource nested o s :=
    fun s hs => (hdrawn s hs).clean (hr s hs)
  simp only [readClauses, bind_eq_ok] at h
  obtain ⟨⟨limit, t₁⟩, h₁, ⟨offset, t₂⟩, h₂, ⟨orderBy, t₃⟩, h₃,
      ⟨⟨distinct, columns⟩, t₄⟩, h₄, ⟨⟨source, listed⟩, t₅⟩, h₅, ⟨joined, t₆⟩,
      h₆, ⟨filter, t₇⟩, h₇, ⟨groupBy, t₈⟩, h₈, ⟨having, t₉⟩, h₉, ⟨⟩, -, h⟩ := h
  cases h
  have ho₁ := (sound_readTrailing ho h₁).2
  have ho₂ := (sound_readTrailing ho₁ h₂).2
  have ho₃ := (sound_readOrderBy ho₂ h₃).2
  have ho₄ := (sound_readSelect ho₃ h₄).2
  have ho₅ := (drawn_readSources ho₄ (trimmed_readSelect h₄) h₅).2.2
  have ho₆ := (sound_readJoins ho₅ h₆).2
  have ho₇ := (sound_readFilter ho₆ h₇).2
  have ho₈ := (sound_readGroupBy ho₇ h₈).2
  obtain ⟨hlimit, hunlimited⟩ := absent_readTrailing ho h₁
  obtain ⟨hoffset, hunskipped⟩ := absent_readTrailing ho₁ h₂
  have hpredicates : ∀ clause : Clause, Without clause.phrase t₃ → _ :=
    fun clause hw =>
    absent_predicates (isPhrase_phrase clause) hw h₄ h₅ h₆ h₇ h₈ h₉
  have horder : ∀ {w : Text}, w ∈ headings → ∀ e ∈ orderBy, Absent w e :=
    fun hw e he =>
    (hq.entries e (List.mem_append_right _ he)).absent hw
  exact {
    select := {
      ne_nil := hsound.columns_ne_nil
      column := clean_readSelect ho₃ h₄
      absent := fun c hc => (hq.columns c hc).absent (by decide)
      bare := fun _ c hc => .inl (stripWord?_eq_none_iff.2 fun m t e hs =>
        (hq.columns c (List.mem_of_mem_head? hc)).absent (by decide)
          [] m t e hs) }
    source := hclean source List.mem_cons_self
    joins := clean_readJoins ho₅ h₅ h₆ hsound.joins
      (fun j hj => hclean j.source (mem_sources hj)) fun j hj =>
      hq.names j.source (mem_sources hj)
    filter := clean_readFilter ho₆ h₇
    groupBy := cleanList_of_headingFree
      (fun e he => hsound.entries e (List.mem_append_left _ he))
      (fun e he => hq.entries e (List.mem_append_left _ he)) (by decide)
    having := clean_readHaving ho₈ h₉
    grouped := hsound.grouped
    orderBy := cleanList_of_headingFree
      (fun e he => hsound.entries e (List.mem_append_right _ he))
      (fun e he => hq.entries e (List.mem_append_right _ he)) (by decide)
    offset := fun p hp =>
      ⟨hsound.expressions p (List.mem_append_right _ (Option.mem_toList.2 hp)),
      hoffset p hp⟩
    limit := fun p hp =>
      ⟨hsound.expressions p (List.mem_append_left _ (Option.mem_toList.2 hp)),
      hlimit p hp⟩
    unordered := fun h₀ =>
      hq.lacks (by decide) (hpredicates .orderBy (absent_readOrderBy ho₂ h₃ h₀))
    unskipped := fun h₀ => by
      have hw₂ :=
        (without_readTrailing (isPhrase_phrase .offset) (hunskipped h₀) h₂).2
      have hw₃ := without_readOrderBy (isPhrase_phrase .offset) hw₂ h₃
      exact ⟨hq.lacks (by decide) (hpredicates .offset hw₃), horder (by decide)⟩
    unlimited := fun h₀ => by
      have hw := isPhrase_phrase .limit
      obtain ⟨hskip, hw₂⟩ := without_readTrailing hw
        (without_readTrailing hw (hunlimited h₀) h₁).2 h₂
      have hw₃ := without_readOrderBy hw hw₂ h₃
      exact ⟨hq.lacks (by decide) (hpredicates .limit hw₃), horder (by decide),
        hskip⟩ }

/-- A query inside a query is the query itself or stands inside one of its
sources. -/
theorem forall_within_iff {P : Query → Prop} :
    (∀ n inner, Within n q inner → P inner) ↔ P q ∧ ∀ s ∈ q.sources,
      s.Holds fun query => ∀ n inner, Within n query inner → P inner := by
  constructor
  · refine fun h => ⟨h 0 q (.self q), ?_⟩
    rintro _ hs query aliasName rfl n inner hw
    exact h (n + 1) inner (.source hs hw)
  · rintro ⟨hq, hsources⟩ n inner hw
    cases hw with
    | self => exact hq
    | source hs hw => exact hsources _ hs _ _ rfl _ inner hw

/-- A query that is read is read back from its line, if no heading stands in the
entries and names of the queries inside it. -/
theorem readsBack_readQuery (o : Options) :
    ∀ room t q, Orderly t → readQuery literals room t = .ok q →
      (∀ n inner, Within n q inner → inner.HeadingFree) →
      ReadsBack (readQuery literals room) o q := by
  -- one level of queries, when those in brackets are read back
  have step : ∀ room t q, Orderly t → readQuery literals room t = .ok q →
      q.HeadingFree → (∀ s ∈ q.sources, s.Drawn (nestedOf literals room) →
      s.Holds (ReadsBack (nestedOf literals room) o)) →
      ReadsBack (readQuery literals room) o q := by
    intro room t q ho h hq hr
    rw [readQuery_eq_readStatement] at h
    have hread := readStatement_eq_ok h
    obtain ⟨hsound, hdrawn⟩ := sound_readClauses (Nat.sub_le _ _) ho hread
    have hclean := clean_readClauses (o := o) (Nat.sub_le _ _) ho hread hq
      fun s hs => hr s hs (hdrawn s hs)
    exact readsBack_of_clean hclean hsound.literals hsound.level
  intro room
  induction room with
  | zero =>
    intro t q ho h hq
    refine step 0 t q ho h (forall_within_iff.1 hq).1
      fun s hs hdrawn query aliasName e => ?_
    obtain ⟨t', -, ht'⟩ := hdrawn.query query aliasName e
    cases ht'
  | succ room ih =>
    intro t q ho h hq
    obtain ⟨hself, hinside⟩ := forall_within_iff.1 hq
    refine step (room + 1) t q ho h hself
      fun s hs hdrawn query aliasName e => ?_
    obtain ⟨t', ho', ht'⟩ := hdrawn.query query aliasName e
    exact ih t' query ho' ht' (hinside s hs query aliasName e)

end SqlRiver
