import Mathlib.Data.List.Infix
import SqlRiver.Proofs.Line.Query
import SqlRiver.Proofs.Literal.Preserved

/-!
# Well-formed queries

A text is *plain* if nothing in it can be taken for a part of a query: it holds
no quotes and no comments, its brackets are balanced, and no keyword that
divides the text of a query stands at its top level. A query is well formed if
its texts are plain, its lists have entries without commas, its names and
aliases are read as such, and its depth counts the queries around it. The same
holds of every query inside it.

Main definitions and statements:

* `PlainText`, `PlainEntry`: texts that can be pieces of a query.
* `Query.Plain`: the conditions on one query, without the queries in its
  sources.
* `Query.WellFormedAt`, `wellFormed_induction`: a query that is plain at every
  level.
* `Query.Plain.clean`: the clauses of a plain query are read back.
-/

namespace SqlRiver

open Text

variable {p w : Text} {o : Options} {literals : LiteralTable} {nested : Nested}
  {q : Query} {level : Nat}

/-! ## Plain texts -/

/-- The keywords that divide the text of a query. -/
def dividers : List Text :=
  ["from", "where", "group by", "having", "order by", "limit", "offset", "join",
    "left", "right", "inner", "outer", "full", "cross", "on", "using", "as",
    "and", "between", "case", "distinct"].map String.toList

/-- A text in which nothing can be taken for a part of a query. -/
structure PlainText (p : Text) : Prop where
  ne_nil : p ≠ []
  trimmed : p.trim = p
  /-- There are no blanks but spaces. -/
  spaceOnly : p.SpaceOnly
  /-- No two spaces are neighbours. -/
  single : ¬ [' ', ' '] <:+: p
  noQuote : ∀ c ∈ p, isQuote c = false
  noTerminator : ';' ∉ p
  noLineComment : ¬ ['-', '-'] <:+: p
  noBlockComment : ¬ ['/', '*'] <:+: p
  balanced : isBalanced p = true
  /-- No divider stands at the top level. -/
  undivided : ∀ w ∈ dividers, findTop p w 1 = none

/-- A plain text without a comma at its top level. -/
structure PlainEntry (e : Text) : Prop extends PlainText e where
  noComma : topPosition? isComma e = none

instance (p : Text) : Decidable (PlainText p) :=
  decidable_of_iff (p ≠ [] ∧ p.trim = p ∧
    (∀ c ∈ p, isBlank c = true → c = ' ') ∧ ¬ [' ', ' '] <:+: p ∧
    (∀ c ∈ p, isQuote c = false) ∧ ';' ∉ p ∧ ¬ ['-', '-'] <:+: p ∧
    ¬ ['/', '*'] <:+: p ∧ isBalanced p = true ∧ ∀ w ∈ dividers,
    findTop p w 1 = none) ⟨fun ⟨h₀, ht, hs, hd, hq, hc, hl, hb, hp, hw⟩ =>
    ⟨h₀, ht, hs, hd, hq, hc, hl, hb, hp, hw⟩,
    fun ⟨h₀, ht, hs, hd, hq, hc, hl, hb, hp, hw⟩ =>
    ⟨h₀, ht, hs, hd, hq, hc, hl, hb, hp, hw⟩⟩

instance (e : Text) : Decidable (PlainEntry e) :=
  decidable_of_iff (PlainText e ∧ topPosition? isComma e = none)
    ⟨fun h => ⟨h.1, h.2⟩, fun h => ⟨h.1, h.2⟩⟩

namespace PlainText

theorem tidy (h : PlainText p) : Tidy p := by
  refine ⟨h.ne_nil, spaced_of_trimmed ?_ h.spaceOnly h.single, h.balanced⟩
  rw [← h.trimmed]
  exact trimmed_trim p

theorem absent (h : PlainText p) (hw : w ∈ dividers) : Absent w p := by
  have hphrase : ∀ w ∈ dividers, isPhrase w = true := by decide
  exact (findTop_eq_none_iff (hphrase w hw)).1 (h.undivided w hw)

theorem absent_phrase (h : PlainText p) {clause : Clause}
    (hc : clause ≠ .select) : Absent clause.phrase p := by
  refine h.absent ?_
  cases clause <;> first | exact absurd rfl hc | decide

/-- A plain predicate leaves nothing open. -/
theorem isOpen (h : PlainText p) : SqlRiver.isOpen p = false := by
  have hbetween := (countTop_eq_zero_iff (by decide)).2
    (h.absent (w := "between".toList) (by decide))
  have hcase := (countTop_eq_zero_iff (by decide)).2
    (h.absent (w := "case".toList) (by decide))
  rw [SqlRiver.isOpen, hbetween, hcase]
  rfl

theorem whole (h : PlainText p) : Whole p :=
  fun a m c e hs => absurd hs (h.absent (by decide) a m c e)

/-- A plain text holds neither a quote nor a comment. -/
theorem inert (h : PlainText p) : inert p = true := by
  obtain ⟨hq, hl, hb⟩ : (∀ c ∈ p, isQuote c = false) ∧ ¬ ['-', '-'] <:+: p ∧
      ¬ ['/', '*'] <:+: p :=
    ⟨h.noQuote, h.noLineComment, h.noBlockComment⟩
  clear h
  induction p with
  | nil => rfl
  | cons c p ih =>
    rw [inert_cons]
    refine ⟨hq c (by simp), ?_, ih (fun d hd => hq d (by simp [hd]))
      (fun hi => hl (List.infix_cons hi)) fun hi => hb (List.infix_cons hi)⟩
    -- two characters that open a comment are excluded
    cases p with
    | nil => rfl
    | cons d p =>
      rw [Bool.eq_false_iff]
      intro ho
      simp only [List.head?_cons, opensComment, Bool.or_eq_true,
        Bool.and_eq_true, beq_iff_eq] at ho
      rcases ho with ⟨rfl, rfl⟩ | ⟨rfl, rfl⟩
      · exact hl ⟨[], p, rfl⟩
      · exact hb ⟨[], p, rfl⟩

end PlainText

theorem PlainEntry.noTop (h : PlainEntry p) : NoTop isComma p :=
  topPosition?_eq_none_iff.1 h.noComma

/-! ## Plain queries -/

/-- A column without an alias is not read as one with an alias. -/
structure Column.Plain (column : Column) : Prop where
  expression : PlainEntry column.expression
  named : ∀ n ∈ column.aliasName, isAlias n = true
  bare : column.aliasName = none →
    splitAlias column.expression = (column.expression, none)

instance (column : Column) : Decidable column.Plain :=
  decidable_of_iff (PlainEntry column.expression ∧
    (∀ n ∈ column.aliasName, isAlias n = true) ∧ (column.aliasName = none →
    splitAlias column.expression = (column.expression, none)))
    ⟨fun ⟨he, hn, hb⟩ => ⟨he, hn, hb⟩, fun ⟨he, hn, hb⟩ => ⟨he, hn, hb⟩⟩

/-- The conditions on a source, without the query in it. -/
def Source.Plain : Source → Prop
  | .table name aliasName =>
    (PlainText name ∧ topPosition? endsName name = none ∧
      name.head? ≠ some '(' ∧ isReserved name = false) ∧
      ∀ n ∈ aliasName, isAlias n = true
  | .subquery _ aliasName => ∀ n ∈ aliasName, isAlias n = true

instance : (s : Source) → Decidable s.Plain
  | .table name aliasName =>
    inferInstanceAs
      (Decidable ((PlainText name ∧ topPosition? endsName name = none ∧
      name.head? ≠ some '(' ∧ isReserved name = false) ∧
      ∀ n ∈ aliasName, isAlias n = true))
  | .subquery _ aliasName =>
    inferInstanceAs (Decidable (∀ n ∈ aliasName, isAlias n = true))

/-- The conditions on a join, without its source. -/
structure Join.Plain (j : Join) : Prop where
  predicate : ∀ p ∈ j.onPredicate, PlainText p
  columns : ∀ e ∈ j.usingColumns, PlainEntry e
  one : j.onPredicate = none ∨ j.usingColumns = []

instance (j : Join) : Decidable j.Plain :=
  decidable_of_iff ((∀ p ∈ j.onPredicate, PlainText p) ∧
    (∀ e ∈ j.usingColumns, PlainEntry e) ∧
    (j.onPredicate = none ∨ j.usingColumns = [])) ⟨fun ⟨hp, hc, ho⟩ =>
    ⟨hp, hc, ho⟩, fun ⟨hp, hc, ho⟩ => ⟨hp, hc, ho⟩⟩

/-- The conditions on a query at a level, without the queries in its sources. -/
structure Query.Plain (level : Nat) (q : Query) : Prop where
  entryless : q.literals.literals = []
  level : q.depth = level
  level_le : q.depth ≤ maxDepth
  columns_ne_nil : q.columns ≠ []
  columns : ∀ column ∈ q.columns, column.Plain
  sources : ∀ s ∈ q.sources, s.Plain
  joins : ∀ j ∈ q.joins, j.Plain
  conditions : ∀ cond ∈ q.filter ++ q.having, cond.combinator = .and ∧
    PlainText cond.predicate
  grouped : q.having ≠ [] → q.groupBy ≠ []
  entries : ∀ e ∈ q.groupBy ++ q.orderBy, PlainEntry e
  expressions : ∀ e ∈ q.limit.toList ++ q.offset.toList, PlainText e

instance (level : Nat) (q : Query) : Decidable (q.Plain level) :=
  decidable_of_iff (q.literals.literals = [] ∧ q.depth = level ∧
    q.depth ≤ maxDepth ∧ q.columns ≠ [] ∧ (∀ column ∈ q.columns, column.Plain) ∧
    (∀ s ∈ q.sources, s.Plain) ∧ (∀ j ∈ q.joins, j.Plain) ∧
    (∀ cond ∈ q.filter ++ q.having, cond.combinator = .and ∧
    PlainText cond.predicate) ∧ (q.having ≠ [] → q.groupBy ≠ []) ∧
    (∀ e ∈ q.groupBy ++ q.orderBy, PlainEntry e) ∧
    ∀ e ∈ q.limit.toList ++ q.offset.toList, PlainText e)
    ⟨fun ⟨h₁, h₂, h₃, h₄, h₅, h₆, h₇, h₈, h₉, h₁₀, h₁₁⟩ =>
    ⟨h₁, h₂, h₃, h₄, h₅, h₆, h₇, h₈, h₉, h₁₀, h₁₁⟩,
    fun ⟨h₁, h₂, h₃, h₄, h₅, h₆, h₇, h₈, h₉, h₁₀, h₁₁⟩ =>
    ⟨h₁, h₂, h₃, h₄, h₅, h₆, h₇, h₈, h₉, h₁₀, h₁₁⟩⟩

/-- The query is plain at a level, and each query inside it at the level below
the query around it. -/
def Query.WellFormedAt (level : Nat) (q : Query) : Prop :=
  ∀ n inner, Within n q inner → inner.Plain (level + n)

/-- A well-formed query is plain at its level. -/
theorem Query.WellFormedAt.plain (h : q.WellFormedAt level) : q.Plain level :=
  h 0 q (.self q)

/-- The queries in the sources of a well-formed query are well-formed one level
below. -/
theorem Query.WellFormedAt.sources (h : q.WellFormedAt level) :
    ∀ s ∈ q.sources, s.Holds (Query.WellFormedAt (level + 1)) := by
  rintro s hs query aliasName rfl n inner hw
  have hp := h (n + 1) inner (.source hs hw)
  rwa [Nat.add_comm n 1, ← Nat.add_assoc] at hp

theorem wellFormedAt_iff :
    q.WellFormedAt level ↔ q.Plain level ∧
    ∀ s ∈ q.sources, s.Holds (Query.WellFormedAt (level + 1)) := by
  refine ⟨fun h => ⟨h.plain, h.sources⟩,
    fun ⟨hplain, hsources⟩ n inner hw => ?_⟩
  cases hw with
  | self => exact hplain
  | source hs hw =>
    have hinner := hsources _ hs _ _ rfl _ inner hw
    rwa [Nat.add_assoc, Nat.add_comm 1] at hinner

/-- What is true of a plain query if it is true of the queries in its sources is
true of every well-formed query. -/
theorem wellFormed_induction {P : Nat → Query → Prop} (step : ∀ level q,
    q.Plain level → (∀ s ∈ q.sources, s.Holds (P (level + 1))) → P level q) :
    ∀ {level : Nat} {q : Query}, q.WellFormedAt level → P level q := by
  intro level q h
  -- levels are bounded, so the induction is on how many may follow
  induction hn : maxDepth - level generalizing level q with
  | zero =>
    refine step level q h.plain fun s hs query aliasName e => ?_
    have hinner := (h.sources s hs query aliasName e).plain
    have hle := hinner.level_le
    rw [hinner.level] at hle
    omega
  | succ n ih =>
    refine step level q h.plain fun s hs query aliasName e => ?_
    exact ih (h.sources s hs query aliasName e) (by omega)

/-! ## Plain queries are clean -/

/-- No alias stands for a quoted span when the table has none. -/
theorem isApostrophed_alias {n : Text} (hl : literals.literals = [])
    (hn : isAlias n = true) : isApostrophed literals n = false := by
  obtain ⟨c, u, rfl⟩ := List.exists_cons_of_ne_nil (ne_nil_of_isAlias hn)
  have hc := isAliasChar_of_isAlias hn c (by simp)
  rw [isApostrophed, LiteralTable.restore_entryless hl, List.head?_cons,
    Bool.eq_false_iff]
  intro he
  obtain rfl : c = '\x27' := by simpa using he
  cases hc

/-- A plain column is read back. -/
theorem Column.Plain.clean {column : Column} (h : column.Plain)
    (hl : literals.literals = []) : CleanColumn literals column where
  tidy := h.expression.tidy
  noComma := h.expression.noTop
  named n hn := ⟨h.named n hn, isApostrophed_alias hl (h.named n hn)⟩
  bare hnone := by
    obtain ⟨expression, aliasName⟩ := column
    obtain rfl : aliasName = none := hnone
    have hsplit : splitAlias expression = (expression, none) := h.bare rfl
    rw [columnOf, hsplit]

/-- A plain source is read back if the query in it is. -/
theorem Source.Plain.clean {s : Source} (h : s.Plain)
    (hr : s.Holds (ReadsBack nested o)) : CleanSource nested o s := by
  cases s with
  | table name aliasName =>
    obtain ⟨⟨hname, hend, hopen, hfree⟩, halias⟩ := h
    exact ⟨⟨hname.tidy, topPosition?_eq_none_iff.1 hend, hopen, hfree⟩, halias⟩
  | subquery query aliasName => exact ⟨hr query aliasName rfl, h⟩

/-- The name of a plain source is a plain text. -/
theorem Source.Plain.name {s : Source} (h : s.Plain) :
    ∀ n ∈ s.name?, PlainText n := by
  cases s with
  | table name aliasName =>
    rintro _ ⟨⟩
    exact h.1.1
  | subquery query aliasName => simp [Source.name?]

/-- The last word of a plain text chooses no kind of join. -/
theorem PlainText.isJoinModifier (h : PlainText p) :
    isJoinModifier (afterLast ' ' p) = false := by
  rw [Bool.eq_false_iff]
  intro hm
  obtain ⟨pre, e, hpre, -⟩ := exists_afterLast ' ' p
  have hword : (afterLast ' ' p).lower ∈ dividers := by
    unfold SqlRiver.isJoinModifier at hm
    split at hm
    · next k hk =>
      have key : ∀ k ∈ Keyword.all, k.isJoinModifier = true →
          k.text ∈ dividers := by decide
      have hspell : k.text = (afterLast ' ' p).lower := by
        simpa using List.find?_some hk
      rw [← hspell]
      exact key k (List.mem_of_find?_eq_some hk) hm
    · cases hm
  have hd : depth pre = 0 := by
    have htop := h.tidy.top
    rw [e, depth_append, depth_of_isReserved (isReserved_of_isJoinModifier hm)]
      at htop
    simpa using htop
  refine h.absent hword pre (afterLast ' ' p) [] (by simpa using e)
    ⟨(lower_lower _).symm, hd, ?_, rfl⟩
  rcases hpre with rfl | hpre
  · rfl
  · rw [hpre]
    rfl

/-- Conditions with plain predicates and `and` between them are read back. -/
theorem clean_conditions {conds : List Condition} {ends : List Clause}
    (h : ∀ cond ∈ conds, cond.combinator = .and ∧ PlainText cond.predicate)
    (he : .select ∉ ends) : CleanConditions ends conds where
  joined c hc := (h c hc).1
  tidy c hc := (h c hc).2.tidy
  absent c hc e hmem := (h c hc).2.absent_phrase fun h₀ => he (h₀ ▸ hmem)
  divided := by
    refine ⟨List.forall_mem_map.2 fun c hc => (h c hc).2.whole, fun p hp => ?_⟩
    obtain ⟨c, hc, rfl⟩ := List.mem_map.1 (List.dropLast_subset _ hp)
    exact (h c hc).2.isOpen

theorem clean_list {entries : List Text} {ends : List Clause}
    (h : ∀ e ∈ entries, PlainEntry e) (he : .select ∉ ends) :
    CleanList ends entries where
  tidy e hmem := (h e hmem).tidy
  noComma e hmem := (h e hmem).noTop
  absent e hmem _ hc := (h e hmem).absent_phrase fun h₀ => he (h₀ ▸ hc)

/-- No divider stands in the clauses of a plain query. -/
theorem Query.Plain.lacks (h : q.Plain level) (hw : w ∈ dividers) :
    q.Lacks w where
  columns c hc := (h.columns c hc).expression.absent hw
  name n hn := ((h.sources q.source List.mem_cons_self).name n hn).absent hw
  joins j hj :=
    ⟨fun n hn => ((h.sources j.source (mem_sources hj)).name n hn).absent hw,
      fun p hp => ((h.joins j hj).predicate p hp).absent hw⟩
  conditions c hc := (h.conditions c hc).2.absent hw
  groupBy e he := (h.entries e (List.mem_append_left _ he)).absent hw

/-- The joins of a plain query are read back, if the queries in its sources
are. -/
theorem Query.Plain.clean_joins (h : q.Plain level)
    (hr : ∀ s ∈ q.sources, s.Holds (ReadsBack nested o)) :
    CleanJoins nested o q.joins := by
  have hmem : ∀ v ∈ Clause.join.phrase :: joinEnds, v ∈ dividers := by decide
  refine ⟨fun j hj => ?_, fun j hj p hp => ?_⟩
  · have hplain := h.joins j hj
    exact {
      source := (h.sources j.source (mem_sources hj)).clean
        (hr j.source (mem_sources hj))
      predicate := fun p hp => (hplain.predicate p hp).tidy
      columns :=
        fun e he => ⟨(hplain.columns e he).tidy, (hplain.columns e he).noTop⟩
      one := hplain.one
      lacks := fun v hv => (h.lacks (hmem v hv)).joins j hj }
  · exact
      ((h.joins j (List.dropLast_subset _ hj)).predicate p hp).isJoinModifier

/-- The clauses of a plain query are read back, if the queries in its sources
are. -/
theorem Query.Plain.clean (h : q.Plain level) (hl : literals.literals = [])
    (hr : ∀ s ∈ q.sources, s.Holds (ReadsBack nested o)) :
    CleanQuery nested literals o q := by
  have hmem : ∀ e ∈ endClauses, e.phrase ∈ dividers := by decide
  have hlimit : ∀ p ∈ q.limit, PlainText p := fun p hp =>
    h.expressions p (List.mem_append_left _ (Option.mem_toList.2 hp))
  have hoffset : ∀ p ∈ q.offset, PlainText p := fun p hp =>
    h.expressions p (List.mem_append_right _ (Option.mem_toList.2 hp))
  have horder : ∀ e ∈ q.orderBy, PlainEntry e :=
    fun e he => h.entries e (List.mem_append_right _ he)
  exact {
    select := {
      ne_nil := h.columns_ne_nil
      column := fun c hc => (h.columns c hc).clean hl
      absent := fun c hc => (h.columns c hc).expression.absent (by decide)
      bare := fun _ c hc => .inl (stripWord?_eq_none_iff.2 fun m t e hs =>
        (h.columns c (List.mem_of_mem_head? hc)).expression.absent (by decide)
          [] m t e hs) }
    source := (h.sources q.source List.mem_cons_self).clean
      (hr q.source List.mem_cons_self)
    joins := h.clean_joins hr
    filter := clean_conditions
      (fun c hc => h.conditions c (List.mem_append_left _ hc)) (by decide)
    groupBy := clean_list
      (fun e he => h.entries e (List.mem_append_left _ he)) (by decide)
    having := clean_conditions
      (fun c hc => h.conditions c (List.mem_append_right _ hc)) (by decide)
    grouped := h.grouped
    orderBy := clean_list horder (by decide)
    offset :=
      fun p hp => ⟨(hoffset p hp).tidy, (hoffset p hp).absent (by decide)⟩
    limit := fun p hp => ⟨(hlimit p hp).tidy, (hlimit p hp).absent (by decide)⟩
    unordered := fun _ => h.lacks (by decide)
    unskipped := fun _ =>
      ⟨h.lacks (by decide), fun e he => (horder e he).absent (by decide)⟩
    unlimited := fun _ => ⟨h.lacks (by decide), fun e he => (horder e he).absent
      (by decide), fun p hp => (hoffset p hp).absent (by decide)⟩ }

end SqlRiver
