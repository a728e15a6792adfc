import SqlRiver.Proofs.Reading.Sound

/-!
# Queries one level further down

A query in brackets is read like a query of its own, but for its depth and for
the number of levels that may still follow. So with one level less to go,
exactly those queries are read that do not reach the last level, and each depth
in them is greater by one.

Main definitions and statements:

* `Query.deeper`: a query with all depths greater by one.
* `Query.Spare`: a query that does not reach the last level.
* `Lifts`: one reader gives what another one gives, restricted and changed.
* `lifts_readClauses`: a query whose sources are read by the one or by the
  other.
* `lifts_readQuery`: reading with one level less to go.
-/

namespace SqlRiver

open Text

/-! ## Depths -/

mutual

/-- A query with its depth and those inside it greater by one. -/
def Query.deeper : Query → Query
  | { distinct, columns, source, joins, filter, groupBy, having, orderBy, limit,
      offset, literals, depth } =>
    { distinct, columns, source := Source.deeper source
      joins := Join.allDeeper joins
      filter, groupBy, having, orderBy, limit, offset, literals
      depth := depth + 1 }

/-- A source with the depths inside it greater by one. -/
def Source.deeper : Source → Source
  | .table name aliasName => .table name aliasName
  | .subquery query aliasName => .subquery (Query.deeper query) aliasName

/-- A join with the depths inside it greater by one. -/
def Join.deeper : Join → Join
  | { kind, source, onPredicate, usingColumns } =>
    { kind, source := Source.deeper source, onPredicate, usingColumns }

/-- Joins with the depths inside them greater by one. -/
def Join.allDeeper : List Join → List Join
  | [] => []
  | join :: more => Join.deeper join :: Join.allDeeper more

end

/-- No query inside it, and not the query itself, is at the last level. -/
def Query.Spare (q : Query) : Prop :=
  ∀ n inner, Within n q inner → inner.depth < maxDepth

/-! ## Changing the queries in sources -/

/-- A source with another query in it, if it holds one. -/
def Source.mapQuery (f : Query → Query) : Source → Source
  | .table name aliasName => .table name aliasName
  | .subquery query aliasName => .subquery (f query) aliasName

/-- The query in a source, if it holds one, has a property. -/
def Source.Holds (P : Query → Prop) (s : Source) : Prop :=
  ∀ query aliasName, s = .subquery query aliasName → P query

/-- A join with another query in its source. -/
def Join.mapQuery (f : Query → Query) (j : Join) : Join :=
  { j with source := j.source.mapQuery f }

/-- A query with other queries in its sources, at a depth. -/
def Query.mapSources (f : Query → Query) (level : Nat) (q : Query) : Query :=
  { q with
    source := q.source.mapQuery f
    joins := q.joins.map (Join.mapQuery f)
    depth := level }

theorem allDeeper_eq_map (js : List Join) :
    Join.allDeeper js = js.map (Join.mapQuery Query.deeper) := by
  induction js with
  | nil => rfl
  | cons j js ih =>
    obtain ⟨kind, source, onPredicate, usingColumns⟩ := j
    rw [Join.allDeeper, ih, List.map_cons, Join.deeper, Join.mapQuery]
    cases source <;> simp only [Source.deeper, Source.mapQuery]

theorem deeper_eq_mapSources (q : Query) :
    q.deeper = q.mapSources Query.deeper (q.depth + 1) := by
  obtain ⟨distinct, columns, source, joins, filter, groupBy, having, orderBy,
      limit, offset, literals, depth⟩ := q
  rw [Query.deeper, allDeeper_eq_map, Query.mapSources]
  cases source <;> simp only [Source.deeper, Source.mapQuery]

/-- A query is spare if it is not at the last level and the queries in its
sources are spare. -/
theorem spare_iff {q : Query} :
    q.Spare ↔ q.depth < maxDepth ∧ ∀ s ∈ q.sources, s.Holds Query.Spare := by
  constructor
  · intro h
    refine ⟨h 0 q (.self q), ?_⟩
    rintro s hs query aliasName rfl n inner hw
    exact h (n + 1) inner (.source hs hw)
  · rintro ⟨hd, hs⟩ n inner hw
    cases hw with
    | self => exact hd
    | source hmem hw => exact hs _ hmem _ _ rfl _ inner hw

/-! ## Readers that agree up to a change -/

section Lifts

variable {P : Query → Prop} {f : Query → Query} {nested nested' : Nested}
  {literals : LiteralTable} {clause : Clause} {t rest : Text}

/-- The second reader gives what the first one gives, if that has the property
`P`, and changes it by `f`. -/
def Lifts (P : Query → Prop) (f : Query → Query) (nested nested' : Nested) :
    Prop :=
  ∀ t q', nested' t = .ok q' ↔ ∃ q, nested t = .ok q ∧ P q ∧ q' = f q

@[simp] theorem holds_table (name : Text) (aliasName : Option Text) :
    (Source.table name aliasName).Holds P := by
  rintro _ _ ⟨⟩

@[simp] theorem holds_subquery {query : Query} {aliasName : Option Text} :
    (Source.subquery query aliasName).Holds P ↔ P query := by
  refine ⟨fun h => h query aliasName rfl, ?_⟩
  rintro h _ _ ⟨⟩
  exact h

@[simp] theorem holds_withAlias {s : Source} {name : Text} :
    (s.withAlias name).Holds P ↔ s.Holds P := by
  cases s <;> simp [Source.withAlias]

@[simp] theorem mapQuery_withAlias (s : Source) (name : Text) :
    (s.withAlias name).mapQuery f = (s.mapQuery f).withAlias name := by
  cases s <;> rfl

section

variable (h : Lifts P f nested nested')

include h

/-- A source without an alias is read by both where the query in it is. -/
theorem lifts_readBare {s' : Source} :
    readBare nested' clause t = .ok (s', rest) ↔
    ∃ s, readBare nested clause t = .ok (s, rest) ∧ s.Holds P ∧
      s' = s.mapQuery f := by
  simp only [readBare_eq_ok_iff]
  constructor
  · rintro (⟨inside, tail, q', e, hi, hq', rfl, hrest⟩ |
      ⟨name, tail, e, hhead, h₀, hn, hfree, rfl, hrest⟩)
    · obtain ⟨q, hq, hP, rfl⟩ := (h _ _).1 hq'
      exact ⟨.subquery q none, .inl ⟨inside, tail, q, e, hi, hq, rfl, hrest⟩,
        holds_subquery.2 hP, rfl⟩
    · exact ⟨.table name none,
        .inr ⟨name, tail, e, hhead, h₀, hn, hfree, rfl, hrest⟩,
        holds_table _ _, rfl⟩
  · rintro ⟨s, ⟨inside, tail, q, e, hi, hq, rfl, hrest⟩ |
      ⟨name, tail, e, hhead, h₀, hn, hfree, rfl, hrest⟩, hP, rfl⟩
    · have hq' := (h _ _).2 ⟨q, hq, holds_subquery.1 hP, rfl⟩
      exact .inl ⟨inside, tail, f q, e, hi, hq', rfl, hrest⟩
    · exact .inr ⟨name, tail, e, hhead, h₀, hn, hfree, rfl, hrest⟩

/-- A source is read by both where the query in it is. -/
theorem lifts_readSource {ends : List Text} (hw : ∀ w ∈ ends, isPhrase w = true)
    {s' : Source} :
    readSource nested' literals ends clause t = .ok (s', rest) ↔
    ∃ s, readSource nested literals ends clause t = .ok (s, rest) ∧ s.Holds P ∧
      s' = s.mapQuery f := by
  simp only [readSource_eq_ok_iff hw]
  constructor
  · rintro ⟨s₀', x, y, v, hb, hu, hv, rfl, hrest⟩
    obtain ⟨s₀, hb', hP, rfl⟩ := (lifts_readBare h).1 hb
    refine ⟨v.elim s₀ s₀.withAlias, ⟨s₀, x, y, v, hb', hu, hv, rfl, hrest⟩, ?_,
      ?_⟩
    · cases v <;> simpa using hP
    · cases v <;> simp
  · rintro ⟨s, ⟨s₀, x, y, v, hb, hu, hv, rfl, hrest⟩, hP, rfl⟩
    have hP' : s₀.Holds P := by
      cases v <;> simpa using hP
    refine ⟨s₀.mapQuery f, x, y, v, (lifts_readBare h).2 ⟨s₀, hb, hP', rfl⟩, hu,
      hv, ?_, hrest⟩
    cases v <;> simp

/-- The sources behind a comma are read by both where the queries in them are,
by induction on the bound of the loop. -/
theorem lifts_readMore :
    ∀ {bound : Nat} {t rest : Text} {js' : List Join},
      readMore nested' literals bound t = .ok (js', rest) ↔
      ∃ js, readMore nested literals bound t = .ok (js, rest) ∧
      (∀ j ∈ js, j.source.Holds P) ∧ js' = js.map (Join.mapQuery f)
  | 0, t, rest, js' => by
    simp only [readMore, Except.ok.injEq, Prod.mk.injEq]
    constructor
    · rintro ⟨rfl, rfl⟩
      exact ⟨[], ⟨rfl, rfl⟩, by simp, rfl⟩
    · rintro ⟨js, ⟨rfl, rfl⟩, -, rfl⟩
      exact ⟨rfl, rfl⟩
  | bound + 1, t, rest, js' => by
    simp only [readMore]
    cases t.stripComma? with
    | none =>
      simp only [Except.ok.injEq, Prod.mk.injEq]
      constructor
      · rintro ⟨rfl, rfl⟩
        exact ⟨[], ⟨rfl, rfl⟩, by simp, rfl⟩
      · rintro ⟨js, ⟨rfl, rfl⟩, -, rfl⟩
        exact ⟨rfl, rfl⟩
    | some behind =>
      simp only [readListed, bind_eq_ok, Prod.exists, Except.ok.injEq,
        Prod.mk.injEq]
      constructor
      · rintro ⟨s', u, hs, js', v, hm, rfl, rfl⟩
        obtain ⟨s, hs', hP, rfl⟩ :=
          (lifts_readSource h isPhrase_of_mem_sourceEnds).1 hs
        obtain ⟨js, hm', hPs, rfl⟩ := lifts_readMore.1 hm
        exact ⟨_, ⟨s, u, hs', js, _, hm', rfl, rfl⟩, by simpa using ⟨hP, hPs⟩,
          rfl⟩
      · rintro ⟨_, ⟨s, u, hs, js, v, hm, rfl, rfl⟩, hP, rfl⟩
        obtain ⟨hP, hPs⟩ := List.forall_mem_cons.1 hP
        exact ⟨s.mapQuery f, u,
          (lifts_readSource h isPhrase_of_mem_sourceEnds).2 ⟨s, hs, hP, rfl⟩,
          js.map (Join.mapQuery f), _, lifts_readMore.2 ⟨js, hm, hPs, rfl⟩, rfl,
          rfl⟩

/-- The sources of a list are read by both where the queries in them are. -/
theorem lifts_readSources {s' : Source} {js' : List Join} :
    readSources nested' literals t = .ok ((s', js'), rest) ↔
    ∃ s js, readSources nested literals t = .ok ((s, js), rest) ∧
      (s.Holds P ∧ ∀ j ∈ js, j.source.Holds P) ∧ s' = s.mapQuery f ∧
      js' = js.map (Join.mapQuery f) := by
  simp only [readSources, readListed, bind_eq_ok, Prod.exists, Except.ok.injEq,
    Prod.mk.injEq]
  constructor
  · rintro ⟨s', u, hs, js', v, hm, ⟨rfl, rfl⟩, rfl⟩
    obtain ⟨s, hs', hP, rfl⟩ :=
      (lifts_readSource h isPhrase_of_mem_sourceEnds).1 hs
    obtain ⟨js, hm', hPs, rfl⟩ := (lifts_readMore h).1 hm
    exact ⟨s, js, ⟨s, u, hs', js, _, hm', ⟨rfl, rfl⟩, rfl⟩, ⟨hP, hPs⟩, rfl, rfl⟩
  · rintro ⟨s, js, ⟨s, u, hs, js, v, hm, ⟨rfl, rfl⟩, rfl⟩, ⟨hP, hPs⟩, rfl, rfl⟩
    exact ⟨_, u,
      (lifts_readSource h isPhrase_of_mem_sourceEnds).2 ⟨s, hs, hP, rfl⟩, _, _,
      (lifts_readMore h).2 ⟨js, hm, hPs, rfl⟩, ⟨rfl, rfl⟩, rfl⟩

/-- A join is read by both where the query in its source is. -/
theorem lifts_readJoin {kind : JoinKind} {body : Text} {j' : Join} :
    readJoin nested' literals kind body = .ok j' ↔
    ∃ j, readJoin nested literals kind body = .ok j ∧ j.source.Holds P ∧
      j' = j.mapQuery f := by
  simp only [readJoin_eq_ok_iff]
  constructor
  · rintro ⟨s', u, hs, hc⟩
    obtain ⟨s, hs', hP, rfl⟩ :=
      (lifts_readSource h isPhrase_of_mem_joinSourceEnds).1 hs
    cases hc with
    | bare => exact ⟨_, ⟨s, [], hs', .bare⟩, hP, rfl⟩
    | predicate hon hc => exact ⟨_, ⟨s, _, hs', .predicate hon hc⟩, hP, rfl⟩
    | columns hon husing hl =>
      exact ⟨_, ⟨s, _, hs', .columns hon husing hl⟩, hP, rfl⟩
  · rintro ⟨j, ⟨s, u, hs, hc⟩, hP, rfl⟩
    have hsource : j.source = s := by cases hc <;> rfl
    rw [hsource] at hP
    refine ⟨s.mapQuery f, u,
      (lifts_readSource h isPhrase_of_mem_joinSourceEnds).2 ⟨s, hs, hP, rfl⟩,
      ?_⟩
    cases hc with
    | bare => exact .bare
    | predicate hon hc => exact .predicate hon hc
    | columns hon husing hl => exact .columns hon husing hl

/-- Joins are read by both where the queries in their sources are, by induction
on the pieces. -/
theorem lifts_joinsOf :
    ∀ {pieces : List Text} {mods : Text} {js' : List Join},
      joinsOf nested' literals mods pieces = .ok js' ↔
      ∃ js, joinsOf nested literals mods pieces = .ok js ∧
      (∀ j ∈ js, j.source.Holds P) ∧ js' = js.map (Join.mapQuery f)
  | [], mods, js' => by
    simp only [joinsOf, Except.ok.injEq]
    constructor
    · rintro rfl
      exact ⟨[], rfl, by simp, rfl⟩
    · rintro ⟨js, rfl, -, rfl⟩
      rfl
  | [piece], mods, js' => by
    simp only [joinsOf, bind_eq_ok, Except.ok.injEq]
    constructor
    · rintro ⟨kind, hk, j', hj, rfl⟩
      obtain ⟨j, hj', hP, rfl⟩ := (lifts_readJoin h).1 hj
      exact ⟨[j], ⟨kind, hk, j, hj', rfl⟩, by simpa using hP, rfl⟩
    · rintro ⟨_, ⟨kind, hk, j, hj, rfl⟩, hP, rfl⟩
      exact ⟨kind, hk, j.mapQuery f,
        (lifts_readJoin h).2 ⟨j, hj, hP j (by simp), rfl⟩, rfl⟩
  | piece :: piece' :: more, mods, js' => by
    simp only [joinsOf, bind_eq_ok, Except.ok.injEq]
    constructor
    · rintro ⟨kind, hk, j', hj, js', hjs, rfl⟩
      obtain ⟨j, hj', hP, rfl⟩ := (lifts_readJoin h).1 hj
      obtain ⟨js, hjs', hPs, rfl⟩ := lifts_joinsOf.1 hjs
      exact ⟨j :: js, ⟨kind, hk, j, hj', js, hjs', rfl⟩,
        List.forall_mem_cons.2 ⟨hP, hPs⟩, rfl⟩
    · rintro ⟨_, ⟨kind, hk, j, hj, js, hjs, rfl⟩, hP, rfl⟩
      obtain ⟨hP, hPs⟩ := List.forall_mem_cons.1 hP
      exact ⟨kind, hk, j.mapQuery f, (lifts_readJoin h).2 ⟨j, hj, hP, rfl⟩,
        js.map (Join.mapQuery f), lifts_joinsOf.2 ⟨js, hjs, hPs, rfl⟩, rfl⟩

/-- The joins of a text are read by both where the queries in their sources
are. -/
theorem lifts_readJoins {js' : List Join} :
    readJoins nested' literals t = .ok (js', rest) ↔
    ∃ js, readJoins nested literals t = .ok (js, rest) ∧
      (∀ j ∈ js, j.source.Holds P) ∧ js' = js.map (Join.mapQuery f) := by
  simp only [readJoins_eq_ok_iff]
  constructor
  · rintro ⟨region, tail, e, hu,
      ⟨h₀, rfl, hrest⟩ | ⟨h₀, mods, p, ps, hp, hj, hrest⟩⟩
    · exact ⟨[], ⟨region, tail, e, hu, .inl ⟨h₀, rfl, hrest⟩⟩, by simp, rfl⟩
    · obtain ⟨js, hj', hP, rfl⟩ := (lifts_joinsOf h).1 hj
      exact ⟨js, ⟨region, tail, e, hu, .inr ⟨h₀, mods, p, ps, hp, hj', hrest⟩⟩,
        hP, rfl⟩
  · rintro ⟨js, ⟨region, tail, e, hu,
      ⟨h₀, rfl, hrest⟩ | ⟨h₀, mods, p, ps, hp, hj, hrest⟩⟩, hP, rfl⟩
    · exact ⟨region, tail, e, hu, .inl ⟨h₀, rfl, hrest⟩⟩
    · have hj' := (lifts_joinsOf h).2 ⟨js, hj, hP, rfl⟩
      exact ⟨region, tail, e, hu, .inr ⟨h₀, mods, p, ps, hp, hj', hrest⟩⟩

/-- The readers of all other clauses read no query. -/
theorem lifts_readClauses (level : Nat) {level' : Nat} {q' : Query} :
    readClauses nested' literals level' t = .ok q' ↔
    ∃ q, readClauses nested literals level t = .ok q ∧
      (∀ s ∈ q.sources, s.Holds P) ∧ q' = q.mapSources f level' := by
  simp only [readClauses, bind_eq_ok, Prod.exists, Except.ok.injEq]
  constructor
  · rintro ⟨limit, t₁, h₁, offset, t₂, h₂, orderBy, t₃, h₃, distinct, columns,
      t₄, h₄, s', listed', t₅, h₅, joined', t₆, h₆, filter, t₇, h₇, groupBy, t₈,
      h₈, having, t₉, h₉, ⟨⟩, h₁₀, rfl⟩
    obtain ⟨s, listed, h₅', ⟨hs, hlisted⟩, rfl, rfl⟩ :=
      (lifts_readSources h).1 h₅
    obtain ⟨joined, h₆', hjoined, rfl⟩ := (lifts_readJoins h).1 h₆
    refine ⟨_, ⟨limit, t₁, h₁, offset, t₂, h₂, orderBy, t₃, h₃, distinct,
      columns, t₄, h₄, s, listed, t₅, h₅', joined, t₆, h₆', filter, t₇, h₇,
      groupBy, t₈, h₈, having, t₉, h₉, ⟨⟩, h₁₀, rfl⟩, ?_, ?_⟩
    · simpa [Query.sources, or_imp, forall_and] using ⟨hs, hlisted, hjoined⟩
    · simp [Query.mapSources]
  · rintro ⟨_, ⟨limit, t₁, h₁, offset, t₂, h₂, orderBy, t₃, h₃, distinct,
      columns, t₄, h₄, s, listed, t₅, h₅, joined, t₆, h₆, filter, t₇, h₇,
      groupBy, t₈, h₈, having, t₉, h₉, ⟨⟩, h₁₀, rfl⟩, hP, rfl⟩
    obtain ⟨hs, hlisted, hjoined⟩ : s.Holds P ∧
        (∀ j ∈ listed, j.source.Holds P) ∧ ∀ j ∈ joined, j.source.Holds P := by
      simpa [Query.sources, or_imp, forall_and] using hP
    refine ⟨limit, t₁, h₁, offset, t₂, h₂, orderBy, t₃, h₃, distinct, columns,
      t₄, h₄, s.mapQuery f, listed.map (Join.mapQuery f), t₅,
      (lifts_readSources h).2 ⟨s, listed, h₅, ⟨hs, hlisted⟩, rfl, rfl⟩,
      joined.map (Join.mapQuery f), t₆,
      (lifts_readJoins h).2 ⟨joined, h₆, hjoined, rfl⟩, filter, t₇, h₇, groupBy,
      t₈, h₈, having, t₉, h₉, ⟨⟩, h₁₀, ?_⟩
    simp [Query.mapSources]

end

/-- Whether a text is read as a query at all depends on its first word only. -/
theorem readStatement_eq_ok_iff {level : Nat} {q : Query} :
    readStatement nested literals level t = .ok q ↔
    t ≠ [] ∧ (∃ k, Keyword.ofWord? (firstWord t) = some k ∧
      k.text = Clause.select.phrase) ∧
    readClauses nested literals level t = .ok q := by
  unfold readStatement
  split
  · next h => simp_all
  · next h =>
    have h₀ : t ≠ [] := by simpa using h
    split
    · next k hk =>
      split
      · next hs => simp_all
      · next hs =>
        have : k.text ≠ Clause.select.phrase := by simpa using hs
        split <;> simp_all
    · next hk => simp_all

/-- A statement is read by both where the queries in its sources are. -/
theorem lifts_readStatement (h : Lifts P f nested nested')
    {level level' : Nat} :
    Lifts (fun q => ∀ s ∈ q.sources, s.Holds P) (Query.mapSources f level')
      (readStatement nested literals level)
      (readStatement nested' literals level') := by
  intro t q'
  simp only [readStatement_eq_ok_iff, lifts_readClauses h level]
  tauto

end Lifts

/-! ## Levels -/

/-- The reader of the queries inside a query that may have this many levels
inside it. -/
def nestedOf (literals : LiteralTable) : Nat → Nested
  | 0 => fun _ => .error .tooDeep
  | room + 1 => readQuery literals room

/-- A query is read as a statement, at the depth that is left over from the
room. -/
theorem readQuery_eq_readStatement (literals : LiteralTable) (room : Nat) :
    readQuery literals room =
      readStatement (nestedOf literals room) literals (maxDepth - room) := by
  cases room <;> rfl

/-- The depth of a query that is read is what its room leaves of the greatest
depth. -/
theorem depth_readQuery {literals : LiteralTable} {room : Nat} {t : Text}
    {q : Query} (h : readQuery literals room t = .ok q) :
    q.depth = maxDepth - room := by
  rw [readQuery_eq_readStatement] at h
  exact (readWith_readClauses (readStatement_eq_ok h)).depth

/-- With one level less to go, the spare queries are read, at a depth greater by
one. -/
theorem lifts_nestedOf (literals : LiteralTable) :
    ∀ room ≤ maxDepth, Lifts Query.Spare Query.deeper
      (nestedOf literals (room + 1)) (nestedOf literals room)
  | 0, _ => by
    intro t q'
    constructor
    · rintro ⟨⟩
    · -- a query at the last level is not spare
      rintro ⟨q, hq, hspare, -⟩
      have hlt := (spare_iff.1 hspare).1
      rw [depth_readQuery hq] at hlt
      exact absurd hlt (Nat.lt_irrefl _)
  | room + 1, hroom => by
    have ih := lifts_nestedOf literals room (Nat.le_of_succ_le hroom)
    intro t q'
    simp only [nestedOf]
    rw [readQuery_eq_readStatement literals room, lifts_readStatement ih,
      ← readQuery_eq_readStatement literals (room + 1)]
    refine exists_congr fun q => and_congr_right fun hq => ?_
    have hlevel := depth_readQuery hq
    have hlevel' : maxDepth - room = q.depth + 1 := by omega
    rw [spare_iff, deeper_eq_mapSources, hlevel']
    have hlt : q.depth < maxDepth := by omega
    simp [hlt]

/-- With one level less to go, the spare queries are read as queries one level
deeper. -/
theorem lifts_readQuery (literals : LiteralTable) {room : Nat}
    (h : room < maxDepth) :
    Lifts Query.Spare Query.deeper (readQuery literals (room + 1))
      (readQuery literals room) :=
  lifts_nestedOf literals (room + 1) h

end SqlRiver
