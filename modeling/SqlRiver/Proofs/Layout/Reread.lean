import SqlRiver.Proofs.Line.Plain
import SqlRiver.Proofs.Reading.Wrapped

/-!
# Layouts that are read back

A layout is woven of the chunks of its query, so normalising its white space
gives the line of the query. Nothing in the layout of a well-formed query is a
quoted span or a comment, hence reading the layout reads the line: the query
comes back, with the table of the new text.

Main definitions and statements:

* `Query.withLiterals`: a query with another table of quoted spans.
* `readsBack_wellFormed`: the line of a well-formed query is read back.
* `inert_render`, `normalize_render`: nothing in a layout of a well-formed query
  is masked, and its words are those of the line.
* `parse_render`: a layout of a well-formed query is read back.
-/

namespace SqlRiver

open Text

variable {o : Options} {table : LiteralTable} {q : Query} {level : Nat}

/-! ## Tables of quoted spans -/

mutual

/-- A query with another table of quoted spans, and so are those inside it. -/
def Query.withLiterals (table : LiteralTable) : Query → Query
  | { distinct, columns, source, joins, filter, groupBy, having, orderBy, limit,
      offset, depth, .. } =>
    { distinct, columns, source := Source.withLiterals table source
      joins := Join.allWithLiterals table joins, filter, groupBy, having,
        orderBy, limit, offset
      literals := table, depth }

/-- A source with another table of quoted spans for the queries inside it. -/
def Source.withLiterals (table : LiteralTable) : Source → Source
  | .table name aliasName => .table name aliasName
  | .subquery query aliasName =>
    .subquery (Query.withLiterals table query) aliasName

/-- A join with another table of quoted spans for the queries inside it. -/
def Join.withLiterals (table : LiteralTable) : Join → Join
  | { kind, source, onPredicate, usingColumns } =>
    { kind, source := Source.withLiterals table source, onPredicate,
      usingColumns }

/-- Joins with another table of quoted spans for the queries inside them. -/
def Join.allWithLiterals (table : LiteralTable) : List Join → List Join
  | [] => []
  | join :: more =>
    Join.withLiterals table join :: Join.allWithLiterals table more

end

mutual

/-- The chunks of a query do not show its table. -/
theorem chunks_withLiterals (o : Options) (table : LiteralTable) :
    ∀ q : Query, (q.withLiterals table).chunks o = q.chunks o
  | { source, joins, .. } => by
    rw [Query.withLiterals, Query.chunks, Query.chunks,
      sourceChunks_withLiterals o table source,
      joinChunks_withLiterals o table joins]

theorem sourceChunks_withLiterals (o : Options) (table : LiteralTable) :
    ∀ s : Source, (s.withLiterals table).chunks o = s.chunks o
  | .table _ _ => by rw [Source.withLiterals]
  | .subquery query _ => by
    rw [Source.withLiterals, Source.chunks, Source.chunks,
      chunks_withLiterals o table query]

theorem joinChunks_withLiterals (o : Options) (table : LiteralTable) :
    ∀ js : List Join,
      Join.allChunks o (Join.allWithLiterals table js) = Join.allChunks o js
  | [] => rfl
  | { source, .. } :: js => by
    rw [Join.allWithLiterals, Join.withLiterals, Join.allChunks, Join.allChunks,
      Join.chunks, Join.chunks, sourceChunks_withLiterals o table source,
      joinChunks_withLiterals o table js]

end

theorem line_withLiterals (o : Options) (table : LiteralTable) (q : Query) :
    (q.withLiterals table).line o = q.line o := by
  rw [Query.line, Query.line, chunks_withLiterals]

theorem allWithLiterals_eq_map (table : LiteralTable) :
    ∀ js : List Join, Join.allWithLiterals table js =
      js.map (Join.mapQuery (Query.withLiterals table))
  | [] => rfl
  | { source, .. } :: js => by
    rw [Join.allWithLiterals, allWithLiterals_eq_map table js]
    cases source <;> simp only [List.map_cons, Join.withLiterals, Join.mapQuery,
      Source.withLiterals, Source.mapQuery]

/-- A query with another table is changed at its sources and in its own
table. -/
theorem withLiterals_eq (table : LiteralTable) (q : Query) :
    q.withLiterals table = { q.mapSources
      (Query.withLiterals table) q.depth with literals := table } := by
  obtain ⟨distinct, columns, source, joins, filter, groupBy, having, orderBy,
      limit, offset, literals, depth⟩ := q
  rw [Query.withLiterals, allWithLiterals_eq_map]
  cases source <;>
    simp only [Query.mapSources, Source.withLiterals, Source.mapQuery]

/-- The sources of a query with another table are those of the query with the
table put into them. -/
theorem sources_withLiterals (table : LiteralTable) (q : Query) :
    (q.withLiterals table).sources =
      q.sources.map (Source.mapQuery (Query.withLiterals table)) := by
  rw [withLiterals_eq]
  simp [Query.sources, Query.mapSources, Join.mapQuery, Function.comp_def]

/-- The table of a query is no matter of its texts. -/
theorem Query.Plain.withLiterals (h : q.Plain level)
    (ht : table.literals = []) : (q.withLiterals table).Plain level := by
  have hsources : ∀ s ∈ (q.withLiterals table).sources, s.Plain := by
    rw [sources_withLiterals]
    refine List.forall_mem_map.2 fun s hs => ?_
    have hplain := h.sources s hs
    cases s <;> exact hplain
  rw [withLiterals_eq] at hsources ⊢
  exact {
    entryless := ht
    level := h.level
    level_le := h.level_le
    columns_ne_nil := h.columns_ne_nil
    columns := h.columns
    sources := hsources
    joins := by
      refine List.forall_mem_map.2 fun j hj => ?_
      obtain ⟨hp, hc, ho⟩ := h.joins j hj
      exact ⟨hp, hc, ho⟩
    conditions := h.conditions
    grouped := h.grouped
    entries := h.entries
    expressions := h.expressions }

/-! ## Lines -/

/-- The line of a well-formed query is read back, with another table. -/
theorem readsBack_wellFormed (o : Options) (ht : table.literals = [])
    (h : q.WellFormedAt level) :
    ReadsBack (readQuery table (maxDepth - level)) o
      (q.withLiterals table) := by
  refine wellFormed_induction (P := fun level q =>
    ReadsBack (readQuery table (maxDepth - level)) o (q.withLiterals table) ∧
      level ≤ maxDepth) ?_ h |>.1
  intro level q hplain hsources
  have hle : level ≤ maxDepth := hplain.level ▸ hplain.level_le
  refine ⟨readsBack_of_clean ((hplain.withLiterals ht).clean ht ?_) ?_ ?_, hle⟩
  · -- the queries in brackets are read back where there is room for one level
    -- less
    rw [sources_withLiterals]
    refine List.forall_mem_map.2 fun s hs => ?_
    cases s with
    | table name aliasName => exact holds_table name aliasName
    | subquery query aliasName =>
      obtain ⟨hread, hroom⟩ := hsources _ hs query aliasName rfl
      have hnested : nestedOf table (maxDepth - level) =
          readQuery table (maxDepth - (level + 1)) := by
        rw [show maxDepth - level = (maxDepth - (level + 1)) + 1 by omega]
        rfl
      rw [hnested]
      exact holds_subquery.2 hread
  · rw [withLiterals_eq]
  · rw [(hplain.withLiterals ht).level]
    omega

/-! ## Layouts -/

/-- The token holds no quote, no comment and no semicolon. -/
def Token.Inert (k : Token) : Prop := inert k.text = true ∧ ';' ∉ k.text

theorem PlainText.token {p : Text} (h : PlainText p) : (Token.piece p).Inert :=
  ⟨h.inert, h.noTerminator⟩

theorem token_alias {n : Text} (hn : isAlias n = true) :
    (Token.piece n).Inert := by
  have hne : ∀ c ∈ n, isQuote c = false ∧ c ≠ '-' ∧ c ≠ '/' ∧ c ≠ ';' := by
    intro c hc
    have hchar := isAliasChar_of_isAlias hn c hc
    refine ⟨?_, ?_, ?_, ?_⟩
    · rw [Bool.eq_false_iff]
      intro hq
      simp only [isQuote, Bool.or_eq_true, beq_iff_eq] at hq
      rcases hq with (rfl | rfl) | rfl <;> cases hchar
    · rintro rfl
      cases hchar
    · rintro rfl
      cases hchar
    · rintro rfl
      cases hchar
  exact ⟨inert_of_forall fun c hc => ⟨(hne c hc).1, (hne c hc).2.1,
    (hne c hc).2.2.1⟩, fun hc => (hne ';' hc).2.2.2 rfl⟩

theorem tokens_aliases {aliasName : Option Text}
    (h : ∀ n ∈ aliasName, isAlias n = true) :
    ∀ k ∈ aliasName.toList.map Token.piece, k.Inert :=
  List.forall_mem_map.2 fun n hn => token_alias (h n (Option.mem_toList.1 hn))

/-- The tokens of a plain source are inert if those of a query inside it are. -/
theorem Source.Plain.tokens {s : Source} (h : s.Plain)
    (hq : s.Holds fun q => ∀ k ∈ q.tokens, k.Inert) :
    ∀ k ∈ s.tokens, k.Inert := by
  cases s with
  | table name aliasName =>
    rw [Source.tokens]
    exact List.forall_mem_cons.2 ⟨h.1.1.token, tokens_aliases h.2⟩
  | subquery query aliasName =>
    rw [Source.tokens]
    refine List.forall_mem_append.2
      ⟨List.forall_mem_cons.2 ⟨⟨rfl, by decide⟩, hq query aliasName rfl⟩, ?_⟩
    exact List.forall_mem_cons.2 ⟨⟨rfl, by decide⟩, tokens_aliases h⟩

/-- The tokens of a plain join are inert if those of its source are. -/
theorem Join.Plain.tokens {j : Join} (h : j.Plain)
    (hs : ∀ k ∈ j.source.tokens, k.Inert) : ∀ k ∈ j.tokens, k.Inert := by
  obtain ⟨kind, source, onPredicate, usingColumns⟩ := j
  rw [Join.tokens]
  refine List.forall_mem_append.2 ⟨List.forall_mem_append.2 ⟨hs, ?_⟩, ?_⟩
  · exact List.forall_mem_map.2 fun p hp =>
      (h.predicate p (Option.mem_toList.1 hp)).token
  · split
    · simp
    · refine List.forall_mem_append.2
        ⟨List.forall_mem_cons.2 ⟨⟨rfl, by decide⟩, ?_⟩, ?_⟩
      · exact List.forall_mem_map.2 fun e he => (h.columns e he).token
      · exact List.forall_mem_cons.2 ⟨⟨rfl, by decide⟩, by simp⟩

theorem tokens_joins : ∀ {js : List Join}, (∀ j ∈ js, ∀ k ∈ j.tokens, k.Inert) →
    ∀ k ∈ Join.allTokens js, k.Inert
  | [], _ => by simp [Join.allTokens]
  | j :: js, h => by
    rw [Join.allTokens]
    exact List.forall_mem_append.2 ⟨h j (by simp),
      tokens_joins fun k hk => h k (List.mem_cons_of_mem _ hk)⟩

theorem tokens_conditions {conds : List Condition}
    (h : ∀ c ∈ conds, PlainText c.predicate) :
    ∀ k ∈ conds.flatMap Condition.tokens, k.Inert := by
  intro k hk
  obtain ⟨c, hc, hk⟩ := List.mem_flatMap.1 hk
  rw [List.mem_singleton.1 hk]
  exact (h c hc).token

/-- The tokens of a well-formed query hold no quote, no comment and no
semicolon. -/
theorem inert_tokens (h : q.WellFormedAt level) : ∀ k ∈ q.tokens, k.Inert := by
  refine wellFormed_induction (P := fun _ q => ∀ k ∈ q.tokens, k.Inert) ?_ h
  intro level q hplain hsources
  have hs : ∀ s ∈ q.sources, ∀ k ∈ s.tokens, k.Inert := fun s hs =>
    (hplain.sources s hs).tokens (hsources s hs)
  have hjoins := tokens_joins fun j hj =>
    (hplain.joins j hj).tokens (hs j.source (mem_sources hj))
  have hsource := hs q.source List.mem_cons_self
  obtain ⟨-, -, -, -, hcolumns, -, -, hconds, -, hentries, hexpressions⟩ :=
    hplain
  obtain ⟨distinct, columns, source, joins, filter, groupBy, having, orderBy,
      limit, offset, literals, depth⟩ := q
  rw [Query.tokens]
  simp only [List.forall_mem_append] at hconds hentries hexpressions ⊢
  refine ⟨⟨⟨⟨⟨⟨⟨⟨?_, hsource⟩, hjoins⟩, ?_⟩, ?_⟩, ?_⟩, ?_⟩, ?_⟩, ?_⟩
  · intro k hk
    obtain ⟨c, hc, hk⟩ := List.mem_flatMap.1 hk
    rw [Column.tokens] at hk
    exact List.forall_mem_cons.2 ⟨(hcolumns c hc).expression.token,
      tokens_aliases (hcolumns c hc).named⟩ k hk
  · exact tokens_conditions fun c hc => (hconds.1 c hc).2
  · exact List.forall_mem_map.2 fun e he => (hentries.1 e he).token
  · exact tokens_conditions fun c hc => (hconds.2 c hc).2
  · exact List.forall_mem_map.2 fun e he => (hentries.2 e he).token
  · exact List.forall_mem_map.2 fun e he => (hexpressions.2 e he).token
  · exact List.forall_mem_map.2 fun e he => (hexpressions.1 e he).token

/-- Every list that must have entries has some in a well-formed query. -/
theorem filled_of_wellFormed (h : q.WellFormedAt level) : q.Filled := by
  refine wellFormed_induction (P := fun _ q => q.Filled) ?_ h
  intro level q hplain hsources
  have hs : ∀ s ∈ q.sources, s.Filled := by
    intro s hs
    cases s with
    | table name aliasName => trivial
    | subquery query aliasName => exact hsources _ hs query aliasName rfl
  have hjoins := Join.allFilled fun j hj => hs j.source (mem_sources hj)
  have hsource := hs q.source List.mem_cons_self
  have hcolumns := hplain.columns_ne_nil
  cases q
  exact ⟨hcolumns, hsource, hjoins⟩

/-- The layout of a well-formed query is woven of its chunks. -/
theorem woven_render (o : Options) (h : q.WellFormedAt level) :
    Woven (q.chunks o) (render o q) := by
  rw [render, Query.restore, LiteralTable.restore_entryless h.plain.entryless]
  exact woven_queryLines o q.depth q (filled_of_wellFormed h)

/-- The layout of a well-formed query holds neither a quote nor a comment. -/
theorem inert_render (o : Options) (h : q.WellFormedAt level) :
    inert (render o q) = true := by
  obtain ⟨gs, -, hg, e⟩ := woven_render o h
  rw [e]
  exact inert_weave hg (inert_chunks o fun k hk => (inert_tokens h k hk).1)

/-- The line of a well-formed query holds no semicolon. -/
theorem semicolon_not_mem_line (o : Options) (h : q.WellFormedAt level) :
    ';' ∉ q.line o := by
  have hchunks : ∀ k ∈ q.chunks o, (!k.contains ';') = true := by
    refine forall_chunks ?_ (fun t => ?_) (fun t => ?_) (fun t => ?_) o q
      fun k hk => ?_
    · intro t ht
      have hno : ';' ∉ t := ht.not_mem rfl (by decide)
      simpa using hno
    · simp
    · simp
    · simp
    · simpa using (inert_tokens h k hk).2
  intro hm
  rcases mem_of_mem_join hm with hm | ⟨k, hk, hm⟩
  · cases List.mem_singleton.1 hm
  · simpa [hm] using hchunks k hk

/-- A woven text ends like its chunks. -/
theorem getLast?_woven {ks : List Text} {x : Text} (h : Woven ks x)
    (hks : Neat ks) : x.getLast? = (join [' '] ks).getLast? := by
  obtain ⟨gs, hlen, -, rfl⟩ := h
  rcases List.eq_nil_or_concat' ks with rfl | ⟨ks, k, rfl⟩
  · cases gs with
    | nil => rfl
    | cons g gs => cases hlen
  · obtain ⟨gs, g, rfl⟩ :=
      (List.eq_nil_or_concat' gs).resolve_left (by rintro rfl; simp at hlen)
    have hk : k ≠ [] := (hks k (by simp)).2
    have hweave : weave (gs ++ [g]) (ks ++ [k]) = weave gs ks ++ g ++ k := by
      rw [weave_append (by simpa using hlen)]
      simp [weave]
    rw [hweave, List.getLast?_append_of_ne_nil _ hk]
    cases ks with
    | nil => rfl
    | cons l ls =>
      rw [join_append [' '] (by simp) (by simp)]
      exact (List.getLast?_append_of_ne_nil _ hk).symm

/-- A text that is woven of the chunks of a query is read back, if it does not
end in a semicolon. -/
theorem readMasked_woven {x : Text} (hw : Woven (q.chunks o) x)
    (hx : x.getLast? ≠ some ';')
    (hq : ReadsBack (readQuery table maxDepth) o q) :
    readMasked table x = .ok q := by
  have hline : collapse x = q.line o := (collapse_woven hw).trans hq.spaced
  have hnormal : normalize x = q.line o := by
    rw [normalize_eq_collapse, hline]
    rwa [hline, Query.line, ← getLast?_woven hw hq.fit.neat]
  rw [readMasked_eq_ok_iff, hnormal, hq.trim]
  exact ⟨line_ne_nil o q, hq.balanced, hq.read⟩

/-- A layout of a well-formed query is read back, when no quoted span is
expected in it. -/
theorem readMasked_render (o : Options) (ht : table.literals = [])
    (h : q.WellFormedAt 0) :
    readMasked table (render o q) = .ok (q.withLiterals table) := by
  have hback := readsBack_wellFormed o ht h
  have hw : Woven ((q.withLiterals table).chunks o) (render o q) := by
    rw [chunks_withLiterals]
    exact woven_render o h
  refine readMasked_woven hw ?_ hback
  rw [getLast?_woven hw hback.fit.neat, ← Query.line, line_withLiterals]
  exact fun hlast => semicolon_not_mem_line o h (List.mem_of_getLast? hlast)

/-- A layout of a well-formed query is read back: the query comes back with the
table of the new text, which has no entries. -/
theorem parse_render (o : Options) {q : Query} (h : q.WellFormedAt 0) :
    ∃ table : LiteralTable, table.literals = [] ∧
      protect (render o q) = .ok (render o q, table) ∧
      parse (render o q) = .ok (q.withLiterals table) := by
  have hprotect := protect_inert (inert_render o h)
  refine ⟨_, rfl, hprotect,
    (parse_eq_ok_iff hprotect).2 ⟨_, readMasked_render o rfl h, ?_⟩⟩
  exact (Query.restoreColumns_entryless rfl
    _ (shape_readMasked (readMasked_render o rfl h)).2).symm

/-- The keys that a table holds more than once. -/
def repeatedKeys : Query :=
  { columns := [⟨"k".toList, none⟩, ⟨"count(*)".toList, some "n".toList⟩],
    source := .table "t".toList none, groupBy := ["k".toList]
    having := [⟨.and, "count(*) > 1".toList⟩], depth := 1 }

/-- A query with these keys in brackets, joined in two ways. -/
def joinedKeys : Query :=
  { distinct := true,
    columns := [⟨"s.k + 1".toList, some "m".toList⟩, ⟨"f(a, b)".toList, none⟩]
    source := .subquery repeatedKeys (some "s".toList)
    joins :=
      [⟨.left, .table "u".toList none, some "s.k = u.k".toList, []⟩,
        ⟨.plain, .table "v".toList (some "w".toList), none,
          ["k".toList, "l".toList]⟩]
    filter := [⟨.and, "a > 1".toList⟩, ⟨.and, "b in (select c from d)".toList⟩]
    orderBy := ["m desc".toList, "n".toList]
    limit := some "10".toList, offset := some "5".toList }

/-- The layout of joined keys in upper case, wrapped at twenty characters, is
read back. -/
theorem parse_render_joinedKeys :
    joinedKeys.WellFormedAt 0 ∧ ∃ table : LiteralTable, table.literals = [] ∧
      protect (render ⟨.upper, 20⟩ joinedKeys) =
      .ok (render ⟨.upper, 20⟩ joinedKeys, table) ∧
      parse (render ⟨.upper, 20⟩ joinedKeys) =
      .ok (joinedKeys.withLiterals table) := by
  have hinner : repeatedKeys.WellFormedAt 1 := wellFormedAt_iff.2
    ⟨by decide +kernel, by simp [repeatedKeys, Query.sources]⟩
  have houter : joinedKeys.WellFormedAt 0 := wellFormedAt_iff.2
    ⟨by decide +kernel, by simp [joinedKeys, Query.sources, hinner]⟩
  exact ⟨houter, parse_render ⟨.upper, 20⟩ houter⟩

end SqlRiver
