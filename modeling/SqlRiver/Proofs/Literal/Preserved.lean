import SqlRiver.Proofs.Literal.Restored
import SqlRiver.Proofs.Reading.Nested

/-!
# Quoted spans survive formatting

A quoted span travels through a placeholder, the normal form of the text, a
token of the query, a chunk of its layout and back. It comes out once, in its
place in the order, and nothing else in the layout is read as a quoted span or
opens a comment.

Main definitions and statements:

* `Query.Under`: all queries inside a query share one table.
* `map_restore_chunks`: the chunks of a query do not show that its select lists
  were restored before.
* `render_restoreColumns`: a layout is woven of the restored chunks.
* `literals_of_format`: a text and its layout have the same quoted spans.
-/

namespace SqlRiver

/-! ## Queries that are read -/

mutual

/-- A query with the given table, and so are those inside it. -/
def Query.Under (table : LiteralTable) : Query → Prop
  | { source, joins, literals, .. } =>
    literals = table ∧ Source.Under table source ∧ Join.AllUnder table joins

/-- A source with such queries inside. -/
def Source.Under (table : LiteralTable) : Source → Prop
  | .table _ _ => True
  | .subquery query _ => Query.Under table query

/-- Joins with such queries inside. -/
def Join.AllUnder (table : LiteralTable) : List Join → Prop
  | [] => True
  | { source, .. } :: more =>
    Source.Under table source ∧ Join.AllUnder table more

end

theorem Join.allFilled {js : List Join} (h : ∀ j ∈ js, j.source.Filled) :
    Join.AllFilled js := by
  induction js with
  | nil => trivial
  | cons j js ih =>
    obtain ⟨kind, source, onPredicate, usingColumns⟩ := j
    exact ⟨h _ List.mem_cons_self, ih fun k hk => h k (by simp [hk])⟩

theorem Join.allUnder {table : LiteralTable} {js : List Join}
    (h : ∀ j ∈ js, j.source.Under table) : Join.AllUnder table js := by
  induction js with
  | nil => trivial
  | cons j js ih =>
    obtain ⟨kind, source, onPredicate, usingColumns⟩ := j
    exact ⟨h _ List.mem_cons_self, ih fun k hk => h k (by simp [hk])⟩

section Read

variable {table : LiteralTable} {nested : Nested}

/-- A source that is read is filled and has the table of the reader, if the
queries inside it do. -/
theorem Source.From.shape {s : Source} (h : s.From nested)
    (hn : ∀ t q, nested t = .ok q → q.Filled ∧ q.Under table) :
    s.Filled ∧ s.Under table := by
  cases s with
  | table name aliasName => exact ⟨trivial, trivial⟩
  | subquery query aliasName =>
    obtain ⟨t, ht⟩ := h
    exact hn t query ht

/-- A query that is read is filled and has the table of the reader, if the
queries inside it do. -/
theorem ReadWith.shape {depth : Nat} {q : Query}
    (h : ReadWith nested table depth q)
    (hn : ∀ t q, nested t = .ok q → q.Filled ∧ q.Under table) :
    q.Filled ∧ q.Under table := by
  obtain ⟨distinct, columns, source, joins, filter, groupBy, having, orderBy,
      limit, offset, literals, depth⟩ := q
  have hs := h.source.shape hn
  have hj := fun j hj => (h.joins j hj).shape hn
  exact ⟨⟨h.columns, hs.1, Join.allFilled fun j hm => (hj j hm).1⟩,
    h.literals, hs.2, Join.allUnder fun j hm => (hj j hm).2⟩

/-- A query that is read has no empty select list inside, and all queries inside
it share its table. -/
theorem shape_readQuery {room : Nat} {t : Text} {q : Query}
    (h : readQuery table room t = .ok q) : q.Filled ∧ q.Under table :=
  readQuery_induction (P := fun _ q => q.Filled ∧ q.Under table)
    (fun _ _ hq hn => hq.shape hn)
    (fun _ hq => hq.shape fun _ _ h => by cases h) room t q h

/-- A query of a masked text is filled, and all its tables are that of the
text. -/
theorem shape_readMasked {masked : Text} {q : Query}
    (h : readMasked table masked = .ok q) : q.Filled ∧ q.Under table := by
  simp only [readMasked] at h
  split at h
  · cases h
  · split at h
    · cases h
    · exact shape_readQuery h

end Read

mutual

theorem Query.Filled.restoreColumns :
    ∀ {q : Query}, q.Filled → q.restoreColumns.Filled
  | { .. }, ⟨hc, hs, hj⟩ =>
    ⟨mt List.map_eq_nil_iff.1 hc, Source.Filled.restoreColumns hs,
      Join.AllFilled.restoreAll hj⟩

theorem Source.Filled.restoreColumns :
    ∀ {s : Source}, s.Filled → s.restoreColumns.Filled
  | .table _ _, _ => trivial
  | .subquery _ _, h => Query.Filled.restoreColumns h

theorem Join.AllFilled.restoreAll : ∀ {js : List Join}, Join.AllFilled js →
    Join.AllFilled (Join.restoreAll js)
  | [], _ => trivial
  | { .. } :: _, h =>
    ⟨Source.Filled.restoreColumns h.1, Join.AllFilled.restoreAll h.2⟩

end

/-! ## Tables without entries -/

mutual

/-- Tables without entries restore nothing. -/
theorem Query.restoreColumns_entryless {table : LiteralTable}
    (h : table.literals = []) :
    ∀ q : Query, q.Under table → q.restoreColumns = q
  | { columns, source, joins, literals, .. }, hu => by
    obtain ⟨rfl, hs, hj⟩ := hu
    have hcolumn (column : Column) : column.restore literals = column := by
      obtain ⟨expression, aliasName⟩ := column
      cases aliasName <;>
        simp [Column.restore, LiteralTable.restore_entryless h]
    have hcolumns : columns.map (Column.restore literals) = columns :=
      (List.map_congr_left fun column _ =>
      hcolumn column).trans (List.map_id' columns)
    rw [Query.restoreColumns, hcolumns, Source.restoreColumns_entryless h source
      hs, Join.restoreAll_entryless h joins hj]

/-- With an empty table there is nothing to restore in a source. -/
theorem Source.restoreColumns_entryless {table : LiteralTable}
    (h : table.literals = []) :
    ∀ s : Source, s.Under table → s.restoreColumns = s
  | .table _ _, _ => by rw [Source.restoreColumns]
  | .subquery query _, hu => by
    rw [Source.restoreColumns, Query.restoreColumns_entryless h query hu]

/-- With an empty table there is nothing to restore in joins. -/
theorem Join.restoreAll_entryless {table : LiteralTable}
    (h : table.literals = []) :
    ∀ js : List Join, Join.AllUnder table js → Join.restoreAll js = js
  | [], _ => rfl
  | { source, .. } :: js, hu => by
    rw [Join.restoreAll, Join.restoreColumns, Source.restoreColumns_entryless h
      source hu.1, Join.restoreAll_entryless h js hu.2]

end

/-! ## Chunks of restored select lists -/

section Chunks

variable {table : LiteralTable} (o : Options)

/-- A character outside of words behind the last chunk stays there when the
chunks are restored. -/
theorem map_restore_appendLast {c : Char} (hc : isWordChar c = false)
    (ks : List Text) :
    (appendLast [c] ks).map table.restore =
      appendLast [c] (ks.map table.restore) := by
  rcases List.eq_nil_or_concat' ks with rfl | ⟨ks, k, rfl⟩
  · rfl
  · have hk : table.restore (k ++ [c]) = table.restore k ++ [c] :=
      LiteralTable.restore_append_cons hc k []
    rw [appendLast_concat, List.map_append, List.map_append, List.map_singleton,
      List.map_singleton, appendLast_concat, hk]

/-- The chunks of a list are restored entry by entry. -/
theorem map_restore_commaChunks :
    ∀ kss : List (List Text), (commaChunks kss).map table.restore =
      commaChunks (kss.map (List.map table.restore))
  | [] => rfl
  | [_] => rfl
  | ks :: ls :: kss => by
    rw [commaChunks_cons ks (by simp), List.map_append,
      map_restore_appendLast rfl, map_restore_commaChunks (ls :: kss),
      List.map_cons (l := ls :: kss), commaChunks_cons _ (by simp)]

/-- Brackets stay around restored chunks. -/
theorem map_restore_bracketed (ks : List Text) :
    (bracketed ks).map table.restore = bracketed (ks.map table.restore) := by
  cases ks with
  | nil => rfl
  | cons k ks =>
    have hk : table.restore (['('] ++ k) = ['('] ++ table.restore k :=
      LiteralTable.restore_append_cons rfl [] k
    rw [bracketed, map_restore_appendLast rfl, List.map_cons, List.map_cons, hk,
      bracketed]

/-- A restored column has the restored chunks of the column. -/
theorem map_restore_column {column : Column}
    (h : ∀ k ∈ column.tokens, table.Settled k.text) :
    ((column.restore table).chunks o).map table.restore =
      (column.chunks o).map table.restore := by
  have key : ∀ t : Text, .piece t ∈ column.tokens →
      table.restore (table.restore t) = table.restore t :=
    fun t ht => LiteralTable.restore_restore (h (.piece t) ht)
  obtain ⟨expression, _ | name⟩ := column
  · have he := key expression (by simp [Column.tokens])
    simp [Column.restore, Column.chunks, he]
  · have he := key expression (by simp [Column.tokens])
    have hn := key name (by simp [Column.tokens])
    simp [Column.restore, Column.chunks, he, hn]

/-- Restoring settled columns first does not change the restored select list. -/
theorem map_restore_select (distinct : Bool) {columns : List Column}
    (h : ∀ k ∈ columns.flatMap Column.tokens, table.Settled k.text) :
    (selectChunks o distinct (columns.map (Column.restore table))).map
      table.restore = (selectChunks o distinct columns).map table.restore := by
  have hcols : ((columns.map (Column.restore table)).map (Column.chunks o)).map
      (List.map table.restore) =
      (columns.map (Column.chunks o)).map (List.map table.restore) := by
    rw [List.map_map, List.map_map, List.map_map]
    refine List.map_congr_left fun column hc => ?_
    exact map_restore_column o fun k hk =>
      h k (List.mem_flatMap.2 ⟨column, hc, hk⟩)
  rw [selectChunks, selectChunks, List.map_append, List.map_append,
    map_restore_commaChunks, map_restore_commaChunks, hcols]

mutual

/-- The restored chunks of a query do not show that its select lists were
restored before. -/
theorem map_restore_chunks :
    ∀ q : Query, q.Under table → (∀ k ∈ q.tokens, table.Settled k.text) →
      (q.restoreColumns.chunks o).map table.restore =
      (q.chunks o).map table.restore
  | { distinct, columns, source, joins, filter, groupBy, having, orderBy, limit,
      offset, literals, depth }, hu, h => by
    obtain ⟨hl, hs, hj⟩ := hu
    rw [Query.tokens] at h
    simp only [List.forall_mem_append] at h
    obtain ⟨⟨⟨⟨⟨⟨⟨⟨hcols, hsource⟩, hjoins⟩, -⟩, -⟩, -⟩, -⟩, -⟩, -⟩ := h
    rw [Query.restoreColumns, Query.chunks, Query.chunks, hl]
    simp only [List.map_append, List.map_cons]
    rw [map_restore_select o distinct hcols, map_restore_sourceChunks source hs
      hsource, map_restore_joinChunks joins hj hjoins]

/-- Restoring the settled columns inside a source first does not change its
restored chunks. -/
theorem map_restore_sourceChunks :
    ∀ s : Source, s.Under table → (∀ k ∈ s.tokens, table.Settled k.text) →
      (s.restoreColumns.chunks o).map table.restore =
      (s.chunks o).map table.restore
  | .table _ _, _, _ => rfl
  | .subquery query aliasName, hu, h => by
    have hq : ∀ k ∈ query.tokens, table.Settled k.text := fun k hk =>
      h k (by simp [Source.tokens, hk])
    rw [Source.restoreColumns, Source.chunks, Source.chunks, List.map_append,
      List.map_append, map_restore_bracketed, map_restore_bracketed,
      map_restore_chunks query hu hq]

/-- Restoring the settled columns inside joins first does not change their
restored chunks. -/
theorem map_restore_joinChunks :
    ∀ js : List Join, Join.AllUnder table js →
      (∀ k ∈ Join.allTokens js, table.Settled k.text) →
      (Join.allChunks o (Join.restoreAll js)).map table.restore =
      (Join.allChunks o js).map table.restore
  | [], _, _ => rfl
  | { kind, source, onPredicate, usingColumns } :: more, hu, h => by
    rw [Join.allTokens, Join.tokens] at h
    simp only [List.forall_mem_append] at h
    obtain ⟨⟨⟨hsource, -⟩, -⟩, hmore⟩ := h
    rw [Join.restoreAll, Join.restoreColumns, Join.allChunks, Join.allChunks,
      Join.chunks, Join.chunks]
    simp only [List.map_append, List.map_cons]
    rw [map_restore_sourceChunks source hu.1 hsource,
      map_restore_joinChunks more hu.2 hmore]

end

end Chunks

/-! ## Formatting -/

/-- A layout is woven of the chunks of the query and restored, as if its select
lists had kept their placeholders. -/
theorem render_restoreColumns {table : LiteralTable} (o : Options) {q : Query}
    (hf : q.Filled)
    (hu : q.Under table) (hk : ∀ k ∈ q.tokens, table.Settled k.text) :
    ∃ t, Woven (q.chunks o) t ∧
      render o q.restoreColumns = table.restore t := by
  obtain ⟨gs, hlen, hgs, ht⟩ :=
    woven_queryLines o q.restoreColumns.depth _ hf.restoreColumns
  have hmap := map_restore_chunks o q hu hk
  have hl : gs.length = (q.chunks o).length := by
    rw [hlen, ← List.length_map (f := table.restore), hmap, List.length_map]
  have hliterals : q.restoreColumns.literals = table := by
    cases q
    exact hu.1
  refine ⟨weave gs (q.chunks o), ⟨gs, hl, hgs, rfl⟩, ?_⟩
  rw [render, Query.restore, hliterals, ht, LiteralTable.restore_weave hgs,
    hmap, LiteralTable.restore_weave hgs]

/-- Masking a text gives the table of its segments and the text that this table
masks. -/
theorem protect_eq_ok_iff {t masked : Text} {table : LiteralTable} :
    protect t = .ok (masked, table) ↔ ∃ segs, segments t = .ok segs ∧
      table = .ofSegments t segs ∧ masked = table.maskFrom 0 segs := by
  unfold protect
  cases segments t with
  | error e => simp
  | ok segs =>
    constructor
    · intro h
      cases h
      exact ⟨segs, rfl, rfl, rfl⟩
    · rintro ⟨_, ⟨⟩, rfl, rfl⟩
      rfl

/-- The spans of the table of a text are its quoted segments. -/
theorem LiteralTable.mem_literals_ofSegments {t literal : Text}
    {segs : List Segment} :
    literal ∈ (LiteralTable.ofSegments t segs).literals ↔
    Segment.quoted literal ∈ segs := by
  constructor
  · intro h
    obtain ⟨s, hs, hliteral⟩ := List.mem_filterMap.1 h
    cases s with
    | quoted text => rwa [← Option.some.inj hliteral]
    | comment text => cases hliteral
    | plain c => cases hliteral
  · exact fun h => List.mem_filterMap.2 ⟨_, h, rfl⟩

/-- The entries of a table are for its quoted spans, in order. -/
theorem entries_snd (table : LiteralTable) :
    table.entries.map Prod.snd = table.literals := by
  have key : ∀ (literals : List Text) (index : Nat),
      (table.entriesFrom index literals).map Prod.snd = literals := by
    intro literals
    induction literals with
    | nil => exact fun _ => rfl
    | cons literal more ih =>
      intro index
      rw [LiteralTable.entriesFrom, List.map_cons, ih]
  exact key table.literals 0

/-- The tokens of a text occur in it. -/
theorem Laid.isInfix {b a : Option Char} {ks : List Token} {t : Text}
    (h : Laid b ks t a) : ∀ k ∈ ks, k.text <:+: t := by
  induction h with
  | nil => simp
  | @token b a k ks t _ _ _ _ ih =>
    intro k' hk'
    rcases List.mem_cons.1 hk' with rfl | hk'
    · exact (List.prefix_append _ _).isInfix
    · exact List.infix_append_of_infix_right (ih k' hk')
  | space _ ih => exact fun k hk => List.infix_cons (ih k hk)
  | comma _ ih => exact fun k hk => List.infix_cons (ih k hk)
  | word _ _ _ _ ih =>
    exact fun k hk => List.infix_append_of_infix_right (ih k hk)

/-- The chunks of a query are inert if its tokens are. -/
theorem inert_chunks (o : Options) {q : Query}
    (h : ∀ k ∈ q.tokens, inert k.text = true) :
    ∀ k ∈ q.chunks o, inert k = true := by
  -- a mark of punctuation opens no comment, neither before a text nor behind it
  have hmark : ∀ c : Char, inert [c] = true →
      (∀ d, opensComment d (some c) = false) →
      ∀ t, inert (t ++ [c]) = inert t := by
    intro c hc ho t
    rw [Bool.eq_iff_iff, inert_append]
    simp [hc, ho]
  have hno : ∀ c : Char, c ≠ '-' → c ≠ '*' →
      ∀ d, opensComment d (some c) = false := by
    intro c hd ha d
    cases d with
    | none => rfl
    | some d => simp [opensComment, hd, ha]
  refine forall_chunks ?_ (hmark ',' rfl (hno ',' (by decide) (by decide))) ?_
    (hmark ')' rfl (hno ')' (by decide) (by decide))) o q h
  · intro u hu
    refine inert_of_forall fun c hc => ?_
    rcases hu c hc with hl | rfl
    · refine ⟨?_, ?_, ?_⟩
      · by_contra hq
        simp only [Bool.not_eq_false, isQuote, Bool.or_eq_true, beq_iff_eq]
          at hq
        rcases hq with ((rfl | rfl) | rfl) <;> cases hl
      · rintro rfl
        cases hl
      · rintro rfl
        cases hl
    · exact ⟨rfl, by decide, by decide⟩
  · intro u
    rw [List.singleton_append, Bool.eq_iff_iff, inert_cons,
      opensComment_of_ne (by decide) (by decide)]
    simp [isQuote]

theorem filterMap_visible (segs : List Segment) :
    (segs.map Segment.visible).filterMap Segment.literal? =
      segs.filterMap Segment.literal? := by
  rw [List.filterMap_map]
  refine List.filterMap_congr fun s _ => ?_
  cases s <;> rfl

/-- Formatting keeps every quoted span: if no quote opens directly behind a text
that would run into the tag of its placeholder, then the layout of a text can be
masked again, and has the quoted spans of the text in their order. -/
theorem literals_of_format {o : Options} {t r : Text}
    (hu : ∀ segs, segments t = .ok segs → Unglued segs)
    (h : format o t = .ok r) :
    ∃ masked table masked' table', protect t = .ok (masked, table) ∧
      protect r = .ok (masked', table') ∧
      table'.entries.map Prod.snd = table.entries.map Prod.snd := by
  obtain ⟨parsed, hparsed, rfl⟩ : ∃ q, parse t = .ok q ∧ render o q = r := by
    unfold format at h
    cases hp : parse t with
    | error e =>
      rw [hp] at h
      cases h
    | ok q =>
      rw [hp] at h
      cases h
      exact ⟨q, rfl, rfl⟩
  simp only [parse, bind_eq_ok] at hparsed
  obtain ⟨⟨masked, table⟩, hp, q, hq, hparsed⟩ := hparsed
  cases hparsed
  obtain ⟨segs, hsegs, htable, hmasked⟩ := protect_eq_ok_iff.1 hp
  have hlaid := laid_readMasked hq
  have hliterals : segs.filterMap Segment.literal? = table.literals := by
    rw [htable]
    rfl
  have htag : ¬ table.tag <:+: segs.flatMap Segment.source := by
    rw [source_of_segments hsegs, htable]
    exact LiteralTable.not_infix_unusedMarks t
  have hl : segs.filterMap Segment.literal? <+: table.literals.drop 0 := by
    rw [hliterals]
    exact List.prefix_rfl
  have hunglued := hu segs hsegs
  -- the chunks are restored once and for all
  have hsettled : table.Settled masked := by
    rw [hmasked]
    exact LiteralTable.settled_maskFrom hunglued htag hl
  obtain ⟨hfilled, hunder⟩ := shape_readMasked hq
  obtain ⟨x, ⟨gs, hlen, hgs, rfl⟩, hrender⟩ := render_restoreColumns o hfilled
    hunder (LiteralTable.Settled.of_laid hlaid hsettled.normalize)
  -- the layout is read as it was written
  have hinert : inert masked = true := by
    rw [hmasked]
    exact LiteralTable.inert_maskFrom 0 hsegs
  have hread : segments (render o q.restoreColumns) =
      .ok (table.scan (weave gs (q.chunks o))) := by
    rw [hrender]
    refine LiteralTable.segments_restore (inert_weave hgs ?_) ?_
    · exact inert_chunks o fun k hk =>
        inert_of_infix (inert_normalize hinert) (hlaid.isInfix k hk)
    · rw [← hliterals]
      exact isSpan_of_segments hsegs
  have hspans : table.spans (weave gs (q.chunks o)) = table.literals := by
    rw [LiteralTable.spans_weave hgs hlen,
      (LiteralTable.collects_spans table).flatMap_chunks,
      ← LiteralTable.spans_of_laid hlaid, LiteralTable.spans_normalize,
      LiteralTable.spans, hmasked, LiteralTable.scan_maskFrom hunglued htag hl,
      filterMap_visible, hliterals]
  refine ⟨masked, table, _, _, hp, protect_eq_ok_iff.2 ⟨_, hread, rfl, rfl⟩, ?_⟩
  rw [entries_snd, entries_snd]
  exact hspans

/-- Quoted spans that spell a placeholder, stand next to a comment or hold
blanks survive. -/
theorem literals_of_format_spelled :
    (∀ segs, segments
      "select '__sqlfmt_lit_0__' as \"a  b\"/*'*/from t where c__sqlfmt_lit_ = 'd'".toList
      = .ok segs → Unglued segs) ∧ ∃ r, format ⟨.upper, 80⟩
      "select '__sqlfmt_lit_0__' as \"a  b\"/*'*/from t where c__sqlfmt_lit_ = 'd'".toList
      = .ok r ∧ ∃ masked table masked' table', protect
      "select '__sqlfmt_lit_0__' as \"a  b\"/*'*/from t where c__sqlfmt_lit_ = 'd'".toList
      = .ok (masked, table) ∧ protect r = .ok (masked', table') ∧
      table'.entries.map Prod.snd = table.entries.map Prod.snd := by
  generalize ht :
    "select '__sqlfmt_lit_0__' as \"a  b\"/*'*/from t where c__sqlfmt_lit_ = 'd'".toList =
    t
  have hunglued : ∀ segs, segments t = .ok segs → Unglued segs := by
    have hall : (match segments t with
      | .ok segs => decide (Unglued segs)
      | .error _ => false) = true := by
      subst ht
      decide +kernel
    intro segs hs
    rw [hs] at hall
    exact of_decide_eq_true hall
  have hok : (format ⟨.upper, 80⟩ t).isOk = true := by
    subst ht
    decide +kernel
  cases h : format ⟨.upper, 80⟩ t with
  | error e =>
    rw [h] at hok
    cases hok
  | ok r => exact ⟨hunglued, r, rfl, literals_of_format hunglued h⟩

end SqlRiver
