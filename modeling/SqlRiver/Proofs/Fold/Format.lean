import SqlRiver.Proofs.Fold.Read
import SqlRiver.Proofs.Literal.Preserved

/-!
# Letter case has no part in a layout

Texts without quotes that differ in letter case only are read as queries that
differ in letter case only, or both are refused with messages that do. The
layouts of the two queries have the same line breaks and the same padding: all
widths are lengths of texts, which folding keeps.

Main definitions and statements:

* `fold_segments`: quotes and comments of the folded text.
* `fold_parse`: reading a text without quotes.
* `lower_queryLines`, `lower_render`: the folded layout is the layout of the
  folded query.
* `same_but_for_case`: texts that differ in letter case only.
-/

namespace SqlRiver

open Text

/-! ## Segments -/

/-- A segment of the folded text. -/
def Segment.lower : Segment → Segment
  | .quoted text => .quoted text.lower
  | .comment text => .comment text.lower
  | .plain c => .plain c.toLower

theorem source_lower (s : Segment) : s.lower.source = s.source.lower := by
  cases s <;> rfl

theorem isQuote_toLower (c : Char) : isQuote c.toLower = isQuote c := by
  simp only [isQuote, toLower_beq (d := '\x27') rfl,
    toLower_beq (d := '\x22') rfl, toLower_beq (d := '\x60') rfl]

/-- Quotes are no letters and have no case. -/
theorem isAlpha_of_isQuote {c : Char} (h : isQuote c = true) :
    c.isAlpha = false ∧ c.toLower = c := by
  simp only [isQuote, Bool.or_eq_true, beq_iff_eq] at h
  rcases h with (rfl | rfl) | rfl <;> decide

/-- A quoted span ends at the same place in lower case. -/
theorem throughFirst_lower {c : Char} (hc : c.isAlpha = false) : ∀ t : Text,
    Text.throughFirst c t.lower = (Text.throughFirst c t).map lower
  | [] => rfl
  | d :: t => by
    rw [lower_cons, Text.throughFirst, Text.throughFirst, toLower_beq hc,
      throughFirst_lower hc t]
    split
    · rfl
    · cases Text.throughFirst c t <;> rfl

/-- A comment ends at the same place in lower case. -/
theorem throughCommentEnd_lower : ∀ t : Text,
    throughCommentEnd t.lower = (throughCommentEnd t).map lower
  | [] => rfl
  | c :: t => by
    rw [lower_cons, throughCommentEnd, throughCommentEnd, toLower_beq rfl,
      head?_lower, map_toLower_beq rfl, throughCommentEnd_lower t]
    split
    · rfl
    · cases throughCommentEnd t <;> rfl

/-- The segment at the front of a folded text is the folded segment. -/
theorem fold_next (offset : Nat) (c : Char) (rest : Text) :
    Segment.next offset c.toLower rest.lower =
      foldResult Segment.lower (Segment.next offset c rest) := by
  have hnewline : (fun d => d != '\n') ∘ Char.toLower = fun d => d != '\n' := by
    funext d
    simp [bne, toLower_beq (d := '\n') rfl]
  have hline : rest.lower.takeWhile (· != '\n') =
      Text.lower (rest.takeWhile (· != '\n')) := by
    rw [Text.lower, List.takeWhile_map, hnewline]
    rfl
  unfold Segment.next
  simp only [isQuote_toLower, toLower_beq (d := '-') rfl,
    toLower_beq (d := '/') rfl, head?_lower, map_toLower_beq (d := '-') rfl,
    map_toLower_beq (d := '*') rfl, hline, drop_lower, throughCommentEnd_lower]
  split
  · next hq =>
    obtain ⟨ha, hc⟩ := isAlpha_of_isQuote hq
    rw [hc, throughFirst_lower ha]
    cases Text.throughFirst c rest with
    | none => rfl
    | some body => simp [Segment.lower, hc]
  · split
    · rfl
    · split
      · cases throughCommentEnd (rest.drop 1) <;> rfl
      · rfl

theorem utf8Size_toLower (c : Char) : c.toLower.utf8Size = c.utf8Size := by
  have hn := toNat_toLower c
  by_cases h : 65 ≤ c.toNat ∧ c.toNat ≤ 90
  · rw [if_pos h] at hn
    have hone {d : Char} (hd : d.toNat ≤ 127) : d.utf8Size = 1 :=
      Char.utf8Size_eq_one_iff.2 (UInt32.le_iff_toNat_le.2 hd)
    rw [hone (by omega), hone (by omega)]
  · rw [if_neg h, Char.toNat_inj] at hn
    rw [hn]

/-- The segments of a folded text are its folded segments, by induction on the
text. -/
theorem fold_segmentsFrom :
    ∀ (inside offset : Nat) (t : Text), segmentsFrom inside offset t.lower =
      foldResult (List.map Segment.lower) (segmentsFrom inside offset t)
  | _, _, [] => by simp [segmentsFrom]
  | inside + 1, offset, c :: t => by
    rw [lower_cons, segmentsFrom, segmentsFrom, utf8Size_toLower,
      fold_segmentsFrom inside _ t]
  | 0, offset, c :: t => by
    rw [lower_cons, segmentsFrom, segmentsFrom, fold_next, utf8Size_toLower]
    cases Segment.next offset c t with
    | error e => rfl
    | ok s =>
      simp only [foldResult_ok, source_lower, length_lower]
      rw [fold_segmentsFrom (s.source.length - 1) _ t]
      cases segmentsFrom (s.source.length - 1) (offset + c.utf8Size) t <;> rfl

/-- A text in lower case is divided into the same segments, and an unclosed one
is refused at the same offset. -/
theorem fold_segments (t : Text) :
    segments t.lower = foldResult (List.map Segment.lower) (segments t) :=
  fold_segmentsFrom 0 0 t

/-! ## Texts without quotes -/

/-- No segment of a text without quotes is a quoted span. -/
theorem literals_of_unquoted {t : Text} {segs : List Segment}
    (hq : ∀ c ∈ t, isQuote c = false) (h : segments t = .ok segs) :
    segs.filterMap Segment.literal? = [] := by
  rw [List.filterMap_eq_nil_iff]
  intro s hs
  cases s with
  | quoted text =>
    obtain ⟨q, body, hquote, -, rfl⟩ :=
      isSpan_of_segments h text (List.mem_filterMap.2 ⟨_, hs, rfl⟩)
    have hmem : q ∈ t := by
      rw [← source_of_segments h]
      exact List.mem_flatMap.2 ⟨_, hs, by simp [Segment.source]⟩
    rw [hq q hmem] at hquote
    cases hquote
  | comment text => rfl
  | plain c => rfl

/-- Without a literal the masked text does not depend on the table: it is the
text in lower case. -/
theorem maskFrom_lower (table table' : LiteralTable) (index : Nat) :
    ∀ {segs : List Segment}, segs.filterMap Segment.literal? = [] →
      table'.maskFrom index (segs.map Segment.lower) =
      (table.maskFrom index segs).lower
  | [], _ => rfl
  | .plain c :: segs, h => by
    have ih := maskFrom_lower table table' index (show segs.filterMap
      Segment.literal? = [] by simpa [Segment.literal?] using h)
    simp [Segment.lower, LiteralTable.maskFrom, ih]
  | .comment text :: segs, h => by
    have ih := maskFrom_lower table table' index (show segs.filterMap
      Segment.literal? = [] by simpa [Segment.literal?] using h)
    simp [Segment.lower, LiteralTable.maskFrom, ih]
  | .quoted text :: segs, h => by
    simp [Segment.literal?] at h

/-- A text without quotes is read as it is masked, and nothing is restored. -/
theorem parse_unquoted {t : Text} (hq : ∀ c ∈ t, isQuote c = false) :
    ∃ marks, parse t = segments t >>= fun segs =>
      readMasked ⟨marks, []⟩ (LiteralTable.maskFrom ⟨marks, []⟩ 0 segs) := by
  refine ⟨LiteralTable.unusedMarks t, ?_⟩
  rw [parse, protect]
  cases h : segments t with
  | error e => rfl
  | ok segs =>
    have hl := literals_of_unquoted hq h
    simp only [LiteralTable.ofSegments, hl]
    show (readMasked _ _ >>= fun q => Except.ok q.restoreColumns) =
      readMasked _ _
    cases hr : readMasked ⟨LiteralTable.unusedMarks t, []⟩
        (LiteralTable.maskFrom ⟨LiteralTable.unusedMarks t, []⟩ 0 segs) with
    | error e => rfl
    | ok q =>
      exact congrArg Except.ok
        (Query.restoreColumns_entryless rfl q (shape_readMasked hr).2)

/-- All queries of a text without quotes have one table, without entries. -/
theorem under_of_parse {t : Text} {q : Query} (hq : ∀ c ∈ t, isQuote c = false)
    (h : parse t = .ok q) :
    ∃ table : LiteralTable, table.literals = [] ∧ q.Under table := by
  obtain ⟨marks, hparse⟩ := parse_unquoted hq
  rw [hparse] at h
  cases hs : segments t with
  | error e =>
    rw [hs] at h
    cases h
  | ok segs =>
    rw [hs] at h
    exact ⟨⟨marks, []⟩, rfl, (shape_readMasked h).2⟩

/-- What is read from a text without quotes, folded, depends on the folded text
only. -/
theorem fold_parse {t : Text} (hq : ∀ c ∈ t, isQuote c = false) :
    foldResult Query.fold (parse t) = segments t.lower >>= fun segs =>
      readMasked .empty (LiteralTable.empty.maskFrom 0 segs) := by
  obtain ⟨marks, hparse⟩ := parse_unquoted hq
  rw [hparse]
  cases h : segments t with
  | error e =>
    rw [fold_segments, h]
    rfl
  | ok segs =>
    have hl := literals_of_unquoted hq h
    rw [fold_segments, h]
    show foldResult Query.fold (readMasked _ _) =
      readMasked .empty (LiteralTable.empty.maskFrom 0 (segs.map _))
    rw [maskFrom_lower ⟨marks, []⟩ .empty 0 hl]
    exact (fold_readMasked rfl _).symm

/-! ## Layouts -/

/-- The same widths, and keywords in lower case. -/
def Options.fold (o : Options) : Options := ⟨.lower, o.maxWidth⟩

theorem lower_keyword_fold (o : Options) (word : Text) :
    (o.keyword word).lower = o.fold.keyword word := lower_keyword o word

theorem lower_spaces (n : Nat) : (spaces n).lower = spaces n := by
  simp [spaces, Text.lower]

theorem lower_padStart (width : Nat) (t : Text) :
    (padStart width t).lower = padStart width t.lower := by
  rw [padStart, padStart, lower_append, lower_spaces, length_lower]

theorem lower_padEnd (width : Nat) (t : Text) :
    (padEnd width t).lower = padEnd width t.lower := by
  rw [padEnd, padEnd, lower_append, lower_spaces, length_lower]

section Layout

variable (o : Options) {base : Text} (hb : base.lower = base)

include hb in
theorem lower_lead (word : Text) :
    (lead o base word).lower = lead o.fold base word := by
  rw [lead, lead, lower_append, hb, lower_padStart, lower_keyword_fold]

theorem lower_rowText (row : List Text) :
    (rowText row).lower = rowText (row.map lower) :=
  lower_join _ row

/-- The lines of a list are those of the entries in lower case. -/
theorem lower_rowLines :
    ∀ (start indent : Text) (rows : List (List Text)),
      (rowLines start indent rows).map lower =
      rowLines start.lower indent.lower (rows.map (List.map lower))
  | start, indent, [] => rfl
  | start, indent, [row] => by
    simp [rowLines, lower_rowText]
  | start, indent, row :: row' :: rows => by
    have ih := lower_rowLines indent indent (row' :: rows)
    rw [List.map_cons] at ih
    simp only [rowLines, List.map_cons, ih, lower_append, lower_rowText]
    rfl

/-- A column is written as the column in lower case. -/
theorem lower_columnText (width : Nat) (column : Column) :
    (columnText o width column).lower =
      columnText o.fold width column.fold := by
  obtain ⟨expression, aliasName⟩ := column
  cases aliasName with
  | none => rfl
  | some name =>
    simp only [columnText, Column.fold, Option.map_some, lower_append,
      lower_padEnd, lower_keyword_fold]
    rfl

/-- The widths that align the aliases do not depend on the case. -/
theorem aliasedWidths_fold (columns : List Column) :
    aliasedWidths (columns.map Column.fold) = aliasedWidths columns := by
  have hsome : (fun column : Column => column.aliasName.isSome) ∘ Column.fold =
      fun column => column.aliasName.isSome := by
    funext column
    simp [Column.fold]
  rw [aliasedWidths, aliasedWidths, List.filter_map, hsome, List.map_map]
  exact List.map_congr_left fun column _ => length_lower column.expression

include hb in
/-- The lines of `select` are those of the columns in lower case. -/
theorem lower_selectLines (distinct : Bool) (columns : List Column) :
    (selectLines o base distinct columns).map lower =
      selectLines o.fold base distinct (columns.map Column.fold) := by
  have hhead : (lead o base "select".toList ++
      (if distinct then [' '] ++ o.keyword "distinct".toList else []) ++
        [' ']).lower =
      lead o.fold base "select".toList ++
        (if distinct then [' '] ++ o.fold.keyword "distinct".toList else []) ++
        [' '] := by
    rw [lower_append, lower_append, lower_lead o hb]
    cases distinct
    · rfl
    · simp only [if_true, lower_append, lower_keyword_fold]
      rfl
  have hlen := congrArg List.length hhead
  rw [length_lower] at hlen
  have hcolumns (width : Nat) : (columns.map (columnText o width)).map lower =
      (columns.map Column.fold).map (columnText o.fold width) := by
    rw [List.map_map, List.map_map]
    exact List.map_congr_left fun column _ => lower_columnText o width column
  have hrows (width : Nat) : (columns.map fun column =>
      [columnText o width column]).map (List.map lower) =
      (columns.map Column.fold).map fun column =>
      [columnText o.fold width column] := by
    rw [List.map_map, List.map_map]
    exact List.map_congr_left fun column _ =>
      congrArg (fun t => [t]) (lower_columnText o width column)
  simp only [selectLines, aliasedWidths_fold]
  split
  · rw [lower_rowLines, hhead, List.map_singleton, hcolumns]
    rfl
  · rw [lower_rowLines, hhead, lower_spaces, hrows, hlen]

include hb in
/-- The lines of the conditions are those of the conditions in lower case. -/
theorem lower_conditionLines (word : Text) (conds : List Condition) :
    (conditionLines o base word conds).map lower =
      conditionLines o.fold base word (conds.map Condition.fold) := by
  cases conds with
  | nil => rfl
  | cons first more =>
    simp only [conditionLines, List.map_cons, List.map_map, lower_append,
      lower_lead o hb]
    refine congrArg₂ List.cons rfl (List.map_congr_left fun condition _ => ?_)
    simp only [Function.comp_apply, lower_append, lower_lead o hb]
    rfl

theorem consFirst_map (t : Text) (rows : List (List Text)) :
    (Text.consFirst t rows).map (List.map lower) =
      Text.consFirst t.lower (rows.map (List.map lower)) := by
  cases rows <;> rfl

section Wrap

variable {indent width : Nat} {measure measure' : Text → Nat}
  (hm : ∀ t, measure' t.lower = measure t)

include hm in
/-- Entries are wrapped at the same places, by induction on the entries. -/
theorem wrapFrom_lower : ∀ (used : Nat) (entries : List Text),
    (wrapFrom indent width measure used entries).map (List.map lower) =
      wrapFrom indent width measure' used (entries.map lower)
  | used, [] => rfl
  | used, entry :: more => by
    simp only [wrapFrom, List.map_cons, hm]
    split
    · rw [List.map_cons, consFirst_map, wrapFrom_lower]
      rfl
    · rw [consFirst_map, wrapFrom_lower]

include hm in
/-- A list is wrapped at the same places in either case. -/
theorem wrap_lower (entries : List Text) :
    (wrap indent width measure entries).map (List.map lower) =
      wrap indent width measure' (entries.map lower) := by
  cases entries with
  | nil => rfl
  | cons entry more =>
    simp only [wrap, List.map_cons, consFirst_map, wrapFrom_lower hm, hm]

end Wrap

include hb in
/-- The lines of a list are those of the entries in lower case. -/
theorem lower_listLines {table : LiteralTable} (h : table.literals = [])
    (word : Text) (entries : List Text) :
    (listLines o base table word entries).map lower =
      listLines o.fold base .empty word (entries.map lower) := by
  have hhead :
      (lead o base word ++ [' '] ++ o.keyword "by".toList ++ [' ']).lower = lead
      o.fold base word ++ [' '] ++ o.fold.keyword "by".toList ++ [' '] := by
    simp only [lower_append, lower_lead o hb, lower_keyword_fold]
    rfl
  have hlen := congrArg List.length hhead
  rw [length_lower] at hlen
  have hmeasure (t : Text) : (LiteralTable.empty.restore t.lower).length =
      (table.restore t).length := by
    rw [LiteralTable.restore_entryless h, LiteralTable.restore_empty,
      length_lower]
  have hwrap (indent : Nat) :
      (wrap indent o.maxWidth (fun t => (table.restore t).length) entries).map
      (List.map lower) = wrap indent o.maxWidth
      (fun t => (LiteralTable.empty.restore t).length) (entries.map lower) :=
    wrap_lower hmeasure entries
  simp only [listLines]
  rw [lower_rowLines, hhead, lower_spaces, hwrap, hlen]
  rfl

include hb in
/-- The lines of a single expression are those of the expression in lower
case. -/
theorem lower_expressionLines (word : Text) (expression : Option Text) :
    (expressionLines o base word expression).map lower =
      expressionLines o.fold base word (expression.map lower) := by
  cases expression with
  | none => rfl
  | some t =>
    simp only [expressionLines, Option.toList, Option.map_some, List.map_cons,
      List.map_nil, lower_append, lower_lead o hb]
    rfl

theorem lower_aliasText (aliasName : Option Text) :
    (aliasText aliasName).lower = aliasText (aliasName.map lower) := by
  cases aliasName <;> rfl

theorem map_lower_appendLast (t : Text) : ∀ lines : List Text,
    (appendLast t lines).map lower = appendLast t.lower (lines.map lower)
  | [] => rfl
  | [line] => by simp [appendLast]
  | line :: line' :: lines => by
    have ih := map_lower_appendLast t (line' :: lines)
    rw [List.map_cons] at ih
    simp only [appendLast, List.map_cons, ih]

/-- A nested query in brackets is enclosed in lower case. -/
theorem map_lower_enclose (start : Text) (aliasName : Option Text)
    (lines : List Text) :
    (enclose start aliasName lines).map lower =
      enclose start.lower (aliasName.map lower) (lines.map lower) := by
  have hclosing : Text.lower (')' :: aliasText aliasName) =
      ')' :: aliasText (aliasName.map lower) := by
    rw [lower_cons, lower_aliasText]
    rfl
  cases lines with
  | nil =>
    simp only [enclose, map_lower_appendLast, hclosing, List.map_cons,
      List.map_nil, lower_append]
    rfl
  | cons first more =>
    simp only [enclose, map_lower_appendLast, hclosing, List.map_cons,
      lower_append, trimStart_lower]
    rfl

include hb in
/-- The words of a join are those in lower case. -/
theorem lower_joinLead (kind : JoinKind) :
    (joinLead o base kind).lower = joinLead o.fold base kind := by
  have hkind (word : Text) :
      (lead o base word ++ [' '] ++ o.keyword "join".toList).lower =
      lead o.fold base word ++ [' '] ++ o.fold.keyword "join".toList := by
    simp only [lower_append, lower_lead o hb, lower_keyword_fold]
    rfl
  cases kind with
  | plain => exact lower_lead o hb _
  | left | right | inner | outer | full | cross => exact hkind _

include hb in
/-- The lines under a join are those of its condition in lower case. -/
theorem lower_joinConditionLines (onPredicate : Option Text)
    (usingColumns : List Text) :
    (joinConditionLines o base onPredicate usingColumns).map lower =
      joinConditionLines o.fold base (onPredicate.map lower)
      (usingColumns.map lower) := by
  rw [joinConditionLines, joinConditionLines, List.map_append,
    lower_expressionLines o hb, List.isEmpty_map]
  refine congrArg _ ?_
  split
  · rfl
  · simp only [List.map_cons, List.map_nil, lower_append, lower_lead o hb,
      lower_rowText]
    rfl

end Layout

theorem lower_baseOf (root depth : Nat) :
    (baseOf root depth).lower = baseOf root depth :=
  lower_spaces _

mutual

/-- The folded lines of a query are those of the folded query. -/
theorem lower_queryLines (o : Options) (root : Nat) {table : LiteralTable}
    (h : table.literals = []) :
    ∀ q : Query, q.Under table →
      (queryLines o root q).map lower = queryLines o.fold root q.fold
  | { source, joins, literals, depth, .. }, hu => by
    obtain ⟨rfl, hs, hj⟩ := hu
    have hb := lower_baseOf root depth
    have hstart : (lead o (baseOf root depth) "from".toList ++ [' ']).lower =
        lead o.fold (baseOf root depth) "from".toList ++ [' '] := by
      rw [lower_append, lower_lead o hb]
      rfl
    rw [Query.fold, queryLines, queryLines]
    simp only [List.map_append, lower_selectLines o hb,
      lower_sourceLines o root h _ source hs, hstart,
      lower_joinsLines o root h hb joins hj, lower_conditionLines o hb,
      lower_listLines o hb h, lower_expressionLines o hb]

/-- The folded lines of a source are the lines of the folded source. -/
theorem lower_sourceLines (o : Options) (root : Nat) {table : LiteralTable}
    (h : table.literals = []) (start : Text) :
    ∀ s : Source, s.Under table → (sourceLines o root start s).map lower =
      sourceLines o.fold root start.lower s.fold
  | .table name aliasName, _ => by
    simp [sourceLines, Source.fold, lower_aliasText]
  | .subquery query aliasName, hu => by
    rw [Source.fold, sourceLines, sourceLines, map_lower_enclose,
      lower_queryLines o root h query hu]

/-- The folded lines of joins are the lines of the folded joins. -/
theorem lower_joinsLines (o : Options) (root : Nat) {table : LiteralTable}
    (h : table.literals = []) {base : Text} (hb : base.lower = base) :
    ∀ js : List Join, Join.AllUnder table js →
      (joinsLines o root base js).map lower =
      joinsLines o.fold root base (Join.foldAll js)
  | [], _ => rfl
  | { kind, source := .table name aliasName, onPredicate, usingColumns } :: js,
      hu => by
    have hstart : (joinLead o base kind ++ [' ']).lower =
        joinLead o.fold base kind ++ [' '] := by
      rw [lower_append, lower_joinLead o hb]
      rfl
    have hsource := lower_sourceLines o root h (joinLead o base kind ++ [' '])
      (.table name aliasName) hu.1
    rw [hstart, Source.fold] at hsource
    rw [Join.foldAll, Join.fold, Source.fold, joinsLines, joinsLines, joinLines,
      joinLines]
    simp only [List.map_append, hsource, lower_joinConditionLines o hb,
      lower_joinsLines o root h hb js hu.2]
  | { kind, source := .subquery query aliasName, onPredicate,
      usingColumns } :: js, hu => by
    have hstart : (base ++ Text.spaces (nestIndent - 1)).lower =
        base ++ Text.spaces (nestIndent - 1) := by
      rw [lower_append, hb, lower_spaces]
    have hsource := lower_sourceLines o root h
      (base ++ Text.spaces (nestIndent - 1)) (.subquery query aliasName) hu.1
    rw [hstart, Source.fold] at hsource
    rw [Join.foldAll, Join.fold, Source.fold, joinsLines, joinsLines, joinLines,
      joinLines]
    simp only [List.map_append, List.map_cons, lower_joinLead o hb, hsource,
      lower_joinConditionLines o hb, lower_joinsLines o root h hb js hu.2]

end

/-- The folded layout of a query is the layout of the folded query. -/
theorem lower_render (o : Options) {table : LiteralTable}
    (h : table.literals = []) {q : Query} (hu : q.Under table) :
    (render o q).lower = render o.fold q.fold := by
  have hliterals : q.literals = table := by
    cases q
    exact hu.1
  have hdepth : q.fold.depth = q.depth := by
    cases q
    rw [Query.fold]
  have hempty : q.fold.literals = .empty := by
    cases q
    rw [Query.fold]
  rw [render, render, Query.restore, Query.restore, hliterals, hempty,
    LiteralTable.restore_entryless h, LiteralTable.restore_empty, lower_join,
    lower_queryLines o q.depth h q hu, hdepth]
  rfl

/-! ## Texts that differ in letter case -/

theorem lower_quoted (a found : Text) :
    (a ++ ParseError.quoted found).lower =
      (a ++ ParseError.quoted found.lower).lower := by
  simp [ParseError.quoted]

theorem lower_quoted_append (a found b : Text) :
    (a ++ ParseError.quoted found ++ b).lower =
      (a ++ ParseError.quoted found.lower ++ b).lower := by
  rw [lower_append, lower_quoted, ← lower_append]

/-- The reason of a refusal in lower case is the reason of the refusal in lower
case. -/
theorem lower_reason (e : ParseError) :
    e.reason.lower = e.fold.reason.lower := by
  cases e with
  | badAlias found => exact lower_quoted_append _ found _
  | noJoin found => exact lower_quoted _ found
  | badModifier found => exact lower_quoted _ found
  | badJoin found => exact lower_quoted_append _ found _
  | leftover found => exact lower_quoted _ found
  | unsupported word => exact (lower_lower word).symm
  | _ => rfl

theorem isUnsupported_fold (e : ParseError) :
    e.fold.isUnsupported = e.isUnsupported := by
  cases e <;> rfl

/-- The message of a refusal in lower case is the message of the refusal in
lower case. -/
theorem lower_message (e : ParseError) :
    e.message.lower = e.fold.message.lower := by
  unfold ParseError.message
  rw [isUnsupported_fold]
  split
  · rw [lower_append, lower_append, lower_reason]
  · rw [lower_append, lower_append, lower_reason]

/-- Two texts without quotes that differ in letter case only are read alike: as
queries that differ in letter case only, or both are refused with messages that
do. So, with the same width, their layouts differ in letter case only. -/
theorem same_but_for_case {s₁ s₂ : Text} (hq : ∀ c ∈ s₁, isQuote c = false)
    (h : s₁.lower = s₂.lower) :
    ((∃ q₁ q₂, parse s₁ = .ok q₁ ∧ parse s₂ = .ok q₂ ∧ q₁.fold = q₂.fold) ∨
      ∃ e₁ e₂, parse s₁ = .error e₁ ∧ parse s₂ = .error e₂ ∧
      e₁.isUnsupported = e₂.isUnsupported ∧
      e₁.message.lower = e₂.message.lower) ∧
    ∀ o₁ o₂ : Options, o₁.maxWidth = o₂.maxWidth →
      (∃ r₁ r₂, format o₁ s₁ = .ok r₁ ∧ format o₂ s₂ = .ok r₂ ∧
      r₁.lower = r₂.lower) ∨
      ∃ e₁ e₂, format o₁ s₁ = .error e₁ ∧ format o₂ s₂ = .error e₂ := by
  have hq' : ∀ c ∈ s₂, isQuote c = false :=
    forall_mem_of_lower_eq (fun c => by rw [isQuote_toLower]) h.symm hq
  have hfold :
      foldResult Query.fold (parse s₁) = foldResult Query.fold (parse s₂) := by
    rw [fold_parse hq, fold_parse hq', h]
  cases h₁ : parse s₁ with
  | error e₁ =>
    cases h₂ : parse s₂ with
    | ok q₂ =>
      rw [h₁, h₂] at hfold
      cases hfold
    | error e₂ =>
      rw [h₁, h₂] at hfold
      have he : e₁.fold = e₂.fold := by injection hfold
      refine ⟨.inr ⟨e₁, e₂, rfl, rfl, ?_, ?_⟩,
        fun o₁ o₂ _ => .inr ⟨e₁, e₂, ?_, ?_⟩⟩
      · rw [← isUnsupported_fold, he, isUnsupported_fold]
      · rw [lower_message, he, ← lower_message]
      · rw [format, h₁]
        rfl
      · rw [format, h₂]
        rfl
  | ok q₁ =>
    cases h₂ : parse s₂ with
    | error e₂ =>
      rw [h₁, h₂] at hfold
      cases hfold
    | ok q₂ =>
      rw [h₁, h₂] at hfold
      have he : q₁.fold = q₂.fold := by injection hfold
      refine ⟨.inl ⟨q₁, q₂, rfl, rfl, he⟩,
        fun o₁ o₂ hw => .inl ⟨render o₁ q₁, render o₂ q₂, ?_, ?_, ?_⟩⟩
      · rw [format, h₁]
        rfl
      · rw [format, h₂]
        rfl
      · have ho : o₁.fold = o₂.fold := by rw [Options.fold, Options.fold, hw]
        obtain ⟨table₁, ht₁, hu₁⟩ := under_of_parse hq h₁
        obtain ⟨table₂, ht₂, hu₂⟩ := under_of_parse hq' h₂
        rw [lower_render o₁ ht₁ hu₁, lower_render o₂ ht₂ hu₂, ho, he]

/-- A query with a join and a comment, in two spellings. -/
theorem same_but_for_case_join :
    ((∃ q₁ q₂,
      parse "Select A From t Left Join u Using (K) -- c".toList = .ok q₁ ∧
      parse "SELECT a FROM T LEFT JOIN U USING (k) -- C".toList = .ok q₂ ∧
      q₁.fold = q₂.fold) ∨ ∃ e₁ e₂,
      parse "Select A From t Left Join u Using (K) -- c".toList = .error e₁ ∧
      parse "SELECT a FROM T LEFT JOIN U USING (k) -- C".toList = .error e₂ ∧
      e₁.isUnsupported = e₂.isUnsupported ∧
      e₁.message.lower = e₂.message.lower) ∧
    ∀ o₁ o₂ : Options, o₁.maxWidth = o₂.maxWidth → (∃ r₁ r₂,
      format o₁ "Select A From t Left Join u Using (K) -- c".toList = .ok r₁ ∧
      format o₂ "SELECT a FROM T LEFT JOIN U USING (k) -- C".toList = .ok r₂ ∧
      r₁.lower = r₂.lower) ∨
      ∃ e₁ e₂, format o₁ "Select A From t Left Join u Using (K) -- c".toList =
      .error e₁ ∧
      format o₂ "SELECT a FROM T LEFT JOIN U USING (k) -- C".toList =
      .error e₂ :=
  same_but_for_case (by decide +kernel) (by decide +kernel)

end SqlRiver
