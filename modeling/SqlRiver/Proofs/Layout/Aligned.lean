import SqlRiver.Proofs.Layout.Lines
import SqlRiver.Proofs.Literal.Idempotent

/-!
# Aliases below each other

A select list with several aliases has a line for each column. The first one
stands behind `select`, which in a query in brackets stands behind what opens
the brackets; the others are indented by as much. All expressions with an alias
are filled up to one width, so that `as` starts at one position on all these
lines, in the query that is printed and in each query inside it.

Main definitions and statements:

* `StandsAt`: the line that a query starts on, and what opens it there.
* `StandsAt.exists_lines`: the lines of a query stand there in the layout of the
  query around it.
* `exists_standsAt`: every query stands somewhere.
* `ColumnLine`: the line of a column, with `as` at a position.
* `AlignedAt`: the lines of a select list, with `as` at one position on all of
  them.
* `aliases_aligned`: aliases line up in every printed layout.
-/

namespace SqlRiver

open Text

/-! ## Where a query stands -/

/-- What opens a query in the layout of the query around it, and the line it
starts on. -/
inductive StandsAt (o : Options) (q : Query) : Query → Text → Nat → Prop
  /-- The query that is laid out. -/
  | outermost : StandsAt o q q [] 0
  /-- A query behind `from`, below the select list. -/
  | source {parent inner : Query} {opening : Text} {k : Nat}
    {aliasName : Option Text} : StandsAt o q parent opening k →
    parent.source = .subquery inner aliasName →
    StandsAt o q inner (fromOpening o (baseOf q.depth parent.depth))
      (k + (selectLines o (baseOf q.depth parent.depth) parent.distinct
        parent.columns).length)
  /-- A query that is joined, below the word `join` and what stands before
  it. -/
  | join {parent inner : Query} {opening : Text} {k : Nat}
    {aliasName : Option Text} {before more : List Join} {j : Join} :
    StandsAt o q parent opening k → parent.joins = before ++ j :: more →
    j.source = .subquery inner aliasName →
    StandsAt o q inner (joinOpening (baseOf q.depth parent.depth))
      (k + ((selectLines o (baseOf q.depth parent.depth) parent.distinct
          parent.columns ++
        sourceLines o q.depth
          (lead o (baseOf q.depth parent.depth) "from".toList ++ [' '])
          parent.source ++
        joinsLines o q.depth (baseOf q.depth parent.depth) before).length + 1))

/-- The lines of a query behind what opens it. -/
def reopen (opening : Text) : List Text → List Text
  | [] => []
  | first :: more => (opening ++ trimStart first) :: more

theorem reopen_append {opening : Text} {ls : List Text} (h : ls ≠ [])
    (ms : List Text) : reopen opening (ls ++ ms) = reopen opening ls ++ ms := by
  obtain ⟨first, more, rfl⟩ := List.exists_cons_of_ne_nil h
  rfl

theorem length_reopen (opening : Text) (ls : List Text) :
    (reopen opening ls).length = ls.length := by
  cases ls <;> rfl

/-- The lines of a query in brackets are its lines behind another opening, with
the closing bracket put behind the last one. -/
theorem enclose_eq_reopen (start : Text) (aliasName : Option Text)
    {ls : List Text} (h : ls ≠ []) :
    enclose start aliasName ls =
      appendLast (')' :: aliasText aliasName) (reopen (start ++ ['(']) ls) := by
  obtain ⟨first, more, rfl⟩ := List.exists_cons_of_ne_nil h
  rfl

section Lines

variable {o : Options} {q parent inner : Query} {opening : Text} {k : Nat}
  {aliasName : Option Text}

theorem queryLines_ne_nil (o : Options) (root : Nat) (q : Query) :
    queryLines o root q ≠ [] :=
  fun h₀ =>
  tail_queryLines_ne_nil o root q (by rw [h₀]; rfl)

/-- The first line of a query has no indentation where the layout starts with
it. -/
theorem reopen_queryLines (o : Options) (q : Query) :
    reopen [] (queryLines o q.depth q) = queryLines o q.depth q := by
  obtain ⟨first, more, h⟩ := exists_queryLines o q.depth q
  have hbase : baseOf q.depth q.depth = [] := by simp [baseOf, spaces]
  rw [lead_select, List.append_assoc] at h
  rw [h, reopen, trimStart_select o (blank_baseOf _ _), hbase, List.nil_append]

/-- The lines of a query in the layout around it, if the lines of its source or
its join stand in the lines of the query that holds it. -/
theorem exists_lines_enclosed {start : Text} {pre post lines : List Text}
    (hlines : ∃ before after closing, before.length = k ∧
      lines = before ++
        (appendLast closing (reopen opening (queryLines o q.depth parent)) ++
          after))
    (hpre : pre ≠ []) (h : queryLines o q.depth parent = pre ++
      (sourceLines o q.depth start (.subquery inner aliasName) ++ post)) :
    ∃ before after closing, before.length = k + pre.length ∧
      lines = before ++
        (appendLast closing
          (reopen (start ++ ['(']) (queryLines o q.depth inner)) ++
          after) := by
  obtain ⟨before, after, closing, hk, e⟩ := hlines
  have hne := queryLines_ne_nil o q.depth inner
  obtain ⟨y, post', -, hy⟩ :=
    exists_appendLast_middle closing (reopen opening pre)
      (sourceLines_ne_nil o q.depth start (.subquery inner aliasName)) post
  refine ⟨before ++ reopen opening pre, post' ++ after,
    (')' :: aliasText aliasName) ++ y, ?_, ?_⟩
  · rw [List.length_append, length_reopen, hk]
  · rw [e, h, reopen_append hpre, hy, sourceLines, enclose_eq_reopen _ _ hne,
      appendLast_appendLast]
    simp only [List.append_assoc]

/-- The lines of a query stand where the query stands. Only the first and the
last of them differ from its layout by itself. -/
theorem StandsAt.exists_lines (h : StandsAt o q inner opening k) :
    ∃ before after closing, before.length = k ∧
      queryLines o q.depth q = before ++
        (appendLast closing (reopen opening (queryLines o q.depth inner)) ++
          after) := by
  induction h with
  | outermost =>
    refine ⟨[], [], [], rfl, ?_⟩
    rw [appendLast_nil, reopen_queryLines, List.nil_append, List.append_nil]
  | @source parent inner opening k aliasName _ hs ih =>
    have hparent := queryLines_eq_flatten o q.depth parent
    rw [clauseLines, List.flatten_cons, List.flatten_cons, hs] at hparent
    have hlines := exists_lines_enclosed ih (selectLines_ne_nil o _ _ _) hparent
    simpa [fromOpening] using hlines
  | @join parent inner opening k aliasName before more j _ hjoins hs ih =>
    have hparent := queryLines_eq_flatten o q.depth parent
    obtain ⟨kind, source, onPredicate, usingColumns⟩ := j
    obtain rfl : source = .subquery inner aliasName := hs
    have hline : ∃ post, queryLines o q.depth parent =
        (selectLines o (baseOf q.depth parent.depth) parent.distinct
            parent.columns ++
          sourceLines o q.depth
            (lead o (baseOf q.depth parent.depth) "from".toList ++ [' '])
            parent.source ++
          joinsLines o q.depth (baseOf q.depth parent.depth) before ++
          [joinLead o (baseOf q.depth parent.depth) kind]) ++
        (sourceLines o q.depth
            (baseOf q.depth parent.depth ++ spaces (nestIndent - 1))
            (.subquery inner aliasName) ++ post) := by
      rw [queryLines_eq_flatten, clauseLines, List.flatten_cons,
        List.flatten_cons, List.flatten_cons, joinsLines_eq_flatten, hjoins,
        List.map_append, List.map_cons, List.flatten_append, List.flatten_cons,
        joinLines, joinsLines_eq_flatten]
      simp only [List.append_assoc, List.cons_append, List.nil_append]
      exact ⟨_, rfl⟩
    obtain ⟨post, hparent⟩ := hline
    have hlines := exists_lines_enclosed ih (by simp) hparent
    rw [List.length_append, List.length_singleton] at hlines
    exact hlines

/-- The lines of the select list of a query stand where the query stands. -/
theorem StandsAt.getElem?_selectLines (h : StandsAt o q inner opening k)
    {i : Nat} {line : Text}
    (hi : (reopen opening
      (selectLines o (baseOf q.depth inner.depth) inner.distinct
        inner.columns))[i]? = some line) :
    (queryLines o q.depth q)[k + i]? = some line := by
  obtain ⟨before, after, closing, hk, e⟩ := h.exists_lines
  have hbehind : (clauseLines o q.depth inner).tail.flatten ≠ [] := fun h₀ =>
    sourceLines_ne_nil o q.depth _ inner.source
      (List.flatten_eq_nil_iff.1 h₀ _ List.mem_cons_self)
  have hinner : queryLines o q.depth inner =
      selectLines o (baseOf q.depth inner.depth) inner.distinct inner.columns ++
      (clauseLines o q.depth inner).tail.flatten :=
    queryLines_eq_flatten o q.depth inner
  obtain ⟨hlt, -⟩ := List.getElem?_eq_some_iff.1 hi
  rw [e, hinner, reopen_append (selectLines_ne_nil o _ _ _),
    appendLast_append _ _ hbehind, ← hk, List.getElem?_append_right (by omega),
    Nat.add_sub_cancel_left, List.append_assoc, List.getElem?_append_left hlt]
  exact hi

end Lines

/-! ## Every query stands somewhere -/

section Within

variable {o : Options} {n : Nat} {q parent query inner : Query} {opening : Text}
  {k : Nat} {aliasName : Option Text}

/-- A query that stands in a layout is nested in the query that is laid out. -/
theorem StandsAt.exists_within (h : StandsAt o q inner opening k) :
    ∃ n, Within n q inner := by
  induction h with
  | outermost => exact ⟨0, .self q⟩
  | source _ hs ih =>
    obtain ⟨n, hw⟩ := ih
    exact ⟨n + 1, hw.snoc (mem_sources_of_eq hs)⟩
  | @join parent inner _ _ _ before more j _ hjoins hs ih =>
    obtain ⟨n, hw⟩ := ih
    have hj : j ∈ parent.joins := by simp [hjoins]
    exact ⟨n + 1, hw.snoc (hs ▸ mem_sources hj)⟩

/-- A query in a source stands in the layout if the query around it does. -/
theorem StandsAt.exists_of_mem (h : StandsAt o q parent opening k)
    (hs : .subquery inner aliasName ∈ parent.sources) :
    ∃ opening k, StandsAt o q inner opening k := by
  rcases List.mem_cons.1 hs with hs | hs
  · exact ⟨_, _, h.source hs.symm⟩
  · obtain ⟨j, hj, hs⟩ := List.mem_map.1 hs
    obtain ⟨before, more, hjoins⟩ := List.append_of_mem hj
    exact ⟨_, _, h.join hjoins hs⟩

/-- Every query inside a query stands somewhere in its layout. -/
theorem exists_standsAt (o : Options) (h : Within n q inner) :
    ∃ opening k, StandsAt o q inner opening k := by
  suffices key : ∀ {root : Query} {opening : Text} {k : Nat},
    StandsAt o root q opening k →
    ∃ opening k, StandsAt o root inner opening k from key .outermost
  induction h with
  | self q => exact fun hq => ⟨_, _, hq⟩
  | source hs _ ih =>
    intro root opening k hq
    obtain ⟨_, _, hquery⟩ := hq.exists_of_mem hs
    exact ih hquery

/-- What opens a query is as wide as its indentation. -/
theorem StandsAt.length_opening (hdepth : ∀ n inner, Within n q inner →
    inner.depth = q.depth + n) (h : StandsAt o q inner opening k) :
    opening.length = (baseOf q.depth inner.depth).length := by
  have hlevel : ∀ {parent inner : Query} {opening : Text} {k : Nat} {aliasName :
      Option Text}, StandsAt o q parent opening k →
      .subquery inner aliasName ∈ parent.sources →
      (baseOf q.depth inner.depth).length =
      (baseOf q.depth parent.depth).length + nestIndent := by
    intro parent inner opening k aliasName hp hs
    obtain ⟨n, hw⟩ := hp.exists_within
    have hparent := hdepth n parent hw
    have hinner := hdepth (n + 1) inner (hw.snoc hs)
    exact length_baseOf_succ (by omega) (by omega)
  cases h with
  | outermost => simp [baseOf, length_spaces]
  | source hp hs => rw [hlevel hp (mem_sources_of_eq hs), length_fromOpening]
  | @join parent _ _ _ _ _ _ j hp hjoins hs =>
    have hj : j ∈ parent.joins := by simp [hjoins]
    rw [hlevel hp (hs ▸ mem_sources hj), length_joinOpening]

end Within

/-! ## Lines of columns -/

/-- What stands before a column in a list with a line for each of them: `select`
before the first one, and as many blanks before the others. -/
def columnStart (o : Options) (opening : Text) (distinct : Bool) (i : Nat) :
    Text :=
  let head := opening ++ o.keyword "select".toList ++ selectGap o distinct
  if i = 0 then head else spaces head.length

/-- The line of a column. If the column has an alias, `as` starts at a
position. -/
inductive ColumnLine (o : Options) (start behind : Text) (pos : Nat) :
    Column → Text → Prop
  /-- A column without an alias. -/
  | bare {expression : Text} : ColumnLine o start behind pos ⟨expression, none⟩
      (start ++ expression ++ behind)
  /-- A column with an alias: at least one blank stands before `as`. -/
  | aliased {expression name : Text} {n : Nat} :
    (start ++ expression ++ spaces (n + 1)).length = pos →
    ColumnLine o start behind pos ⟨expression, some name⟩
      (start ++ expression ++ spaces (n + 1) ++ o.keyword "as".toList ++ ' ' ::
      name ++ behind)

/-- The columns of a query stand on lines of their own from the line `k` on, in
order and with commas between them, and `as` starts at one position on all these
lines. -/
def AlignedAt (o : Options) (lines : List Text) (opening : Text) (k : Nat)
    (q : Query) : Prop :=
  ∃ pos, ∀ i column, q.columns[i]? = some column →
    ∃ line, lines[k + i]? = some line ∧
    ColumnLine o (columnStart o opening q.distinct i)
    (if i + 1 = q.columns.length then [] else [',']) pos column line

theorem le_foldl_max {m n : Nat} {ns : List Nat} (h : n ≤ m ∨ n ∈ ns) :
    n ≤ ns.foldl max m := by
  induction ns generalizing m with
  | nil => exact h.resolve_right List.not_mem_nil
  | cons k ns ih =>
    refine ih ?_
    rcases h with h | h
    · exact .inl (h.trans (Nat.le_max_left _ _))
    · rcases List.mem_cons.1 h with rfl | h
      · exact .inl (Nat.le_max_right _ _)
      · exact .inr h

section Columns

variable {o : Options} {start behind opening base : Text} {distinct : Bool}
  {columns : List Column} {column : Column} {i width : Nat}

theorem le_width {expression name : Text}
    (h : ⟨expression, some name⟩ ∈ columns) :
    expression.length ≤ (aliasedWidths columns).foldl max 0 :=
  le_foldl_max (.inr (List.mem_map.2 ⟨_, List.mem_filter.2 ⟨h, rfl⟩, rfl⟩))

/-- An expression that is filled up to the width leaves `as` right behind the
width. -/
theorem columnLine_columnText
    (h : column.aliasName.isSome → column.expression.length ≤ width) :
    ColumnLine o start behind (start.length + width + 1) column
      (start ++ (columnText o width column ++ behind)) := by
  obtain ⟨expression, _ | name⟩ := column
  · have hline : ColumnLine o start behind (start.length + width + 1)
        ⟨expression, none⟩ _ := .bare
    rw [List.append_assoc] at hline
    exact hline
  · have hlength : expression.length ≤ width := h rfl
    have hpos :
        (start ++ expression ++ spaces (width - expression.length + 1)).length =
        start.length + width + 1 := by
      rw [List.length_append, List.length_append, length_spaces]
      omega
    have hline : ColumnLine o start behind (start.length + width + 1)
        ⟨expression, some name⟩ _ :=
      .aliased hpos
    have hspaces : spaces (width - expression.length + 1) =
        spaces (width - expression.length) ++ [' '] :=
      List.replicate_succ'
    rw [hspaces] at hline
    simpa [columnText, padEnd] using hline

/-- Every column but the first starts behind as many spaces as the first one is
moved by. -/
theorem columnStart_succ (o : Options) (opening : Text) (distinct : Bool)
    (i : Nat) :
    columnStart o opening distinct (i + 1) =
      spaces (columnStart o opening distinct 0).length :=
  rfl

/-- A line of a list is its row behind the text that leads it, with a comma
unless it is the last. -/
theorem getElem?_rowLines (start indent : Text) {rows : List (List Text)}
    {i : Nat} {row : List Text} (h : rows[i]? = some row) :
    (rowLines start indent rows)[i]? =
      some ((if i = 0 then start else indent) ++
      (rowText row ++ if i + 1 = rows.length then [] else [','])) := by
  induction rows generalizing start i with
  | nil => cases h
  | cons first rows ih =>
    cases rows with
    | nil =>
      cases i with
      | zero =>
        obtain rfl : first = row := by simpa using h
        simp [rowLines]
      | succ i => cases h
    | cons next rows =>
      cases i with
      | zero =>
        obtain rfl : first = row := by simpa using h
        simp [rowLines]
      | succ i =>
        have hi := ih indent h
        rw [ite_self] at hi
        simpa [rowLines] using hi

/-- Rows behind another opening are the rows with the opening before the first
one. -/
theorem reopen_rowLines (opening : Text) {start start' indent : Text}
    (h : ∀ t, trimStart (start ++ t) = start' ++ t) (rows : List (List Text)) :
    reopen opening (rowLines start indent rows) =
      rowLines (opening ++ start') indent rows := by
  cases rows with
  | nil => rfl
  | cons row rows =>
    cases rows with
    | nil => simp [rowLines, reopen, h]
    | cons next rows => simp [rowLines, reopen, h]

/-- The lines of a list with several aliases, behind what opens the query. -/
theorem reopen_selectLines (o : Options) (hb : Blank base)
    (hlength : opening.length = base.length)
    (distinct : Bool) (h : 2 ≤ (aliasedWidths columns).length) :
    reopen opening (selectLines o base distinct columns) =
      rowLines (columnStart o opening distinct 0)
        (spaces (columnStart o opening distinct 0).length)
        (columns.map fun column =>
          [columnText o ((aliasedWidths columns).foldl max 0) column]) := by
  have hstart (t : Text) : trimStart
      (base ++ o.keyword "select".toList ++ selectGap o distinct ++ t) =
      (o.keyword "select".toList ++ selectGap o distinct) ++ t := by
    simp only [List.append_assoc]
    exact trimStart_select o hb _
  have hindent :
      (base ++ o.keyword "select".toList ++ selectGap o distinct).length =
      (columnStart o opening distinct 0).length := by
    simp [columnStart, hlength]
  rw [selectLines_eq, if_neg (by omega), reopen_rowLines opening hstart,
    hindent, List.map_map, ← List.append_assoc]
  rfl

/-- Each column of such a list has a line, and `as` starts behind the widest
expression with an alias. -/
theorem exists_columnLine (o : Options) (hb : Blank base)
    (hlength : opening.length = base.length)
    (distinct : Bool) (h : 2 ≤ (aliasedWidths columns).length) :
    ∃ pos, ∀ i column, columns[i]? = some column → ∃ line,
      (reopen opening (selectLines o base distinct columns))[i]? = some line ∧
      ColumnLine o (columnStart o opening distinct i)
      (if i + 1 = columns.length then [] else [',']) pos column line := by
  refine ⟨(columnStart o opening distinct 0).length +
    (aliasedWidths columns).foldl max 0 + 1, ?_⟩
  intro i column hi
  have hrow : (columns.map fun column =>
      [columnText o ((aliasedWidths columns).foldl max 0) column])[i]? =
      some [columnText o ((aliasedWidths columns).foldl max 0) column] := by
    rw [List.getElem?_map, hi, Option.map_some]
  have hline := getElem?_rowLines (columnStart o opening distinct 0)
    (spaces (columnStart o opening distinct 0).length) hrow
  have hstart : (if i = 0 then columnStart o opening distinct 0
      else spaces (columnStart o opening distinct 0).length) =
      columnStart o opening distinct i := by
    cases i <;> rfl
  have hlen : (columnStart o opening distinct 0).length =
      (columnStart o opening distinct i).length := by
    cases i with
    | zero => rfl
    | succ i => rw [columnStart_succ, length_spaces]
  rw [reopen_selectLines o hb hlength distinct h, hline, hstart,
    List.length_map, hlen]
  refine ⟨_, rfl, columnLine_columnText fun halias => ?_⟩
  obtain ⟨expression, _ | name⟩ := column
  · cases halias
  · exact le_width (List.mem_of_getElem? hi)

end Columns

/-! ## Quoted spans in place -/

section Restored

variable {o : Options} {table : LiteralTable} {start behind opening line : Text}
  {distinct : Bool} {pos i k : Nat} {column : Column} {q inner : Query}

/-- Restoring changes nothing in the line of a column that is restored. -/
theorem ColumnLine.restore_eq (h : ColumnLine o start behind pos column line)
    (hstart : ∃ s, '_' ∉ s ∧ start = s ++ [' '])
    (hbehind : behind = [] ∨ behind = [','])
    (hcolumn : column.restore table = column) : table.restore line = line := by
  obtain ⟨s, hs, rfl⟩ := hstart
  cases h with
  | @bare expression =>
    obtain ⟨hexpression, -⟩ := Column.mk.inj hcolumn
    have hline : s ++ [' '] ++ expression ++ behind =
        s ++ ' ' :: (expression ++ behind) := by simp
    rw [hline, restore_before_space table hs,
      restore_append_behind table hbehind, hexpression]
  | @aliased expression name n _ =>
    obtain ⟨hexpression, hname⟩ := Column.mk.inj hcolumn
    have hname : table.restore name = name := Option.some.inj hname
    have has : '_' ∉ spaces n ++ o.keyword "as".toList :=
      ((lettered_spaces n).append (lettered_keyword o (by decide))).not_mem rfl
        (by decide)
    have hline : s ++ [' '] ++ expression ++ spaces (n + 1) ++ o.keyword
        "as".toList ++ ' ' :: name ++ behind = s ++ ' ' :: (expression ++ ' ' ::
        (spaces n ++ o.keyword "as".toList ++ ' ' :: (name ++ behind))) := by
      simp [spaces, List.replicate_succ]
    rw [hline, restore_before_space table hs,
      LiteralTable.restore_append_cons rfl, restore_before_space table has,
      restore_append_behind table hbehind, hexpression, hname]

/-- A column is restored once and for all. -/
theorem LiteralTable.Sealed.restore_column (h : table.Sealed)
    (column : Column) :
    (column.restore table).restore table = column.restore table := by
  obtain ⟨expression, _ | name⟩ := column
  · show Column.mk (table.restore (table.restore expression)) none =
      Column.mk (table.restore expression) none
    rw [h.restore_twice]
  · show Column.mk (table.restore (table.restore expression))
      (some (table.restore (table.restore name))) =
      Column.mk (table.restore expression) (some (table.restore name))
    rw [h.restore_twice, h.restore_twice]

/-- A column starts behind a space, in a text without underscores. -/
theorem exists_columnStart (o : Options) (h : '_' ∉ opening) (distinct : Bool)
    (i : Nat) :
    ∃ s, '_' ∉ s ∧ columnStart o opening distinct i = s ++ [' '] := by
  have hhead : ∃ s, '_' ∉ s ∧
      columnStart o opening distinct 0 = s ++ [' '] := by
    have hword : Lettered (o.keyword "select".toList ++
        if distinct then [' '] ++ o.keyword "distinct".toList else []) := by
      refine (lettered_keyword o (by decide)).append ?_
      split
      · exact lettered_space.append (lettered_keyword o (by decide))
      · simp [Lettered]
    refine ⟨opening ++ _, List.not_mem_append h (hword.not_mem rfl (by decide)),
      ?_⟩
    simp only [columnStart, if_pos, selectGap, List.append_assoc]
  cases i with
  | zero => exact hhead
  | succ i =>
    obtain ⟨s, -, hs⟩ := hhead
    refine ⟨spaces s.length, (lettered_spaces _).not_mem rfl (by decide), ?_⟩
    rw [columnStart_succ, hs, List.length_append, List.length_singleton]
    exact List.replicate_succ'

/-- No underscore stands in what opens a query. -/
theorem StandsAt.underscore_not_mem (h : StandsAt o q inner opening k) :
    '_' ∉ opening := by
  cases h with
  | outermost => exact List.not_mem_nil
  | source =>
    refine List.not_mem_append ?_ (by decide)
    exact (lettered_lead o (lettered_spaces _) (by decide)).not_mem rfl
      (by decide)
  | join =>
    refine List.not_mem_append ?_ (by decide)
    exact ((lettered_spaces _).append (lettered_spaces _)).not_mem rfl
      (by decide)

end Restored

/-! ## Printed layouts -/

variable {t : Text} {q : Query}

/-- Every query in what a text writes has its depth, and a select list that is
restored once and for all. -/
theorem restored_of_parse (h : parse t = .ok q) :
    (∃ masked, protect t = .ok (masked, q.literals)) ∧
    ∀ n inner, Within n q inner → inner.depth = n ∧
      ∀ column ∈ inner.columns, column.restore q.literals = column := by
  obtain ⟨masked, table, unrestored, hp, hq, rfl⟩ := exists_of_parse h
  have hsealed : table.Sealed := LiteralTable.sealed_of_protect hp
  have htable : unrestored.restoreColumns.literals = table := by
    rw [literals_restoreColumns, (sound_readMasked hq 0 _ (.self _)).literals]
  rw [htable]
  refine ⟨⟨masked, hp⟩, fun n inner hw => ?_⟩
  obtain ⟨inner, hwithin, rfl⟩ := within_restoreColumns hw
  have hinner := sound_readMasked hq n inner hwithin
  rw [depth_restoreColumns, columns_restoreColumns, hinner.literals]
  exact ⟨hinner.level, List.forall_mem_map.2 fun column _ =>
    hsealed.restore_column column⟩

/-- Aliases line up in a printed layout whose quoted spans are each on one line:
every query in it, the outer one and all in brackets, stands somewhere, and if
it has several aliases, its columns are on lines of their own with `as` at one
position. -/
theorem aliases_aligned (o : Options) {segs : List Segment}
    (h : parse t = .ok q) (hs : segments t = .ok segs)
    (hflat : ∀ span, Segment.quoted span ∈ segs → '\n' ∉ span) :
    format o t = .ok (render o q) ∧
    (∀ n inner, Within n q inner → ∃ opening k, StandsAt o q inner opening k) ∧
    ∀ inner opening k, StandsAt o q inner opening k →
      2 ≤ (inner.columns.filter fun column => column.aliasName.isSome).length →
      AlignedAt o (lines (render o q)) opening k inner := by
  refine ⟨by rw [format, h]; rfl, fun n inner => exists_standsAt o,
    fun inner opening k hat hmany => ?_⟩
  obtain ⟨⟨masked, hp⟩, hinside⟩ := restored_of_parse h
  obtain ⟨hdepth, -⟩ := hinside 0 q (.self q)
  obtain ⟨n, hw⟩ := hat.exists_within
  obtain ⟨-, hcolumns⟩ := hinside n inner hw
  have hliterals : ∀ literal ∈ q.literals.literals, Unbroken literal := by
    obtain ⟨segs', hsegs, htable, -⟩ := protect_eq_ok_iff.1 hp
    obtain rfl : segs = segs' := Except.ok.inj (hs.symm.trans hsegs)
    rw [htable]
    exact fun literal hmem =>
      hflat literal (LiteralTable.mem_literals_ofSegments.1 hmem)
  have hlength := hat.length_opening fun n inner hw => by
    rw [(hinside n inner hw).1, hdepth, Nat.zero_add]
  obtain ⟨pos, hpos⟩ := exists_columnLine o (blank_baseOf _ _) hlength
    inner.distinct (by rwa [aliasedWidths, List.length_map])
  refine ⟨pos, fun i column hi => ?_⟩
  obtain ⟨line, hline, hshape⟩ := hpos i column hi
  have hsame : q.restore line = line := hshape.restore_eq
    (exists_columnStart o hat.underscore_not_mem inner.distinct i)
    (by split <;> simp) (hcolumns column (List.mem_of_getElem? hi))
  refine ⟨line, ?_, hshape⟩
  rw [lines_render o h hliterals, List.getElem?_map,
    hat.getElem?_selectLines hline, Option.map_some, hsame]

/-- A text with a quoted expression, a quoted alias and a query in brackets. -/
def namedText : Text :=
  "select distinct 'a b' as x, c y from (select f(u) v, w as \"z\", k from t) s".toList

/-- The quoted spans of the text. -/
def namedTable : LiteralTable := ⟨0, ["'a b'".toList, "\"z\"".toList]⟩

/-- The query in brackets. -/
def namedKeys : Query where
  columns :=
    [⟨"f(u)".toList, some ['v']⟩, ⟨['w'], some "\"z\"".toList⟩, ⟨['k'], none⟩]
  source := .table ['t'] none
  literals := namedTable
  depth := 1

/-- What the text writes. -/
def namedQuery : Query where
  distinct := true
  columns := [⟨"'a b'".toList, some ['x']⟩, ⟨['c'], some ['y']⟩]
  source := .subquery namedKeys (some ['s'])
  literals := namedTable

/-- In the query in brackets, which stands on the third line, `as` is at one
position on two lines. -/
theorem aliases_aligned_named :
    lines (render {} namedQuery) = ["select distinct 'a b' as x,".toList,
      "                c     as y".toList, "  from (select f(u) as v,".toList,
      "               w    as \"z\",".toList, "               k".toList,
      "          from t) s".toList] ∧
    AlignedAt {} (lines (render {} namedQuery)) [] 0 namedQuery ∧ AlignedAt {}
      (lines (render {} namedQuery)) "  from (".toList 2 namedKeys := by
  have hparse : parse namedText = .ok namedQuery := by decide +kernel
  obtain ⟨_, _, _, hp, -⟩ := exists_of_parse hparse
  obtain ⟨segs, hs, -⟩ := protect_eq_ok_iff.1 hp
  -- the text is on one line, and so are its segments
  have hflat : ∀ span, Segment.quoted span ∈ segs → '\n' ∉ span := by
    intro span hspan hm
    have hmem : '\n' ∈ segs.flatMap Segment.source :=
      List.mem_flatMap.2 ⟨_, hspan, hm⟩
    rw [source_of_segments hs] at hmem
    exact absurd hmem (by decide)
  obtain ⟨-, -, haligned⟩ := aliases_aligned {} hparse hs hflat
  have hkeys : StandsAt {} namedQuery namedKeys "  from (".toList 2 :=
    .source .outermost rfl
  exact ⟨by decide +kernel, haligned _ _ _ .outermost (by decide),
    haligned _ _ _ hkeys (by decide)⟩

end SqlRiver
