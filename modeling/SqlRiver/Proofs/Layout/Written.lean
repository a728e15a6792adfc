import SqlRiver.Proofs.Layout.Aligned

/-!
# Layouts of changed pieces

The pieces of a query are its own texts: columns, names, predicates, entries of
lists. A layout puts keywords, spaces, commas and brackets between them. Here a
layout is written down once more with a function applied to each piece and to
nothing else, while all widths are measured as before. For a function that
distributes over separators this is the same as to lay the query out first and
apply the function to each line, or to all lines joined. So a quoted span is put
back wherever its placeholder stands, and nowhere else.

A layout of changed pieces is not the layout of a changed query, since a width
may change with a piece. In a query that was read from a text no width changes:
select lists are restored already, and entries of lists are measured with their
quoted spans in place.

Main definitions and statements:

* `writtenLines`: the lines of a query whose pieces are changed.
* `map_queryLines`: changing the lines of a query is changing its pieces.
* `Query.mapPieces`, `Settled`: a query with changed pieces, and when no width
  changes with them.
* `writtenLines_of_settled`: the lines of that query.
* `restore_pieces`: quoted spans are put back into a layout piece by piece.
-/

namespace SqlRiver

open Text

/-! ## Changed pieces -/

/-- A condition with a changed predicate. -/
def Condition.mapPieces (f : Text → Text) (condition : Condition) : Condition :=
  ⟨condition.combinator, f condition.predicate⟩

/-- A column with a changed expression and a changed alias. -/
def Column.mapPieces (f : Text → Text) (column : Column) : Column :=
  ⟨f column.expression, column.aliasName.map f⟩

/-- A changed column, filled up by as much as the column itself. -/
def writtenColumn (f : Text → Text) (o : Options) (width : Nat)
    (column : Column) : Text :=
  match column.aliasName with
  | some name =>
    f column.expression ++ spaces (width - column.expression.length) ++ [' '] ++
      o.keyword "as".toList ++ [' '] ++ f name
  | none => f column.expression

/-- The lines of a select list with changed columns. -/
def writtenSelect (f : Text → Text) (o : Options) (base : Text)
    (distinct : Bool) (columns : List Column) : List Text :=
  let head := base ++ o.keyword "select".toList ++ selectGap o distinct
  if (aliasedWidths columns).length ≤ 1 then
    rowLines head [] [columns.map (writtenColumn f o 0)]
  else
    rowLines head (spaces head.length) (columns.map fun column =>
      [writtenColumn f o ((aliasedWidths columns).foldl max 0) column])

/-- The lines of a `group by` or `order by` list with changed entries, in the
rows of the list itself. -/
def writtenList (f : Text → Text) (o : Options) (base : Text)
    (literals : LiteralTable) (word : Text) (entries : List Text) : List Text :=
  let head := listHead o base word
  let measure := fun entry => (literals.restore entry).length
  rowLines head (spaces head.length)
    ((wrap head.length o.maxWidth measure entries).map (List.map f))

mutual

/-- The lines of a query whose pieces are changed. -/
def writtenLines (f : Text → Text) (o : Options) (root : Nat) :
    Query → List Text
  | { distinct, columns, source, joins, filter, groupBy, having, orderBy, limit,
      offset, literals, depth } =>
    let base := baseOf root depth
    writtenSelect f o base distinct columns ++
      writtenSource f o root (lead o base "from".toList ++ [' ']) source ++
      writtenJoins f o root base joins ++ conditionLines o base "where".toList
      (filter.map (Condition.mapPieces f)) ++ writtenList f o base literals
      "group".toList groupBy ++ conditionLines o base "having".toList
      (having.map (Condition.mapPieces f)) ++ writtenList f o base literals
      "order".toList orderBy ++ expressionLines o base "offset".toList
      (offset.map f) ++ expressionLines o base "limit".toList (limit.map f)

/-- The lines of a source whose pieces are changed. -/
def writtenSource (f : Text → Text) (o : Options) (root : Nat) (start : Text) :
    Source → List Text
  | .table name aliasName => [start ++ f name ++ aliasText (aliasName.map f)]
  | .subquery query aliasName =>
    enclose start (aliasName.map f) (writtenLines f o root query)

/-- The lines of a join whose pieces are changed. -/
def writtenJoin (f : Text → Text) (o : Options) (root : Nat) (base : Text) :
    Join → List Text
  | { kind, source, onPredicate, usingColumns } =>
    (match source with
      | .table name aliasName =>
        writtenSource f o root (joinLead o base kind ++ [' '])
          (.table name aliasName)
      | .subquery query aliasName =>
        joinLead o base kind :: writtenSource f o root
          (base ++ spaces (nestIndent - 1)) (.subquery query aliasName))
      ++ joinConditionLines o base (onPredicate.map f) (usingColumns.map f)

/-- The lines of several joins whose pieces are changed. -/
def writtenJoins (f : Text → Text) (o : Options) (root : Nat) (base : Text) :
    List Join → List Text
  | [] => []
  | join :: more =>
    writtenJoin f o root base join ++ writtenJoins f o root base more

end

/-! ## Lines of clauses -/

section Clauses

variable {f : Text → Text} {o : Options} {base start indent : Text}
  (hf : Distributes f)

/-- The first line of a query holds `select` behind the indentation, and a space
behind the word. -/
theorem exists_firstLine (o : Options) (root : Nat) (q : Query) :
    ∃ y more, queryLines o root q = (baseOf root q.depth ++
      (o.keyword "select".toList ++ ' ' :: y)) :: more := by
  have hgap : ∃ g, selectGap o q.distinct = ' ' :: g := by
    cases q.distinct with
    | false => exact ⟨_, rfl⟩
    | true => exact ⟨_, rfl⟩
  obtain ⟨g, hg⟩ := hgap
  have hrows : ∃ indent rows, rows ≠ [] ∧ selectLines o (baseOf root q.depth)
      q.distinct q.columns = rowLines (baseOf root q.depth ++
      o.keyword "select".toList ++ selectGap o q.distinct) indent rows := by
    have hne := selectLines_ne_nil o (baseOf root q.depth) q.distinct q.columns
    rw [selectLines_eq] at hne ⊢
    split at hne
    · next h =>
      rw [if_pos h]
      exact ⟨_, _, List.cons_ne_nil _ _, rfl⟩
    · next h =>
      rw [if_neg h]
      refine ⟨_, _, fun h₀ => hne ?_, rfl⟩
      rw [h₀]
      rfl
  obtain ⟨indent, rows, h₀, hrows⟩ := hrows
  obtain ⟨x, more, h⟩ := exists_rowLines _ indent h₀
  refine ⟨g ++ x, more ++ (clauseLines o root q).tail.flatten, ?_⟩
  rw [queryLines_eq_flatten, clauseLines, List.flatten_cons, hrows, h, hg]
  simp

/-- A change of every line changes what stands behind the last one. -/
theorem map_appendLast {x x' : Text} (h : ∀ t, f (t ++ x) = f t ++ x') :
    ∀ lines : List Text,
      (appendLast x lines).map f = appendLast x' (lines.map f)
  | [] => rfl
  | [line] => congrArg (fun line => [line]) (h line)
  | line :: next :: lines => by
    have ih := map_appendLast h (next :: lines)
    rw [appendLast, List.map_cons, ih]
    · rfl
    · exact List.cons_ne_nil next lines

include hf

theorem passes_baseOf (root depth : Nat) : Passes f (baseOf root depth) :=
  hf.passes_spaces _

/-- A keyword at the river and the space behind it stay. -/
theorem passes_lead (hb : Lettered base) (word : Text)
    (hw : ∀ c ∈ word, c.isLower = true ∨ c = ' ') :
    Passes f (lead o base word ++ [' ']) :=
  hf.passes_concat ((lettered_lead o hb hw).not_mem rfl (by decide)) rfl

/-- The rows of changed lines are the changed rows. -/
theorem map_rowLines (hstart : Passes f start) (hindent : Passes f indent)
    (rows : List (List Text)) :
    (rowLines start indent rows).map f =
      rowLines start indent (rows.map (List.map f)) := by
  induction rows generalizing start with
  | nil => rfl
  | cons row rows ih =>
    have hrow : f (start ++ rowText row) = start ++ rowText (row.map f) := by
      rw [hstart, hf.rowText]
    cases rows with
    | nil => exact congrArg (fun line => [line]) hrow
    | cons next rows =>
      have hcomma : f (start ++ rowText row ++ [',']) =
          start ++ rowText (row.map f) ++ [','] := by
        rw [hf.append_of_forall (by decide), hrow]
      rw [rowLines, List.map_cons, hcomma, ih hindent]
      · rfl
      · exact List.cons_ne_nil next rows

/-- A column is changed in its pieces only. -/
theorem map_columnText (width : Nat) (column : Column) :
    f (columnText o width column) = writtenColumn f o width column := by
  obtain ⟨expression, _ | name⟩ := column
  · rfl
  · have has : '_' ∉ o.keyword "as".toList :=
      (lettered_keyword o (by decide)).not_mem rfl (by decide)
    -- at least one space is behind the expression
    have hspaces : spaces (width - expression.length) ++ [' '] =
        ' ' :: spaces (width - expression.length) :=
      List.replicate_succ'.symm
    have hrest : f (spaces (width - expression.length) ++
        (o.keyword "as".toList ++ ' ' :: name)) =
        spaces (width - expression.length) ++
        (o.keyword "as".toList ++ ' ' :: f name) := by
      rw [hf.passes_spaces, hf.between rfl, hf.stays has]
    have htext : columnText o width ⟨expression, some name⟩ =
        expression ++ ' ' :: (spaces (width - expression.length) ++
        (o.keyword "as".toList ++ ' ' :: name)) := by
      rw [columnText, padEnd, List.append_assoc expression, hspaces]
      simp
    have hwritten : writtenColumn f o width ⟨expression, some name⟩ =
        f expression ++ ' ' :: (spaces (width - expression.length) ++
        (o.keyword "as".toList ++ ' ' :: f name)) := by
      rw [writtenColumn, List.append_assoc (f expression), hspaces]
      simp
    rw [htext, hf.between rfl, hrest, hwritten]

/-- The changed lines of `select` are those of the changed columns. -/
theorem map_selectLines (hb : Lettered base) (distinct : Bool)
    (columns : List Column) :
    (selectLines o base distinct columns).map f =
      writtenSelect f o base distinct columns := by
  have hstart :
      Passes f (base ++ o.keyword "select".toList ++ selectGap o distinct) := by
    rw [selectGap, ← List.append_assoc]
    refine hf.passes_concat (Lettered.not_mem ?_ rfl (by decide)) rfl
    refine (hb.append (lettered_keyword o (by decide))).append ?_
    split
    · exact lettered_space.append (lettered_keyword o (by decide))
    · simp [Lettered]
  rw [selectLines_eq, writtenSelect]
  split
  · rw [map_rowLines hf hstart (passes_nil f)]
    simp only [List.map_cons, List.map_nil, List.map_map, Function.comp_def,
      map_columnText hf]
  · rw [map_rowLines hf hstart (hf.passes_spaces _)]
    simp only [List.map_cons, List.map_nil, List.map_map, Function.comp_def,
      map_columnText hf]

/-- The changed lines of the conditions are those of the changed predicates. -/
theorem map_conditionLines (hb : Lettered base) (word : Text)
    (hw : ∀ c ∈ word, c.isLower = true ∨ c = ' ')
    (conditions : List Condition) :
    (conditionLines o base word conditions).map f =
      conditionLines o base word (conditions.map (Condition.mapPieces f)) := by
  cases conditions with
  | nil => rfl
  | cons first more =>
    have hcombinator (condition : Condition) :
        f (lead o base condition.combinator.word ++ [' '] ++
        condition.predicate) = lead o base condition.combinator.word ++ [' '] ++
        f condition.predicate :=
      passes_lead hf hb _ (by cases condition.combinator <;> decide) _
    simp only [conditionLines, List.map_cons, List.map_map, Function.comp_def,
      hcombinator, passes_lead hf hb word hw _]
    rfl

/-- The changed lines of a list are those of the changed entries. -/
theorem map_listLines (hb : Lettered base) (word : Text)
    (hw : ∀ c ∈ word, c.isLower = true ∨ c = ' ')
    (literals : LiteralTable) (entries : List Text) :
    (listLines o base literals word entries).map f =
      writtenList f o base literals word entries := by
  have hstart : Passes f (listHead o base word) := by
    have hlead := (lettered_lead o hb hw).append lettered_space
    exact hf.passes_concat ((hlead.append
      (lettered_keyword o (by decide))).not_mem rfl (by decide)) rfl
  exact map_rowLines hf hstart (hf.passes_spaces _) _

/-- The changed line of a single expression is that of the changed
expression. -/
theorem map_expressionLines (hb : Lettered base) (word : Text)
    (hw : ∀ c ∈ word, c.isLower = true ∨ c = ' ') (expression : Option Text) :
    (expressionLines o base word expression).map f =
      expressionLines o base word (expression.map f) := by
  cases expression with
  | none => rfl
  | some t => exact congrArg (fun line => [line]) (passes_lead hf hb word hw t)

theorem map_aliasText (aliasName : Option Text) (t : Text) :
    f (t ++ aliasText aliasName) = f t ++ aliasText (aliasName.map f) := by
  cases aliasName with
  | none => rw [aliasText, List.append_nil]; exact (List.append_nil _).symm
  | some name => exact hf.between rfl t name

/-- Lines in brackets are changed by themselves, since `select` stays at the
start of the first one. -/
theorem map_enclose (hstart : Passes f start) (aliasName : Option Text)
    (root : Nat) (q : Query) :
    (enclose start aliasName (queryLines o root q)).map f =
      enclose start (aliasName.map f) ((queryLines o root q).map f) := by
  obtain ⟨y, more, h⟩ := exists_firstLine o root q
  have hselect (t : Text) : f (o.keyword "select".toList ++ ' ' :: t) =
      o.keyword "select".toList ++ ' ' :: f t := by
    rw [hf.between rfl,
      hf.stays ((lettered_keyword o (by decide)).not_mem rfl (by decide))]
  have htrim (t : Text) :=
    trimStart_select o (blank_baseOf root q.depth) (' ' :: t)
  have hfirst : f (start ++ ['('] ++ (o.keyword "select".toList ++ ' ' :: y)) =
      start ++ ['('] ++ (o.keyword "select".toList ++ ' ' :: f y) := by
    rw [hstart.append (hf.passes (s := ['(']) (by decide)), hselect]
  have hclosing (t : Text) : f (t ++ ')' :: aliasText aliasName) =
      f t ++ ')' :: aliasText (aliasName.map f) := by
    have halias := map_aliasText hf aliasName []
    rw [List.nil_append, hf.nil, List.nil_append] at halias
    rw [hf.between rfl, halias]
  rw [h]
  simp only [enclose, map_appendLast hclosing, List.map_cons, htrim, hfirst,
    passes_baseOf hf _ _ _, hselect]

/-- The changed lines of a join's condition are those of the changed predicate
or columns. -/
theorem map_joinConditionLines (hb : Lettered base) (onPredicate : Option Text)
    (usingColumns : List Text) :
    (joinConditionLines o base onPredicate usingColumns).map f =
      joinConditionLines o base (onPredicate.map f) (usingColumns.map f) := by
  rw [joinConditionLines, joinConditionLines, List.map_append,
    map_expressionLines hf hb _ (by decide)]
  congr 1
  have hempty : (usingColumns.map f).isEmpty = usingColumns.isEmpty := by
    cases usingColumns <;> rfl
  rw [hempty]
  split
  · rfl
  · have hopen : Passes f (lead o base "using".toList ++ [' ', '(']) := by
      have hspace := passes_lead hf (o := o) hb "using".toList (by decide)
      have hboth := hspace.append (hf.passes (s := ['(']) (by decide))
      rwa [List.append_assoc] at hboth
    rw [List.map_singleton, hf.append_of_forall (by decide), hopen, hf.rowText]

/-- The words of a join are not changed, nor is what stands before the
source. -/
theorem map_joinLead (hb : Lettered base) (kind : JoinKind) :
    f (joinLead o base kind) = joinLead o base kind ∧
    Passes f (joinLead o base kind ++ [' ']) := by
  have hlead : Lettered (joinLead o base kind) := by
    cases kind with
    | plain => exact lettered_lead o hb (by decide)
    | _ =>
      exact ((lettered_lead o hb (by decide)).append lettered_space).append
        (lettered_keyword o (by decide))
  have hnot := hlead.not_mem rfl (by decide : '_' ≠ ' ')
  exact ⟨hf.stays hnot, hf.passes_concat hnot rfl⟩

end Clauses

/-! ## Lines of queries -/

mutual

/-- Changing the lines of a query is changing its pieces. -/
theorem map_queryLines {f : Text → Text} (hf : Distributes f) (o : Options)
    (root : Nat) :
    ∀ q : Query, (queryLines o root q).map f = writtenLines f o root q
  | { distinct, columns, source, joins, filter, groupBy, having, orderBy, limit,
      offset, literals, depth } => by
    have hb : Lettered (baseOf root depth) := lettered_spaces _
    rw [queryLines, writtenLines]
    simp only [List.map_append, map_selectLines hf hb,
      map_joinsLines hf o root depth joins, map_sourceLines hf o root source
      (passes_lead hf hb "from".toList (by decide)),
      map_conditionLines hf hb "where".toList (by decide),
      map_conditionLines hf hb "having".toList (by decide),
      map_listLines hf hb "group".toList (by decide),
      map_listLines hf hb "order".toList (by decide),
      map_expressionLines hf hb "offset".toList (by decide),
      map_expressionLines hf hb "limit".toList (by decide)]

/-- The changed lines of a source are those of the changed source. -/
theorem map_sourceLines {f : Text → Text} (hf : Distributes f) (o : Options)
    (root : Nat) :
    ∀ (s : Source) {start : Text}, Passes f start →
      (sourceLines o root start s).map f = writtenSource f o root start s
  | .table name aliasName, start, hstart => by
    rw [sourceLines, writtenSource, List.map_singleton, List.append_assoc,
      hstart, map_aliasText hf, List.append_assoc]
  | .subquery query aliasName, start, hstart => by
    rw [sourceLines, writtenSource, map_enclose hf hstart,
      map_queryLines hf o root query]

/-- The changed lines of joins are those of the changed joins. -/
theorem map_joinsLines {f : Text → Text} (hf : Distributes f) (o : Options)
    (root depth : Nat) :
    ∀ joins : List Join, (joinsLines o root (baseOf root depth) joins).map f =
      writtenJoins f o root (baseOf root depth) joins
  | [] => rfl
  | { kind, source, onPredicate, usingColumns } :: more => by
    have hb : Lettered (baseOf root depth) := lettered_spaces _
    obtain ⟨hlead, hpasses⟩ := map_joinLead hf (o := o) hb kind
    have hstart :=
      (passes_baseOf hf root depth).append (hf.passes_spaces (nestIndent - 1))
    have hmore := map_joinsLines hf o root depth more
    have hcondition :=
      map_joinConditionLines hf (o := o) hb onPredicate usingColumns
    rw [joinsLines, writtenJoins, List.map_append, hmore]
    cases source with
    | table name aliasName =>
      rw [joinLines, writtenJoin, List.map_append, hcondition,
        map_sourceLines hf o root (.table name aliasName) hpasses]
    | subquery query aliasName =>
      rw [joinLines, writtenJoin, List.map_append, hcondition, List.map_cons,
        hlead, map_sourceLines hf o root (.subquery query aliasName) hstart]

end

/-- The layout of unchanged pieces is the layout of the query. -/
theorem writtenLines_id (o : Options) (root : Nat) (q : Query) :
    writtenLines id o root q = queryLines o root q := by
  rw [← map_queryLines distributes_id, List.map_id]

/-! ## Queries of changed pieces -/

mutual

/-- A query whose pieces are changed, and those of the queries inside it. -/
def Query.mapPieces (f : Text → Text) : Query → Query
  | { distinct, columns, source, joins, filter, groupBy, having, orderBy, limit,
      offset, literals, depth } =>
    { distinct, columns := columns.map (Column.mapPieces f)
      source := Source.mapPieces f source, joins := Join.mapAllPieces f joins
      filter := filter.map (Condition.mapPieces f), groupBy := groupBy.map f
      having := having.map (Condition.mapPieces f), orderBy := orderBy.map f
      limit := limit.map f, offset := offset.map f, literals, depth }

/-- A source whose pieces are changed. -/
def Source.mapPieces (f : Text → Text) : Source → Source
  | .table name aliasName => .table (f name) (aliasName.map f)
  | .subquery query aliasName =>
    .subquery (Query.mapPieces f query) (aliasName.map f)

/-- A join whose pieces are changed. -/
def Join.mapPieces (f : Text → Text) : Join → Join
  | { kind, source, onPredicate, usingColumns } =>
    { kind, source := Source.mapPieces f source,
      onPredicate := onPredicate.map f
      usingColumns := usingColumns.map f }

/-- Joins whose pieces are changed. -/
def Join.mapAllPieces (f : Text → Text) : List Join → List Join
  | [] => []
  | join :: more => Join.mapPieces f join :: Join.mapAllPieces f more

end

/-- No width in the layout of a query changes with its pieces. -/
structure Settled (f : Text → Text) (q : Query) : Prop where
  columns : ∀ column ∈ q.columns,
    (f column.expression).length = column.expression.length
  entries : ∀ entry ∈ q.groupBy ++ q.orderBy,
    (q.restore (f entry)).length = (q.restore entry).length

section Settled

variable {f : Text → Text}

/-- Entries that measure the same are wrapped at the same places, by induction
on the entries. -/
theorem wrapFrom_map {measure : Text → Nat} (indent width : Nat)
    {entries : List Text}
    (h : ∀ entry ∈ entries, measure (f entry) = measure entry) (used : Nat) :
    wrapFrom indent width measure used (entries.map f) =
      (wrapFrom indent width measure used entries).map (List.map f) := by
  induction entries generalizing used with
  | nil => rfl
  | cons entry more ih =>
    obtain ⟨hentry, hmore⟩ := List.forall_mem_cons.1 h
    have hfirst (rows : List (List Text)) :
        Text.consFirst (f entry) (rows.map (List.map f)) =
        (Text.consFirst entry rows).map (List.map f) := by
      cases rows <;> rfl
    rw [List.map_cons, wrapFrom, wrapFrom, hentry, ih hmore, ih hmore, hfirst,
      hfirst]
    split <;> rfl

/-- A list whose entries measure the same is wrapped at the same places. -/
theorem wrap_map {measure : Text → Nat} (indent width : Nat)
    {entries : List Text}
    (h : ∀ entry ∈ entries, measure (f entry) = measure entry) :
    wrap indent width measure (entries.map f) =
      (wrap indent width measure entries).map (List.map f) := by
  cases entries with
  | nil => rfl
  | cons entry more =>
    obtain ⟨hentry, hmore⟩ := List.forall_mem_cons.1 h
    rw [List.map_cons, wrap, wrap, hentry, wrapFrom_map indent width hmore]
    cases wrapFrom indent width measure (indent + measure entry) more <;> rfl

/-- A list whose entries keep their restored width is wrapped as the changed
list is. -/
theorem writtenList_eq {literals : LiteralTable} {entries : List Text}
    (o : Options) (base word : Text) (h : ∀ entry ∈ entries,
    (literals.restore (f entry)).length = (literals.restore entry).length) :
    writtenList f o base literals word entries =
      listLines o base literals word (entries.map f) := by
  rw [writtenList, ← wrap_map _ _ h]
  rfl

/-- Columns whose expressions keep their width are aligned as the changed
columns are. -/
theorem writtenSelect_eq {columns : List Column} (o : Options) (base : Text)
    (distinct : Bool) (h : ∀ column ∈ columns,
    (f column.expression).length = column.expression.length) :
    writtenSelect f o base distinct columns =
      selectLines o base distinct (columns.map (Column.mapPieces f)) := by
  have hwidths : aliasedWidths (columns.map (Column.mapPieces f)) =
      aliasedWidths columns := by
    have halias : ((fun column => column.aliasName.isSome) ∘
        Column.mapPieces f) = fun column => column.aliasName.isSome := by
      funext column
      exact Option.isSome_map
    rw [aliasedWidths, List.filter_map, halias, List.map_map, aliasedWidths]
    exact List.map_congr_left fun column hmem =>
      h column (List.mem_filter.1 hmem).1
  have htext (width : Nat) : ∀ column ∈ columns, writtenColumn f o width
      column = columnText o width (column.mapPieces f) := by
    rintro ⟨expression, _ | name⟩ hmem
    · rfl
    · have hlength : (f expression).length = expression.length := h _ hmem
      simp only [writtenColumn, columnText, Column.mapPieces, Option.map_some,
        padEnd, hlength]
  rw [selectLines_eq, writtenSelect, hwidths]
  have hrow : columns.map (writtenColumn f o 0) =
      (columns.map (Column.mapPieces f)).map (columnText o 0) := by
    rw [List.map_map]
    exact List.map_congr_left (htext 0)
  have hrows : columns.map (fun column =>
      [writtenColumn f o ((aliasedWidths columns).foldl max 0) column]) =
      ((columns.map (Column.mapPieces f)).map fun column => [column]).map
      (List.map (columnText o ((aliasedWidths columns).foldl max 0))) := by
    rw [List.map_map, List.map_map]
    exact List.map_congr_left fun column hmem =>
      congrArg (fun t => [t]) (htext _ column hmem)
  rw [hrow, hrows]
  rfl

mutual

/-- Where no width changes, the layout of changed pieces is the layout of the
changed query. -/
theorem writtenLines_of_settled (o : Options) (root : Nat) :
    ∀ q : Query, (∀ n inner, Within n q inner → Settled f inner) →
      writtenLines f o root q = queryLines o root (q.mapPieces f)
  | { distinct, columns, source, joins, filter, groupBy, having, orderBy, limit,
      offset, literals, depth }, h => by
    obtain ⟨hcolumns, hentries⟩ := h 0 _ (.self _)
    have hsource := writtenSource_of_settled o root
      (lead o (baseOf root depth) "from".toList ++ [' ']) source
      fun query aliasName hs n inner hw =>
        h (n + 1) inner (.source (mem_sources_of_eq hs) hw)
    have hjoins := writtenJoins_of_settled o root (baseOf root depth) joins
      fun join hj query aliasName hs n inner hw =>
        h (n + 1) inner (.source (hs ▸ mem_sources hj) hw)
    have hgroup := writtenList_eq o (baseOf root depth) "group".toList
      fun entry hmem => hentries entry (List.mem_append_left _ hmem)
    have horder := writtenList_eq o (baseOf root depth) "order".toList
      fun entry hmem => hentries entry (List.mem_append_right _ hmem)
    rw [writtenLines, Query.mapPieces, queryLines,
      writtenSelect_eq o _ _ hcolumns, hsource, hjoins, hgroup, horder]

/-- A source whose queries are settled is written like the changed source. -/
theorem writtenSource_of_settled (o : Options) (root : Nat) (start : Text) :
    ∀ s : Source, (∀ query aliasName, s = .subquery query aliasName →
      ∀ n inner, Within n query inner → Settled f inner) →
      writtenSource f o root start s = sourceLines o root start (s.mapPieces f)
  | .table name aliasName, _ => rfl
  | .subquery query aliasName, h => by
    rw [writtenSource, Source.mapPieces, sourceLines,
      writtenLines_of_settled o root query (h query aliasName rfl)]

/-- Joins whose queries are settled are written like the changed joins. -/
theorem writtenJoins_of_settled (o : Options) (root : Nat) (base : Text) :
    ∀ joins : List Join, (∀ join ∈ joins, ∀ query aliasName,
      join.source = .subquery query aliasName →
      ∀ n inner, Within n query inner → Settled f inner) →
      writtenJoins f o root base joins =
      joinsLines o root base (Join.mapAllPieces f joins)
  | [], _ => rfl
  | { kind, source, onPredicate, usingColumns } :: more, h => by
    obtain ⟨hfirst, hmore⟩ := List.forall_mem_cons.1 h
    rw [writtenJoins, Join.mapAllPieces, joinsLines,
      writtenJoins_of_settled o root base more hmore, Join.mapPieces]
    cases source with
    | table name aliasName => rfl
    | subquery query aliasName =>
      rw [writtenJoin, Source.mapPieces, joinLines, writtenSource_of_settled o
        root _ (.subquery query aliasName) hfirst, Source.mapPieces]

end

end Settled

/-! ## Quoted spans -/

variable {t masked : Text} {table : LiteralTable} {q : Query}

/-- All queries in what a text writes have one table. -/
theorem literals_of_parse (h : parse t = .ok q) {n : Nat} {inner : Query}
    (hw : Within n q inner) : inner.literals = q.literals := by
  obtain ⟨masked, table, unrestored, -, hq, rfl⟩ := exists_of_parse h
  obtain ⟨inner, hwithin, rfl⟩ := within_restoreColumns hw
  rw [literals_restoreColumns, literals_restoreColumns,
    (sound_readMasked hq n inner hwithin).literals,
    (sound_readMasked hq 0 _ (.self _)).literals]

/-- No width changes with the quoted spans in a query that was read from a
text. -/
theorem settled_of_parse (h : parse t = .ok q) {n : Nat} {inner : Query}
    (hw : Within n q inner) : Settled q.literals.restore inner := by
  obtain ⟨⟨masked, hp⟩, hinside⟩ := restored_of_parse h
  refine ⟨fun column hmem => ?_, fun entry _ => ?_⟩
  · exact congrArg (fun column => column.expression.length)
      ((hinside n inner hw).2 column hmem)
  · rw [Query.restore, Query.restore, literals_of_parse h hw,
      (LiteralTable.sealed_of_protect hp).restore_twice]

/-- Quoted spans are put back on each side of a character outside of words by
themselves. So they are put back into a layout line by line, and piece by piece
on each line; and a query that was read from a text has the layout of the query
whose pieces are restored one by one. -/
theorem restore_pieces (h : protect t = .ok (masked, table)) :
    (∀ c, isWordChar c = false → ∀ a b, table.restore (a ++ c :: b) =
      table.restore a ++ c :: table.restore b) ∧ (∀ o q, q.literals = table →
      render o q = join ['\n'] ((queryLines o q.depth q).map table.restore) ∧
      render o q = join ['\n'] (writtenLines table.restore o q.depth q) ∧
      queryLines o q.depth q = writtenLines id o q.depth q) ∧
    ∀ o q, parse t = .ok q → q.literals = table ∧ render o q =
      join ['\n'] (queryLines o q.depth (q.mapPieces table.restore)) := by
  have hlines (o : Options) (q : Query) (hq : q.literals = table) : render o q =
      join ['\n'] ((queryLines o q.depth q).map table.restore) := by
    rw [render, Query.restore, hq]
    exact (distributes_restore table).join (by simp) (by decide) _
  refine ⟨fun c hc a b => LiteralTable.restore_append_cons hc a b,
    fun o q hq => ?_, fun o q hq => ?_⟩
  · refine ⟨hlines o q hq, ?_, (writtenLines_id o q.depth q).symm⟩
    rw [hlines o q hq, map_queryLines (distributes_restore table)]
  · obtain ⟨⟨masked', hp⟩, -⟩ := restored_of_parse hq
    obtain rfl : table = q.literals :=
      (Prod.mk.inj (Except.ok.inj (h.symm.trans hp))).2
    refine ⟨rfl, ?_⟩
    rw [hlines o q rfl, map_queryLines (distributes_restore _),
      writtenLines_of_settled o q.depth q fun n inner hw =>
      settled_of_parse hq hw]

/-- A placeholder that a separator divides is none, those on its sides are, and
a query with quoted spans in two select lists is laid out as the one of its
restored pieces. -/
theorem restore_pieces_named :
    namedTable.restore ("__sqlfmt_lit_1__ __sqlfmt_lit_0_".toList ++ '-' ::
      "_, __sqlfmt_lit_0__".toList) =
      "\"z\" __sqlfmt_lit_0_".toList ++ '-' :: "_, 'a b'".toList ∧
    render {} namedQuery =
      join ['\n'] (writtenLines namedTable.restore {} 0 namedQuery) ∧
    render {} namedQuery = join ['\n']
      (queryLines {} 0 (namedQuery.mapPieces namedTable.restore)) := by
  have hparse : parse namedText = .ok namedQuery := by decide +kernel
  obtain ⟨⟨masked, hp⟩, -⟩ := restored_of_parse hparse
  obtain ⟨hlaw, hlines, hquery⟩ := restore_pieces hp
  refine ⟨(hlaw '-' rfl _ _).trans ?_, (hlines {} namedQuery rfl).2.1,
    (hquery {} namedQuery hparse).2⟩
  decide +kernel

end SqlRiver
