import SqlRiver.Layout.Render
import SqlRiver.Proofs.Layout.Weave
import SqlRiver.Proofs.Text.Case

/-!
# The chunks of a query

A layout of a query is woven of the chunks of the query: its pieces, the
keywords around them, and the commas and brackets that stick to pieces. The
chunks do not depend on the width of a layout nor on the depth it starts at.
With single spaces between them they make up the *line* of a query.

Main definitions and statements:

* `Query.chunks`, `Query.line`: the chunks of a query, and its text on one line.
* `woven_queryLines`: the lines of a query are woven of its chunks.
-/

namespace SqlRiver

open Text

/-! ## Chunks -/

/-- The keyword of a list: `group by` or `order by`. -/
def byChunk (o : Options) (word : Text) : Text :=
  o.keyword word ++ [' '] ++ o.keyword "by".toList

/-- The keywords of a join. -/
def joinChunk (o : Options) : JoinKind → Text
  | .plain => o.keyword "join".toList
  | kind => o.keyword kind.name ++ [' '] ++ o.keyword "join".toList

/-- Puts brackets around the first and the last of several chunks. -/
def bracketed : List Text → List Text
  | [] => []
  | k :: ks => appendLast [')'] ((['('] ++ k) :: ks)

/-- The chunks of a column. -/
def Column.chunks (o : Options) (column : Column) : List Text :=
  column.expression :: match column.aliasName with
    | some name => [o.keyword "as".toList, name]
    | none => []

/-- The chunks of conditions that start with the given keyword. -/
def conditionChunks (o : Options) (word : Text) : List Condition → List Text
  | [] => []
  | first :: more =>
    o.keyword word :: first.predicate :: more.flatMap fun condition =>
      [o.keyword condition.combinator.word, condition.predicate]

/-- The chunks of the entries of a list. -/
def entryChunks (entries : List Text) : List Text :=
  commaChunks (entries.map fun e => [e])

/-- The chunks of a `group by` or `order by` list. -/
def listChunks (o : Options) (word : Text) (entries : List Text) : List Text :=
  if entries.isEmpty then [] else byChunk o word :: entryChunks entries

/-- The chunks of a clause that holds one expression. -/
def expressionChunks (o : Options) (word : Text) (expression : Option Text) :
    List Text :=
  expression.toList.flatMap fun text => [o.keyword word, text]

/-- The chunks of the condition of a join. -/
def joinConditionChunks (o : Options) (onPredicate : Option Text)
    (usingColumns : List Text) : List Text :=
  expressionChunks o "on".toList onPredicate ++
    if usingColumns.isEmpty then []
    else o.keyword "using".toList :: bracketed (entryChunks usingColumns)

/-- The chunks of a select list. -/
def selectChunks (o : Options) (distinct : Bool) (columns : List Column) :
    List Text :=
  o.keyword "select".toList :: (if distinct then [o.keyword "distinct".toList]
    else []) ++ commaChunks (columns.map (Column.chunks o))

mutual

/-- The chunks of a query. -/
def Query.chunks (o : Options) : Query → List Text
  | { distinct, columns, source, joins, filter, groupBy, having, orderBy, limit,
      offset, .. } =>
    selectChunks o distinct columns ++ o.keyword "from".toList ::
      Source.chunks o source ++ Join.allChunks o joins ++ conditionChunks o
      "where".toList filter ++ listChunks o "group".toList groupBy ++
      conditionChunks o "having".toList having ++ listChunks o "order".toList
      orderBy ++ expressionChunks o "offset".toList offset ++
      expressionChunks o "limit".toList limit

/-- The chunks of a source. -/
def Source.chunks (o : Options) : Source → List Text
  | .table name aliasName => name :: aliasName.toList
  | .subquery query aliasName =>
    bracketed (Query.chunks o query) ++ aliasName.toList

/-- The chunks of a join. -/
def Join.chunks (o : Options) : Join → List Text
  | { kind, source, onPredicate, usingColumns } =>
    joinChunk o kind :: Source.chunks o source ++
      joinConditionChunks o onPredicate usingColumns

/-- The chunks of several joins. -/
def Join.allChunks (o : Options) : List Join → List Text
  | [] => []
  | join :: more => Join.chunks o join ++ Join.allChunks o more

end

/-- The text of a query on one line. -/
def Query.line (o : Options) (q : Query) : Text := join [' '] (q.chunks o)

mutual

/-- A query whose select list is not empty, and so are those inside it. -/
def Query.Filled : Query → Prop
  | { columns, source, joins, .. } =>
    columns ≠ [] ∧ Source.Filled source ∧ Join.AllFilled joins

/-- A source with such queries inside. -/
def Source.Filled : Source → Prop
  | .table _ _ => True
  | .subquery query _ => Query.Filled query

/-- Joins with such queries inside. -/
def Join.AllFilled : List Join → Prop
  | [] => True
  | { source, .. } :: more => Source.Filled source ∧ Join.AllFilled more

end

/-! ## Lines of clauses -/

/-- The lines are woven of the chunks, unless there are none of either. -/
def LinesOf (ks : List Text) (lines : List Text) : Prop :=
  (ks = [] ∧ lines = []) ∨ (ks ≠ [] ∧ lines ≠ [] ∧ Woven ks (join ['\n'] lines))

theorem linesOf_nil : LinesOf [] [] := .inl ⟨rfl, rfl⟩

theorem linesOf_single {ks : List Text} {t : Text} (h₀ : ks ≠ [])
    (h : Woven ks t) : LinesOf ks [t] :=
  .inr ⟨h₀, by simp, h⟩

/-- Lines of chunks behind lines of chunks are lines of all the chunks. -/
theorem LinesOf.append {ks ks' ls ls' : List Text} (h : LinesOf ks ls)
    (h' : LinesOf ks' ls') : LinesOf (ks ++ ks') (ls ++ ls') := by
  rcases h with ⟨rfl, rfl⟩ | ⟨hk, hl, h⟩
  · exact h'
  · rcases h' with ⟨rfl, rfl⟩ | ⟨hk', hl', h'⟩
    · rw [List.append_nil, List.append_nil]
      exact .inr ⟨hk, hl, h⟩
    · refine .inr ⟨by simp [hk], by simp [hl], ?_⟩
      rw [join_append _ hl hl']
      exact h.append h' hk' (blank_cons.2 ⟨rfl, blank_nil⟩) (by simp)

theorem linesOf_flatMap {α : Type} {ks : α → List Text} {ls : α → List Text}
    (h : ∀ a, LinesOf (ks a) (ls a)) (as : List α) :
    LinesOf (as.flatMap ks) (as.flatMap ls) := by
  induction as with
  | nil => exact linesOf_nil
  | cons a as ih => exact (h a).append ih

theorem blank_space : Blank [' '] := blank_cons.2 ⟨rfl, blank_nil⟩

/-- The chunks of entries, laid out in rows behind a text. -/
theorem woven_entryRows {indent : Text} (hi : Blank indent) (lead : Text)
    {rows : List (List Text)} (h₀ : rows ≠ []) (hr : ∀ row ∈ rows, row ≠ []) :
    ∃ t, join ['\n'] (rowLines lead indent rows) = lead ++ t ∧
      Woven (entryChunks rows.flatten) t := by
  have h : ∃ t, join ['\n'] (rowLines lead indent (rows.map (List.map id))) =
      lead ++ t ∧ Woven (commaChunks (rows.flatten.map fun e => [e])) t :=
    woven_rowLines (fun e => woven_single e) (by simp) hi h₀ hr
  rwa [List.map_id_fun, List.map_id] at h

theorem entryChunks_ne_nil {entries : List Text} (h : entries ≠ []) :
    entryChunks entries ≠ [] := by
  refine commaChunks_ne_nil (by simpa using h) fun ks hks => ?_
  obtain ⟨e, -, rfl⟩ := List.mem_map.1 hks
  simp

theorem bracketed_ne_nil {ks : List Text} (h : ks ≠ []) :
    bracketed ks ≠ [] := by
  obtain ⟨k, ks, rfl⟩ := List.exists_cons_of_ne_nil h
  exact appendLast_ne_nil _ (by simp)

/-- The entries of a list in brackets. -/
theorem woven_brackets {entries : List Text} (h₀ : entries ≠ []) :
    Woven (bracketed (entryChunks entries))
      (['('] ++ rowText entries ++ [')']) := by
  obtain ⟨e, es, rfl⟩ := List.exists_cons_of_ne_nil h₀
  -- the opening bracket belongs to the first entry
  have hrow : rowText ((['('] ++ e) :: es) = ['('] ++ rowText (e :: es) := by
    simp [rowText, join_cons]
  have hchunks : bracketed (entryChunks (e :: es))
      = appendLast [')'] (entryChunks ((['('] ++ e) :: es)) := by
    cases es <;> rfl
  have h : Woven (entryChunks ((['('] ++ e) :: es))
      (rowText (((['('] ++ e) :: es).map id)) :=
    woven_rowText (fun e => woven_single e) (by simp) (by simp)
  rw [List.map_id, hrow] at h
  rw [hchunks]
  exact h.suffix (entryChunks_ne_nil (by simp)) [')']

theorem Column.chunks_ne_nil (o : Options) (column : Column) :
    column.chunks o ≠ [] := by
  simp [Column.chunks]

/-- A column is woven of its chunks: padding stands before `as` only. -/
theorem woven_columnText (o : Options) (width : Nat) (column : Column) :
    Woven (column.chunks o) (columnText o width column) := by
  obtain ⟨expression, _ | name⟩ := column
  · exact woven_single expression
  · have h := (woven_single expression).append
      ((woven_single (o.keyword "as".toList)).append (woven_single name)
      (by simp) blank_space (by simp)) (by simp) (g :=
      spaces (width - expression.length) ++ [' '])
      (blank_append.2 ⟨blank_spaces _, blank_space⟩) (by simp)
    simpa [columnText, padEnd, Column.chunks] using h

section Clauses

variable {base : Text} (o : Options) (hb : Blank base)
include hb

theorem woven_lead (word : Text) :
    Woven [o.keyword word] (lead o base word) := by
  rw [lead, padStart]
  exact ((woven_single _).pad (by simp) (blank_spaces _)).pad (by simp) hb

/-- A keyword at the river, and what it leads. -/
theorem Woven.lead {ks : List Text} {t : Text} (h : Woven ks t) (h₀ : ks ≠ [])
    (word : Text) :
    Woven (o.keyword word :: ks) (lead o base word ++ [' '] ++ t) :=
  (woven_lead o hb word).append h h₀ blank_space (by simp)

/-- The lines of the conditions are woven of their chunks. -/
theorem linesOf_conditions (word : Text) : ∀ conds : List Condition,
    LinesOf (conditionChunks o word conds) (conditionLines o base word conds)
  | [] => linesOf_nil
  | first :: more => by
    have hfirst := linesOf_single (by simp)
      ((woven_single first.predicate).lead o hb (by simp) word)
    have hmore := linesOf_flatMap (fun condition : Condition =>
      linesOf_single (by simp) ((woven_single condition.predicate).lead o hb
      (by simp) condition.combinator.word)) more
    have := hfirst.append hmore
    rw [← List.map_eq_flatMap] at this
    exact this

/-- The line of a single expression is woven of its chunks. -/
theorem linesOf_expression (word : Text) (expression : Option Text) :
    LinesOf (expressionChunks o word expression)
      (expressionLines o base word expression) := by
  cases expression with
  | none => exact linesOf_nil
  | some text =>
    exact linesOf_single (List.cons_ne_nil _ _)
      ((woven_single text).lead o hb (by simp) word)

/-- The lines of a list are woven of its chunks, however they are wrapped. -/
theorem linesOf_list (literals : LiteralTable) (word : Text)
    (entries : List Text) :
    LinesOf (listChunks o word entries)
      (listLines o base literals word entries) := by
  by_cases h₀ : entries = []
  · subst h₀
    exact linesOf_nil
  · have hchunks :
        listChunks o word entries = byChunk o word :: entryChunks entries := by
      rw [listChunks, if_neg (by simpa using h₀)]
    simp only [listLines, hchunks]
    generalize hhead :
      lead o base word ++ [' '] ++ o.keyword "by".toList ++ [' '] = head
    obtain ⟨hflat, hne, hrows⟩ := wrap_spec head.length o.maxWidth
      (fun entry => (literals.restore entry).length) h₀
    obtain ⟨t, ht, hw⟩ :=
      woven_entryRows (blank_spaces head.length) head hne hrows
    refine .inr ⟨by simp, rowLines_ne_nil _ _ hne, ?_⟩
    rw [ht, ← hhead]
    rw [hflat] at hw
    have hword : Woven [byChunk o word]
        (lead o base word ++ [' '] ++ o.keyword "by".toList) := by
      rw [lead, padStart]
      have hgap := blank_spaces (keywordWidth - (o.keyword word).length)
      have :=
        ((woven_single (byChunk o word)).pad (by simp) hgap).pad (by simp) hb
      simpa [byChunk] using this
    exact hword.append hw (entryChunks_ne_nil h₀) blank_space (by simp)

/-! ## The select list -/

/-- The lines of `select` are woven of its chunks. -/
theorem linesOf_select (distinct : Bool) {columns : List Column}
    (h₀ : columns ≠ []) :
    LinesOf (selectChunks o distinct columns)
      (selectLines o base distinct columns) := by
  have hhead : Woven (o.keyword "select".toList :: if distinct then
      [o.keyword "distinct".toList] else []) (lead o base "select".toList ++
      if distinct then [' '] ++ o.keyword "distinct".toList else []) := by
    cases distinct with
    | false => simpa using woven_lead o hb "select".toList
    | true =>
      simpa using (woven_lead o hb "select".toList).append
        (woven_single (o.keyword "distinct".toList)) (by simp) blank_space
        (by simp)
  have hne : commaChunks (columns.map (Column.chunks o)) ≠ [] :=
    commaChunks_ne_nil (by simpa using h₀) fun ks hks => by
      obtain ⟨c, -, rfl⟩ := List.mem_map.1 hks
      exact c.chunks_ne_nil o
  simp only [selectLines]
  generalize lead o base "select".toList ++ (if distinct then
    [' '] ++ o.keyword "distinct".toList else []) = head at hhead ⊢
  -- all columns in one row, or a row for each of them
  have key : ∀ (width : Nat) (indent : Text) (rows : List (List Column)),
      Blank indent → rows ≠ [] →
      (∀ row ∈ rows, row ≠ []) → rows.flatten = columns →
      LinesOf (selectChunks o distinct columns) (rowLines (head ++ [' ']) indent
      (rows.map (List.map (columnText o width)))) := by
    rintro width indent rows hi hr hrow rfl
    obtain ⟨t, ht, hw⟩ : ∃ t, join ['\n'] (rowLines (head ++ [' ']) indent
        (rows.map (List.map (columnText o width)))) = head ++ [' '] ++ t ∧
        Woven (commaChunks (rows.flatten.map (Column.chunks o))) t :=
      woven_rowLines (woven_columnText o width)
        (Column.chunks_ne_nil o) hi hr hrow
    refine .inr ⟨List.cons_ne_nil _ _,
      rowLines_ne_nil _ _ (mt List.map_eq_nil_iff.1 hr), ?_⟩
    rw [ht]
    exact hhead.append hw hne blank_space (by simp)
  split
  · simpa
      using key 0 [] [columns] blank_nil (by simp) (by simpa using h₀) (by simp)
  · have hcols : ∀ {width : Nat}, (columns.map fun column =>
        [columnText o width column]) = (columns.map fun column => [column]).map
        (List.map (columnText o width)) := by
      simp
    rw [hcols]
    refine key _ _ (columns.map fun column => [column]) (blank_spaces _)
      (by simpa using h₀) ?_ ?_
    · intro row hrow
      obtain ⟨c, -, rfl⟩ := List.mem_map.1 hrow
      simp
    · rw [← List.flatMap_def, List.flatMap_singleton']

/-! ## Joins -/

theorem woven_joinLead (kind : JoinKind) :
    Woven [joinChunk o kind] (joinLead o base kind) := by
  have key : ∀ word : Text,
      Woven [o.keyword word ++ [' '] ++ o.keyword "join".toList]
      (lead o base word ++ [' '] ++ o.keyword "join".toList) := by
    intro word
    rw [lead, padStart]
    have :=
      ((woven_single (o.keyword word ++ [' '] ++ o.keyword "join".toList)).pad
        (by simp) (blank_spaces (keywordWidth - (o.keyword word).length))).pad
        (by simp) hb
    simpa using this
  cases kind with
  | plain => exact woven_lead o hb _
  | left => exact key _
  | right => exact key _
  | inner => exact key _
  | outer => exact key _
  | full => exact key _
  | cross => exact key _

/-- The lines of a join's condition are woven of its chunks. -/
theorem linesOf_joinCondition (onPredicate : Option Text)
    (usingColumns : List Text) :
    LinesOf (joinConditionChunks o onPredicate usingColumns)
      (joinConditionLines o base onPredicate usingColumns) := by
  refine (linesOf_expression o hb "on".toList onPredicate).append ?_
  by_cases h₀ : usingColumns = []
  · subst h₀
    exact linesOf_nil
  · rw [if_neg (by simpa using h₀), if_neg (by simpa using h₀)]
    have hlist := (woven_brackets h₀).lead o hb
      (bracketed_ne_nil (entryChunks_ne_nil h₀)) "using".toList
    exact linesOf_single (by simp) (by simpa using hlist)

end Clauses

/-! ## Brackets -/

/-- A woven text in brackets, which do not leave white space at its start. -/
theorem Woven.bracketed {ks : List Text} {t : Text} (h : Woven ks t)
    (h₀ : ks ≠ [])
    (hk : ∀ k ∈ ks.head?, k ≠ [] ∧ ∀ c ∈ k.head?, isBlank c = false) :
    Woven (bracketed ks) (['('] ++ trimStart t ++ [')']) := by
  obtain ⟨k, ks, rfl⟩ := List.exists_cons_of_ne_nil h₀
  obtain ⟨hk₀, hk⟩ := hk k rfl
  exact (h.prepend hk hk₀ ['(']).suffix (by simp) [')']

/-- Spaces before a text that is not blank are not touched by what follows
it. -/
theorem trimStart_append {t : Text} (h : ¬ Blank t) (u : Text) :
    trimStart (t ++ u) = trimStart t ++ u := by
  obtain ⟨l, hl, e, hhead⟩ := exists_trimStart t
  have h₀ : trimStart t ≠ [] := by
    intro h₀
    rw [h₀, List.append_nil] at e
    exact h (e ▸ hl)
  conv => lhs; rw [e, List.append_assoc]
  refine trimStart_pad hl ?_
  rw [List.head?_append_of_ne_nil _ h₀]
  exact hhead

/-- A text behind the last line stands behind the joined lines. -/
theorem join_appendLast (sep x : Text) {ls : List Text} (h : ls ≠ []) :
    join sep (appendLast x ls) = join sep ls ++ x := by
  obtain ⟨ls, l, rfl⟩ := (List.eq_nil_or_concat' ls).resolve_left h
  rw [appendLast_concat]
  by_cases hl : ls = []
  · subst hl
    rfl
  · rw [join_append _ hl (by simp), join_append _ hl (by simp)]
    simp [join]

/-- The lines of a query in brackets, as one text. -/
theorem join_enclose (start : Text) (aliasName : Option Text) {first : Text}
    (more : List Text) (h : ¬ Blank first) :
    join ['\n'] (enclose start aliasName (first :: more)) =
      start ++ (['('] ++ trimStart (join ['\n'] (first :: more)) ++ [')'] ++
      aliasText aliasName) := by
  rw [enclose, join_appendLast _ _ (by simp), join_cons, join_cons,
    trimStart_append h]
  simp

/-! ## Queries -/

theorem keyword_ne_nil (o : Options) {word : Text} (h : word ≠ []) :
    o.keyword word ≠ [] := by
  cases o with
  | mk case _ =>
    cases case <;> simpa [Options.keyword, KeywordCase.apply, lower, upper]
      using h

/-- Keywords are spelled in the same way in either letter case. -/
@[simp] theorem lower_keyword (o : Options) (word : Text) :
    lower (o.keyword word) = lower word := by
  cases o with
  | mk case _ => cases case <;> simp [Options.keyword, KeywordCase.apply]

theorem noBlank_keyword (o : Options) {word : Text}
    (h : ∀ c ∈ word, isBlank c = false) :
    ∀ c ∈ o.keyword word, isBlank c = false :=
  forall_mem_of_lower_eq (p := fun c => isBlank c = false)
    (fun c => by rw [isBlank_toLower]) (lower_keyword o word) h

theorem blank_baseOf (root depth : Nat) : Blank (baseOf root depth) :=
  blank_spaces _

/-- The first line of a list starts with the text that leads it. -/
theorem exists_rowLines (lead indent : Text) {rows : List (List Text)}
    (h : rows ≠ []) :
    ∃ x more, rowLines lead indent rows = (lead ++ x) :: more := by
  obtain ⟨row, rows, rfl⟩ := List.exists_cons_of_ne_nil h
  cases rows with
  | nil => exact ⟨_, _, rfl⟩
  | cons row' rows =>
    exact ⟨rowText row ++ [','], _, by rw [rowLines, List.append_assoc]; simp⟩

/-- The first line of a query starts with `select`. -/
theorem exists_queryLines (o : Options) (root : Nat) (q : Query) :
    ∃ x more, queryLines o root q =
      (lead o (baseOf root q.depth) "select".toList ++ x) :: more := by
  obtain ⟨distinct, columns, source, joins, filter, groupBy, having, orderBy,
      limit, offset, literals, depth⟩ := q
  have hselect : ∃ x more, selectLines o (baseOf root depth) distinct columns =
      (lead o (baseOf root depth) "select".toList ++ x) :: more := by
    unfold selectLines
    generalize lead o (baseOf root depth) "select".toList = l
    simp only
    split
    · obtain ⟨x, more, h⟩ := exists_rowLines _ []
        (List.cons_ne_nil (columns.map (columnText o 0)) [])
      exact ⟨_, more, by rw [h, List.append_assoc, List.append_assoc]⟩
    · next h =>
      have h₀ : columns ≠ [] := by
        rintro rfl
        exact h (by simp [aliasedWidths])
      obtain ⟨x, more, h⟩ := exists_rowLines _ _ (mt List.map_eq_nil_iff.1 h₀)
      exact ⟨_, more, by rw [h, List.append_assoc, List.append_assoc]⟩
  obtain ⟨x, more, h⟩ := hselect
  rw [queryLines, h]
  exact ⟨x, _, rfl⟩

/-- The first line of a query is not blank, since the keyword in it is not. -/
theorem exists_cons_queryLines (o : Options) (root : Nat) (q : Query) :
    ∃ first more, queryLines o root q = first :: more ∧ ¬ Blank first := by
  obtain ⟨x, more, h⟩ := exists_queryLines o root q
  have hword : ∀ c ∈ o.keyword "select".toList, isBlank c = false :=
    noBlank_keyword o (by decide)
  have hne : o.keyword "select".toList ≠ [] := keyword_ne_nil o (by simp)
  refine ⟨_, more, h, fun hb => ?_⟩
  obtain ⟨c, u, hu⟩ := List.exists_cons_of_ne_nil hne
  have hm : c ∈ o.keyword "select".toList := by
    rw [hu]
    exact List.mem_cons_self
  have hc := hb c (List.mem_append_left
    _ (List.mem_append_right _ (List.mem_append_right _ hm)))
  rw [hword c hm] at hc
  cases hc

theorem Query.chunks_eq_cons (o : Options) (q : Query) :
    ∃ ks, q.chunks o = o.keyword "select".toList :: ks := by
  obtain ⟨distinct, columns, source, joins, filter, groupBy, having, orderBy,
      limit, offset, literals, depth⟩ := q
  rw [Query.chunks, selectChunks]
  exact ⟨_, rfl⟩

theorem Source.chunks_ne_nil (o : Options) (s : Source) : s.chunks o ≠ [] := by
  cases s with
  | table name aliasName => simp [Source.chunks]
  | subquery query aliasName =>
    obtain ⟨ks, h⟩ := query.chunks_eq_cons o
    rw [Source.chunks, h]
    exact List.append_ne_nil_of_left_ne_nil
      (bracketed_ne_nil (List.cons_ne_nil _ _)) _

/-- A source is written on at least one line. -/
theorem sourceLines_ne_nil (o : Options) (root : Nat) (start : Text)
    (s : Source) : sourceLines o root start s ≠ [] := by
  cases s with
  | table name aliasName => simp [sourceLines]
  | subquery query aliasName =>
    obtain ⟨x, more, h⟩ := exists_queryLines o root query
    rw [sourceLines, h, enclose]
    exact appendLast_ne_nil _ (List.cons_ne_nil _ _)

/-- Lines that start with a chunk, when what follows is woven of other
chunks. -/
theorem linesOf_start {k start : Text} {ks lines : List Text}
    (hk : Woven [k] start)
    (h : ∃ t, join ['\n'] lines = start ++ [' '] ++ t ∧ Woven ks t)
    (hks : ks ≠ []) (hl : lines ≠ []) : LinesOf (k :: ks) lines := by
  obtain ⟨t, e, ht⟩ := h
  refine .inr ⟨List.cons_ne_nil _ _, hl, ?_⟩
  rw [e]
  exact hk.append ht hks blank_space (by simp)

/-- The alias behind a source. -/
theorem Woven.alias {ks : List Text} {t : Text} (h : Woven ks t)
    (aliasName : Option Text) :
    Woven (ks ++ aliasName.toList) (t ++ aliasText aliasName) := by
  cases aliasName with
  | none => simpa [aliasText] using h
  | some name =>
    simpa [aliasText]
      using h.append (woven_single name) (by simp) blank_space (by simp)

/-- A query in brackets, given the lines of the query. -/
theorem woven_subquery (o : Options) (root : Nat) (q : Query)
    (aliasName : Option Text) (start : Text)
    (h : LinesOf (q.chunks o) (queryLines o root q)) :
    ∃ t, join ['\n'] (sourceLines o root start (.subquery q aliasName)) =
      start ++ t ∧ Woven (Source.chunks o (.subquery q aliasName)) t := by
  obtain ⟨ks, hks⟩ := q.chunks_eq_cons o
  obtain ⟨first, more, hx, hfirst⟩ := exists_cons_queryLines o root q
  have hword : ∀ c ∈ o.keyword "select".toList, isBlank c = false :=
    noBlank_keyword o (by decide)
  have hne : o.keyword "select".toList ≠ [] := keyword_ne_nil o (by simp)
  rcases h with ⟨h₀, -⟩ | ⟨h₀, -, h⟩
  · rw [hks] at h₀
    cases h₀
  · have hbr := h.bracketed h₀ <| by
      rw [hks]
      rintro _ ⟨⟩
      exact ⟨hne, fun c hc => hword c (List.mem_of_head? hc)⟩
    refine ⟨_, ?_, hbr.alias aliasName⟩
    rw [sourceLines, hx, join_enclose _ _ _ hfirst]

mutual

/-- The lines of a query are woven of its chunks. -/
theorem linesOf_query (o : Options) (root : Nat) : ∀ q : Query, q.Filled →
    LinesOf (q.chunks o) (queryLines o root q)
  | { distinct, columns, source, joins, filter, groupBy, having, orderBy, limit,
      offset, literals, depth }, h => by
    obtain ⟨h₀, hs, hj⟩ := h
    have hb := blank_baseOf root depth
    rw [Query.chunks, queryLines]
    exact ((((((((linesOf_select o hb distinct h₀).append
      (linesOf_start (woven_lead o hb _) (woven_source o root source hs _)
        (source.chunks_ne_nil o) (sourceLines_ne_nil o root _ source))).append
      (linesOf_joins o root hb joins hj)).append
      (linesOf_conditions o hb _ filter)).append
      (linesOf_list o hb literals _ groupBy)).append
      (linesOf_conditions o hb _ having)).append
      (linesOf_list o hb literals _ orderBy)).append
      (linesOf_expression o hb _ offset)).append
      (linesOf_expression o hb _ limit)

/-- A source is woven of its chunks, behind any text. -/
theorem woven_source (o : Options) (root : Nat) :
    ∀ s : Source, s.Filled → ∀ start : Text, ∃ t, join ['\n']
      (sourceLines o root start s) = start ++ t ∧ Woven (s.chunks o) t
  | .table name aliasName, _, start => by
    refine ⟨_, ?_, (woven_single name).alias aliasName⟩
    rw [sourceLines, join, List.append_assoc]
  | .subquery query aliasName, h, start =>
    woven_subquery o root query aliasName start (linesOf_query o root query h)

/-- The lines of joins are woven of their chunks. -/
theorem linesOf_joins (o : Options) (root : Nat) {base : Text}
    (hb : Blank base) :
    ∀ joins : List Join, Join.AllFilled joins →
      LinesOf (Join.allChunks o joins) (joinsLines o root base joins)
  | [], _ => linesOf_nil
  | { kind, source, onPredicate, usingColumns } :: more, h => by
    have hsource := woven_source o root source h.1
    have hlead := woven_joinLead o hb kind
    have hne := source.chunks_ne_nil o
    have hmore := linesOf_joins o root hb more h.2
    have hcond := linesOf_joinCondition o hb onPredicate usingColumns
    rw [Join.allChunks, joinsLines, Join.chunks]
    refine LinesOf.append ?_ hmore
    cases source with
    | table name aliasName =>
      rw [joinLines]
      refine LinesOf.append ?_ hcond
      exact linesOf_start hlead (hsource _) hne (sourceLines_ne_nil o root _ _)
    | subquery query aliasName =>
      rw [joinLines]
      refine LinesOf.append ?_ hcond
      -- the query starts on a line of its own
      obtain ⟨t, ht, hw⟩ := hsource (base ++ spaces (nestIndent - 1))
      have hlines : LinesOf (Source.chunks o (.subquery query aliasName))
          (sourceLines o root (base ++ spaces (nestIndent - 1))
          (.subquery query aliasName)) := by
        refine .inr ⟨hne, sourceLines_ne_nil o root _ _, ?_⟩
        rw [ht]
        exact hw.pad hne (blank_append.2 ⟨hb, blank_spaces _⟩)
      exact (linesOf_single (by simp) hlead).append hlines

end

/-- A layout of a query is woven of the chunks of the query. -/
theorem woven_queryLines (o : Options) (root : Nat) (q : Query) (h : q.Filled) :
    Woven (q.chunks o) (join ['\n'] (queryLines o root q)) := by
  rcases linesOf_query o root q h with ⟨h₀, -⟩ | ⟨-, -, h⟩
  · obtain ⟨ks, hks⟩ := q.chunks_eq_cons o
    rw [hks] at h₀
    cases h₀
  · exact h

end SqlRiver
