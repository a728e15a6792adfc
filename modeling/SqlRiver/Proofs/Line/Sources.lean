import SqlRiver.Proofs.Line.Clauses
import SqlRiver.Proofs.Literal.Spans

/-!
# Select lists and sources that are read back

A column is read back with its alias behind `as`, or without one if its
expression does not end like an alias. A source is read back with its alias, and
a query in brackets if its own line is.

Main definitions and statements:

* `CleanColumn`, `columnOf_line`: columns.
* `CleanSelect`, `readSelect_line`: the select list.
* `CleanSource`, `readSource_line`, `readSources_line`: sources.
-/

namespace SqlRiver

open Text

variable {w word p x y z : Text} {o : Options} {ks ls : List Text}
  {literals : LiteralTable}

/-! ## Columns -/

theorem isBlank_of_isAliasChar {c : Char} (h : isAliasChar c = true) :
    isBlank c = false := by
  by_contra hb
  have hw := isWordChar_of_isBlank (by simpa using hb)
  have hc : c = '$' := by
    simp only [isAliasChar, isWordChar, Bool.or_eq_true] at h hw
    rcases h with h | h
    · rw [Bool.or_eq_false_iff] at hw
      simp_all
    · simpa using h
  subst hc
  exact hb rfl

theorem solid_alias {n : Text} (hn : isAlias n = true) : Solid n :=
  ⟨ne_nil_of_isAlias hn,
    fun c hc => isBlank_of_isAliasChar (isAliasChar_of_isAlias hn c hc)⟩

theorem plain_aliasChar {c : Char} (h : isAliasChar c = true) :
    depthStep c = 0 ∧ isComma c = false := by
  refine ⟨?_, ?_⟩
  · have := isEdge_of_isAliasChar h
    simp only [isEdge, Bool.or_eq_false_iff] at this
    simp [depthStep, this]
  · rw [Bool.eq_false_iff]
    intro hc
    obtain rfl : c = ',' := by simpa [isComma] using hc
    cases h

theorem tidy_alias {n : Text} (hn : isAlias n = true) : Tidy n := by
  refine ⟨ne_nil_of_isAlias hn, spaced_of_solid (solid_alias hn),
    isBalanced_of_forall fun c hc => ?_⟩
  exact (plain_aliasChar (isAliasChar_of_isAlias hn c hc)).1

theorem isComma_keyword (o : Options) (hword : ∀ c ∈ word, c.isLower = true) :
    ∀ c ∈ o.keyword word, isComma c = false := by
  intro c hc
  rw [Bool.eq_false_iff]
  intro h
  obtain rfl : c = ',' := by simpa [isComma] using h
  have hl : ','.toLower ∈ Text.lower (o.keyword word) := List.mem_map_of_mem hc
  rw [lower_keyword] at hl
  obtain ⟨d, hd, he⟩ := List.mem_map.1 hl
  obtain rfl := (toLower_eq_iff rfl).1 he
  cases hword _ hd

/-- A column that is read back. -/
structure CleanColumn (literals : LiteralTable) (column : Column) : Prop where
  tidy : Tidy column.expression
  noComma : NoTop isComma column.expression
  named : ∀ n ∈ column.aliasName, isAlias n = true ∧
    isApostrophed literals n = false
  bare : column.aliasName = none → columnOf literals column.expression = column

/-- A column on one line. -/
def Column.line (o : Options) (column : Column) : Text :=
  join [' '] (column.chunks o)

theorem Column.line_some (o : Options) (e n : Text) :
    Column.line o ⟨e, some n⟩ =
      e ++ ' ' :: (o.keyword "as".toList ++ ' ' :: n) := by
  simp [Column.line, Column.chunks, join]

theorem keyed_as : Keyed "as".toList := by decide

/-- An alias is found behind `as` in any letter case. -/
theorem explicitAlias?_named {e n m : Text} (he : Tidy e)
    (hn : isAlias n = true) (hm : m.lower = "as".toList) :
    explicitAlias? (e ++ ' ' :: (m ++ ' ' :: n)) = some (e, n) := by
  have htrim : trim (' ' :: n) = n := by
    rw [← List.singleton_append,
      trim_padStart blank_space (tidy_alias hn).trimmed]
  have htrim' : trim (e ++ [' ']) = e := trim_padEnd he.trimmed blank_space
  rw [explicitAlias?_eq_some_iff]
  refine ⟨e ++ [' '], m, ' ' :: n, by simp, stands_keyword hm he.top n,
    absent_space isPhrase_as (absent_alias hn keyed_as), ?_, ?_, htrim'.symm,
    htrim.symm⟩
  · rw [htrim']
    exact he.ne_nil
  · rwa [htrim]

/-- A column with an alias is read back. -/
theorem columnOf_named {e n : Text} (he : Tidy e) (hn : isAlias n = true)
    (hq : isApostrophed literals n = false) :
    columnOf literals (Column.line o ⟨e, some n⟩) = ⟨e, some n⟩ := by
  rw [Column.line_some, columnOf, splitAlias,
    explicitAlias?_named he hn (lower_keyword o _)]
  simp [hq]

/-- A column is read back. -/
theorem columnOf_line {column : Column} (h : CleanColumn literals column) :
    columnOf literals (column.line o) = column := by
  obtain ⟨e, _ | n⟩ := column
  · exact h.bare rfl
  · obtain ⟨hn, hq⟩ := h.named n rfl
    exact columnOf_named h.tidy hn hq

theorem keyword_solid (o : Options) (word : Text) (h₀ : word ≠ [])
    (h : ∀ c ∈ word, isBlank c = false) : Solid (o.keyword word) :=
  ⟨keyword_ne_nil o h₀, noBlank_keyword o h⟩

theorem tidy_keyword (o : Options) {word : Text} (h₀ : word ≠ [])
    (h : ∀ c ∈ word, c.isLower = true) : Tidy (o.keyword word) :=
  ⟨keyword_ne_nil o h₀, spaced_of_solid (keyword_solid o word h₀ fun c hc =>
    isBlank_of_isLower (h c hc)), balanced_keyword o h⟩

/-- The chunks of a column that is read back are fit. -/
theorem fit_column {column : Column} (h : CleanColumn literals column) :
    Fit (column.chunks o) := by
  obtain ⟨e, _ | n⟩ := column
  · exact fit_single h.tidy
  · have hn := tidy_alias (h.named n rfl).1
    exact .cons h.tidy
      (.cons (tidy_keyword o (by simp) (by decide)) (fit_single hn))

/-- The text of a column is a tidy entry of the select list. -/
theorem tidy_column {column : Column} (h : CleanColumn literals column) :
    Tidy (column.line o) ∧ NoTop isComma (column.line o) := by
  have hspaced : (column.line o).Spaced := (fit_column h).neat.spaced
  have hbalanced : isBalanced (column.line o) = true := (fit_column h).line
  obtain ⟨e, _ | n⟩ := column
  · exact ⟨h.tidy, h.noComma⟩
  · have htidy : Tidy e := h.tidy
    have hn := (h.named n rfl).1
    rw [Column.line_some] at hspaced hbalanced ⊢
    -- neither the keyword nor the alias has commas
    have hplain : ∀ c ∈ ' ' :: (o.keyword "as".toList ++ ' ' :: n),
        isComma c = false := by
      intro c hc
      rcases List.mem_cons.1 hc with rfl | hc
      · rfl
      rcases List.mem_append.1 hc with hc | hc
      · exact isComma_keyword o (by decide) c hc
      rcases List.mem_cons.1 hc with rfl | hc
      · rfl
      · exact (plain_aliasChar (isAliasChar_of_isAlias hn c hc)).2
    refine ⟨⟨by simp [htidy.ne_nil], hspaced, hbalanced⟩, ?_⟩
    rw [noTop_append htidy.top]
    exact ⟨h.noComma, noTop_of_forall hplain⟩

theorem not_prefix_as (clause : Clause) :
    ¬ ("as".toList ++ [' ']) <+: clause.phrase ++ [' '] := by
  cases clause <;> decide

/-- A column is clear of a keyword if its expression is. -/
theorem clear_column {column : Column} (h : CleanColumn literals column)
    {clause : Clause} (ha : Absent clause.phrase column.expression) :
    Clear clause.phrase (column.line o) := by
  have hw := isPhrase_phrase clause
  have he := clear_piece hw h.tidy.top ha
  obtain ⟨e, _ | n⟩ := column
  · exact he
  · have hn := (h.named n rfl).1
    rw [Column.line_some]
    refine he.append ?_ (sequel_keyword o ⟨'a', _, rfl, by decide⟩ _)
    have habs := absent_alias hn (keyed_phrase clause)
    exact (clear_piece hw (depth_of_isAlias hn) habs).led hw (by decide)
      (not_prefix_as clause)

/-- The columns of a select list are clear of a keyword if their expressions
are. -/
theorem clear_columns {columns : List Column} {clause : Clause}
    (h : ∀ column ∈ columns, CleanColumn literals column)
    (ha : ∀ column ∈ columns, Absent clause.phrase column.expression) :
    Clear clause.phrase (rowText (columns.map (Column.line o))) := by
  have hw := isPhrase_phrase clause
  refine clear_list hw (List.forall_mem_map.2 fun c hc =>
    (tidy_column (h c hc)).1.top) ?_
  exact List.forall_mem_map.2 fun c hc =>
    (clear_column (h c hc) (ha c hc)).absent hw

/-! ## The select list -/

/-- A select list that is read back. An unnamed column `distinct` is not read as
the keyword if a comma follows it. -/
structure CleanSelect (literals : LiteralTable) (distinct : Bool)
    (columns : List Column) : Prop where
  ne_nil : columns ≠ []
  column : ∀ column ∈ columns, CleanColumn literals column
  absent : ∀ column ∈ columns, Absent Clause.source.phrase column.expression
  bare : distinct = false → ∀ column ∈ columns.head?,
    stripWord? "distinct".toList column.expression = none ∨
    stripWord? "distinct".toList column.expression = some [] ∧
    column.aliasName = none ∧ columns.tail ≠ []

/-- The select list behind its keyword. -/
def selectBody (o : Options) (distinct : Bool) (row : Text) : Text :=
  if distinct then o.keyword "distinct".toList ++ ' ' :: row else row

theorem led_distinct (o : Options) (distinct : Bool) (row : Text) :
    led (if distinct then [o.keyword "distinct".toList] else []) ++ ' ' :: row =
      ' ' :: selectBody o distinct row := by
  cases distinct <;> simp [selectBody]

/-- The select list on the line: the keyword, and the columns as a row behind
it. -/
theorem led_selectChunks (distinct : Bool) {columns : List Column}
    (h₀ : columns ≠ []) :
    led (selectChunks o distinct columns) =
      ' ' :: (o.keyword "select".toList ++ ' ' ::
      selectBody o distinct (rowText (columns.map (Column.line o)))) := by
  have hne : ∀ ks ∈ columns.map (Column.chunks o), ks ≠ [] := by
    intro ks hks
    obtain ⟨c, -, rfl⟩ := List.mem_map.1 hks
    exact c.chunks_ne_nil o
  rw [selectChunks, List.cons_append, led_cons, led_append,
    led_eq_cons (commaChunks_ne_nil (mt List.map_eq_nil_iff.1 h₀) hne),
    join_commaChunks hne, List.map_map, led_distinct]
  rfl

/-- The select list does not start with `distinct` unless the keyword is
meant. -/
theorem stripWord?_columns {columns : List Column}
    (h : CleanSelect literals false columns) :
    stripWord? "distinct".toList (rowText (columns.map (Column.line o))) =
      none := by
  obtain ⟨c, more, rfl⟩ := List.exists_cons_of_ne_nil h.ne_nil
  have hbare := h.bare rfl c rfl
  have htidy := (h.column c (by simp)).tidy
  obtain ⟨e, a⟩ := c
  -- what follows the expression
  obtain ⟨z, hz, hnext⟩ : ∃ z,
      rowText ((⟨e, a⟩ :: more : List Column).map (Column.line o)) = e ++ z ∧
      ((∀ d ∈ z.head?, d = ' ' ∨ d = ',') ∧
      (a = none → more ≠ [] → z.head? = some ',')) := by
    rw [List.map_cons, rowText, Text.join_cons]
    cases a with
    | none =>
      refine ⟨_, rfl, ?_⟩
      cases more <;> simp
    | some n =>
      rw [Column.line_some, List.append_assoc]
      exact ⟨_, rfl, by simp, by simp⟩
  rw [hz, stripWord?_eq_none_iff]
  intro m t hmt hs
  have hletters : ∀ d ∈ m, d ≠ ' ' ∧ d ≠ ',' := by
    intro d hd
    have hd' : d.toLower ∈ "distinct".toList := by
      have hm : Text.lower m = "distinct".toList := hs.spelled
      rw [← hm]
      exact List.mem_map_of_mem hd
    constructor
    · rintro rfl
      exact absurd hd' (by decide)
    · rintro rfl
      exact absurd hd' (by decide)
  -- the keyword is inside the expression
  obtain ⟨u, rfl, rfl⟩ : ∃ u, e = m ++ u ∧ t = u ++ z := by
    rcases List.append_eq_append_iff.1 hmt with ⟨u, rfl, hu⟩ | ⟨u, he, ht⟩
    · cases u with
      | nil => exact ⟨[], by simp, by simpa using hu.symm⟩
      | cons d u =>
        rw [hu] at hnext
        rcases hnext.1 d rfl with rfl | rfl
        · exact absurd rfl (hletters ' ' (by simp)).1
        · exact absurd rfl (hletters ',' (by simp)).2
    · exact ⟨u, he, ht⟩
  have hstrip : stripWord? "distinct".toList (m ++ u) = some u := by
    refine stripWord?_eq_some_iff.2 ⟨m, rfl, hs.spelled, rfl, rfl, ?_⟩
    cases u with
    | nil => rfl
    | cons d u => exact hs.right
  rw [hstrip] at hbare
  rcases hbare with hbare | ⟨hbare, ha, hmore⟩
  · cases hbare
  · -- a comma follows, which is no edge
    obtain rfl := Option.some.inj hbare
    have hr := hs.right
    rw [List.nil_append, hnext.2 ha hmore] at hr
    cases hr

theorem not_prefix_distinct (clause : Clause) :
    ¬ ("distinct".toList ++ [' ']) <+: clause.phrase ++ [' '] := by
  cases clause <;> decide

/-- With `distinct` or without it, a clear select list is clear. -/
theorem clear_selectBody {row : Text} {clause : Clause} (distinct : Bool)
    (h : Clear clause.phrase row) :
    Clear clause.phrase (' ' :: selectBody o distinct row) := by
  have hw := isPhrase_phrase clause
  cases distinct with
  | false => exact h.space hw
  | true => exact h.led hw (by decide) (not_prefix_distinct clause)

/-- With `distinct` or without it, the select list has no space around it. -/
theorem trimmed_selectBody {row : Text} (distinct : Bool) (h : row.Trimmed)
    (h₀ : row ≠ []) : (selectBody o distinct row).Trimmed := by
  cases distinct with
  | false => exact h
  | true =>
    have hk := keyword_solid o "distinct".toList (by simp) (by decide)
    rw [selectBody, if_pos rfl]
    refine ⟨?_, ?_⟩
    · rw [List.head?_append_of_ne_nil _ hk.ne_nil]
      exact fun c hc => hk.noBlank c (List.mem_of_head? hc)
    · rw [List.append_cons, List.getLast?_append_of_ne_nil _ h₀]
      exact h.stop

/-- Whether the select list is distinct is read back. -/
theorem stripDistinct_selectBody {distinct : Bool} {row : Text}
    (h : row.Trimmed)
    (hn : distinct = false → stripWord? "distinct".toList row = none) :
    stripDistinct (selectBody o distinct row) = (distinct, row) := by
  cases distinct with
  | false =>
    rw [selectBody, if_neg (by simp), stripDistinct, hn rfl]
  | true =>
    have hs : stripWord? "distinct".toList
        (o.keyword "distinct".toList ++ ' ' :: row) = some (' ' :: row) :=
      stripWord?_eq_some_iff.2 ⟨_, rfl, lower_keyword o _, rfl, rfl, rfl⟩
    have ht : Text.trimStart (' ' :: row) = row :=
      trimStart_pad blank_space h.start
    rw [selectBody, if_pos rfl, stripDistinct, hs]
    simp only [ht]

/-- The select list is read back. -/
theorem readSelect_line {distinct : Bool} {columns : List Column}
    (h : CleanSelect literals distinct columns) (hks : Neat ks) :
    readSelect literals (join [' ']
      (selectChunks o distinct columns ++ o.keyword "from".toList :: ks)) =
      .ok ((distinct, columns), join [' '] ks) := by
  have hfrom := isPhrase_phrase .source
  have htidy : ∀ e ∈ columns.map (Column.line o), Tidy e :=
    List.forall_mem_map.2 fun c hc => (tidy_column (h.column c hc)).1
  have hcomma : ∀ e ∈ columns.map (Column.line o), NoTop isComma e :=
    List.forall_mem_map.2 fun c hc => (tidy_column (h.column c hc)).2
  have hne : columns.map (Column.line o) ≠ [] :=
    mt List.map_eq_nil_iff.1 h.ne_nil
  have htext := join_append_of_led (led_selectChunks (o := o) distinct h.ne_nil)
    (o.keyword "from".toList :: ks)
  have hdistinct : distinct = false →
      stripWord? "distinct".toList (rowText (columns.map (Column.line o))) =
      none := by
    rintro rfl
    exact stripWord?_columns h
  have hlist : commaList .select (rowText (columns.map (Column.line o))) =
      .ok (columns.map (Column.line o)) :=
    commaList_rowText hne htidy hcomma
      (trim_of_trimmed (trimmed_tidy _ hne htidy).1)
  have hclear :
      Clear Clause.source.phrase (rowText (columns.map (Column.line o))) :=
    clear_columns h.column h.absent
  obtain ⟨htrim, hrow₀⟩ : (rowText (columns.map (Column.line o))).Trimmed ∧
      rowText (columns.map (Column.line o)) ≠ [] := trimmed_tidy _ hne htidy
  generalize rowText (columns.map (Column.line o)) = row at *
  have hbody := clear_selectBody (o := o) distinct hclear
  refine readSelect_eq_ok_iff.2 ⟨o.keyword "select".toList,
    ' ' :: selectBody o distinct row ++ [' '], o.keyword "from".toList, led ks,
    row, columns.map (Column.line o), ?_, ⟨lower_keyword o _, rfl, rfl, rfl⟩,
    ⟨lower_keyword o _, ?_, ?_, atEdge_append_led (c := []) rfl ks⟩, ?_, ?_,
    hrow₀, hlist, ?_, hks.trim_led.symm⟩
  · rw [htext]
    simp
  · simpa [depthStep] using hbody.top
  · rw [List.getLast?_concat]
    rfl
  · refine AbsentIn.append ?_ hbody.top (absentIn_space hfrom _)
    exact hbody.absentIn _ (sequel_keyword o ⟨'f', _, rfl, by decide⟩ _)
  · have ht : Text.trim (' ' :: selectBody o distinct row ++ [' ']) =
        selectBody o distinct row :=
      trim_pad blank_space (trimmed_selectBody distinct htrim hrow₀) blank_space
    rw [ht, stripDistinct_selectBody htrim hdistinct]
  · rw [List.map_map]
    refine ((List.map_congr_left fun c hc => ?_).trans
      (List.map_id columns)).symm
    exact columnOf_line (h.column c hc)

/-! ## Sources -/

/-- The name of a table that is read back. -/
structure CleanName (name : Text) : Prop where
  tidy : Tidy name
  noEnd : NoTop endsName name
  noBracket : name.head? ≠ some '('
  free : isReserved name = false

/-- A query whose line is read back by `nested`. -/
structure ReadsBack (nested : Nested) (o : Options) (q : Query) : Prop where
  read : nested (q.line o) = .ok q
  fit : Fit (q.chunks o)

theorem ReadsBack.balanced {nested : Nested} {q : Query}
    (h : ReadsBack nested o q) : isBalanced (q.line o) = true :=
  h.fit.line

theorem ReadsBack.spaced {nested : Nested} {q : Query}
    (h : ReadsBack nested o q) : (q.line o).Spaced :=
  h.fit.neat.spaced

theorem ReadsBack.trim {nested : Nested} {q : Query}
    (h : ReadsBack nested o q) : (q.line o).trim = q.line o :=
  trim_of_trimmed (trimmed_of_spaced h.spaced)

/-- A source that is read back. -/
def CleanSource (nested : Nested) (o : Options) : Source → Prop
  | .table name aliasName => CleanName name ∧ ∀ n ∈ aliasName, isAlias n = true
  | .subquery query aliasName =>
    ReadsBack nested o query ∧ ∀ n ∈ aliasName, isAlias n = true

theorem led_alias (aliasName : Option Text) :
    led aliasName.toList = aliasText aliasName := by
  cases aliasName <;> simp [aliasText]

/-- A line that starts with an end is cut at its start. -/
theorem Leads.upTo {ends : List Text} (h : Leads ends ks) :
    UpTo ends [] (join [' '] ks) := by
  refine ⟨fun v _ => absentIn_nil_left v _, ?_⟩
  rcases h with rfl | ⟨v, hv, m, c, ls, rfl, hm, hc⟩
  · exact .inl rfl
  · refine .inr ⟨v, hv, m, c ++ led ls, ?_, hm, rfl, rfl,
      atEdge_append_led hc ls⟩
    rw [join_cons_led, List.append_assoc]

/-- A text without a comma at its top level is cut at the same end, commas
heeded or not. -/
theorem UpTo.comma {ends : List Text} (h : UpTo ends x y)
    (hx : NoTop isComma x) : UpToComma ends x y :=
  ⟨h.absent, hx, h.stop.imp_right .inr⟩

/-- The alias of a source is read back. -/
theorem sourceAlias_line (literals : LiteralTable) {ends : List Text}
    (he : ∀ v ∈ ends, IsEnd v ∧ Keyed v) {aliasName : Option Text}
    (hn : ∀ n ∈ aliasName, isAlias n = true) (hks : Neat ks)
    (hl : Leads ends ks) :
    ∃ x y, join [' '] (aliasName.toList ++ ks) = x ++ y ∧ UpToComma ends x y ∧
      sourceAlias literals x = .ok aliasName ∧ y.trim = join [' '] ks := by
  cases aliasName with
  | none =>
    refine ⟨[], join [' '] ks, rfl, hl.upTo.comma (noTop_nil _), rfl,
      trim_of_trimmed hks.trimmed⟩
  | some n =>
    have hn := hn n rfl
    have hclear : ∀ v ∈ ends, Clear v n := fun v hv =>
      clear_piece (he v hv).1.1 (depth_of_isAlias hn)
        (absent_alias hn (he v hv).2)
    obtain ⟨r, y, hr, e, hu, hy⟩ :=
      upTo_led (fun v hv => (he v hv).1) hclear (depth_of_isAlias hn) hks hl
    have htrim : Text.trim (n ++ r) = n :=
      trim_padEnd (tidy_alias hn).trimmed hr.blank
    refine ⟨n ++ r, y, ?_, hu.comma ?_, ?_, hy⟩
    · rw [← e, Option.toList_some, List.singleton_append, join_cons_led]
    · refine noTop_of_forall fun c hc => ?_
      rcases List.mem_append.1 hc with hc | hc
      · exact (plain_aliasChar (isAliasChar_of_isAlias hn c hc)).2
      · rcases hr with rfl | rfl
        · cases hc
        · rw [List.mem_singleton.1 hc]
          rfl
    · rw [sourceAlias_eq_ok_iff, htrim]
      refine .inr ⟨ne_nil_of_isAlias hn, n, rfl, hn, .inl ⟨?_, rfl⟩⟩
      rw [stripWord?_eq_none_iff]
      rintro m c rfl hs
      exact absent_alias hn keyed_as [] m c rfl hs

theorem fit_alias {aliasName : Option Text}
    (hn : ∀ n ∈ aliasName, isAlias n = true) : Fit aliasName.toList := by
  cases aliasName with
  | none => exact fit_nil
  | some n => exact fit_single (tidy_alias (hn n rfl))

/-- A source without its alias is read back. -/
theorem readBare_line {nested : Nested} (clause : Clause) {s : Source}
    (hs : CleanSource nested o s) (hks : Neat ks) :
    ∃ s₀, readBare nested clause (join [' '] (s.chunks o ++ ks)) =
      .ok (s₀, join [' '] (s.aliasName?.toList ++ ks)) ∧
      s = s.aliasName?.elim s₀ s₀.withAlias := by
  cases s with
  | table name aliasName =>
    obtain ⟨hname, hn⟩ := hs
    refine ⟨.table name none,
      readBare_eq_ok_iff.2 (.inr ⟨name, led (aliasName.toList ++ ks), ?_,
        hname.noBracket, hname.tidy.ne_nil, ⟨hname.noEnd, ?_⟩, hname.free, rfl,
        ?_⟩), ?_⟩
    · rw [Source.chunks, List.cons_append, join_cons_led]
    · intro c hc
      refine ⟨hname.tidy.top, ?_⟩
      cases h : aliasName.toList ++ ks with
      | nil =>
        rw [h] at hc
        cases hc
      | cons k ls =>
        rw [h, led_cons] at hc
        cases hc
        rfl
    · exact (neat_append.2 ⟨(fit_alias hn).neat, hks⟩).trim_led.symm
    · cases aliasName <;> rfl
  | subquery query aliasName =>
    obtain ⟨hq, hn⟩ := hs
    have hne : query.chunks o ≠ [] := by
      obtain ⟨ls, h⟩ := query.chunks_eq_cons o
      rw [h]
      exact List.cons_ne_nil _ _
    refine ⟨.subquery query none, readBare_eq_ok_iff.2 (.inl ⟨query.line o,
      led (aliasName.toList ++ ks), query, ?_, hq.balanced, ?_, rfl, ?_⟩), ?_⟩
    · rw [Source.chunks, List.append_assoc,
        join_append_led (bracketed_ne_nil hne), join_bracketed hne]
      simp [Query.line]
    · rw [hq.trim]
      exact hq.read
    · exact (neat_append.2 ⟨(fit_alias hn).neat, hks⟩).trim_led.symm
    · cases aliasName <;> rfl

/-- The chunks of a source that is read back are fit. -/
theorem fit_source {nested : Nested} {s : Source}
    (hs : CleanSource nested o s) : Fit (s.chunks o) := by
  cases s with
  | table name aliasName => exact .cons hs.1.tidy (fit_alias hs.2)
  | subquery query aliasName =>
    obtain ⟨ls, h⟩ := query.chunks_eq_cons o
    exact (hs.1.fit.bracketed (by rw [h]; exact List.cons_ne_nil _ _)).append
      (fit_alias hs.2)

theorem CleanSource.alias {nested : Nested} {s : Source}
    (hs : CleanSource nested o s) : ∀ n ∈ s.aliasName?, isAlias n = true := by
  cases s with
  | table name aliasName => exact hs.2
  | subquery query aliasName => exact hs.2

/-- A source is read back with its alias. -/
theorem readSource_line (literals : LiteralTable) (clause : Clause)
    {nested : Nested} {ends : List Text} {s : Source}
    (he : ∀ v ∈ ends, IsEnd v ∧ Keyed v) (hs : CleanSource nested o s)
    (hks : Neat ks) (hl : Leads ends ks) :
    readSource nested literals ends clause (join [' '] (s.chunks o ++ ks)) =
      .ok (s, join [' '] ks) := by
  obtain ⟨s₀, hb, e⟩ := readBare_line clause hs hks
  obtain ⟨x, y, hxy, hu, ha, hy⟩ := sourceAlias_line literals he hs.alias hks hl
  rw [readSource_eq_ok_iff fun v hv => (he v hv).1.1]
  exact ⟨s₀, x, y, s.aliasName?, hxy ▸ hb, hu, ha, e, hy.symm⟩

theorem isEnd_of_mem_sourceEnds : ∀ v ∈ sourceEnds, IsEnd v ∧ Keyed v := by
  decide

/-- A line that starts with an end does not start with a comma. -/
theorem stripComma?_line {ends : List Text} (he : ∀ v ∈ ends, IsEnd v)
    (hl : Leads ends ks) : Text.stripComma? (join [' '] ks) = none := by
  rcases hl with rfl | ⟨v, hv, m, c, ls, rfl, hm, -⟩
  · rfl
  · obtain ⟨d, hd, hlow⟩ := head?_spelling (he v hv).1 hm
    obtain ⟨e, m, rfl⟩ :=
      List.exists_cons_of_ne_nil (spelling_ne_nil (he v hv).1 hm)
    cases hd
    rw [join_cons_led, List.cons_append, List.cons_append]
    unfold Text.stripComma?
    split
    · next h =>
      obtain ⟨rfl, -⟩ := List.cons.inj h
      cases hlow
    · rfl

/-- The source behind `from` is read back. -/
theorem readSources_line (literals : LiteralTable) {nested : Nested}
    {s : Source} (hs : CleanSource nested o s) (hks : Neat ks)
    (hl : Leads sourceEnds ks) :
    readSources nested literals (join [' '] (s.chunks o ++ ks)) =
      .ok ((s, []), join [' '] ks) := by
  have hread :=
    readSource_line literals .source isEnd_of_mem_sourceEnds hs hks hl
  have hmore : ∀ bound, readMore nested literals bound (join [' '] ks) =
      .ok ([], join [' '] ks) := by
    intro bound
    cases bound with
    | zero => rfl
    | succ bound =>
      rw [readMore,
        stripComma?_line (fun v hv => (isEnd_of_mem_sourceEnds v hv).1) hl]
  simp only [readSources, bind_eq_ok, readListed]
  exact ⟨_, hread, _, hmore _, rfl⟩

end SqlRiver
