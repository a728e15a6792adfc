import SqlRiver.Proofs.Line.Joins
import SqlRiver.Proofs.Reading.Deeper

/-!
# Queries that are read back

The clauses at the end of a query are searched for in all of its line, so the
phrase of a clause that a query does not have must not stand in the chunks
before it. All other clauses follow each other: each of them ends where the next
one starts.

Main definitions and statements:

* `Lacks`: chunks in which a keyword does not stand.
* `CleanQuery`: a query whose clauses are read back.
* `fit_query`: the chunks of such a query.
* `readClauses_line`, `readsBack_of_clean`: its line is read back.
-/

namespace SqlRiver

open Text

variable {w word p x : Text} {o : Options} {ks ls : List Text}
  {literals : LiteralTable} {nested : Nested} {q : Query}

/-! ## Keywords that do not stand in chunks -/

/-- Chunks that are clear of a word, and that may follow a piece. -/
structure Lacks (w : Text) (ks : List Text) : Prop where
  clear : Clear w (led ks)
  sequel : Sequel (led ks)

theorem lacks_nil (w : Text) : Lacks w [] := ⟨clear_nil w, sequel_nil⟩

/-- Chunks that lack a word one behind the other lack it together. -/
theorem Lacks.append (hks : Lacks w ks) (hls : Lacks w ls) :
    Lacks w (ks ++ ls) := by
  refine ⟨?_, ?_⟩
  · rw [led_append]
    exact hks.clear.append hls.clear hls.sequel
  · rw [led_append]
    exact hks.sequel.append hls.sequel

/-- A word does not stand in the line of chunks that lack it. -/
theorem Lacks.absent (hw : isPhrase w = true) (h : Lacks w ks) :
    Absent w (join [' '] ks) := by
  by_cases h₀ : ks = []
  · subst h₀
    exact absent_nil hw
  · have hclear := h.clear
    rw [led_eq_cons h₀] at hclear
    exact (hclear.of_space hw).absent hw

/-- A keyword in which a word does not stand, and which does not start like
`by`. -/
structure Other (w word : Text) : Prop where
  ne_nil : word ≠ []
  letters : ∀ c ∈ word, c.isLower = true
  start : word.head? ≠ some 'b'
  apart : ¬ (word ++ [' ']) <+: w ++ [' ']

instance (w word : Text) : Decidable (Other w word) :=
  decidable_of_iff (word ≠ [] ∧ (∀ c ∈ word, c.isLower = true) ∧
    word.head? ≠ some 'b' ∧
    ¬ (word ++ [' ']) <+: w ++ [' ']) ⟨fun h => ⟨h.1, h.2.1, h.2.2.1, h.2.2.2⟩,
    fun h => ⟨h.ne_nil, h.letters, h.start, h.apart⟩⟩

theorem Other.sequel (h : Other w word) (o : Options) (z : Text) :
    Sequel (' ' :: (o.keyword word ++ z)) := by
  obtain ⟨c, u, rfl⟩ := List.exists_cons_of_ne_nil h.ne_nil
  refine sequel_keyword o ⟨c, u, rfl, ?_⟩ z
  rw [toLower_of_isLower (h.letters c (by simp))]
  simpa using h.start

/-- A keyword, other than the word, and what it leads. -/
theorem lacks_led (hw : isPhrase w = true) (hword : Other w word)
    (hx : Clear w x) (h : led ks = ' ' :: (o.keyword word ++ ' ' :: x)) :
    Lacks w ks := by
  refine ⟨?_, ?_⟩
  · rw [h]
    exact hx.led hw hword.letters hword.apart
  · rw [h]
    exact hword.sequel o _

/-- A clause does not start in conditions whose predicates lack it. -/
theorem lacks_conditions {e : Clause} {conds : List Condition}
    {ends : List Clause} (h : CleanConditions ends conds)
    (ha : ∀ c ∈ conds, Absent e.phrase c.predicate)
    (hword : Other e.phrase word) :
    Lacks e.phrase (conditionChunks o word conds) := by
  by_cases h₀ : conds = []
  · subst h₀
    exact lacks_nil _
  · have hw := isPhrase_phrase e
    refine lacks_led hw hword ?_ (led_conditionChunks h₀ h.joined)
    exact clear_andText hw (not_prefix_and e) (List.forall_mem_map.2 fun c hc =>
      (h.tidy c hc).top) (List.forall_mem_map.2 ha)

/-- A clause does not start in a list whose entries lack it. -/
theorem lacks_list {e : Clause} {entries : List Text} {ends : List Clause}
    (h : CleanList ends entries)
    (ha : ∀ x ∈ entries, Absent e.phrase x) (hword : Other e.phrase word) :
    Lacks e.phrase (listChunks o word entries) := by
  by_cases h₀ : entries = []
  · subst h₀
    exact lacks_nil _
  · have hw := isPhrase_phrase e
    have hby : ¬ ("by".toList ++ [' ']) <+: e.phrase ++ [' '] := by
      cases e <;> decide
    have hclear : Clear e.phrase (rowText entries) :=
      clear_list hw (fun x hx => (h.tidy x hx).top) ha
    refine lacks_led (o :=
      o) hw hword (hclear.keyword (o := o) hw (by decide) hby) ?_
    rw [led_listChunks h₀, byChunk]
    simp

/-- A clause does not start in a single expression that lacks it. -/
theorem lacks_expression {e : Clause} {v : Option Text}
    (hv : ∀ p ∈ v, Tidy p ∧ Absent e.phrase p) (hword : Other e.phrase word) :
    Lacks e.phrase (expressionChunks o word v) := by
  cases v with
  | none => exact lacks_nil _
  | some p =>
    obtain ⟨htidy, habs⟩ := hv p rfl
    have hw := isPhrase_phrase e
    refine lacks_led (o := o) hw hword (clear_piece hw htidy.top habs) ?_
    simp [expressionChunks]

/-! ## What follows each clause -/

/-- Joins start with a word that ends the sources. -/
theorem leads_joins (o : Options) (js : List Join) :
    Leads sourceEnds (Join.allChunks o js) := by
  cases js with
  | nil => exact .inl rfl
  | cons j js =>
    obtain ⟨kind, source, onPredicate, usingColumns⟩ := j
    rw [Join.allChunks, Join.chunks, joinChunk_eq]
    rcases kindText_cases o kind with ⟨-, e⟩ | ⟨hk, e⟩
    · rw [e, List.nil_append]
      exact leads_keyword o (by decide) _
    · have hname : kind.name ∈ sourceEnds := by
        cases kind <;> first | exact absurd rfl hk | decide
      rw [e, List.append_assoc (o.keyword kind.name)]
      exact .inr ⟨_, hname, _, _, _, rfl, lower_keyword o _, rfl⟩

theorem leads_conditions (o : Options) {clause : Clause} {ends : List Text}
    (h : clause.phrase ∈ ends) (conds : List Condition) :
    Leads ends (conditionChunks o clause.phrase conds) := by
  cases conds with
  | nil => exact .inl rfl
  | cons c more => exact leads_keyword o h _

/-- The grouping starts with its keyword. -/
theorem leads_groupBy (o : Options) {ends : List Text}
    (h : Clause.groupBy.phrase ∈ ends) (entries : List Text) :
    Leads ends (listChunks o "group".toList entries) := by
  rw [listChunks]
  split
  · exact .inl rfl
  · exact leads_spelling h lower_groupBy _

/-! ## The chunks of clauses -/

/-- A keyword of two words is a tidy piece. -/
theorem tidy_pair (o : Options) {v w : Text} (hv₀ : v ≠ []) (hw₀ : w ≠ [])
    (hv : ∀ c ∈ v, c.isLower = true) (hw : ∀ c ∈ w, c.isLower = true) :
    Tidy (o.keyword v ++ [' '] ++ o.keyword w) := by
  have h : Fit [o.keyword v, o.keyword w] :=
    .cons (tidy_keyword o hv₀ hv) (fit_single (tidy_keyword o hw₀ hw))
  have e : o.keyword v ++ [' '] ++ o.keyword w =
      join [' '] [o.keyword v, o.keyword w] := rfl
  rw [e]
  exact ⟨(trimmed_tidy [' '] (by simp) (by simp [tidy_keyword o hv₀ hv,
    tidy_keyword o hw₀ hw])).2, h.neat.spaced, h.line⟩

/-- The chunks of a select list that is read back are fit. -/
theorem fit_select {distinct : Bool} {columns : List Column}
    (h : CleanSelect literals distinct columns) :
    Fit (selectChunks o distinct columns) := by
  have hcolumns : Fit (commaChunks (columns.map (Column.chunks o))) := by
    refine fit_commaChunks (List.forall_mem_map.2 fun c hc => ?_)
    exact ⟨fit_column (h.column c hc), c.chunks_ne_nil o⟩
  refine (Fit.cons (tidy_keyword o (by decide) (by decide)) ?_).append hcolumns
  cases distinct with
  | false => exact fit_nil
  | true => exact fit_single (tidy_keyword o (by decide) (by decide))

theorem tidy_joinChunk (o : Options) (kind : JoinKind) :
    Tidy (joinChunk o kind) := by
  cases kind with
  | plain => exact tidy_keyword o (by decide) (by decide)
  | left | right | inner | outer | full | cross =>
    exact tidy_pair o (by decide) (by decide) (by decide) (by decide)

/-- The chunks of joins that are read back are fit. -/
theorem fit_joins :
    ∀ {js : List Join}, (∀ j ∈ js, CleanJoin nested o j) →
      Fit (Join.allChunks o js)
  | [], _ => fit_nil
  | { kind, source, onPredicate, usingColumns } :: js, h => by
    have hj := h _ (List.mem_cons_self ..)
    have hsource : Fit (Source.chunks o source) := fit_source hj.source
    exact ((Fit.cons (tidy_joinChunk o kind) hsource).append
      (fit_condition hj)).append (fit_joins fun k hk =>
      h k (List.mem_cons_of_mem _ hk))

/-- The chunks of conditions that are read back are fit. -/
theorem fit_conditions (o : Options) {ends : List Clause}
    {conds : List Condition} (h : CleanConditions ends conds)
    (h₀ : word ≠ []) (hword : ∀ c ∈ word, c.isLower = true) :
    Fit (conditionChunks o word conds) := by
  cases conds with
  | nil => exact fit_nil
  | cons c more =>
    refine .cons (tidy_keyword o h₀ hword) (.cons (h.tidy c (by simp)) ?_)
    have htidy : ∀ d ∈ more, Tidy d.predicate :=
      fun d hd => h.tidy d (List.mem_cons_of_mem _ hd)
    clear h
    induction more with
    | nil => exact fit_nil
    | cons d more ih =>
      have hand : Tidy (o.keyword d.combinator.word) := by
        cases d.combinator <;> exact tidy_keyword o (by decide) (by decide)
      exact .cons hand (.cons (htidy d (by simp)) (ih fun e he =>
        htidy e (List.mem_cons_of_mem _ he)))

/-- The chunks of a list that is read back are fit. -/
theorem fit_list (o : Options) {ends : List Clause} {entries : List Text}
    (h : CleanList ends entries) (h₀ : word ≠ [])
    (hword : ∀ c ∈ word, c.isLower = true) :
    Fit (listChunks o word entries) := by
  rw [listChunks]
  split
  · exact fit_nil
  · exact .cons (tidy_pair o h₀ (by decide) hword (by decide))
      (fit_entryChunks h.tidy)

theorem fit_expression (o : Options) {v : Option Text} (h : ∀ p ∈ v, Tidy p)
    (h₀ : word ≠ []) (hword : ∀ c ∈ word, c.isLower = true) :
    Fit (expressionChunks o word v) := by
  cases v with
  | none => exact fit_nil
  | some p => exact .cons (tidy_keyword o h₀ hword) (fit_single (h p rfl))

/-! ## Queries -/

/-- The clauses that are taken off the end of a query. -/
def endClauses : List Clause := [.orderBy, .offset, .limit]

/-- A word that does not stand in the clauses of a query that are taken off the
start. -/
structure Query.Lacks (w : Text) (q : Query) : Prop where
  columns : ∀ column ∈ q.columns, Absent w column.expression
  name : ∀ n ∈ q.source.name?, Absent w n
  joins : ∀ j ∈ q.joins, j.Lacks w
  conditions : ∀ cond ∈ q.filter ++ q.having, Absent w cond.predicate
  groupBy : ∀ e ∈ q.groupBy, Absent w e

/-- A query whose clauses are read back, when `nested` reads the queries in
brackets. -/
structure CleanQuery (nested : Nested) (literals : LiteralTable) (o : Options)
    (q : Query) : Prop where
  select : CleanSelect literals q.distinct q.columns
  source : CleanSource nested o q.source
  joins : CleanJoins nested o q.joins
  filter : CleanConditions [.groupBy, .having, .orderBy, .limit] q.filter
  groupBy : CleanList [.having, .orderBy, .limit] q.groupBy
  having : CleanConditions [.orderBy, .limit] q.having
  grouped : q.having ≠ [] → q.groupBy ≠ []
  orderBy : CleanList [.orderBy] q.orderBy
  offset : ∀ p ∈ q.offset, Tidy p ∧ Absent Clause.offset.phrase p
  limit : ∀ p ∈ q.limit, Tidy p ∧ Absent Clause.limit.phrase p
  unordered : q.orderBy = [] → q.Lacks Clause.orderBy.phrase
  unskipped : q.offset = none → q.Lacks Clause.offset.phrase ∧
    ∀ e ∈ q.orderBy, Absent Clause.offset.phrase e
  unlimited : q.limit = none → q.Lacks Clause.limit.phrase ∧
    (∀ e ∈ q.orderBy, Absent Clause.limit.phrase e) ∧
    ∀ p ∈ q.offset, Absent Clause.limit.phrase p

/-- The chunks of the clauses behind the joins that are taken off the start. -/
def Query.backChunks (o : Options) (q : Query) : List Text :=
  conditionChunks o Clause.filter.phrase q.filter ++
    (listChunks o "group".toList q.groupBy ++
      conditionChunks o Clause.having.phrase q.having)

/-- The chunks of the clauses that are taken off the start. -/
def Query.frontChunks (o : Options) (q : Query) : List Text :=
  selectChunks o q.distinct q.columns ++ o.keyword "from".toList ::
    (q.source.chunks o ++ (Join.allChunks o q.joins ++ q.backChunks o))

/-- The chunks of a query: those that are taken off the start, and the clauses
that are taken off the end. -/
theorem Query.chunks_eq (o : Options) (q : Query) : q.chunks o =
    q.frontChunks o ++ listChunks o "order".toList q.orderBy
      ++ expressionChunks o Clause.offset.phrase q.offset
      ++ expressionChunks o Clause.limit.phrase q.limit := by
  obtain ⟨distinct, columns, source, joins, filter, groupBy, having, orderBy,
      limit, offset, literals, depth⟩ := q
  have assoc : ∀ (a : List Text) (k : Text) (b c d e f : List Text), a ++ k ::
      b ++ c ++ d ++ e ++ f = a ++ k :: (b ++ (c ++ (d ++ (e ++ f)))) := by simp
  rw [Query.chunks, assoc]
  rfl

theorem leads_back (o : Options) (q : Query) :
    Leads joinEnds (q.backChunks o) :=
  (leads_conditions o (by decide) _).append
    ((leads_groupBy o (by decide) _).append (leads_conditions o (by decide) _))

section Clean

variable (h : CleanQuery nested literals o q)
include h

theorem fit_having : Fit (conditionChunks o Clause.having.phrase q.having) :=
  fit_conditions o h.having (by decide) (by decide)

theorem fit_grouped :
    Fit (listChunks o "group".toList q.groupBy ++
      conditionChunks o Clause.having.phrase q.having) :=
  (fit_list o h.groupBy (by decide) (by decide)).append (fit_having h)

theorem fit_back : Fit (q.backChunks o) :=
  (fit_conditions o h.filter (by decide) (by decide)).append (fit_grouped h)

theorem fit_joined : Fit (Join.allChunks o q.joins ++ q.backChunks o) :=
  (fit_joins h.joins.each).append (fit_back h)

theorem fit_front : Fit (q.frontChunks o) :=
  (fit_select h.select).append (.cons (tidy_keyword o (by decide) (by decide))
    ((fit_source h.source).append (fit_joined h)))

theorem fit_ordered :
    Fit (q.frontChunks o ++ listChunks o "order".toList q.orderBy) :=
  (fit_front h).append (fit_list o h.orderBy (by decide) (by decide))

theorem fit_offset :
    Fit (q.frontChunks o ++ listChunks o "order".toList q.orderBy ++
      expressionChunks o Clause.offset.phrase q.offset) :=
  (fit_ordered h).append
    (fit_expression o (fun p hp => (h.offset p hp).1) (by decide) (by decide))

/-- The chunks of a query fit together. -/
theorem fit_query : Fit (q.chunks o) := by
  rw [Query.chunks_eq]
  exact (fit_offset h).append
    (fit_expression o (fun p hp => (h.limit p hp).1) (by decide) (by decide))

/-- A phrase that is looked for at the end does not stand before the clauses at
the end. -/
theorem lacks_front {e : Clause} (he : e ∈ endClauses) (hq : q.Lacks e.phrase) :
    Lacks e.phrase (q.frontChunks o) := by
  have hw := isPhrase_phrase e
  have hother : ∀ e ∈ endClauses, Other e.phrase "select".toList ∧
      Other e.phrase "from".toList ∧ Other e.phrase "where".toList ∧
      Other e.phrase "group".toList ∧ Other e.phrase "having".toList := by
    decide
  obtain ⟨hselect, hfrom, hwhere, hgroup, hhaving⟩ := hother e he
  have hcolumns : Lacks e.phrase (selectChunks o q.distinct q.columns) := by
    have hclear := clear_selectBody (o :=
      o) q.distinct (clear_columns (o := o) h.select.column hq.columns)
    exact lacks_led hw hselect (hclear.of_space hw)
      (led_selectChunks q.distinct h.select.ne_nil)
  have hsource :
      Lacks e.phrase (o.keyword "from".toList :: q.source.chunks o) := by
    refine lacks_led (o :=
      o) hw hfrom (clear_source h.source (keyed_phrase e) hq.name) ?_
    rw [led_cons, led_eq_cons (q.source.chunks_ne_nil o)]
    rfl
  have hjoins : Lacks e.phrase (Join.allChunks o q.joins) := by
    have hmem : ∀ e ∈ endClauses, e.phrase ∈ lineEnds := by decide
    exact ⟨clear_joins (hmem e he) h.joins.each hq.joins,
      sequel_joins o q.joins⟩
  have hback : Lacks e.phrase (q.backChunks o) := (lacks_conditions h.filter
    (fun c hc => hq.conditions c (List.mem_append_left _ hc)) hwhere).append
    ((lacks_list h.groupBy hq.groupBy hgroup).append (lacks_conditions h.having
    (fun c hc => hq.conditions c (List.mem_append_right _ hc)) hhaving))
  have e₁ : q.frontChunks o = selectChunks o q.distinct q.columns ++
      ((o.keyword "from".toList :: q.source.chunks o) ++
      (Join.allChunks o q.joins ++ q.backChunks o)) := rfl
  rw [e₁]
  exact hcolumns.append (hsource.append (hjoins.append hback))

/-- Neither `offset` nor `limit` starts in the clauses up to the ordering. -/
theorem lacks_ordered {e : Clause} (he : e ∈ [Clause.offset, .limit])
    (hq : q.Lacks e.phrase) (ho : ∀ x ∈ q.orderBy, Absent e.phrase x) :
    Lacks e.phrase
      (q.frontChunks o ++ listChunks o "order".toList q.orderBy) := by
  have hother : ∀ e ∈ [Clause.offset, .limit], Other e.phrase "order".toList :=
    by decide
  exact (lacks_front h (List.mem_cons_of_mem _ he) hq).append
    (lacks_list h.orderBy ho (hother e he))

/-- The clauses at the end are read back. -/
theorem readEnd_line :
    ∃ t₁ t₂, readTrailing .limit (q.line o) = .ok (q.limit, t₁) ∧
      readTrailing .offset t₁ = .ok (q.offset, t₂) ∧
      readOrderBy t₂ = .ok (q.orderBy, join [' '] (q.frontChunks o)) := by
  have h₀ : q.frontChunks o ≠ [] :=
    List.append_ne_nil_of_left_ne_nil (List.cons_ne_nil _ _) _
  have h₁ :=
    List.append_ne_nil_of_left_ne_nil h₀ (listChunks o "order".toList q.orderBy)
  have h₂ := List.append_ne_nil_of_left_ne_nil h₁
    (expressionChunks o Clause.offset.phrase q.offset)
  rw [Query.line, Query.chunks_eq]
  refine ⟨_, _, readTrailing_line (fit_offset h).neat h₂
    (depth_of_isBalanced (fit_offset h).line) h.limit ?_, readTrailing_line
    (fit_ordered h).neat h₁ (depth_of_isBalanced (fit_ordered h).line) h.offset
    ?_, readOrderBy_line (fit_front h).neat h₀
    (depth_of_isBalanced (fit_front h).line) h.orderBy.tidy h.orderBy.noComma
    (fun x hx => h.orderBy.absent x hx _ (by decide)) ?_⟩
  · intro hnone
    obtain ⟨hq, horder, hoffset⟩ := h.unlimited hnone
    have hskip : Lacks Clause.limit.phrase
        (expressionChunks o Clause.offset.phrase q.offset) :=
      lacks_expression
        (fun p hp => ⟨(h.offset p hp).1, hoffset p hp⟩) (by decide)
    exact ((lacks_ordered h (by decide) hq horder).append hskip).absent
      (isPhrase_phrase _)
  · intro hnone
    obtain ⟨hq, horder⟩ := h.unskipped hnone
    exact (lacks_ordered h (by decide) hq horder).absent (isPhrase_phrase _)
  · exact fun hnil =>
      (lacks_front h (by decide) (h.unordered hnil)).absent (isPhrase_phrase _)

/-- The clauses behind the joins are read back. -/
theorem readBack_line :
    ∃ t₁ t₂, readFilter (join [' '] (q.backChunks o)) = .ok (q.filter, t₁) ∧
      readGroupBy t₁ = .ok (q.groupBy, t₂) ∧
      readHaving (!q.groupBy.isEmpty) t₂ = .ok (q.having, []) := by
  refine ⟨_, _, readFilter_line (fit_grouped h).neat h.filter ?_,
    readGroupBy_line (fit_having h).neat h.groupBy ?_,
    readHaving_line h.having fun hne => ?_⟩
  · exact (leads_groupBy o (by decide) _).append
      (leads_conditions o (by decide) _)
  · exact leads_conditions o (by decide) _
  · simpa using h.grouped hne

/-- The clauses of a query are read back from its line. -/
theorem readClauses_line (hl : q.literals = literals) :
    readClauses nested literals q.depth (q.line o) = .ok q := by
  obtain ⟨t₁, t₂, hlimit, hoffset, horder⟩ := readEnd_line h
  have hselect := readSelect_line (o :=
    o) h.select ((fit_source h.source).append (fit_joined h)).neat
  have hsource := readSources_line literals h.source (fit_joined h).neat
    ((leads_joins o q.joins).append ((leads_back o q).mono (by decide)))
  have hjoins :=
    readJoins_line literals h.joins (fit_back h).neat (leads_back o q)
  obtain ⟨t₇, t₈, hfilter, hgroup, hhaving⟩ := readBack_line h
  simp only [readClauses, bind_eq_ok]
  refine ⟨_, hlimit, _, hoffset, _, horder, _, hselect, _, hsource, _, hjoins,
    _, hfilter, _, hgroup, _, hhaving, (), rfl, ?_⟩
  subst hl
  cases q
  rfl

end Clean

/-- The line of a query starts with `select`. -/
theorem firstWord_line (o : Options) (q : Query) :
    firstWord (q.line o) = o.keyword "select".toList := by
  obtain ⟨ks, hks⟩ := q.chunks_eq_cons o
  have hkeep : ∀ c ∈ o.keyword "select".toList,
      (!(isBlank c || c == '(')) = true := by
    have hsolid := keyword_solid o "select".toList (by decide) (by decide)
    intro c hc
    have hd : depthStep c = 0 := depthStep_keyword o (by decide) c hc
    have hopen : (c == '(') = false := by
      rw [Bool.eq_false_iff]
      intro he
      rw [beq_iff_eq.1 he] at hd
      cases hd
    rw [hsolid.noBlank c hc, hopen]
    rfl
  have hstop : firstWord (led ks) = [] := by
    cases ks <;> rfl
  rw [Query.line, hks, join_cons_led]
  calc firstWord (o.keyword "select".toList ++ led ks)
    _ = o.keyword "select".toList ++ firstWord (led ks) :=
      List.takeWhile_append_of_pos hkeep
    _ = o.keyword "select".toList := by rw [hstop, List.append_nil]

theorem line_ne_nil (o : Options) (q : Query) : q.line o ≠ [] := by
  intro h₀
  have hword := firstWord_line o q
  rw [h₀] at hword
  exact keyword_ne_nil o (by decide) hword.symm

/-- A clean query is read back, when there is room for the queries in
brackets. -/
theorem readsBack_of_clean {room : Nat}
    (h : CleanQuery (nestedOf literals room) literals o q)
    (hl : q.literals = literals) (hd : q.depth = maxDepth - room) :
    ReadsBack (readQuery literals room) o q := by
  refine ⟨?_, fit_query h⟩
  have hselect : Keyword.ofWord? (o.keyword "select".toList) =
      some ⟨"select".toList, .ordinary⟩ := by
    rw [Keyword.ofWord?, lower_keyword]
    decide
  rw [readQuery_eq_readStatement, ← hd, readStatement_eq_ok_iff, firstWord_line]
  exact ⟨line_ne_nil o q, ⟨_, hselect, rfl⟩, readClauses_line h hl⟩

end SqlRiver
