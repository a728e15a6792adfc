import SqlRiver.Proofs.Layout.Width
import SqlRiver.Proofs.Literal.Preserved

/-!
# The lines of a printed layout

A layout is made as a list of lines, which are joined and have their quoted
spans put back. The text that is printed is cut into lines again wherever a line
break stands. These are the lines it was made of, if no quoted span holds a line
break: nothing else in a query does, since blanks of the text are single spaces
when it is read.

Main definitions and statements:

* `Unbroken`: a text on one line.
* `unbroken_queryLines`: no line of a layout holds a line break, if no token of
  the query does.
* `forall_tokens_restoreColumns`: what restoring keeps holds of the tokens of
  restored select lists.
* `lines`, `lines_render`: the lines of a printed layout are those that it was
  made of.
-/

namespace SqlRiver

open Text

/-! ## Texts without line breaks -/

/-- A text on one line. -/
def Unbroken (t : Text) : Prop := '\n' ∉ t

instance : DecidablePred Unbroken :=
  fun t => inferInstanceAs (Decidable (¬ '\n' ∈ t))

section Unbroken

variable {t u : Text} {c : Char}

@[simp] theorem unbroken_nil : Unbroken [] := List.not_mem_nil

@[simp] theorem unbroken_cons : Unbroken (c :: t) ↔ c ≠ '\n' ∧ Unbroken t := by
  rw [Unbroken, List.mem_cons, not_or, Unbroken, ne_comm]

@[simp] theorem unbroken_append :
    Unbroken (t ++ u) ↔ Unbroken t ∧ Unbroken u := by
  rw [Unbroken, List.mem_append, not_or, Unbroken, Unbroken]

@[simp] theorem unbroken_spaces (n : Nat) : Unbroken (spaces n) := fun hm => by
  cases List.eq_of_mem_replicate hm

theorem Unbroken.of_subset (h : Unbroken u) (hs : t ⊆ u) : Unbroken t :=
  fun hm => h (hs hm)

/-- A keyword is written on one line if its word is. -/
@[simp] theorem unbroken_keyword (o : Options) {word : Text} :
    Unbroken (o.keyword word) ↔ Unbroken word := by
  have key : ∀ t : Text, Unbroken t ↔ Unbroken t.lower := fun t => by
    rw [Unbroken, Unbroken, not_iff_not]
    constructor
    · exact fun hm => List.mem_map.2 ⟨_, hm, rfl⟩
    · intro hm
      obtain ⟨d, hd, e⟩ := List.mem_map.1 hm
      rwa [← (toLower_eq_iff rfl).1 e]
  rw [key (o.keyword word), lower_keyword, ← key]

@[simp] theorem unbroken_lead (o : Options) {base word : Text} :
    Unbroken (lead o base word) ↔ Unbroken base ∧ Unbroken word := by
  simp [lead, padStart]

theorem unbroken_trimStart (h : Unbroken t) : Unbroken (trimStart t) :=
  h.of_subset (List.dropWhile_sublist isBlank).subset

theorem unbroken_aliasText {aliasName : Option Text}
    (h : ∀ n ∈ aliasName, Unbroken n) : Unbroken (aliasText aliasName) := by
  cases aliasName with
  | none => exact unbroken_nil
  | some name => simpa [aliasText] using h name rfl

theorem unbroken_rowText {row : List Text} (h : ∀ t ∈ row, Unbroken t) :
    Unbroken (rowText row) := by
  intro hm
  rcases mem_of_mem_join hm with hm | ⟨t, ht, hm⟩
  · exact absurd hm (by decide)
  · exact h t ht hm

end Unbroken

/-! ## Lines of clauses -/

section Clauses

variable {o : Options} {base word start : Text} {lines : List Text}

/-- Each row of a list is one line. -/
theorem unbroken_rowLines {lead indent : Text} (hl : Unbroken lead)
    (hi : Unbroken indent) :
    ∀ {rows : List (List Text)}, (∀ row ∈ rows, ∀ t ∈ row, Unbroken t) →
      ∀ line ∈ rowLines lead indent rows, Unbroken line
  | [], _ => by simp [rowLines]
  | [row], h => by
    simpa [rowLines] using ⟨hl, unbroken_rowText (h row (by simp))⟩
  | row :: row' :: rows, h => by
    obtain ⟨hrow, hrows⟩ := List.forall_mem_cons.1 h
    have ih := unbroken_rowLines hi hi hrows
    show ∀ line ∈ (lead ++ rowText row ++ [',']) ::
      rowLines indent indent (row' :: rows), Unbroken line
    refine List.forall_mem_cons.2 ⟨?_, ih⟩
    simpa using ⟨hl, unbroken_rowText hrow⟩

/-- A column is one line if its texts are. -/
theorem unbroken_columnText {width : Nat} {column : Column}
    (h : ∀ k ∈ column.tokens, Unbroken k.text) :
    Unbroken (columnText o width column) := by
  obtain ⟨expression, _ | name⟩ := column
  · exact h (.piece expression) (by simp [Column.tokens])
  · obtain ⟨he, hn⟩ : Unbroken expression ∧ Unbroken name := by
      simpa [Column.tokens, Token.text] using h
    simp [columnText, padEnd, he, hn]

/-- Each line of `select` is unbroken if the texts of the columns are. -/
theorem unbroken_selectLines (hb : Unbroken base) {distinct : Bool}
    {columns : List Column}
    (h : ∀ k ∈ columns.flatMap Column.tokens, Unbroken k.text) :
    ∀ line ∈ selectLines o base distinct columns, Unbroken line := by
  have hcolumn : ∀ column ∈ columns, ∀ width,
      Unbroken (columnText o width column) :=
    fun column hc width =>
    unbroken_columnText fun k hk => h k (List.mem_flatMap.2 ⟨column, hc, hk⟩)
  have hhead :
      Unbroken (base ++ o.keyword "select".toList ++ selectGap o distinct) := by
    cases distinct <;> simp [selectGap, hb]
  rw [selectLines_eq]
  split
  · refine unbroken_rowLines hhead unbroken_nil ?_
    simpa using fun column hc => hcolumn column hc 0
  · refine unbroken_rowLines hhead (unbroken_spaces _) ?_
    simpa using fun column hc => hcolumn column hc _

/-- Each line of the conditions is unbroken if the predicates are. -/
theorem unbroken_conditionLines (hb : Unbroken base) (hw : Unbroken word)
    {conds : List Condition}
    (h : ∀ k ∈ conds.flatMap Condition.tokens, Unbroken k.text) :
    ∀ line ∈ conditionLines o base word conds, Unbroken line := by
  have hcond : ∀ cond ∈ conds, Unbroken cond.predicate := fun cond hc =>
    h (.piece cond.predicate)
      (List.mem_flatMap.2 ⟨cond, hc, by simp [Condition.tokens]⟩)
  have hword : ∀ c : Combinator, Unbroken c.word :=
    fun c => by cases c <;> decide
  cases conds with
  | nil => simp [conditionLines]
  | cons first more =>
    obtain ⟨hfirst, hmore⟩ := List.forall_mem_cons.1 hcond
    refine List.forall_mem_cons.2 ⟨?_, List.forall_mem_map.2 fun cond hc => ?_⟩
    · simp [hb, hw, hfirst]
    · simp [hb, hword, hmore cond hc]

/-- Each line of a list is unbroken if the entries are. -/
theorem unbroken_listLines (hb : Unbroken base) (hw : Unbroken word)
    {literals : LiteralTable}
    {entries : List Text} (h : ∀ e ∈ entries, Unbroken e) :
    ∀ line ∈ listLines o base literals word entries, Unbroken line := by
  refine unbroken_rowLines ?_ (unbroken_spaces _) fun row hrow t ht => ?_
  · simp [hb, hw]
  · by_cases h₀ : entries = []
    · rw [h₀] at hrow
      cases hrow
    · refine h t ?_
      rw [← (wrap_spec _ _ _ h₀).1]
      exact List.mem_flatten.2 ⟨row, hrow, ht⟩

theorem unbroken_expressionLines (hb : Unbroken base) (hw : Unbroken word)
    {expression : Option Text} (h : ∀ e ∈ expression, Unbroken e) :
    ∀ line ∈ expressionLines o base word expression, Unbroken line := by
  cases expression with
  | none => simp [expressionLines]
  | some text => simpa [expressionLines, hb, hw] using h text rfl

theorem unbroken_joinLead (hb : Unbroken base) (kind : JoinKind) :
    Unbroken (joinLead o base kind) := by
  have hname : Unbroken kind.name := by cases kind <;> decide
  cases kind <;> simp [joinLead, hb, hname]

/-- Each line of a join's condition is unbroken if its texts are. -/
theorem unbroken_joinConditionLines (hb : Unbroken base)
    {onPredicate : Option Text} {usingColumns : List Text}
    (ho : ∀ p ∈ onPredicate, Unbroken p) (hu : ∀ e ∈ usingColumns, Unbroken e) :
    ∀ line ∈ joinConditionLines o base onPredicate usingColumns,
      Unbroken line := by
  refine List.forall_mem_append.2
    ⟨unbroken_expressionLines hb (by decide) ho, ?_⟩
  split
  · simp
  · simp [hb, unbroken_rowText hu]

theorem unbroken_appendLast {x : Text} (hx : Unbroken x)
    (h : ∀ line ∈ lines, Unbroken line) :
    ∀ line ∈ appendLast x lines, Unbroken line := by
  rcases List.eq_nil_or_concat' lines with rfl | ⟨ls, l, rfl⟩
  · simp [appendLast]
  · obtain ⟨hls, hl⟩ := List.forall_mem_append.1 h
    rw [appendLast_concat]
    refine List.forall_mem_append.2 ⟨hls, ?_⟩
    simpa using ⟨hl l (by simp), hx⟩

/-- A query in brackets has unbroken lines if its lines, its opening and its
alias are unbroken. -/
theorem unbroken_enclose (hs : Unbroken start) {aliasName : Option Text}
    (ha : ∀ n ∈ aliasName, Unbroken n) (h : ∀ line ∈ lines, Unbroken line) :
    ∀ line ∈ enclose start aliasName lines, Unbroken line := by
  refine unbroken_appendLast (by simpa using unbroken_aliasText ha) ?_
  cases lines with
  | nil => simp [hs]
  | cons first more =>
    obtain ⟨hfirst, hmore⟩ := List.forall_mem_cons.1 h
    refine List.forall_mem_cons.2 ⟨?_, hmore⟩
    simp [hs, unbroken_trimStart hfirst]

end Clauses

/-! ## Lines of queries -/

theorem forall_piece {p : Text → Prop} {texts : List Text} :
    (∀ k ∈ texts.map Token.piece, p k.text) ↔ ∀ t ∈ texts, p t :=
  List.forall_mem_map

mutual

/-- No line of a layout holds a line break, if no token of the query does. -/
theorem unbroken_queryLines (o : Options) (root : Nat) :
    ∀ q : Query, (∀ k ∈ q.tokens, Unbroken k.text) →
      ∀ line ∈ queryLines o root q, Unbroken line
  | { distinct, columns, source, joins, filter, groupBy, having, orderBy, limit,
      offset, literals, depth }, h => by
    have hb : Unbroken (baseOf root depth) := unbroken_spaces _
    rw [Query.tokens] at h
    simp only [List.forall_mem_append, forall_piece, Option.mem_toList,
      and_assoc] at h
    obtain ⟨hcolumns, hsource, hjoins, hfilter, hgroup, hhaving, horder,
        hoffset, hlimit⟩ := h
    rw [queryLines]
    simp only [List.forall_mem_append, and_assoc]
    refine ⟨?_, ?_, ?_, ?_, ?_, ?_, ?_, ?_, ?_⟩
    · exact unbroken_selectLines hb hcolumns
    · exact unbroken_sourceLines o root source hsource _ (by simp [hb])
    · exact unbroken_joinsLines o root joins hjoins _ hb
    · exact unbroken_conditionLines hb (by decide) hfilter
    · exact unbroken_listLines hb (by decide) hgroup
    · exact unbroken_conditionLines hb (by decide) hhaving
    · exact unbroken_listLines hb (by decide) horder
    · exact unbroken_expressionLines hb (by decide) hoffset
    · exact unbroken_expressionLines hb (by decide) hlimit

/-- Each line of a source is unbroken if its tokens are. -/
theorem unbroken_sourceLines (o : Options) (root : Nat) :
    ∀ s : Source, (∀ k ∈ s.tokens, Unbroken k.text) →
      ∀ start : Text, Unbroken start →
      ∀ line ∈ sourceLines o root start s, Unbroken line
  | .table name aliasName, h, start, hs => by
    obtain ⟨hname, halias⟩ : Unbroken name ∧ ∀ n ∈ aliasName, Unbroken n := by
      simpa [Source.tokens, Token.text] using h
    simp [sourceLines, hs, hname, unbroken_aliasText halias]
  | .subquery query aliasName, h, start, hs => by
    rw [Source.tokens, List.forall_mem_append, List.forall_mem_cons,
      List.forall_mem_cons, forall_piece] at h
    obtain ⟨⟨-, hquery⟩, -, halias⟩ := h
    simp only [Option.mem_toList] at halias
    rw [sourceLines]
    exact unbroken_enclose hs halias (unbroken_queryLines o root query hquery)

/-- Each line of the joins is unbroken if their tokens are. -/
theorem unbroken_joinsLines (o : Options) (root : Nat) : ∀ js : List Join,
    (∀ k ∈ Join.allTokens js, Unbroken k.text) → ∀ base : Text, Unbroken base →
      ∀ line ∈ joinsLines o root base js, Unbroken line
  | [], _, _, _ => by simp [joinsLines]
  | { kind, source, onPredicate, usingColumns } :: more, h, base, hb => by
    rw [Join.allTokens, Join.tokens] at h
    simp only [List.forall_mem_append, forall_piece, Option.mem_toList,
      and_assoc] at h
    obtain ⟨hsource, hon, husing, hmore⟩ := h
    have hcolumns : ∀ e ∈ usingColumns, Unbroken e := by
      intro e he
      rw [if_neg (by simpa using List.ne_nil_of_mem he)] at husing
      exact husing (.piece e) (by simp [he])
    have hcondition := unbroken_joinConditionLines (o := o) hb hon hcolumns
    have hlead := unbroken_joinLead (o := o) hb kind
    rw [joinsLines]
    refine List.forall_mem_append.2 ⟨?_,
      unbroken_joinsLines o root more hmore base hb⟩
    cases source with
    | table name aliasName =>
      rw [joinLines]
      refine List.forall_mem_append.2 ⟨?_, hcondition⟩
      exact unbroken_sourceLines o root
        (.table name aliasName) hsource _ (by simp [hlead])
    | subquery query aliasName =>
      rw [joinLines]
      refine List.forall_mem_append.2
        ⟨List.forall_mem_cons.2 ⟨hlead, ?_⟩, hcondition⟩
      exact unbroken_sourceLines o root
        (.subquery query aliasName) hsource _ (by simp [hb])

end

/-! ## Quoted spans in place -/

section Restored

variable {table : LiteralTable}

/-- A text on one line stays on one line, if the quoted spans do. -/
theorem unbroken_restore (hl : ∀ literal ∈ table.literals, Unbroken literal)
    {t : Text} (h : Unbroken t) : Unbroken (table.restore t) := by
  revert h
  refine LiteralTable.scan_induction table (P := fun t _ => Unbroken t →
    Unbroken (table.restore t)) ?_ ?_ ?_ ?_ t
  · exact id
  · intro c rest _ hp ih h
    rw [LiteralTable.restore_plain hp]
    exact unbroken_cons.2 ((unbroken_cons.1 h).imp_right ih)
  · intro rest _ he ih h
    rw [LiteralTable.restore_tag he]
    exact unbroken_append.2 ((unbroken_append.1 h).imp_right ih)
  · intro digits literal rest _ hi ih h
    rw [LiteralTable.restore_entry hi]
    exact unbroken_append.2 ⟨hl literal (List.mem_of_getElem? hi.entry),
      ih (unbroken_append.1 h).2⟩

theorem tokens_restore (column : Column) :
    (column.restore table).tokens =
      column.tokens.map (Token.restore table) := by
  obtain ⟨expression, _ | name⟩ := column <;> rfl

variable {p : Text → Prop}

mutual

/-- What restoring keeps, and what holds of all tokens, holds of the tokens of a
query whose select lists are restored. -/
theorem forall_tokens_restoreColumns (hp : ∀ t, p t → p (table.restore t)) :
    ∀ q : Query, q.Under table →
      (∀ k ∈ q.tokens, p k.text) → ∀ k ∈ q.restoreColumns.tokens, p k.text
  | { columns, source, joins, literals, .. }, hu, h => by
    obtain ⟨hl, hus, huj⟩ := hu
    have hrestore : ∀ k : Token, p k.text → p (k.restore table).text
      | .piece t, h => hp t h
      | .opening, h => h
      | .closing, h => h
    rw [Query.tokens] at h
    rw [Query.restoreColumns, hl, Query.tokens]
    simp only [List.forall_mem_append, and_assoc] at h ⊢
    obtain ⟨hcolumns, hsource, hjoins, hclauses⟩ := h
    have hcolumns' :
        ∀ k ∈ (columns.map (Column.restore table)).flatMap Column.tokens,
        p k.text := by
      refine List.forall_mem_flatMap.2
        (List.forall_mem_map.2 fun column hc => ?_)
      rw [tokens_restore]
      exact List.forall_mem_map.2 fun k hk =>
        hrestore k (List.forall_mem_flatMap.1 hcolumns column hc k hk)
    exact ⟨hcolumns', forall_tokens_restoreSource hp source hus hsource,
      forall_tokens_restoreAll hp joins huj hjoins, hclauses⟩

/-- What holds of the tokens of a source and outlives restoration holds of the
tokens of the restored source. -/
theorem forall_tokens_restoreSource (hp : ∀ t, p t → p (table.restore t)) :
    ∀ s : Source, s.Under table →
      (∀ k ∈ s.tokens, p k.text) → ∀ k ∈ s.restoreColumns.tokens, p k.text
  | .table name aliasName, _, h => by
    rw [Source.restoreColumns]
    exact h
  | .subquery query aliasName, hu, h => by
    rw [Source.tokens, List.forall_mem_append, List.forall_mem_cons] at h
    rw [Source.restoreColumns, Source.tokens, List.forall_mem_append,
      List.forall_mem_cons]
    exact ⟨⟨h.1.1, forall_tokens_restoreColumns hp query hu h.1.2⟩, h.2⟩

/-- What holds of the tokens of joins and outlives restoration holds of the
tokens of the restored joins. -/
theorem forall_tokens_restoreAll (hp : ∀ t, p t → p (table.restore t)) :
    ∀ js : List Join, Join.AllUnder table js →
      (∀ k ∈ Join.allTokens js, p k.text) →
      ∀ k ∈ Join.allTokens (Join.restoreAll js), p k.text
  | [], _, h => h
  | { source, .. } :: more, hu, h => by
    rw [Join.allTokens, Join.tokens] at h
    rw [Join.restoreAll, Join.restoreColumns, Join.allTokens, Join.tokens]
    simp only [List.forall_mem_append, and_assoc] at h ⊢
    obtain ⟨hsource, hon, husing, hmore⟩ := h
    exact ⟨forall_tokens_restoreSource hp source hu.1 hsource, hon, husing,
      forall_tokens_restoreAll hp more hu.2 hmore⟩

end

end Restored

/-! ## The lines of a layout -/

/-- The lines of a text. -/
def lines (t : Text) : List Text := splitWhere (· == '\n') t

/-- Unbroken lines that are joined with line breaks are found again. -/
theorem lines_join :
    ∀ {ls : List Text}, ls ≠ [] → (∀ l ∈ ls, Unbroken l) →
      lines (join ['\n'] ls) = ls
  | [], h, _ => absurd rfl h
  | [l], _, h => splitWhere_of_forall fun c hc =>
    beq_eq_false_iff_ne.2 fun e => h l (by simp) (e ▸ hc)
  | l :: l' :: ls, _, h => by
    obtain ⟨hl, hls⟩ := List.forall_mem_cons.1 h
    have hjoin :
        join ['\n'] (l :: l' :: ls) = l ++ '\n' :: join ['\n'] (l' :: ls) := by
      simp [join]
    have hfirst : splitWhere (· == '\n') l = [l] := splitWhere_of_forall
      fun c hc => beq_eq_false_iff_ne.2 fun e => hl (e ▸ hc)
    rw [lines, hjoin, splitWhere_append rfl, hfirst]
    exact congrArg (l :: ·) (lines_join (List.cons_ne_nil _ _) hls)

/-- The lines of the layout of a text whose quoted spans are each on one line:
those of the query, with the quoted spans in place. -/
theorem lines_render (o : Options) {t : Text} {q : Query} (h : parse t = .ok q)
    (hl : ∀ literal ∈ q.literals.literals, Unbroken literal) :
    lines (render o q) = (queryLines o q.depth q).map q.restore := by
  obtain ⟨masked, table, q, -, hq, rfl⟩ := exists_of_parse h
  have hunder := (shape_readMasked hq).2
  have htable : q.restoreColumns.literals = table := by
    rw [literals_restoreColumns, (sound_readMasked hq 0 q (.self q)).literals]
  rw [htable] at hl
  have htokens : ∀ k ∈ q.tokens, Unbroken k.text := fun k hk hm => by
    have hmem := ((laid_readMasked hq).isInfix k hk).subset hm
    cases spaceOnly_normalize masked _ hmem rfl
  have hlines := unbroken_queryLines o q.restoreColumns.depth q.restoreColumns
    (forall_tokens_restoreColumns (p := Unbroken)
    (fun _ => unbroken_restore hl) q hunder htokens)
  obtain ⟨first, more, hne, -⟩ :=
    exists_cons_queryLines o q.restoreColumns.depth q.restoreColumns
  have hrestore : q.restoreColumns.restore = table.restore :=
    congrArg LiteralTable.restore htable
  rw [render, hrestore, restore_join table (by simp) (by decide), lines_join]
  · simp [hne]
  · exact List.forall_mem_map.2 fun line hline =>
      unbroken_restore hl (hlines line hline)

end SqlRiver
