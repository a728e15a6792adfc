import SqlRiver.Proofs.Layout.Recast
import SqlRiver.Proofs.Reading.Clean

/-!
# Layouts moved to the right

A query in brackets is laid out by itself and moved to the right. Its
indentation takes room from its lists: they are wrapped as in a layout whose
width is smaller by the indentation. The first line of the query loses its own
blanks and follows the opening bracket. What stands there before `select` is as
wide as those blanks, so `select` keeps its column.

Main definitions and statements:

* `shifted`, `Options.narrowed`: lines that are moved, and the width that is
  left for them.
* `Query.Below`: no query inside a query is above a depth.
* `queryLines_shift`: a layout that starts at a smaller depth is moved to the
  right.
* `Opened`: how a query in brackets stands in the lines of the query around it.
* `nested_layout_shifted`: a nested query is laid out as it is alone, moved to
  the right.
-/

namespace SqlRiver

open Text

/-- Lines that are moved to the right. -/
def shifted (k : Nat) (lines : List Text) : List Text :=
  lines.map (spaces k ++ ·)

/-- The options for lines that are moved to the right afterwards. -/
def Options.narrowed (o : Options) (k : Nat) : Options :=
  { o with maxWidth := o.maxWidth - k }

theorem shifted_append (k : Nat) (ls ms : List Text) :
    shifted k (ls ++ ms) = shifted k ls ++ shifted k ms := List.map_append

theorem spaces_add (m n : Nat) : spaces (m + n) = spaces m ++ spaces n :=
  List.replicate_add ..

theorem length_spaces (n : Nat) : (spaces n).length = n :=
  List.length_replicate ..

/-! ## Clauses -/

section Clauses

variable (o : Options) (k : Nat) (base : Text)

theorem lead_shift (word : Text) :
    lead o (spaces k ++ base) word =
      spaces k ++ lead (o.narrowed k) base word :=
  List.append_assoc ..

/-- The rows of a list move to the right with the texts that lead them. -/
theorem rowLines_shift (lead indent : Text) :
    ∀ rows : List (List Text), rowLines (spaces k ++ lead)
      (spaces k ++ indent) rows = shifted k (rowLines lead indent rows)
  | [] => rfl
  | [row] => by simp [rowLines, shifted]
  | row :: row' :: rows => by
    have ih := rowLines_shift indent indent (row' :: rows)
    simp only [rowLines, ih]
    simp [shifted]

/-- The blanks below a text that is moved to the right. -/
theorem spaces_length_shift (t : Text) :
    spaces (spaces k ++ t).length = spaces k ++ spaces t.length := by
  rw [List.length_append, length_spaces, spaces_add]

/-- The lines of `select` move to the right with the base. -/
theorem selectLines_shift (distinct : Bool) (columns : List Column) :
    selectLines o (spaces k ++ base) distinct columns =
      shifted k (selectLines (o.narrowed k) base distinct columns) := by
  have hcolumn : ∀ width,
      columnText (o.narrowed k) width = columnText o width :=
    fun _ => rfl
  have hgap : selectGap (o.narrowed k) distinct = selectGap o distinct := rfl
  have hselect :
      (o.narrowed k).keyword "select".toList = o.keyword "select".toList := rfl
  rw [selectLines_eq, selectLines_eq, hselect, hgap, hcolumn, hcolumn]
  simp only [List.append_assoc]
  generalize base ++ (o.keyword "select".toList ++ selectGap o distinct) = head
  split
  · exact rowLines_shift k head [] [_]
  · rw [spaces_length_shift]
    exact rowLines_shift k head _ _

theorem conditionLines_shift (word : Text) (conds : List Condition) :
    conditionLines o (spaces k ++ base) word conds =
      shifted k (conditionLines (o.narrowed k) base word conds) := by
  cases conds with
  | nil => rfl
  | cons first more => simp [conditionLines, shifted, lead_shift]

theorem expressionLines_shift (word : Text) (expression : Option Text) :
    expressionLines o (spaces k ++ base) word expression =
      shifted k (expressionLines (o.narrowed k) base word expression) := by
  cases expression with
  | none => rfl
  | some text => simp [expressionLines, shifted, lead_shift]

/-- Blanks before all rows are as good as a smaller width. The room they leave
may be none, but no row fits into it then. -/
theorem wrapFrom_shift (indent width : Nat) (measure : Text → Nat) (used : Nat)
    (entries : List Text) :
    wrapFrom (k + indent) width measure (k + used) entries =
      wrapFrom indent (width - k) measure used entries := by
  induction entries generalizing used with
  | nil => rfl
  | cons entry more ih =>
    have hnew : k + indent + measure entry = k + (indent + measure entry) :=
      by omega
    have hmore : k + used + 2 + measure entry =
        k + (used + 2 + measure entry) := by omega
    have hfits : width < k + (used + 2 + measure entry) ↔
        width - k < used + 2 + measure entry := by omega
    simp only [wrapFrom, hnew, hmore, hfits, ih]

/-- Entries that start further right are wrapped as in a narrower width. -/
theorem wrap_shift (indent width : Nat) (measure : Text → Nat)
    (entries : List Text) :
    wrap (k + indent) width measure entries =
      wrap indent (width - k) measure entries := by
  cases entries with
  | nil => rfl
  | cons entry more => rw [wrap, wrap, Nat.add_assoc, wrapFrom_shift]

/-- The lines of a list move to the right with the base, wrapped as in a
narrower width. -/
theorem listLines_shift (literals : LiteralTable) (word : Text)
    (entries : List Text) :
    listLines o (spaces k ++ base) literals word entries =
      shifted k (listLines (o.narrowed k) base literals word entries) := by
  have hby : (o.narrowed k).keyword "by".toList = o.keyword "by".toList := rfl
  have hwidth : (o.narrowed k).maxWidth = o.maxWidth - k := rfl
  simp only [listLines, lead_shift, hby, hwidth, List.append_assoc]
  generalize lead (o.narrowed k) base word ++
    ([' '] ++ (o.keyword "by".toList ++ [' '])) = head
  rw [spaces_length_shift, rowLines_shift, List.length_append, length_spaces,
    wrap_shift]

theorem joinLead_shift (kind : JoinKind) :
    joinLead o (spaces k ++ base) kind =
      spaces k ++ joinLead (o.narrowed k) base kind := by
  have hjoin : (o.narrowed k).keyword "join".toList = o.keyword "join".toList :=
    rfl
  cases kind <;> simp only [joinLead, lead_shift, hjoin, List.append_assoc]

/-- The lines of a join's condition move to the right with the base. -/
theorem joinConditionLines_shift (onPredicate : Option Text)
    (usingColumns : List Text) :
    joinConditionLines o (spaces k ++ base) onPredicate usingColumns = shifted k
      (joinConditionLines (o.narrowed k) base onPredicate usingColumns) := by
  rw [joinConditionLines, joinConditionLines, shifted_append,
    expressionLines_shift]
  split
  · rfl
  · simp [shifted, lead_shift]

end Clauses

/-! ## Queries -/

/-- The query and the queries inside it are at a depth or below it. -/
def Query.Below (root : Nat) (q : Query) : Prop :=
  ∀ n inner, Within n q inner → root ≤ inner.depth

/-- Below a higher root a query stands further right by the levels between the
roots. -/
theorem baseOf_shift {root root' depth : Nat} (hr : root ≤ root')
    (hd : root' ≤ depth) :
    baseOf root depth =
      spaces (nestIndent * (root' - root)) ++ baseOf root' depth := by
  have hwidth : (depth - root) * nestIndent =
      nestIndent * (root' - root) + (depth - root') * nestIndent := by
    rw [Nat.mul_comm nestIndent, ← Nat.add_mul]
    congr 1
    omega
  rw [baseOf, hwidth, spaces_add]
  rfl

theorem appendLast_shift (k : Nat) (x : Text) {lines : List Text}
    (h : lines ≠ []) :
    appendLast x (shifted k lines) = shifted k (appendLast x lines) := by
  obtain ⟨ls, l, rfl⟩ := (List.eq_nil_or_concat' lines).resolve_left h
  rw [shifted_append, appendLast_concat, shifted_append]
  simp [shifted, appendLast_concat]

/-- The blanks that a query is moved by are lost at its first line, which
follows a bracket. -/
theorem enclose_shift (k : Nat) (start : Text) (aliasName : Option Text)
    {lines : List Text} (h : lines ≠ []) :
    enclose (spaces k ++ start) aliasName (shifted k lines) =
      shifted k (enclose start aliasName lines) := by
  obtain ⟨first, more, rfl⟩ := List.exists_cons_of_ne_nil h
  have hfirst : trimStart (spaces k ++ first) = trimStart first :=
    List.dropWhile_append_of_pos (blank_spaces k)
  have hopened :
      (spaces k ++ start ++ ['('] ++ trimStart (spaces k ++ first)) ::
          shifted k more =
        shifted k ((start ++ ['('] ++ trimStart first) :: more) := by
    simp [shifted, hfirst]
  show appendLast _
    ((spaces k ++ start ++ ['('] ++ trimStart (spaces k ++ first)) ::
      shifted k more) = _
  rw [hopened, appendLast_shift k _ (List.cons_ne_nil _ _)]
  rfl

section Queries

variable {o : Options} {root root' : Nat}

mutual

/-- A layout that starts at a smaller depth is moved to the right. -/
theorem queryLines_shift (hr : root ≤ root') :
    ∀ q : Query, q.Below root' →
      queryLines o root q = shifted (nestIndent * (root' - root))
      (queryLines (o.narrowed (nestIndent * (root' - root))) root' q)
  | { distinct, columns, source, joins, filter, groupBy, having, orderBy, limit,
      offset, literals, depth }, h => by
    obtain ⟨hd, hsources⟩ := forall_within_iff.1 h
    have hsource := sourceLines_shift hr source (hsources _ List.mem_cons_self)
    have hjoins :=
      joinsLines_shift hr joins fun j hj => hsources _ (mem_sources hj)
    rw [queryLines, queryLines]
    simp only [baseOf_shift hr hd, shifted_append, selectLines_shift,
      conditionLines_shift, listLines_shift, expressionLines_shift, hjoins,
      lead_shift, List.append_assoc (spaces _), hsource]

/-- A source behind any text. -/
theorem sourceLines_shift (hr : root ≤ root') :
    ∀ s : Source, s.Holds (Query.Below root') → ∀ start : Text,
      sourceLines o root (spaces (nestIndent * (root' - root)) ++ start) s =
      shifted (nestIndent * (root' - root))
      (sourceLines (o.narrowed (nestIndent * (root' - root))) root' start s)
  | .table name aliasName, _, start => by simp [sourceLines, shifted]
  | .subquery query aliasName, h, start => by
    obtain ⟨first, more, hne, -⟩ := exists_cons_queryLines
      (o.narrowed (nestIndent * (root' - root))) root' query
    rw [sourceLines, sourceLines,
      queryLines_shift hr query (h query aliasName rfl), enclose_shift]
    rw [hne]
    exact List.cons_ne_nil _ _

/-- The lines of joins move to the right with the base and the levels between
the roots. -/
theorem joinsLines_shift (hr : root ≤ root') :
    ∀ joins : List Join, (∀ j ∈ joins, j.source.Holds (Query.Below root')) →
      ∀ base : Text,
      joinsLines o root (spaces (nestIndent * (root' - root)) ++ base) joins =
      shifted (nestIndent * (root' - root))
      (joinsLines (o.narrowed (nestIndent * (root' - root))) root' base joins)
  | [], _, _ => by rw [joinsLines, joinsLines]; rfl
  | { kind, source, onPredicate, usingColumns } :: more, h, base => by
    obtain ⟨hj, hmore⟩ := List.forall_mem_cons.1 h
    have hsource := sourceLines_shift hr source hj
    have ih := joinsLines_shift hr more hmore base
    rw [joinsLines, joinsLines, shifted_append, ih]
    congr 1
    cases source with
    | table name aliasName =>
      rw [joinLines, joinLines, shifted_append, joinConditionLines_shift,
        joinLead_shift, List.append_assoc, hsource]
    | subquery query aliasName =>
      rw [joinLines, joinLines, shifted_append, joinConditionLines_shift,
        joinLead_shift, List.append_assoc, hsource]
      rfl

end

end Queries

/-! ## The lines of the clauses -/

/-- The lines of the clauses of a query, in order. -/
def clauseLines (o : Options) (root : Nat) (q : Query) : List (List Text) :=
  let base := baseOf root q.depth
  [selectLines o base q.distinct q.columns,
    sourceLines o root (lead o base "from".toList ++ [' ']) q.source, joinsLines
    o root base q.joins, conditionLines o base "where".toList q.filter,
    listLines o base q.literals "group".toList q.groupBy,
    conditionLines o base "having".toList q.having, listLines o base q.literals
    "order".toList q.orderBy, expressionLines o base "offset".toList q.offset,
    expressionLines o base "limit".toList q.limit]

/-- The lines of a query are those of its clauses. -/
theorem queryLines_eq_flatten (o : Options) (root : Nat) (q : Query) :
    queryLines o root q = (clauseLines o root q).flatten := by
  obtain ⟨distinct, columns, source, joins, filter, groupBy, having, orderBy,
      limit, offset, literals, depth⟩ := q
  simp only [queryLines, clauseLines, List.flatten_cons, List.flatten_nil,
    List.append_nil, List.append_assoc]

theorem joinsLines_eq_flatten (o : Options) (root : Nat) (base : Text)
    (joins : List Join) :
    joinsLines o root base joins =
      (joins.map (joinLines o root base)).flatten := by
  induction joins with
  | nil => rw [joinsLines]; rfl
  | cons j joins ih => rw [joinsLines, ih, List.map_cons, List.flatten_cons]

theorem selectLines_ne_nil (o : Options) (base : Text) (distinct : Bool)
    (columns : List Column) : selectLines o base distinct columns ≠ [] := by
  rw [selectLines_eq]
  split
  · exact rowLines_ne_nil _ _ (List.cons_ne_nil _ _)
  · next h =>
    refine rowLines_ne_nil _ _ fun h₀ => h ?_
    have hcolumns : columns = [] := by simpa using h₀
    simp [hcolumns, aliasedWidths]

/-- The lines of each clause but the first stand together behind the first line
of the query. -/
theorem infix_tail_queryLines {o : Options} {root : Nat} {q : Query}
    {lines : List Text} (h : lines ∈ (clauseLines o root q).tail) :
    lines <:+: (queryLines o root q).tail := by
  rw [queryLines_eq_flatten, clauseLines, List.flatten_cons,
    List.tail_append_of_ne_nil (selectLines_ne_nil o _ _ _)]
  exact (List.infix_of_mem_flatten h).trans (List.suffix_append _ _).isInfix

/-- The lines of the source stand together behind the first line of a query. -/
theorem infix_sourceLines (o : Options) (root : Nat) {q : Query} {s : Source}
    (h : q.source = s) :
    sourceLines o root (lead o (baseOf root q.depth) "from".toList ++ [' '])
      s <:+: (queryLines o root q).tail := by
  subst h
  exact infix_tail_queryLines List.mem_cons_self

/-- The lines of each join stand together behind the first line of a query. -/
theorem infix_joinLines (o : Options) (root : Nat) {q : Query} {j : Join}
    (hj : j ∈ q.joins) :
    joinLines o root (baseOf root q.depth) j <:+:
      (queryLines o root q).tail := by
  have hjoins : joinsLines o root (baseOf root q.depth) q.joins ∈
      (clauseLines o root q).tail :=
    List.mem_cons_of_mem _ List.mem_cons_self
  refine List.IsInfix.trans ?_ (infix_tail_queryLines hjoins)
  rw [joinsLines_eq_flatten]
  exact List.infix_of_mem_flatten (List.mem_map_of_mem hj)

/-- A query that is joined starts on the line below `join`. -/
theorem infix_joinQuery (o : Options) (root : Nat) {q query : Query}
    {aliasName : Option Text} {j : Join}
    (hj : j ∈ q.joins) (h : j.source = .subquery query aliasName) :
    sourceLines o root (baseOf root q.depth ++ spaces (nestIndent - 1))
      (.subquery query aliasName) <:+: (queryLines o root q).tail := by
  have hlines := infix_joinLines o root hj
  obtain ⟨kind, source, onPredicate, usingColumns⟩ := j
  obtain rfl : source = .subquery query aliasName := h
  rw [joinLines] at hlines
  exact ((List.suffix_cons _ _).isInfix.trans
    (List.prefix_append _ _).isInfix).trans hlines

/-! ## Brackets -/

/-- What stands before a query behind `from`. -/
def fromOpening (o : Options) (base : Text) : Text :=
  lead o base "from".toList ++ [' ', '(']

/-- What stands before a query on the line below `join`. -/
def joinOpening (base : Text) : Text := base ++ spaces (nestIndent - 1) ++ ['(']

/-- Behind the first line of a query stand the lines of a query in brackets
inside it: the first one without its indentation behind a text of the same
width, the others as they are. -/
def Opened (o : Options) (root : Nat) (parent inner : Query)
    (aliasName : Option Text) (opening : Text) : Prop :=
  ∃ (first : Text) (more : List Text), queryLines o root inner =
    (baseOf root inner.depth ++ (o.keyword "select".toList ++ first)) :: more ∧
    trimStart (baseOf root inner.depth ++
    (o.keyword "select".toList ++ first)) = o.keyword "select".toList ++ first ∧
    appendLast (')' :: aliasText aliasName)
    ((opening ++ (o.keyword "select".toList ++ first)) :: more) <:+:
    (queryLines o root parent).tail ∧
    opening.length = (baseOf root inner.depth).length

section Opened

variable (o : Options) {root : Nat} {parent inner : Query}
  {aliasName : Option Text}

/-- A query in brackets whose lines stand together is opened by a text of the
width of its indentation. -/
theorem opened_of_isInfix {start : Text} (h : sourceLines o root start
    (.subquery inner aliasName) <:+: (queryLines o root parent).tail)
    (hwidth : (start ++ ['(']).length = (baseOf root inner.depth).length) :
    Opened o root parent inner aliasName (start ++ ['(']) := by
  obtain ⟨first, more, hq⟩ := exists_queryLines o root inner
  have htrim := trimStart_select o (blank_baseOf root inner.depth) first
  rw [lead_select, List.append_assoc] at hq
  rw [sourceLines, hq, enclose, htrim] at h
  exact ⟨first, more, hq, htrim, h, hwidth⟩

theorem fromOpening_eq (base : Text) :
    fromOpening o base = lead o base "from".toList ++ [' '] ++ ['('] := by
  rw [fromOpening, List.append_assoc]
  rfl

/-- What opens a query behind `from` is one step of indentation wide. -/
theorem length_fromOpening (base : Text) :
    (fromOpening o base).length = base.length + nestIndent := by
  simp [fromOpening, lead, padStart, length_spaces, Recast.length_keyword,
    keywordWidth, nestIndent]

/-- So is what opens a query that is joined. -/
theorem length_joinOpening (base : Text) :
    (joinOpening base).length = base.length + nestIndent := by
  simp [joinOpening, length_spaces, keywordWidth, nestIndent]

/-- A query in brackets is one level deeper, and its indentation is wider by one
step. -/
theorem length_baseOf_succ (hr : root ≤ parent.depth)
    (hd : inner.depth = parent.depth + 1) :
    (baseOf root inner.depth).length =
      (baseOf root parent.depth).length + nestIndent := by
  have hlevel : parent.depth + 1 - root = parent.depth - root + 1 := by omega
  rw [baseOf, baseOf, length_spaces, length_spaces, hd, hlevel, Nat.add_mul,
    Nat.one_mul]

/-- The query behind `from`. -/
theorem opened_source (hr : root ≤ parent.depth)
    (hd : inner.depth = parent.depth + 1)
    (h : parent.source = .subquery inner aliasName) :
    Opened o root parent inner aliasName
      (fromOpening o (baseOf root parent.depth)) := by
  have hopened := opened_of_isInfix o (infix_sourceLines o root h) <| by
    rw [← fromOpening_eq, length_fromOpening, length_baseOf_succ hr hd]
  rwa [← fromOpening_eq] at hopened

/-- The query of a join. -/
theorem opened_join (hr : root ≤ parent.depth)
    (hd : inner.depth = parent.depth + 1) {j : Join}
    (hj : j ∈ parent.joins) (h : j.source = .subquery inner aliasName) :
    Opened o root parent inner aliasName
      (joinOpening (baseOf root parent.depth)) := by
  refine opened_of_isInfix o (infix_joinQuery o root hj h) ?_
  rw [← joinOpening, length_joinOpening, length_baseOf_succ hr hd]

end Opened

/-- A nested query is laid out as it is alone, moved to the right by its
indentation and wrapped at a width that is smaller by as much. Whatever query
inside it is in brackets, one level below the query around it, loses the
indentation of its first line to a text of the same width, and so keeps its
column. -/
theorem nested_layout_shifted (o : Options) (root : Nat) (q : Query)
    (hr : root ≤ q.depth) (hq : q.Below q.depth) :
    queryLines o root q = shifted (nestIndent * (q.depth - root))
      (queryLines (o.narrowed (nestIndent * (q.depth - root))) q.depth q) ∧
    ∀ n parent inner aliasName, Within n q parent →
      inner.depth = parent.depth + 1 →
      (parent.source = .subquery inner aliasName → Opened o root parent inner
      aliasName (fromOpening o (baseOf root parent.depth))) ∧
      ∀ j ∈ parent.joins, j.source = .subquery inner aliasName →
      Opened o root parent inner aliasName
      (joinOpening (baseOf root parent.depth)) := by
  refine ⟨queryLines_shift hr q hq, fun n parent inner aliasName hw hd => ?_⟩
  have hparent : root ≤ parent.depth := hr.trans (hq n parent hw)
  exact ⟨opened_source o hparent hd, fun j hj => opened_join o hparent hd hj⟩

/-- The query in the brackets of
`select … from (select * from (select a from t order by alpha, beta) u)`. -/
def stackedQuery : Query where
  columns := [⟨['*'], none⟩]
  source := .subquery
    { columns := [⟨['a'], none⟩], source := .table ['t'] none,
      orderBy := ["alpha".toList, "beta".toList], depth := 2 }
    (some ['u'])
  depth := 1

/-- The layout below a root one level higher, eight columns further right and in
a greater width, and the opening of the query inside. -/
theorem nested_layout_shifted_stacked :
    queryLines ⟨.lower, 30⟩ 0 stackedQuery =
      shifted 8 (queryLines ⟨.lower, 22⟩ 1 stackedQuery) ∧
    Opened ⟨.lower, 30⟩ 0 stackedQuery
      { columns := [⟨['a'], none⟩], source := .table ['t'] none,
        orderBy := ["alpha".toList, "beta".toList], depth := 2 }
      (some ['u']) (fromOpening ⟨.lower, 30⟩ (baseOf 0 1)) := by
  have hbelow : stackedQuery.Below stackedQuery.depth := by
    refine forall_within_iff.2 ⟨le_rfl, ?_⟩
    rintro s hs query aliasName rfl
    obtain ⟨⟩ := List.mem_singleton.1 hs
    refine forall_within_iff.2 ⟨by decide, ?_⟩
    rintro s hs query aliasName rfl
    cases List.mem_singleton.1 hs
  obtain ⟨hlines, hopened⟩ :=
    nested_layout_shifted ⟨.lower, 30⟩ 0 stackedQuery (by decide) hbelow
  exact ⟨hlines, (hopened 0 stackedQuery _ _ (.self _) rfl).1 rfl⟩

end SqlRiver
