import SqlRiver.Clause.Basic
import SqlRiver.Clause.Join

/-!
# Reading queries

A text is read in three steps: its quoted spans are replaced by placeholders and
its comments by spaces, its white space is normalised, and the query is read
clause by clause. Brackets have to be balanced before the third step starts. In
the end the quoted spans of the select lists are put back; all other texts of a
query keep their placeholders.

A query may hold queries in brackets. The reader of a query is handed the reader
of the queries inside it, and recursion goes down with the number of levels that
may still follow.

Main definitions:

* `readClauses`: the clauses of a query, in the order in which they are taken
  off.
* `readQuery`: a query with a bound on its depth.
* `Query.restoreColumns`: a query with the quoted spans of its select lists.
* `parse`: the query that a text writes.
-/

namespace SqlRiver

/-- Reads nothing: what is left of a query has to be empty. -/
def finish (literals : LiteralTable) (text : Text) : Except ParseError Unit :=
  if text.isEmpty then .ok () else .error (.leftover (literals.restore text))

/-- Reads the clauses of a query. -/
def readClauses (nested : Nested) (literals : LiteralTable) (depth : Nat)
    (text : Text) : Except ParseError Query :=
  do
  let (limit, text) ← readTrailing .limit text
  let (offset, text) ← readTrailing .offset text
  let (orderBy, text) ← readOrderBy text
  let ((distinct, columns), text) ← readSelect literals text
  let ((source, listed), text) ← readSources nested literals text
  let (joined, text) ← readJoins nested literals text
  let (filter, text) ← readFilter text
  let (groupBy, text) ← readGroupBy text
  let (having, text) ← readHaving (!groupBy.isEmpty) text
  finish literals text
  .ok { distinct, columns, source, joins := listed ++ joined, filter, groupBy,
        having, orderBy, limit, offset, literals, depth }

/-- The first word of a query, which ends at a blank or at an opening
bracket. -/
def firstWord (text : Text) : Text :=
  text.takeWhile fun c => !(isBlank c || c == '(')

/-- Reads a text that has to be a query, and tells other statements apart. -/
def readStatement (nested : Nested) (literals : LiteralTable) (depth : Nat)
    (text : Text) : Except ParseError Query :=
  if text.isEmpty then .error .emptySubquery
  else
    match Keyword.ofWord? (firstWord text) with
    | some k =>
      if k.text == Clause.select.phrase then
        readClauses nested literals depth text
      else if k.isStatementKind then .error (.unsupported k.text)
      else .error (.unsupported (literals.restore (firstWord text)))
    | none => .error (.unsupported (literals.restore (firstWord text)))

/-- Reads a query inside of which at most `room` levels of queries may
follow. -/
def readQuery (literals : LiteralTable) : Nat → Nested
  | 0 => readStatement (fun _ => .error .tooDeep) literals maxDepth
  | room + 1 =>
    readStatement (readQuery literals room) literals (maxDepth - (room + 1))

/-! ## Select lists -/

/-- A column with the quoted spans for its placeholders. -/
def Column.restore (literals : LiteralTable) (column : Column) : Column :=
  ⟨literals.restore column.expression, column.aliasName.map literals.restore⟩

mutual

/-- A query with the quoted spans of its select list and of those inside it. -/
def Query.restoreColumns : Query → Query
  | { distinct, columns, source, joins, filter, groupBy, having, orderBy, limit,
      offset, literals, depth } =>
    { distinct, columns := columns.map (Column.restore literals)
      source := Source.restoreColumns source, joins := Join.restoreAll joins
      filter, groupBy, having, orderBy, limit, offset, literals, depth }

/-- A source with the quoted spans of the select lists inside it. -/
def Source.restoreColumns : Source → Source
  | .table name aliasName => .table name aliasName
  | .subquery query aliasName =>
    .subquery (Query.restoreColumns query) aliasName

/-- A join with the quoted spans of the select lists inside it. -/
def Join.restoreColumns : Join → Join
  | { kind, source, onPredicate, usingColumns } =>
    { kind, source := Source.restoreColumns source, onPredicate, usingColumns }

/-- Joins with the quoted spans of the select lists inside them. -/
def Join.restoreAll : List Join → List Join
  | [] => []
  | join :: more => Join.restoreColumns join :: Join.restoreAll more

end

/-! ## Texts -/

/-- Reads a text in which quoted spans have been replaced by placeholders. -/
def readMasked (literals : LiteralTable) (masked : Text) :
    Except ParseError Query :=
  let text := Text.normalize masked
  if text.isEmpty then .error .emptyInput
  else if !isBalanced text then .error .unbalanced
  else readQuery literals maxDepth (Text.trim text)

/-- The query that a text writes. -/
def parse (t : Text) : Except ParseError Query := do
  let (masked, literals) ← protect t
  let query ← readMasked literals masked
  .ok query.restoreColumns

end SqlRiver
