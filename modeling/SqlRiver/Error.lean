import SqlRiver.Text.Basic

/-!
# Errors

Why a text is no query that this library reads. Each cause is a constructor of
`ParseError`, and `ParseError.message` holds the wording of all of them.

Main definitions:

* `Clause`: the clauses of a query, by the phrase that leads them.
* `ParseError`: the causes.
* `ParseError.message`: the wording.
-/

namespace SqlRiver

/-- The clauses of a query, and the two ways to condition a join. -/
inductive Clause where
  | select
  | source
  | join
  | joinOn
  | joinUsing
  | filter
  | groupBy
  | having
  | orderBy
  | limit
  | offset
deriving DecidableEq, Repr

namespace Clause

/-- The keyword or phrase that leads a clause. -/
def phrase : Clause → Text
  | .select => "select".toList
  | .source => "from".toList
  | .join => "join".toList
  | .joinOn => "on".toList
  | .joinUsing => "using".toList
  | .filter => "where".toList
  | .groupBy => "group by".toList
  | .having => "having".toList
  | .orderBy => "order by".toList
  | .limit => "limit".toList
  | .offset => "offset".toList

/-- How messages name a clause: its phrase in capitals. -/
def label (c : Clause) : Text := c.phrase.upper

end Clause

/-- The deepest level of subqueries that is read. -/
def maxDepth : Nat := 64

/-- Why a text is no query that is read here. -/
inductive ParseError where
  /-- A quote that opens at this byte offset is never closed. -/
  | openQuote (offset : Nat)
  /-- A comment that opens at this byte offset is never closed. -/
  | openComment (offset : Nat)
  /-- There is nothing to read. -/
  | emptyInput
  /-- Brackets without a partner. -/
  | unbalanced
  /-- A pair of brackets that should hold a query holds nothing. -/
  | emptySubquery
  /-- Subqueries are nested deeper than `maxDepth`. -/
  | tooDeep
  /-- The query does not start with `select`. -/
  | noSelect
  /-- No `from` follows `select`. -/
  | noSource
  /-- Nothing stands between `select` and `from`. -/
  | emptySelect
  /-- Nothing follows the keyword of a clause that holds one expression. -/
  | noExpression (clause : Clause)
  /-- Nothing follows the keyword of a clause that holds a list. -/
  | noList (clause : Clause)
  /-- Two commas of a list have nothing between them, or a comma is first or
  last. -/
  | emptyEntry (clause : Clause)
  /-- No table follows `from`, a comma or `join`. -/
  | noTable (clause : Clause)
  /-- Nothing follows the keyword of a clause that holds predicates. -/
  | noPredicate (clause : Clause)
  /-- An `and` has nothing before or behind it. -/
  | emptyPredicate (clause : Clause)
  /-- What follows a table is no alias. -/
  | badAlias (found : Text)
  /-- What follows the tables does not start a join. -/
  | noJoin (found : Text)
  /-- The words before `join` name no kind of join. -/
  | badModifier (found : Text)
  /-- What follows the table of a join is no condition. -/
  | badJoin (found : Text)
  /-- `using` is not followed by one pair of brackets. -/
  | noColumns
  /-- `having` without `group by`. -/
  | ungrouped
  /-- Something is left over at the end. -/
  | leftover (found : Text)
  /-- A statement of another kind, by its first word. -/
  | unsupported (word : Text)
deriving DecidableEq, Repr

namespace ParseError

/-- A piece of text in backquotes. -/
def quoted (found : Text) : Text := ['\x60'] ++ found ++ ['\x60']

/-- What is wrong with a malformed statement. -/
def reason : ParseError → Text
  | .openQuote offset =>
    "unterminated quoted text starting at ".toList ++ Text.ofNat offset
  | .openComment offset =>
    "unterminated comment starting at ".toList ++ Text.ofNat offset
  | .emptyInput => "empty input".toList
  | .unbalanced => "unbalanced parentheses".toList
  | .emptySubquery => "empty subquery".toList
  | .tooDeep => "subqueries nested deeper than ".toList ++ Text.ofNat maxDepth
  | .noSelect => "expected SELECT".toList
  | .noSource => "missing FROM after SELECT".toList
  | .emptySelect => "empty SELECT list".toList
  | .noExpression clause => clause.label ++ " without an expression".toList
  | .noList clause => clause.label ++ " without a list".toList
  | .emptyEntry clause =>
    "empty entry in ".toList ++ clause.label ++ " list".toList
  | .noTable clause => "missing table after ".toList ++ clause.label
  | .noPredicate clause => clause.label ++ " without a predicate".toList
  | .emptyPredicate clause => "empty predicate in ".toList ++ clause.label
  | .badAlias found =>
    "unexpected ".toList ++ quoted found ++ " after table reference".toList
  | .noJoin found => "expected JOIN, found ".toList ++ quoted found
  | .badModifier found => "unrecognised join modifier ".toList ++ quoted found
  | .badJoin found => "unexpected ".toList ++ quoted found ++ " in JOIN".toList
  | .noColumns => "USING without a column list".toList
  | .ungrouped => "HAVING without GROUP BY".toList
  | .leftover found => "unexpected ".toList ++ quoted found
  | .unsupported word => word

/-- Is the text a statement of another kind, and not a malformed query? -/
def isUnsupported : ParseError → Bool
  | .unsupported _ => true
  | _ => false

/-- The message that a user reads. -/
def message (e : ParseError) : Text :=
  if e.isUnsupported then "unsupported statement kind: ".toList ++ e.reason
  else "malformed statement: ".toList ++ e.reason

end ParseError

end SqlRiver
