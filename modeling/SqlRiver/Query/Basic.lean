import SqlRiver.Literal.Table

/-!
# Queries

A query as data. Expressions and predicates stay texts: this library lays a
query out and does not evaluate it. Every query carries the table of the quoted
spans of the text it was read from, since its texts may hold placeholders, and
its depth, the number of queries around it.

Main definitions:

* `Column`, `Condition`, `JoinKind`: the parts without a query inside.
* `Query`, `Source`, `Join`: a query, what it selects from, and what it joins.
-/

namespace SqlRiver

/-- An expression of the select list, with the name it is given. -/
structure Column where
  /-- The expression. -/
  expression : Text
  /-- The name behind `as`. -/
  aliasName : Option Text := none
deriving DecidableEq, Repr

/-- How a condition is combined with those before it. -/
inductive Combinator where
  | and
  | or
deriving DecidableEq, Repr

namespace Combinator

/-- The word of a combinator. -/
def word : Combinator → Text
  | .and => "and".toList
  | .or => "or".toList

/-- The other combinator. -/
def flip : Combinator → Combinator
  | .and => .or
  | .or => .and

end Combinator

/-- A predicate of a `where` or `having` clause. -/
structure Condition where
  /-- How it is combined with those before it. -/
  combinator : Combinator := .and
  /-- The predicate. -/
  predicate : Text
deriving DecidableEq, Repr

/-- The kinds of join. -/
inductive JoinKind where
  | plain
  | left
  | right
  | inner
  | outer
  | full
  | cross
deriving DecidableEq, Repr

namespace JoinKind

/-- The word that names a kind: for a plain join, none stands before `join`. -/
def name : JoinKind → Text
  | .plain => "plain".toList
  | .left => "left".toList
  | .right => "right".toList
  | .inner => "inner".toList
  | .outer => "outer".toList
  | .full => "full".toList
  | .cross => "cross".toList

/-- All kinds. -/
def all : List JoinKind :=
  [.plain, .left, .right, .inner, .outer, .full, .cross]

end JoinKind

mutual

/-- A query. -/
structure Query where
  /-- Does `distinct` follow `select`? -/
  distinct : Bool := false
  /-- The select list. -/
  columns : List Column
  /-- What stands first behind `from`. -/
  source : Source
  /-- What is joined to it, in order. -/
  joins : List Join := []
  /-- The conditions of `where`. -/
  filter : List Condition := []
  /-- The list of `group by`. -/
  groupBy : List Text := []
  /-- The conditions of `having`. -/
  having : List Condition := []
  /-- The list of `order by`. -/
  orderBy : List Text := []
  /-- The expression of `limit`. -/
  limit : Option Text := none
  /-- The expression of `offset`. -/
  offset : Option Text := none
  /-- The quoted spans that placeholders in its texts stand for. -/
  literals : LiteralTable := LiteralTable.empty
  /-- How many queries it is nested in. -/
  depth : Nat := 0

/-- Something that rows come from. -/
inductive Source where
  /-- A table by its name, or a call of a table function. -/
  | table (name : Text) (aliasName : Option Text)
  /-- A query in brackets. -/
  | subquery (query : Query) (aliasName : Option Text)

/-- A source that is joined to those before it. -/
structure Join where
  /-- The kind of the join. -/
  kind : JoinKind
  /-- What is joined. -/
  source : Source
  /-- The predicate behind `on`. -/
  onPredicate : Option Text := none
  /-- The columns behind `using`. -/
  usingColumns : List Text := []

end

namespace Source

/-- The alias of a source. -/
def aliasName? : Source → Option Text
  | .table _ aliasName => aliasName
  | .subquery _ aliasName => aliasName

/-- The name of a source that is a table. -/
def name? : Source → Option Text
  | .table name _ => some name
  | .subquery _ _ => none

/-- The source under another alias. -/
def withAlias (aliasName : Text) : Source → Source
  | .table name _ => .table name (some aliasName)
  | .subquery query _ => .subquery query (some aliasName)

end Source

/-- The text with the quoted spans of a query for its placeholders. -/
def Query.restore (q : Query) (t : Text) : Text := q.literals.restore t

end SqlRiver
