import SqlRiver.Layout.Clauses
import SqlRiver.Query.Read

/-!
# Layout of queries

A query is laid out as a list of lines. A query in brackets is moved to the
right by its depth below the query that the layout starts with. The quoted spans
are put back when the lines are joined.

Main definitions:

* `queryLines`: the lines of a query, with placeholders.
* `render`: the text of a query.
* `format`: a text, read and laid out.
-/

namespace SqlRiver

mutual

/-- The lines of a query, when the layout starts at the depth `root`. -/
def queryLines (o : Options) (root : Nat) : Query → List Text
  | { distinct, columns, source, joins, filter, groupBy, having, orderBy, limit,
      offset, literals, depth } =>
    let base := baseOf root depth
    selectLines o base distinct columns
      ++ sourceLines o root (lead o base "from".toList ++ [' ']) source
      ++ joinsLines o root base joins
      ++ conditionLines o base "where".toList filter
      ++ listLines o base literals "group".toList groupBy
      ++ conditionLines o base "having".toList having
      ++ listLines o base literals "order".toList orderBy
      ++ expressionLines o base "offset".toList offset
      ++ expressionLines o base "limit".toList limit

/-- The lines of a source whose first line starts with `start`. -/
def sourceLines (o : Options) (root : Nat) (start : Text) : Source → List Text
  | .table name aliasName => [start ++ name ++ aliasText aliasName]
  | .subquery query aliasName =>
    enclose start aliasName (queryLines o root query)

/-- The lines of a join: a query in brackets starts on a line of its own. -/
def joinLines (o : Options) (root : Nat) (base : Text) : Join → List Text
  | { kind, source, onPredicate, usingColumns } =>
    (match source with
      | .table name aliasName =>
        sourceLines o root (joinLead o base kind ++ [' '])
          (.table name aliasName)
      | .subquery query aliasName =>
        joinLead o base kind :: sourceLines o root
          (base ++ Text.spaces (nestIndent - 1)) (.subquery query aliasName))
      ++ joinConditionLines o base onPredicate usingColumns

/-- The lines of several joins. -/
def joinsLines (o : Options) (root : Nat) (base : Text) : List Join → List Text
  | [] => []
  | join :: more => joinLines o root base join ++ joinsLines o root base more

end

/-- The text of a query. -/
def render (o : Options) (q : Query) : Text :=
  q.restore (Text.join ['\n'] (queryLines o q.depth q))

/-- A text, read as a query and laid out. -/
def format (o : Options) (t : Text) : Except ParseError Text :=
  (parse t).map (render o)

end SqlRiver
