import SqlRiver.Json
import SqlRiver.Query.Basic

/-!
# Queries as JSON

The data of a query in JSON. The texts are written as they are stored, with
placeholders, and every query carries the table of quoted spans.

Main definitions:

* `Query.toJson`: the value of a query.
-/

namespace SqlRiver

/-- The value of a text that may be absent. -/
def Json.ofOption (t : Option Text) : Json := (t.map Json.text).getD .null

/-- The array of several texts. -/
def Json.texts (ts : List Text) : Json := .array (ts.map .text)

/-- The value of a column. -/
def Column.toJson (column : Column) : Json :=
  .object [("expression".toList, .text column.expression),
    ("alias".toList, .ofOption column.aliasName)]

/-- The value of a condition. -/
def Condition.toJson (condition : Condition) : Json :=
  .object [("combinator".toList, .text condition.combinator.word),
    ("predicate".toList, .text condition.predicate)]

/-- The value of a table of quoted spans: each placeholder with its span. -/
def LiteralTable.toJson (table : LiteralTable) : Json :=
  .object [("entries".toList, .array (table.entries.map fun entry =>
    .array [.text entry.1, .text entry.2]))]

mutual

/-- The value of a query. -/
def Query.toJson : Query → Json
  | { distinct, columns, source, joins, filter, groupBy, having, orderBy, limit,
      offset, literals, depth } =>
    .object [("distinct".toList, .bool distinct),
      ("fields".toList, .array (columns.map Column.toJson)),
      ("from".toList, Source.toJson source),
      ("joins".toList, .array (Join.allToJson joins)),
      ("where_clause".toList, .array (filter.map Condition.toJson)),
      ("group_by".toList, .texts groupBy),
      ("having".toList, .array (having.map Condition.toJson)),
      ("order_by".toList, .texts orderBy),
      ("limit".toList, .ofOption limit),
      ("offset".toList, .ofOption offset),
      ("literals".toList, literals.toJson),
      ("nesting_depth".toList, .number depth)]

/-- The value of a source. -/
def Source.toJson : Source → Json
  | .table name aliasName =>
    .object [("named".toList, .object [("name".toList, .text name),
      ("alias".toList, .ofOption aliasName)])]
  | .subquery query aliasName =>
    .object [("subquery".toList, .object [("query".toList, Query.toJson query),
      ("alias".toList, .ofOption aliasName)])]

/-- The value of a join. -/
def Join.toJson : Join → Json
  | { kind, source, onPredicate, usingColumns } =>
    .object [("kind".toList, .text kind.name),
      ("table".toList, Source.toJson source),
      ("on_predicate".toList, .ofOption onPredicate),
      ("using".toList, .texts usingColumns)]

/-- The values of several joins. -/
def Join.allToJson : List Join → List Json
  | [] => []
  | join :: more => Join.toJson join :: Join.allToJson more

end

end SqlRiver
