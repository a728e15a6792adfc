import SqlRiver.Query.Basic

/-!
# Editing queries

Changes to a query that keep it a query, and the way down to the queries inside
it.

Main definitions:

* `Edit`, `Edit.apply`: one change.
* `Step`, `Query.descend`: the query that is reached through sources.
-/

namespace SqlRiver

/-! ## Changes -/

/-- One change of a query. -/
inductive Edit where
  | distinct (value : Bool)
  | limit (value : Option Text)
  | offset (value : Option Text)
  | depth (value : Nat)
  | addColumn (column : Column)
  | dropColumn (index : Nat)
  | source (value : Source)
  /-- Gives the source behind `from` another alias. -/
  | sourceAlias (name : Text)
  /-- Selects everything from the query, which becomes a query in brackets. -/
  | wrap
  | addJoin (join : Join)
  | dropJoin (index : Nat)
  | addFilter (condition : Condition)
  /-- Changes `and` to `or`, or the reverse, at a condition of `where`. -/
  | flipFilter (index : Nat)
  | addHaving (condition : Condition)
  | groupBy (entries : List Text)
  | orderBy (entries : List Text)
  /-- Takes the table of the quoted spans of another text. -/
  | literalsOf (text : Text)

/-- Why a change does not apply. -/
inductive EditError where
  /-- The query has no column, join or condition of this index. -/
  | noSuchIndex
  /-- The text whose quoted spans were asked for cannot be read. -/
  | unreadable (cause : ParseError)

/-- The query that selects everything from a query, with its quoted spans. -/
def Query.wrap (q : Query) : Query :=
  { columns := [⟨['*'], none⟩], source := .subquery q none,
    literals := q.literals }

namespace Edit

/-- Applies one change. -/
def apply (q : Query) : Edit → Except EditError Query
  | .distinct value => .ok { q with distinct := value }
  | .limit value => .ok { q with limit := value }
  | .offset value => .ok { q with offset := value }
  | .depth value => .ok { q with depth := value }
  | .addColumn column => .ok { q with columns := q.columns ++ [column] }
  | .dropColumn index =>
    if index < q.columns.length then
      .ok { q with columns := q.columns.eraseIdx index }
    else .error .noSuchIndex
  | .source value => .ok { q with source := value }
  | .sourceAlias name => .ok { q with source := q.source.withAlias name }
  | .wrap => .ok q.wrap
  | .addJoin join => .ok { q with joins := q.joins ++ [join] }
  | .dropJoin index =>
    if index < q.joins.length then
      .ok { q with joins := q.joins.eraseIdx index }
    else .error .noSuchIndex
  | .addFilter condition => .ok { q with filter := q.filter ++ [condition] }
  | .flipFilter index =>
    if index < q.filter.length then
      .ok { q with filter := q.filter.modify index fun condition =>
              { condition with combinator := condition.combinator.flip } }
    else .error .noSuchIndex
  | .addHaving condition => .ok { q with having := q.having ++ [condition] }
  | .groupBy entries => .ok { q with groupBy := entries }
  | .orderBy entries => .ok { q with orderBy := entries }
  | .literalsOf text =>
    match protect text with
    | .ok (_, literals) => .ok { q with literals }
    | .error cause => .error (.unreadable cause)

end Edit

/-! ## The way down -/

/-- One step from a query to a query inside it. -/
inductive Step where
  /-- To the source behind `from`. -/
  | source
  /-- To the source of the join of this index. -/
  | join (index : Nat)

/-- Why a way down ends. -/
inductive StepError where
  /-- There is no join of this index. -/
  | noSuchIndex
  /-- The source is a table. -/
  | notAQuery (name : Text) (aliasName : Option Text)

namespace Query

/-- The source that a step leads to. -/
def sourceAt? (q : Query) : Step → Option Source
  | .source => some q.source
  | .join index => q.joins[index]?.map Join.source

/-- The query that is reached by several steps. -/
def descend (q : Query) : List Step → Except StepError Query
  | [] => .ok q
  | step :: more =>
    match q.sourceAt? step with
    | none => .error .noSuchIndex
    | some (.table name aliasName) => .error (.notAQuery name aliasName)
    | some (.subquery inner _) => inner.descend more

end Query

end SqlRiver
