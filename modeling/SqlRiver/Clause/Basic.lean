import SqlRiver.Query.Basic
import SqlRiver.Split

/-!
# Reading clauses

A query is read clause by clause. A `Reader` takes the trimmed text that is left
of the query and answers what it has read together with the trimmed text that is
then left. A reader whose clause is absent leaves the text alone.

The clauses at the end of a query are taken off its end, the last occurrence of
their phrase first, so that an earlier one stays part of what comes before. All
other clauses are taken off the start.

The predicates of `where` and `having` are divided by `and`. An `and` that
belongs to a `between`, or that stands inside a `case`, does not divide: as long
as a predicate has more `between` than `and`, or more `case` than `end`, the
next piece is part of it.

Main definitions:

* `Reader`: a step that reads one clause.
* `commaList`: the entries of a list.
* `readTrailing`, `readOrderBy`: the clauses at the end.
* `readGroupBy`: the list of `group by`.
* `isOpen`: does a predicate go on behind the next `and`?
* `regroup`: the predicates that the pieces between the `and`s make up.
* `conditions`: the conditions of a clause.
* `readFilter`, `readHaving`: the two clauses of conditions.
-/

namespace SqlRiver

/-- A step that reads one clause from the text that is left of a query. -/
abbrev Reader (α : Type) := Text → Except ParseError (α × Text)

/-- The entries of a list, between the commas of its top level. -/
def commaList (clause : Clause) (body : Text) : Except ParseError (List Text) :=
  let body := Text.trim body
  if body.isEmpty then .error (.noList clause)
  else
    let entries := (split [','] body).pieces
    if entries.any List.isEmpty then
      .error (.emptyEntry clause) else .ok entries

/-! ## Clauses at the end -/

/-- Reads a clause at the end that holds one expression. -/
def readTrailing (clause : Clause) : Reader (Option Text) := fun text =>
  match aroundLast? clause.phrase text with
  | none => .ok (none, text)
  | some (before, behind) =>
    let expression := Text.trim behind
    if expression.isEmpty then .error (.noExpression clause)
    else .ok (some expression, Text.trim before)

/-- Reads the `order by` clause at the end. -/
def readOrderBy : Reader (List Text) := fun text =>
  match aroundLast? Clause.orderBy.phrase text with
  | none => .ok ([], text)
  | some (before, behind) => do
    let entries ← commaList .orderBy behind
    .ok (entries, Text.trim before)

/-! ## Clauses at the start -/

/-- The part of a clause behind its phrase, up to the first of the phrases that
end it, and the trimmed text from there on; none where the clause is absent. -/
def bodyOf? (clause : Clause) (ends : List Clause) (text : Text) :
    Option (Text × Text) :=
  (stripWord? clause.phrase text).map fun behind =>
    let (body, rest) := cutBefore (ends.map Clause.phrase) behind
    (body, Text.trim rest)

/-- Reads the `group by` clause at the start. -/
def readGroupBy : Reader (List Text) := fun text =>
  match bodyOf? .groupBy [.having, .orderBy, .limit] text with
  | none => .ok ([], text)
  | some (body, rest) => do
    let entries ← commaList .groupBy body
    .ok (entries, rest)

/-! ## Conditions -/

/-- Does a predicate still lack the `and` of a `between` or the `end` of a
`case`? -/
def isOpen (predicate : Text) : Bool :=
  countTop "and".toList predicate < countTop "between".toList predicate
    || countTop "end".toList predicate < countTop "case".toList predicate

/-- The predicates that a first piece and the pieces behind it make up: an open
predicate takes the next separator and piece in. -/
def regroup (current : Text) : List (Text × Text) → List Text
  | [] => [current]
  | (sep, piece) :: more =>
    if isOpen current then regroup (current ++ sep ++ piece) more
    else current :: regroup piece more

/-- The conditions of a clause. -/
def conditions (clause : Clause) (body : Text) :
    Except ParseError (List Condition) :=
  let body := Text.trim body
  if body.isEmpty then .error (.noPredicate clause)
  else
    let pieces := split "and".toList body
    let predicates := (regroup pieces.first pieces.rest).map Text.trim
    if predicates.any List.isEmpty then .error (.emptyPredicate clause)
    else .ok (predicates.map fun predicate => ⟨.and, predicate⟩)

/-- Reads the `where` clause at the start. -/
def readFilter : Reader (List Condition) := fun text =>
  match bodyOf? .filter [.groupBy, .having, .orderBy, .limit] text with
  | none => .ok ([], text)
  | some (body, rest) => do
    let conds ← conditions .filter body
    .ok (conds, rest)

/-- Reads the `having` clause at the start, which needs a `group by` before
it. -/
def readHaving (grouped : Bool) : Reader (List Condition) := fun text =>
  match bodyOf? .having [.orderBy, .limit] text with
  | none => .ok ([], text)
  | some (body, rest) =>
    if grouped then do
      let conds ← conditions .having body
      .ok (conds, rest)
    else .error .ungrouped

end SqlRiver
