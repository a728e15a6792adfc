import SqlRiver.Clause.Column

/-!
# Sources

What follows `from`, a comma or `join`: the name of a table or a query in
brackets, each with an alias or without one. The text of a query in brackets is
handed to the reader `nested`.

Main definitions:

* `readBare`: a source without its alias.
* `readSource`: a source with its alias.
* `readSources`: the sources behind `from`.
-/

namespace SqlRiver

/-- Reads the text of a query in brackets. -/
abbrev Nested := Text → Except ParseError Query

/-- Reads a source without its alias. -/
def readBare (nested : Nested) (clause : Clause) : Reader Source := fun text =>
  if text.isEmpty then .error (.noTable clause)
  else if text.head? == some '(' then
    match unwrap? text with
    | none => .error .unbalanced
    | some (inside, rest) => do
      let query ← nested (Text.trim inside)
      .ok (.subquery query none, Text.trim rest)
  else
    let pos := namePosition text
    let name := text.take pos
    if name.isEmpty || isReserved name then .error (.noTable clause)
    else .ok (.table name none, Text.trim (text.drop pos))

/-- Position where the alias of a source ends: at one of the phrases that end
it, or at a comma. -/
def aliasPosition (ends : List Text) (text : Text) : Nat :=
  ((firstPosition? ends text).toList ++
    (topPosition? (· == ',') text).toList).min?.getD text.length

/-- The alias that the text behind a source writes, with `as` or without it. -/
def sourceAlias (literals : LiteralTable) (region : Text) :
    Except ParseError (Option Text) :=
  let region := Text.trim region
  if region.isEmpty then .ok none
  else
    let name := ((stripWord? "as".toList region).map Text.trim).getD region
    if isAlias name then
      .ok (some name) else .error (.badAlias (literals.restore region))

/-- Reads a source with its alias, up to one of the phrases in `ends`. -/
def readSource (nested : Nested) (literals : LiteralTable) (ends : List Text)
    (clause : Clause) : Reader Source :=
  fun text => do
  let (source, behind) ← readBare nested clause text
  let pos := aliasPosition ends behind
  let name ← sourceAlias literals (behind.take pos)
  let source := match name with
    | some name => source.withAlias name
    | none => source
  .ok (source, Text.trim (behind.drop pos))

/-- The phrases that end a source behind `from`. -/
def sourceEnds : List Text :=
  [Clause.join.phrase, "left".toList, "right".toList, "inner".toList,
    "outer".toList, "full".toList, "cross".toList, Clause.filter.phrase,
    Clause.groupBy.phrase, Clause.having.phrase, Clause.orderBy.phrase,
    Clause.limit.phrase]

/-- Reads one source behind `from` or behind a comma. -/
def readListed (nested : Nested) (literals : LiteralTable) : Reader Source :=
  readSource nested literals sourceEnds .source

/-- Reads the sources behind commas, at most `bound` of them: each is a cross
join. -/
def readMore (nested : Nested) (literals : LiteralTable) :
    Nat → Reader (List Join)
  | 0, text => .ok ([], text)
  | bound + 1, text =>
    match text.stripComma? with
    | none => .ok ([], text)
    | some behind => do
      let (source, rest) ← readListed nested literals behind
      let (more, rest) ← readMore nested literals bound rest
      .ok ({ kind := .cross, source } :: more, rest)

/-- Reads the sources behind `from`. Each comma takes a character off the text,
so there are no more of them than characters. -/
def readSources (nested : Nested) (literals : LiteralTable) :
    Reader (Source × List Join) :=
  fun text => do
    let (source, rest) ← readListed nested literals text
    let (joins, rest) ← readMore nested literals rest.length rest
    .ok ((source, joins), rest)

end SqlRiver
