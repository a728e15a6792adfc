import SqlRiver.Clause.Source

/-!
# Joins

The joins of a query run up to the next clause and are divided by the word
`join`. The words before `join` that choose its kind stand at the end of the
piece before it. A join may have one condition: a predicate behind `on`, or a
list of columns in brackets behind `using`.

Main definitions:

* `joinKind`: the kind that the words before `join` choose.
* `trailingModifiers`: a piece divided before the modifiers at its end.
* `readJoin`: one join.
* `readJoins`: all joins of a query.
-/

namespace SqlRiver

/-! ## Kinds -/

/-- The words before `join`, for each kind of join. -/
def modifierWords : List (List Text × JoinKind) :=
  [([], .plain),
    (["left".toList], .left), (["left".toList, "outer".toList], .left),
    (["right".toList], .right), (["right".toList, "outer".toList], .right),
    (["inner".toList], .inner), (["outer".toList], .outer),
    (["full".toList], .full), (["full".toList, "outer".toList], .full),
    (["cross".toList], .cross)]

/-- The kind of join that the words before `join` choose. -/
def joinKind (modifiers : Text) : Except ParseError JoinKind :=
  match modifierWords.find? fun entry =>
    entry.1 == modifiers.words.map Text.lower with
  | some (_, kind) => .ok kind
  | none => .error (.badModifier modifiers)

/-- Position where the last word before a position starts. -/
def lastWordStart (piece : Text) (cut : Nat) : Nat :=
  let head := Text.trimEnd (piece.take cut)
  head.length - (Text.afterLast ' ' head).length

/-- The last word before a position. -/
def lastWord (piece : Text) (cut : Nat) : Text :=
  Text.afterLast ' ' (Text.trimEnd (piece.take cut))

/-- Position where the modifiers before a position start, when there are at most
`bound` of them. -/
def modifiersStart (piece : Text) : Nat → Nat → Nat
  | 0, cut => cut
  | bound + 1, cut =>
    if isJoinModifier (lastWord piece cut) then
      modifiersStart piece bound (lastWordStart piece cut)
    else cut

/-- A piece divided before the modifiers at its end. -/
def trailingModifiers (piece : Text) : Text × Text :=
  let cut := modifiersStart piece piece.length piece.length
  (Text.trim (piece.take cut), Text.trim (piece.drop cut))

/-! ## One join -/

/-- The columns behind `using`, which stand in one pair of brackets. -/
def usingList (columns : Text) : Except ParseError (List Text) :=
  match unwrap? columns with
  | some (inside, []) => commaList .joinUsing inside
  | _ => .error .noColumns

/-- Reads a join of a given kind from all of its text behind the word `join`. -/
def readJoin (nested : Nested) (literals : LiteralTable) (kind : JoinKind)
    (body : Text) : Except ParseError Join :=
  do
  let (source, rest) ← readSource nested literals
    [Clause.joinOn.phrase, Clause.joinUsing.phrase] .join (Text.trim body)
  if rest.isEmpty then .ok { kind, source }
  else
    match stripWord? Clause.joinOn.phrase rest with
    | some behind =>
      let predicate := Text.trim behind
      if predicate.isEmpty then .error (.noPredicate .joinOn)
      else .ok { kind, source, onPredicate := some predicate }
    | none =>
      match stripWord? Clause.joinUsing.phrase rest with
      | some behind => do
        let usingColumns ← usingList (Text.trim behind)
        .ok { kind, source, usingColumns }
      | none => .error (.badJoin (literals.restore rest))

/-! ## All joins -/

/-- The joins of the pieces behind each `join`, when `modifiers` stands before
the first of them. -/
def joinsOf (nested : Nested) (literals : LiteralTable) (modifiers : Text) :
    List Text → Except ParseError (List Join)
  | [] => .ok []
  | [piece] => do
    let kind ← joinKind modifiers
    let join ← readJoin nested literals kind piece
    .ok [join]
  | piece :: more => do
    let (body, next) := trailingModifiers piece
    let kind ← joinKind modifiers
    let join ← readJoin nested literals kind body
    let joins ← joinsOf nested literals next more
    .ok (join :: joins)

/-- The phrases that end the joins of a query. -/
def joinEnds : List Text :=
  [Clause.filter.phrase, Clause.groupBy.phrase, Clause.having.phrase,
    Clause.orderBy.phrase, Clause.limit.phrase]

/-- Reads the joins at the start. -/
def readJoins (nested : Nested) (literals : LiteralTable) :
    Reader (List Join) :=
  fun text =>
  let (region, rest) := cutBefore joinEnds text
  if (Text.trim region).isEmpty then .ok ([], text)
  else
    match (split Clause.join.phrase region).pieces with
    | modifiers :: piece :: more => do
      let joins ← joinsOf nested literals modifiers (piece :: more)
      .ok (joins, Text.trim rest)
    | _ => .error (.noJoin (literals.restore (Text.trim region)))

end SqlRiver
