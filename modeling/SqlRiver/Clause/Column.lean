import SqlRiver.Clause.Basic

/-!
# Columns

The select list. An entry may name its expression: behind the word `as`, or as
its bare last word. A bare last word is no alias where it continues an
expression: behind an operator, or behind a keyword other than `end`. A name
that is a quoted span in apostrophes is no alias either.

Main definitions:

* `isAlias`: may a word be an alias?
* `splitAlias`: an entry divided into expression and alias.
* `readSelect`: the select list.
-/

namespace SqlRiver

/-! ## Aliases -/

/-- May this character be part of an alias? -/
def isAliasChar (c : Char) : Bool := c.isAlphanum || c == '_' || c == '$'

/-- May this word be an alias? It does not start with a digit, and it is not
reserved. -/
def isAlias (word : Text) : Bool :=
  match word with
  | [] => false
  | c :: _ => !c.isDigit && word.all isAliasChar && !isReserved word

/-- The characters behind which an expression goes on. -/
def operatorChars : List Char := "+-*/%=<>!|&^~:,".toList

/-- Does an expression go on behind this text: behind an operator or a keyword
other than `end`? -/
def continues (expression : Text) : Bool :=
  expression.getLast?.any operatorChars.contains ||
    match Keyword.ofWord? (Text.afterLast ' ' expression) with
    | some k => k.text != "end".toList
    | none => false

/-- An entry divided at its last `as`. -/
def explicitAlias? (entry : Text) : Option (Text × Text) :=
  match aroundLast? "as".toList entry with
  | none => none
  | some (before, behind) =>
    let expression := Text.trim before
    let name := Text.trim behind
    if !expression.isEmpty && isAlias name then
      some (expression, name) else none

/-- An entry divided before its bare last word. -/
def implicitAlias? (entry : Text) : Option (Text × Text) :=
  if entry.endsWith ')' then none
  else
    match Text.cutLast ' ' entry with
    | none => none
    | some (before, name) =>
      let expression := Text.trimEnd before
      if expression.isEmpty || !isAlias name || continues expression then none
      else some (expression, name)

/-- An entry divided into its expression and its alias. -/
def splitAlias (entry : Text) : Text × Option Text :=
  match (explicitAlias? entry).or (implicitAlias? entry) with
  | some (expression, name) => (expression, some name)
  | none => (entry, none)

/-! ## The select list -/

/-- Does a name stand for a quoted span in apostrophes? -/
def isApostrophed (literals : LiteralTable) (name : Text) : Bool :=
  (literals.restore name).head? == some '\x27'

/-- The column that an entry of the select list stands for. -/
def columnOf (literals : LiteralTable) (entry : Text) : Column :=
  match splitAlias entry with
  | (expression, some name) =>
    if isApostrophed literals name then
      ⟨entry, none⟩ else ⟨expression, some name⟩
  | (_, none) => ⟨entry, none⟩

/-- Takes a leading `distinct` off a select list. -/
def stripDistinct (list : Text) : Bool × Text :=
  match stripWord? "distinct".toList list with
  | some rest => (true, Text.trimStart rest)
  | none => (false, list)

/-- Reads the select list and the word `from` behind it. -/
def readSelect (literals : LiteralTable) : Reader (Bool × List Column) :=
  fun text =>
  match stripWord? Clause.select.phrase text with
  | none => .error .noSelect
  | some behind =>
    match aroundFirst? Clause.source.phrase behind with
    | none => .error .noSource
    | some (list, rest) =>
      let (distinct, list) := stripDistinct (Text.trim list)
      if list.isEmpty then .error .emptySelect
      else do
        let entries ← commaList .select list
        .ok ((distinct, entries.map (columnOf literals)), Text.trim rest)

end SqlRiver
