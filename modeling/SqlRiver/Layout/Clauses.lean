import SqlRiver.Query.Basic

/-!
# Lines of clauses

Each clause starts on a line of its own. The keyword that leads it is pushed to
the right edge of a column, so that a river of white space runs down between the
keywords and what they lead:

select a, b from t where a = 1 and b = 2

A select list with several aliases has a line for each column, with the aliases
below each other.

A list is laid out in rows. Entries of one row have a comma and a space between
them, and each row but the last ends with a comma. A list is wrapped greedily:
an entry goes to the row before it as long as that row, a comma, a space and the
entry stay within the width.

Main definitions:

* `Options`: what a user chooses, which is the letter case of the keywords that
  are written and the width that lists are wrapped at.
* `wrap`, `rowLines`: the rows of a list, and the lines of the rows.
* `lead`: the start of a line, up to the river.
* `selectLines`, `conditionLines`, `listLines`, `expressionLines`: the lines of
  a clause.
* `joinLead`, `joinConditionLines`: the parts of a join around its source.
* `enclose`: the lines of a query in brackets.
-/

namespace SqlRiver

/-! ## Options -/

/-- The letter case of keywords. -/
inductive KeywordCase where
  | lower
  | upper
deriving DecidableEq, Repr

/-- A text in the letter case of keywords. -/
def KeywordCase.apply : KeywordCase → Text → Text
  | .lower, t => t.lower
  | .upper, t => t.upper

/-- The choices of a layout. -/
structure Options where
  /-- The letter case of keywords. -/
  keywordCase : KeywordCase := .lower
  /-- The width that lists are wrapped at. -/
  maxWidth : Nat := 80
deriving DecidableEq, Repr

/-- A keyword in the chosen letter case. -/
def Options.keyword (o : Options) (word : Text) : Text :=
  o.keywordCase.apply word

/-! ## Rows -/

/-- The rest of a row that is `used` characters wide, and the rows behind it. -/
def wrapFrom (indent width : Nat) (measure : Text → Nat) :
    Nat → List Text → List (List Text)
  | _, [] => [[]]
  | used, entry :: more =>
    if width < used + 2 + measure entry then
      [] :: Text.consFirst entry
        (wrapFrom indent width measure (indent + measure entry) more)
    else Text.consFirst entry
      (wrapFrom indent width measure (used + 2 + measure entry) more)

/-- The rows of a list whose rows start behind `indent` characters. -/
def wrap (indent width : Nat) (measure : Text → Nat) :
    List Text → List (List Text)
  | [] => []
  | entry :: more =>
    Text.consFirst entry
      (wrapFrom indent width measure (indent + measure entry) more)

/-- One row. -/
def rowText (row : List Text) : Text := Text.join [',', ' '] row

/-- The lines of the rows: the first one starts with `lead`, the others with
`indent`. -/
def rowLines (lead indent : Text) : List (List Text) → List Text
  | [] => []
  | [row] => [lead ++ rowText row]
  | row :: rows => (lead ++ rowText row ++ [',']) :: rowLines indent indent rows

/-! ## The river -/

/-- The width of the column of keywords. -/
def keywordWidth : Nat := 6

/-- How far a query is moved to the right for each query around it. -/
def nestIndent : Nat := keywordWidth + 2

/-- The white space before each line of a query, when the layout starts at the
depth `root`. -/
def baseOf (root depth : Nat) : Text :=
  Text.spaces ((depth - root) * nestIndent)

/-- The start of a line: the keyword at the river. -/
def lead (o : Options) (base : Text) (word : Text) : Text :=
  base ++ Text.padStart keywordWidth (o.keyword word)

/-! ## The select list -/

/-- A column, with its expression filled up to a width where it has an alias. -/
def columnText (o : Options) (width : Nat) (column : Column) : Text :=
  match column.aliasName with
  | some name =>
    Text.padEnd width column.expression ++ [' '] ++ o.keyword "as".toList ++
      [' '] ++ name
  | none => column.expression

/-- The widths of the expressions that have an alias. -/
def aliasedWidths (columns : List Column) : List Nat :=
  (columns.filter fun column => column.aliasName.isSome).map fun column =>
    column.expression.length

/-- The lines of the select list: one line for each column where several have an
alias. -/
def selectLines (o : Options) (base : Text) (distinct : Bool)
    (columns : List Column) : List Text :=
  let head := lead o base "select".toList
    ++ (if distinct then [' '] ++ o.keyword "distinct".toList else []) ++ [' ']
  let widths := aliasedWidths columns
  if widths.length ≤ 1 then rowLines head [] [columns.map (columnText o 0)]
  else
    let width := widths.foldl max 0
    rowLines head (Text.spaces head.length) (columns.map fun column =>
      [columnText o width column])

/-! ## Conditions, lists and single expressions -/

/-- The lines of conditions that start with the given keyword. -/
def conditionLines (o : Options) (base : Text) (word : Text) :
    List Condition → List Text
  | [] => []
  | first :: more =>
    (lead o base word ++ [' '] ++ first.predicate) :: more.map fun condition =>
      lead o base condition.combinator.word ++ [' '] ++ condition.predicate

/-- The lines of a `group by` or `order by` list. An entry is measured with its
quoted spans in place. -/
def listLines (o : Options) (base : Text) (literals : LiteralTable)
    (word : Text) (entries : List Text) : List Text :=
  let head := lead o base word ++ [' '] ++ o.keyword "by".toList ++ [' ']
  let measure := fun entry => (literals.restore entry).length
  rowLines head (Text.spaces head.length)
    (wrap head.length o.maxWidth measure entries)

/-- The line of a clause that holds one expression. -/
def expressionLines (o : Options) (base : Text) (word : Text)
    (expression : Option Text) : List Text :=
  expression.toList.map fun text => lead o base word ++ [' '] ++ text

/-! ## Sources and joins -/

/-- An alias behind a source. -/
def aliasText (aliasName : Option Text) : Text :=
  match aliasName with
  | some name => ' ' :: name
  | none => []

/-- Puts a text behind the last of several lines. -/
def appendLast (t : Text) : List Text → List Text
  | [] => []
  | [line] => [line ++ t]
  | line :: more => line :: appendLast t more

/-- The lines of a query in brackets: the first one moves behind the opening
bracket, and the closing bracket and the alias follow the last one. -/
def enclose (start : Text) (aliasName : Option Text) (lines : List Text) :
    List Text :=
  let opened := match lines with
    | [] => [start ++ ['(']]
    | first :: more => (start ++ ['('] ++ Text.trimStart first) :: more
  appendLast (')' :: aliasText aliasName) opened

/-- The keywords of a join. -/
def joinLead (o : Options) (base : Text) : JoinKind → Text
  | .plain => lead o base "join".toList
  | kind => lead o base kind.name ++ [' '] ++ o.keyword "join".toList

/-- The lines of the condition of a join. -/
def joinConditionLines (o : Options) (base : Text) (onPredicate : Option Text)
    (usingColumns : List Text) : List Text :=
  expressionLines o base "on".toList onPredicate ++ if usingColumns.isEmpty then
    [] else
    [lead o base "using".toList ++ [' ', '('] ++ rowText usingColumns ++ [')']]

end SqlRiver
