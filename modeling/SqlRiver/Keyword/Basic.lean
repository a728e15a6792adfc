import SqlRiver.Text.Basic

/-!
# Keywords

The reserved words of the language. A reserved word is never an alias nor the
name of a table; a few of them have a role of their own when a query is read.

Main definitions:

* `Keyword`: a reserved word and its role.
* `Keyword.all`: the reserved words.
* `Keyword.ofWord?`: the keyword that a word spells, in any letter case.
-/

namespace SqlRiver

/-- What a reserved word is for, as far as a reader has to tell. -/
inductive Role where
  /-- It leads a clause or belongs to an expression. -/
  | ordinary
  /-- It stands before `join` and chooses the kind of join. -/
  | joinModifier
  /-- It opens a statement that is not a query. -/
  | statementKind
deriving DecidableEq, Repr

/-- A reserved word, in lower case, with its role. -/
structure Keyword where
  /-- The word. -/
  text : Text
  /-- What it is for. -/
  role : Role
deriving DecidableEq, Repr

namespace Keyword

/-- The reserved words that only lead clauses or belong to expressions. -/
def ordinaryWords : List String :=
  ["select", "from", "where", "group", "order", "by", "having", "limit",
    "offset", "distinct", "as", "join", "on", "using", "and", "or", "not", "in",
    "like", "between", "is", "null", "case", "when", "then", "end", "partition",
    "over", "asc", "desc", "set"]

/-- The reserved words that may stand before `join`. -/
def joinModifierWords : List String :=
  ["left", "right", "inner", "outer", "full", "cross"]

/-- The reserved words that open other statements than queries. -/
def statementKindWords : List String := ["update", "insert", "delete", "create"]

/-- All reserved words. -/
def all : List Keyword :=
  ordinaryWords.map (fun w => ⟨w.toList, .ordinary⟩)
    ++ joinModifierWords.map (fun w => ⟨w.toList, .joinModifier⟩)
    ++ statementKindWords.map (fun w => ⟨w.toList, .statementKind⟩)

/-- The keyword that a word spells, letter case ignored. -/
def ofWord? (word : Text) : Option Keyword :=
  all.find? fun k => k.text == word.lower

/-- Does the keyword choose a kind of join? -/
def isJoinModifier (k : Keyword) : Bool := k.role == .joinModifier

/-- Does the keyword open a statement that is not a query? -/
def isStatementKind (k : Keyword) : Bool := k.role == .statementKind

end Keyword

/-- Is the word reserved, letter case ignored? -/
def isReserved (word : Text) : Bool := (Keyword.ofWord? word).isSome

/-- Does the word choose a kind of join, letter case ignored? -/
def isJoinModifier (word : Text) : Bool :=
  match Keyword.ofWord? word with
  | some k => k.isJoinModifier
  | none => false

end SqlRiver
