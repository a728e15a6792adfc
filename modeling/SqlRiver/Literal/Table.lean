import SqlRiver.Literal.Segment

/-!
# Literal tables

Quoted spans are opaque: nothing inside them is read. Before a text is read,
each of them is replaced by a placeholder, a word that stands for it, and the
spans are kept in a table; each comment becomes one space. A placeholder is a
*tag*, the index of its span and two underscores. The tag has as many marks `x`
as it takes for the tag not to occur in the text.

Main definitions:

* `LiteralTable`: the quoted spans of a text, and the number of marks of the
  tag.
* `protect`: a text with placeholders for its quoted spans, and the table.
* `LiteralTable.restore`: a text with the quoted spans for the placeholders.
-/

namespace SqlRiver

/-- The quoted spans of a text, by the index in their placeholders. -/
structure LiteralTable where
  /-- How many marks the tag has. -/
  marks : Nat
  /-- The quoted spans, in the order of the text. -/
  literals : List Text
deriving DecidableEq, Repr

namespace LiteralTable

/-- The table without any span. -/
def empty : LiteralTable := ⟨0, []⟩

/-- The tag with this many marks. -/
def tagOf (marks : Nat) : Text :=
  List.replicate marks 'x' ++ "__sqlfmt_lit_".toList

/-- The tag that every placeholder of the table starts with. -/
def tag (table : LiteralTable) : Text := tagOf table.marks

/-- What ends a placeholder. -/
def closing : Text := ['_', '_']

/-- The placeholder of the span with this index. -/
def placeholder (table : LiteralTable) (index : Nat) : Text :=
  table.tag ++ Text.ofNat index ++ closing

/-- The pairs of placeholder and span whose indices start at `index`. -/
def entriesFrom (table : LiteralTable) : Nat → List Text → List (Text × Text)
  | _, [] => []
  | index, literal :: more =>
    (table.placeholder index, literal) :: entriesFrom table (index + 1) more

/-- Each placeholder with its span. -/
def entries (table : LiteralTable) : List (Text × Text) :=
  table.entriesFrom 0 table.literals

/-! ## Protecting -/

/-- The least number of marks whose tag does not occur in a text. A tag that is
longer than the text does not occur in it, so the search ends. -/
def unusedMarks (t : Text) : Nat :=
  ((List.range (t.length + 1)).find? fun marks =>
    !Text.occursIn (tagOf marks) t).getD t.length

/-- The text of the segments with a placeholder for each quoted span, numbered
from `index` on, and a space for each comment. -/
def maskFrom (table : LiteralTable) : Nat → List Segment → Text
  | _, [] => []
  | index, .plain c :: more => c :: maskFrom table index more
  | index, .comment _ :: more => ' ' :: maskFrom table index more
  | index, .quoted _ :: more =>
    table.placeholder index ++ maskFrom table (index + 1) more

/-- The table of a text with these segments. -/
def ofSegments (t : Text) (segs : List Segment) : LiteralTable :=
  ⟨unusedMarks t, segs.filterMap Segment.literal?⟩

end LiteralTable

/-- A text with placeholders for its quoted spans and spaces for its comments,
and the table of the spans. -/
def protect (t : Text) : Except ParseError (Text × LiteralTable) :=
  match segments t with
  | .error e => .error e
  | .ok segs =>
    let table := LiteralTable.ofSegments t segs
    .ok (table.maskFrom 0 segs, table)

/-! ## Restoring -/

namespace LiteralTable

/-- The span whose index and closing follow a tag, with the number of characters
of index and closing. -/
def entryAfterTag? (table : LiteralTable) (behind : Text) :
    Option (Text × Nat) :=
  let digits := behind.takeWhile Char.isDigit
  if digits.isEmpty || !closing.isPrefixOf (behind.drop digits.length) then none
  else table.literals[Text.decimalValue digits]?.map fun literal =>
    (literal, digits.length + closing.length)

/-- Restores a text whose first `inside` characters have been dealt with. A tag
without the index of a span stays as it is. -/
def restoreFrom (table : LiteralTable) : Nat → Text → Text
  | _, [] => []
  | inside + 1, _ :: rest => restoreFrom table inside rest
  | 0, c :: rest =>
    if table.tag.isPrefixOf (c :: rest) then
      match table.entryAfterTag? ((c :: rest).drop table.tag.length) with
      | some (literal, behind) =>
        literal ++ restoreFrom table (table.tag.length + behind - 1) rest
      | none => table.tag ++ restoreFrom table (table.tag.length - 1) rest
    else c :: restoreFrom table 0 rest

/-- The text with each placeholder, from left to right, replaced by its span. -/
def restore (table : LiteralTable) (t : Text) : Text := restoreFrom table 0 t

end LiteralTable

end SqlRiver
