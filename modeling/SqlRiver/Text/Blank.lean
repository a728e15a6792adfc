import SqlRiver.Text.Basic

/-!
# Blank characters

Two classes of white space meet in a statement. The *blanks* are the characters
with the Unicode property `White_Space`: they surround and divide the words of a
text. The *spaces* are the five ASCII characters that may stand next to a whole
keyword: tab, line feed, form feed, carriage return and the space itself, but
not the vertical tab.

Main definitions:

* `isBlank`, `isSpace`: the two classes.
* `Text.trim`: a text without the blanks at its ends.
* `Text.words`: the maximal runs without a blank.
* `Text.normalize`: the words with single spaces between them, less one final
  `;`.
-/

namespace SqlRiver

/-! ## The two classes -/

/-- The ranges of code points with the property `White_Space`, in ascending
order. -/
def blankRanges : List (Nat × Nat) :=
  [(0x09, 0x0D), (0x20, 0x20), (0x85, 0x85), (0xA0, 0xA0), (0x1680, 0x1680),
    (0x2000, 0x200A), (0x2028, 0x2029), (0x202F, 0x202F), (0x205F, 0x205F),
    (0x3000, 0x3000)]

/-- Is the character white space by its Unicode property? -/
def isBlank (c : Char) : Bool :=
  blankRanges.any fun r => r.1 ≤ c.toNat && c.toNat ≤ r.2

/-- Is the character one of the five ASCII spaces? -/
def isSpace (c : Char) : Bool :=
  c == ' ' || c == '\t' || c == '\n' || c == '\x0c' || c == '\r'

namespace Text

/-! ## Trimming -/

/-- The text without the blanks at its start. -/
def trimStart (t : Text) : Text := t.dropWhile isBlank

/-- The text without the blanks at its end. -/
def trimEnd (t : Text) : Text := (t.reverse.dropWhile isBlank).reverse

/-- The text without the blanks at its two ends. -/
def trim (t : Text) : Text := trimEnd (trimStart t)

/-! ## Words -/

/-- The maximal runs without a blank, in order. -/
def words (t : Text) : List Text :=
  (splitWhere isBlank t).filter fun run => !run.isEmpty

/-- The words of a text with one space between neighbours. -/
def collapse (t : Text) : Text := join [' '] (words t)

/-- The words of a text with one space between neighbours; of the semicolons at
its end the last one is dropped. -/
def normalize (t : Text) : Text :=
  match (collapse t).reverse with
  | ';' :: before => trimEnd before.reverse
  | _ => collapse t

end Text

end SqlRiver
