import SqlRiver.Text.Basic

/-!
# JSON

Values of the data format JSON, as far as a query needs them, and their text
with one entry to a line.

Main definitions:

* `Json`: the values.
* `Json.pretty`: the text of a value.
-/

namespace SqlRiver

/-- A value of JSON. The numbers that are needed are natural, and an object
keeps the order of its fields. -/
inductive Json where
  | null
  | bool (value : Bool)
  | number (value : Nat)
  | text (value : Text)
  | array (entries : List Json)
  | object (fields : List (Text × Json))

namespace Json

/-! ## Text -/

/-- One lower-case hexadecimal digit. -/
def hexDigit (n : Nat) : Char := "0123456789abcdef".toList.getD n '0'

/-- A character inside quotes: the quote, the backslash and the control
characters are escaped. -/
def escapeChar (c : Char) : Text :=
  if c == '\x22' then ['\\', '\x22']
  else if c == '\\' then ['\\', '\\']
  else if c == '\x08' then ['\\', 'b']
  else if c == '\t' then ['\\', 't']
  else if c == '\n' then ['\\', 'n']
  else if c == '\x0c' then ['\\', 'f']
  else if c == '\r' then ['\\', 'r']
  else if c.toNat < 0x20 then
    ['\\', 'u', '0', '0', hexDigit (c.toNat / 16), hexDigit (c.toNat % 16)]
  else [c]

/-- A text in quotes. -/
def quote (t : Text) : Text := ['\x22'] ++ t.flatMap escapeChar ++ ['\x22']

/-! ## Lines -/

/-- A line break, and two spaces for each level. -/
def newLine (level : Nat) : Text := '\n' :: Text.spaces (2 * level)

mutual

/-- The text of a value inside `level` arrays and objects. -/
def prettyAt (level : Nat) : Json → Text
  | .null => "null".toList
  | .bool value => if value then "true".toList else "false".toList
  | .number value => Text.ofNat value
  | .text value => quote value
  | .array entries =>
    if entries.isEmpty then ['[', ']']
    else ['['] ++ prettyEntries (level + 1) entries ++ newLine level ++ [']']
  | .object fields =>
    if fields.isEmpty then ['\x7b', '\x7d']
    else
      ['\x7b'] ++ prettyFields (level + 1) fields ++ newLine level ++ ['\x7d']

/-- The entries of an array, each on a line of its own. -/
def prettyEntries (level : Nat) : List Json → Text
  | [] => []
  | entry :: more =>
    newLine level ++ prettyAt level entry ++
      (if more.isEmpty then [] else [',']) ++ prettyEntries level more

/-- The fields of an object, each on a line of its own. -/
def prettyFields (level : Nat) : List (Text × Json) → Text
  | [] => []
  | (key, value) :: more =>
    newLine level ++ quote key ++ [':', ' '] ++ prettyAt level value
      ++ (if more.isEmpty then [] else [',']) ++ prettyFields level more

end

/-- The text of a value, with one entry to a line. -/
def pretty (value : Json) : Text := prettyAt 0 value

end Json

end SqlRiver
