import SqlRiver.Text.Blank

/-!
# Byte offsets

Offsets that this library answers count the bytes of the UTF-8 form of a text.
Inside the library a place is a number of characters; this module relates the
two.

Main definitions:

* `Text.byteSize`, `Text.offset`: from characters to bytes.
* `Text.position?`: from bytes back to characters, where no character is cut
  apart.
* `Narrowing`: the ways to shorten a text at its ends, by byte offsets.
-/

namespace SqlRiver

namespace Text

/-- The number of bytes of a text in UTF-8. -/
def byteSize : Text → Nat
  | [] => 0
  | c :: rest => c.utf8Size + byteSize rest

/-- The byte offset of the place that `pos` characters precede. -/
def offset (t : Text) (pos : Nat) : Nat := byteSize (t.take pos)

/-- How many characters precede a byte offset: none where the offset lies inside
a character or behind the end. -/
def position? : Text → Nat → Option Nat
  | _, 0 => some 0
  | [], _ + 1 => none
  | c :: rest, off =>
    if c.utf8Size ≤ off then (position? rest (off - c.utf8Size)).map (· + 1)
      else none

/-- Position of a byte offset, where an offset behind the end means the end. -/
def cappedPosition? (t : Text) (off : Nat) : Option Nat :=
  position? t (min off (byteSize t))

/-- What follows a leading comma, trimmed. -/
def stripComma? : Text → Option Text
  | ',' :: rest => some (trim rest)
  | _ => none

end Text

/-! ## Narrowing -/

/-- One way to shorten a text at its ends. -/
inductive Narrowing where
  /-- Drop this many bytes at the start. -/
  | advance (bytes : Nat)
  /-- Keep this many bytes at the start. -/
  | truncate (bytes : Nat)
  /-- Drop a leading comma. -/
  | comma
deriving DecidableEq, Repr

/-- What comes of one narrowing. -/
inductive Narrowed where
  /-- The trimmed text that is left. -/
  | left (text : Text)
  /-- There was no comma to drop. -/
  | noComma
  /-- The offset lies inside a character. -/
  | insideCharacter
deriving DecidableEq, Repr

namespace Narrowing

/-- Narrows a text once. -/
def apply (t : Text) : Narrowing → Narrowed
  | .advance bytes =>
    match t.cappedPosition? bytes with
    | some pos => .left (Text.trim (t.drop pos))
    | none => .insideCharacter
  | .truncate bytes =>
    match t.cappedPosition? bytes with
    | some pos => .left (Text.trim (t.take pos))
    | none => .insideCharacter
  | .comma =>
    match t.stripComma? with
    | some rest => .left rest
    | none => .noComma

/-- The text after a narrowing: unchanged where it did not apply. -/
def next (t : Text) (n : Narrowing) : Text :=
  match n.apply t with
  | .left rest => rest
  | _ => t

/-- The outcomes of several narrowings, one after the other, each with the text
it leaves. -/
def run (t : Text) : List Narrowing → List (Narrowed × Text)
  | [] => []
  | n :: more => (n.apply t, n.next t) :: run (n.next t) more

end Narrowing

end SqlRiver
