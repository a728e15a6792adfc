import SqlRiver.Text.Offset

/-!
# Brackets

Round brackets nest the parts of a statement. The *depth* of a place is the
number of opening brackets before it less the number of closing ones; it may be
negative where a text closes more brackets than it opens. A place is at the *top
level* where its depth is zero.

Main definitions:

* `depth`: the depth at the end of a text.
* `isBalanced`: no closing bracket comes too early, and all brackets are closed.
* `closePosition?`: the partner of an opening bracket.
* `topPosition?`: the first character at the top level that satisfies a test.
-/

namespace SqlRiver

/-! ## Depth -/

/-- How far a character moves the depth. -/
def depthStep (c : Char) : Int :=
  if c == '(' then 1 else if c == ')' then -1 else 0

/-- The depth at the end of a text. -/
def depth : Text → Int
  | [] => 0
  | c :: rest => depthStep c + depth rest

/-- Are the brackets balanced, when `opened` more of them are open before the
text? -/
def balancedFrom : Nat → Text → Bool
  | opened, [] => opened == 0
  | opened, c :: rest =>
    if c == '(' then balancedFrom (opened + 1) rest
    else if c == ')' then
      match opened with
      | 0 => false
      | opened + 1 => balancedFrom opened rest
    else balancedFrom opened rest

/-- Does every bracket have its partner? -/
def isBalanced (t : Text) : Bool := balancedFrom 0 t

/-! ## The partner of a bracket -/

/-- Position of the bracket that closes `inner + 1` brackets which are open
before the text. -/
def closeFrom : Nat → Text → Option Nat
  | _, [] => none
  | inner, c :: rest =>
    if c == '(' then (closeFrom (inner + 1) rest).map (· + 1)
    else if c == ')' then
      match inner with
      | 0 => some 0
      | inner + 1 => (closeFrom inner rest).map (· + 1)
    else (closeFrom inner rest).map (· + 1)

/-- Position of the partner of the opening bracket at a position. -/
def closePosition? (t : Text) (pos : Nat) : Option Nat :=
  match t.drop pos with
  | '(' :: rest => (closeFrom 0 rest).map (pos + 1 + ·)
  | _ => none

/-- Byte offset of the partner of the opening bracket at a byte offset. -/
def matchingClose (t : Text) (off : Nat) : Option Nat :=
  match t.position? off with
  | some pos => (closePosition? t pos).map t.offset
  | none => none

/-- What stands inside the bracket that opens a text, and what follows it. -/
def unwrap? : Text → Option (Text × Text)
  | '(' :: rest =>
    (closeFrom 0 rest).map fun pos => (rest.take pos, rest.drop (pos + 1))
  | _ => none

/-! ## The top level -/

/-- Position of the first character that satisfies `p` at depth zero, when the
text starts at the given depth. -/
def topFrom (p : Char → Bool) : Int → Text → Option Nat
  | _, [] => none
  | d, c :: rest =>
    if d == 0 && p c then
      some 0 else (topFrom p (d + depthStep c) rest).map (· + 1)

/-- Position of the first character at the top level that satisfies `p`. -/
def topPosition? (p : Char → Bool) (t : Text) : Option Nat := topFrom p 0 t

/-- Does this character end a table name at the top level? -/
def endsName (c : Char) : Bool := c == ' ' || c == ','

/-- Position of the first space or comma at the top level: the end where there
is none. -/
def namePosition (t : Text) : Nat := (topPosition? endsName t).getD t.length

/-- Byte offset of the first space or comma at the top level: the end where
there is none. -/
def nameEnd (t : Text) : Nat := t.offset (namePosition t)

/-- Byte offset of the first byte of this value at the top level. -/
def topByte? (t : Text) (byte : UInt8) : Option Nat :=
  match topPosition? (fun c => (String.utf8EncodeChar c).contains byte) t with
  | some pos =>
    (t.drop pos).head?.map fun c =>
      t.offset pos + (String.utf8EncodeChar c).idxOf byte
  | none => none

end SqlRiver
