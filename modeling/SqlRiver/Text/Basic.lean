/-!
# Texts

A text is the list of its characters. Every scan of this library is a recursion
over that list, so a text is never addressed by an index while it is read: a
scan hands on the part that is still ahead of it.

Main definitions:

* `Text`: the list of characters.
* `Text.splitWhere`: the runs between the characters that satisfy a test.
* `Text.cutLast`: a text cut at the last occurrence of a character.
* `Text.lower`, `Text.upper`: a text with its letters in one case.
* `Text.leads`: does a word stand at the start of a text, case ignored?
* `Text.occursIn`: does a text occur somewhere inside another one?
* `Text.padStart`, `Text.padEnd`: a text filled up with spaces to a width.
* `Text.ofNat`, `Text.decimalValue`: numbers in decimal digits.
-/

namespace SqlRiver

/-- A text, as the list of its characters. -/
abbrev Text := List Char

namespace Text

/-- What is asked of all characters of a text is decided character by
character. -/
instance (priority := high) {p : Char → Prop} [DecidablePred p] (t : Text) :
    Decidable (∀ c ∈ t, p c) :=
  List.decidableBAll p t

/-! ## Building -/

/-- As many spaces as asked for. -/
def spaces (n : Nat) : Text := List.replicate n ' '

/-- The text pushed to the right edge of a column of the given width. -/
def padStart (width : Nat) (t : Text) : Text := spaces (width - t.length) ++ t

/-- The text at the left edge of a column of the given width. -/
def padEnd (width : Nat) (t : Text) : Text := t ++ spaces (width - t.length)

/-- The parts one after the other, with `sep` between neighbours. -/
def join (sep : Text) : List Text → Text
  | [] => []
  | [part] => part
  | part :: parts => part ++ sep ++ join sep parts

/-! ## Numbers -/

/-- A number in decimal digits. -/
def ofNat (n : Nat) : Text := Nat.toDigits 10 n

/-- The number that decimal digits write. -/
def decimalValue (digits : Text) : Nat :=
  digits.foldl (fun n c => 10 * n + (c.toNat - '0'.toNat)) 0

/-! ## Cutting -/

/-- Puts an element in front of the first of several runs. -/
def consFirst {α : Type} (a : α) : List (List α) → List (List α)
  | [] => [[a]]
  | run :: runs => (a :: run) :: runs

/-- The runs between the characters that satisfy `p`, empty ones included. -/
def splitWhere (p : Char → Bool) : Text → List Text
  | [] => [[]]
  | c :: rest =>
    if p c then [] :: splitWhere p rest else consFirst c (splitWhere p rest)

/-- What stands before and after the last `c` of a text. -/
def cutLast (c : Char) : Text → Option (Text × Text)
  | [] => none
  | d :: rest =>
    match cutLast c rest with
    | some (before, after) => some (d :: before, after)
    | none => if d == c then some ([], rest) else none

/-- What follows the last `c` of a text: the whole text where there is none. -/
def afterLast (c : Char) (t : Text) : Text :=
  match cutLast c t with
  | some (_, after) => after
  | none => t

/-- Everything up to the first `c`, and that `c` itself. -/
def throughFirst (c : Char) : Text → Option Text
  | [] => none
  | d :: rest => if d == c then some [d] else (throughFirst c rest).map (d :: ·)

/-! ## Letter case

Letter case is that of the 26 ASCII letters: all other characters are their own
lower and upper case. Keywords are compared with their case ignored.
-/

/-- The text in lower case. -/
def lower (t : Text) : Text := t.map Char.toLower

/-- The text in upper case. -/
def upper (t : Text) : Text := t.map Char.toUpper

/-- Does the text start with this word, letter case ignored? -/
def leads : Text → Text → Bool
  | [], _ => true
  | _ :: _, [] => false
  | w :: word, c :: rest => w.toLower == c.toLower && leads word rest

/-! ## Searching -/

/-- Does `needle` occur somewhere in the text? -/
def occursIn (needle : Text) : Text → Bool
  | [] => needle.isEmpty
  | c :: rest => needle.isPrefixOf (c :: rest) || occursIn needle rest

/-- Does the text end with this character? -/
def endsWith (c : Char) (t : Text) : Bool := t.getLast? == some c

end Text

end SqlRiver
