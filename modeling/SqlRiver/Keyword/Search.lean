import SqlRiver.Bracket
import SqlRiver.Keyword.Basic

/-!
# Searching for keywords

A keyword counts only as a whole word: what stands before and behind it is an
ASCII space, a bracket or an end of the text. A phrase such as `group by` is
searched for like a word.

The search walks over the *places* of a text: each place knows the character
before it, its depth and the text that is ahead of it. Occurrences are taken
from left to right and do not overlap: a candidate that starts inside the one
before it is passed over, also where that one turns out not to be a whole word.

Main definitions:

* `Place`, `places`: the places of a text, from its start to its end.
* `occurrences`, `topOccurrences`: where a word stands, anywhere and at the top
  level.
* `find`, `findTop`: the byte offset of one occurrence, counted from either end.
* `leading`, `stripWord?`: a word at the very start.
* `aroundFirst?`, `aroundLast?`, `firstPosition?`, `cutBefore`: a text cut at
  keywords of its top level.
-/

namespace SqlRiver

/-! ## Places -/

/-- A place between two characters of a text. -/
structure Place where
  /-- How many characters precede it. -/
  pos : Nat
  /-- The character before it. -/
  before : Option Char
  /-- The bracket depth there. -/
  depth : Int
  /-- The text ahead of it. -/
  ahead : Text
deriving DecidableEq, Repr

/-- The places of a text that starts at a given place. -/
def placesFrom (pos : Nat) (before : Option Char) (depth : Int) :
    Text → List Place
  | [] => [⟨pos, before, depth, []⟩]
  | c :: rest =>
    ⟨pos, before, depth, c :: rest⟩ ::
      placesFrom (pos + 1) (some c) (depth + depthStep c) rest

/-- The places of a text, from its start to its end. -/
def places (t : Text) : List Place := placesFrom 0 none 0 t

/-! ## Whole words -/

/-- May this character stand next to a whole word? -/
def isEdge (c : Char) : Bool := isSpace c || c == '(' || c == ')'

/-- Is there an edge at this side of a word, where an end of the text is one? -/
def atEdge : Option Char → Bool
  | none => true
  | some c => isEdge c

/-- Does the word have an edge on both sides, when it stands at the start of
`ahead`? -/
def isWhole (word : Text) (before : Option Char) (ahead : Text) : Bool :=
  atEdge before && atEdge (ahead.drop word.length).head?

namespace Place

/-- Is the word spelled out ahead of this place, letter case ignored? -/
def spells (word : Text) (p : Place) : Bool := Text.leads word p.ahead

/-- Is the word ahead of this place a whole word? -/
def isWhole (word : Text) (p : Place) : Bool :=
  SqlRiver.isWhole word p.before p.ahead

/-- Does the word stand ahead of this place, as a whole word? -/
def holds (word : Text) (p : Place) : Bool := p.spells word && p.isWhole word

/-- Is the place at the top level? -/
def isTop (p : Place) : Bool := p.depth == 0

end Place

/-! ## Occurrences -/

/-- Passes over every place that lies before position `least`, and over those
inside the word at each place that is kept. -/
def apart (length : Nat) : Nat → List Place → List Place
  | _, [] => []
  | least, p :: rest =>
    if p.pos < least then
      apart length least rest else p :: apart length (p.pos + length) rest

/-- The places where a word is spelled out, without overlaps; none for the empty
word. -/
def spellings (word t : Text) : List Place :=
  if word.isEmpty then
    [] else apart word.length 0 ((places t).filter (Place.spells word))

/-- The places where a word stands as a whole word. -/
def occurrences (word t : Text) : List Place :=
  (spellings word t).filter (Place.isWhole word)

/-- The places at the top level where a word stands as a whole word. -/
def topOccurrences (word t : Text) : List Place :=
  (occurrences word t).filter Place.isTop

/-- One element of a list: the first is number 1, the last is number -1, and
number 0 is none. -/
def nth? {α : Type} (n : Int) (xs : List α) : Option α :=
  match n with
  | .ofNat 0 => none
  | .ofNat (k + 1) => xs[k]?
  | .negSucc k => xs.reverse[k]?

/-- Byte offset of the `n`-th occurrence of a word, where a negative `n` counts
from the end. -/
def find (t word : Text) (n : Int) : Option Nat :=
  (nth? n (occurrences word t)).map fun p => t.offset p.pos

/-- Byte offset of the `n`-th occurrence of a word at the top level. -/
def findTop (t word : Text) (n : Int) : Option Nat :=
  (nth? n (topOccurrences word t)).map fun p => t.offset p.pos

/-- How often a word occurs at the top level. -/
def countTop (word t : Text) : Nat := (topOccurrences word t).length

/-! ## Words at the start -/

/-- What follows a whole word at the start of a text. -/
def stripWord? (word t : Text) : Option Text :=
  if Text.leads word t && atEdge (t.drop word.length).head? then
    some (t.drop word.length)
  else none

/-- Byte length of a whole word at the start of a text. -/
def leading (t word : Text) : Option Nat :=
  (stripWord? word t).map fun _ => word.byteSize

/-! ## Cuts at the top level -/

/-- What stands before and behind the word at a place. -/
def around (word t : Text) (p : Place) : Text × Text :=
  (t.take p.pos, p.ahead.drop word.length)

/-- What stands before and behind the first occurrence of a word at the top
level. -/
def aroundFirst? (word t : Text) : Option (Text × Text) :=
  (topOccurrences word t).head?.map (around word t)

/-- What stands before and behind the last occurrence of a word at the top
level. -/
def aroundLast? (word t : Text) : Option (Text × Text) :=
  (topOccurrences word t).getLast?.map (around word t)

/-- Position of the first place at the top level where one of several words
stands as a whole word. -/
def firstPosition? (words : List Text) (t : Text) : Option Nat :=
  ((places t).find? fun p => p.isTop && words.any fun word =>
    p.holds word).map Place.pos

/-- A text cut before the first of several words at the top level; the second
part is empty where there is none. -/
def cutBefore (words : List Text) (t : Text) : Text × Text :=
  match firstPosition? words t with
  | some pos => (t.take pos, t.drop pos)
  | none => (t, [])

end SqlRiver
