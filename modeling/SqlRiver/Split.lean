import SqlRiver.Keyword.Search

/-!
# Splitting

A text is split at a separator that stands at the top level. A separator that
starts or ends like a word has to be a whole word. A split keeps every
character: the pieces and the separators between them, as they were written,
make up the text again.

Main definitions and statements:

* `Split`: the pieces of a text and the separators between them.
* `split`: the pieces of a text at a separator.
* `Split.pieces`: the trimmed pieces.
* `text_split`: pieces and separators make up the text.
-/

namespace SqlRiver

/-- The pieces of a text and the separators between them. -/
structure Split where
  /-- The piece before the first separator. -/
  first : Text
  /-- Each separator, as it is written, with the piece behind it. -/
  rest : List (Text × Text)
deriving DecidableEq, Repr

namespace Split

/-- A split with one more character at its start. -/
def push (c : Char) (s : Split) : Split := ⟨c :: s.first, s.rest⟩

/-- The pieces, as they are written. -/
def parts (s : Split) : List Text := s.first :: s.rest.map Prod.snd

/-- The pieces, trimmed. -/
def pieces (s : Split) : List Text := s.parts.map Text.trim

/-- The trimmed pieces but for the last one. -/
def segments (s : Split) : List Text := s.pieces.dropLast

/-- The last piece, trimmed. -/
def tail (s : Split) : Text := s.pieces.getLastD []

/-- The text that was split. -/
def text (s : Split) : Text :=
  s.first ++ s.rest.flatMap fun (sep, piece) => sep ++ piece

end Split

/-- May this character be part of a word? -/
def isWordChar (c : Char) : Bool := c.isAlphanum || c == '_'

/-- Does a separator start or end like a word? -/
def isWordLike (sep : Text) : Bool :=
  sep.head?.any isWordChar || sep.getLast?.any isWordChar

/-- Does the separator stand at the start of `ahead`, as a whole word if it is
like one? -/
def separates (sep : Text) (before : Option Char) (ahead : Text) : Bool :=
  !sep.isEmpty && Text.leads sep ahead &&
    (!isWordLike sep || isWhole sep before ahead)

/-- Splits what is ahead of a place: the first `inside` characters still belong
to a separator, and brackets there do not count. -/
def splitFrom (sep : Text) : Nat → Option Char → Int → Text → Split
  | _, _, _, [] => ⟨[], []⟩
  | inside + 1, _, depth, c :: rest => splitFrom sep inside (some c) depth rest
  | 0, before, depth, c :: rest =>
    if depth == 0 && separates sep before (c :: rest) then
      let behind := splitFrom sep (sep.length - 1) (some c) depth rest
      ⟨[], ((c :: rest).take sep.length, behind.first) :: behind.rest⟩
    else (splitFrom sep 0 (some c) (depth + depthStep c) rest).push c

/-- Splits a text at each separator of its top level. -/
def split (sep t : Text) : Split := splitFrom sep 0 none 0 t

/-! ## Nothing is lost -/

/-- Pieces and separators make up all that is ahead, less the characters of the
separator that was read before. -/
theorem text_splitFrom (sep : Text) :
    ∀ (inside : Nat) (before : Option Char) (depth : Int) (t : Text),
      (splitFrom sep inside before depth t).text = t.drop inside
  | _, _, _, [] => by simp [splitFrom, Split.text]
  | inside + 1, _, depth, c :: rest => by
    simp [splitFrom, text_splitFrom sep inside (some c) depth rest]
  | 0, before, depth, c :: rest => by
    rw [splitFrom]
    split
    · next h =>
      have ih := text_splitFrom sep (sep.length - 1) (some c) depth rest
      have hs : sep ≠ [] := by
        rintro rfl
        simp [separates] at h
      obtain ⟨n, hn⟩ : ∃ n, sep.length = n + 1 :=
        Nat.exists_eq_succ_of_ne_zero (by simpa using hs)
      simp only [Split.text, hn, Nat.add_sub_cancel] at ih ⊢
      simp [ih]
    · simpa [Split.push, Split.text] using
        text_splitFrom sep 0 (some c) (depth + depthStep c) rest

/-- Pieces and separators make up the text. -/
@[simp]
theorem text_split (sep t : Text) : (split sep t).text = t := by
  simp [split, text_splitFrom]

end SqlRiver
