import SqlRiver.Error
import SqlRiver.Text.Offset

/-!
# Segments

A text is read as a sequence of segments: quoted spans, comments and single
characters. A quoted span runs from one of the three quotes to the next quote of
the same kind. A line comment runs from `--` to the end of its line, a block
comment from `/*` to the first `*/` behind these two characters. Quotes mean
nothing in a comment, and comment marks nothing in a quoted span.

Main definitions and statements:

* `Segment`: the three kinds.
* `Segment.next`: the segment at the start of a text.
* `segments`: all segments of a text, in order.
* `source_of_segments`: nothing of a text is lost in its segments.
-/

namespace SqlRiver

/-- A part of a text that is read as one. -/
inductive Segment where
  /-- A quoted span, with its two quotes. -/
  | quoted (text : Text)
  /-- A comment, with its marks; the line feed behind a line comment is not part
  of it. -/
  | comment (text : Text)
  /-- Any other character. -/
  | plain (c : Char)
deriving DecidableEq, Repr

/-- Is the character one of the three quotes: an apostrophe, a double quote or a
backquote? -/
def isQuote (c : Char) : Bool := c == '\x27' || c == '\x22' || c == '\x60'

/-- Everything up to the first `*/`, and that mark itself. -/
def throughCommentEnd : Text → Option Text
  | [] => none
  | c :: rest =>
    if c == '*' && rest.head? == some '/' then some ['*', '/']
    else (throughCommentEnd rest).map (c :: ·)

namespace Segment

/-- The characters that a segment covers. -/
def source : Segment → Text
  | .quoted text => text
  | .comment text => text
  | .plain c => [c]

/-- The quoted span, if the segment is one. -/
def literal? : Segment → Option Text
  | .quoted text => some text
  | _ => none

/-- The segment that starts with `c` at a byte offset, when `rest` follows
`c`. -/
def next (offset : Nat) (c : Char) (rest : Text) : Except ParseError Segment :=
  if isQuote c then
    match Text.throughFirst c rest with
    | some body => .ok (.quoted (c :: body))
    | none => .error (.openQuote offset)
  else if c == '-' && rest.head? == some '-' then
    .ok (.comment (c :: rest.takeWhile (· != '\n')))
  else if c == '/' && rest.head? == some '*' then
    match throughCommentEnd (rest.drop 1) with
    | some body => .ok (.comment ('/' :: '*' :: body))
    | none => .error (.openComment offset)
  else .ok (.plain c)

end Segment

/-- The segments of a text at a byte offset, when its first `inside` characters
belong to a segment that has been read. -/
def segmentsFrom : Nat → Nat → Text → Except ParseError (List Segment)
  | _, _, [] => .ok []
  | inside + 1, offset, c :: rest =>
    segmentsFrom inside (offset + c.utf8Size) rest
  | 0, offset, c :: rest =>
    match Segment.next offset c rest with
    | .error e => .error e
    | .ok segment =>
      match segmentsFrom (segment.source.length - 1)
        (offset + c.utf8Size) rest with
      | .error e => .error e
      | .ok more => .ok (segment :: more)

/-- The segments of a text, in order. -/
def segments (t : Text) : Except ParseError (List Segment) := segmentsFrom 0 0 t

/-! ## Nothing is lost -/

/-- What runs up to the first `c` stands at the start of the text. -/
theorem Text.prefix_of_throughFirst {c : Char} :
    ∀ {t body : Text}, Text.throughFirst c t = some body → body <+: t
  | [], _, h => by simp [Text.throughFirst] at h
  | d :: rest, body, h => by
    rw [Text.throughFirst] at h
    split at h
    · cases h; simp
    · obtain ⟨b, hb, rfl⟩ := Option.map_eq_some_iff.1 h
      simpa using Text.prefix_of_throughFirst hb

/-- What runs up to the end of a comment stands at the start of the text. -/
theorem prefix_of_throughCommentEnd :
    ∀ {t body : Text}, throughCommentEnd t = some body → body <+: t
  | [], _, h => by simp [throughCommentEnd] at h
  | d :: rest, body, h => by
    rw [throughCommentEnd] at h
    split at h
    · next hd =>
      obtain ⟨rfl, hr⟩ : d = '*' ∧ rest.head? = some '/' := by simpa using hd
      obtain ⟨tail, rfl⟩ := List.head?_eq_some_iff.1 hr
      cases h; simp
    · obtain ⟨b, hb, rfl⟩ := Option.map_eq_some_iff.1 h
      simpa using prefix_of_throughCommentEnd hb

/-- A segment covers the character it starts with and some of those behind
it. -/
theorem Segment.source_next {offset : Nat} {c : Char} {rest : Text}
    {segment : Segment} (h : Segment.next offset c rest = .ok segment) :
    ∃ body, segment.source = c :: body ∧ body <+: rest := by
  unfold Segment.next at h
  split at h
  · split at h
    · next body hb => cases h; exact ⟨body, rfl, Text.prefix_of_throughFirst hb⟩
    · cases h
  · split at h
    · cases h; exact ⟨_, rfl, List.takeWhile_prefix _⟩
    · split at h
      · next hc =>
        obtain ⟨rfl, hr⟩ : c = '/' ∧ rest.head? = some '*' := by simpa using hc
        obtain ⟨tail, rfl⟩ := List.head?_eq_some_iff.1 hr
        split at h
        · next body hb =>
          cases h
          exact ⟨_, rfl, by simpa using prefix_of_throughCommentEnd hb⟩
        · cases h
      · cases h; exact ⟨[], rfl, by simp⟩

/-- The segments that are read cover all characters that were not yet read. -/
theorem segmentsFrom_source :
    ∀ {inside offset : Nat} {t : Text} {segs : List Segment},
      segmentsFrom inside offset t = .ok segs →
      segs.flatMap Segment.source = t.drop inside
  | _, _, [], _, h => by
    rw [segmentsFrom] at h
    cases h; simp
  | inside + 1, offset, c :: rest, segs, h => by
    rw [segmentsFrom] at h
    simpa using segmentsFrom_source h
  | 0, offset, c :: rest, segs, h => by
    rw [segmentsFrom] at h
    split at h
    · cases h
    · next segment hs =>
      split at h
      · cases h
      · next more hm =>
        cases h
        obtain ⟨body, hb, tail, rfl⟩ := Segment.source_next hs
        simp [hb, segmentsFrom_source hm]

/-- Nothing of a text is lost in its segments. -/
theorem source_of_segments {t : Text} {segs : List Segment}
    (h : segments t = .ok segs) : segs.flatMap Segment.source = t := by
  simpa using segmentsFrom_source h

end SqlRiver
