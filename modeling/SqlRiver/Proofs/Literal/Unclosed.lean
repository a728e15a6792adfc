import SqlRiver.Proofs.Literal.Framed
import SqlRiver.Proofs.Literal.Recovered
import SqlRiver.Proofs.Text.Bytes

/-!
# Quotes and comments that are never closed

Protecting a text fails at the first quote or comment that is never closed.
Before it stand only complete quoted spans, complete comments and characters
that open neither. Every other text is protected, and what comes of it holds
nothing to protect.

Main definitions and statements:

* `inert_iff`: what an inert text does not hold.
* `Piece`, `Passed`: what a scan goes over before it comes to a place.
* `Unclosed`: a quote or a comment that is never closed, and the error that
  tells where it opens.
* `protect_eq_error_iff`: the first of these is the error.
* `protect_inert_or_unclosed`: a text has one, or its masked text is inert.
-/

namespace SqlRiver

open LiteralTable

variable {off : Nat} {c : Char} {a t x y rest : Text} {e : ParseError}

/-- An inert text holds no quote and no mark that opens a comment. -/
theorem inert_iff : ∀ {t : Text}, inert t = true ↔
    (∀ c ∈ t, isQuote c = false) ∧ ¬ ['-', '-'] <:+: t ∧ ¬ ['/', '*'] <:+: t
  | [] => by simp [inert]
  | c :: t => by
    have hpair : ∀ d f : Char, [d, f] <+: c :: t ↔
        c = d ∧ t.head? = some f := by
      intro d f
      cases t with
      | nil => simp [List.cons_prefix_cons]
      | cons g t => simp [List.cons_prefix_cons, eq_comm]
    rw [inert_cons, inert_iff, ← Bool.not_eq_true
      (opensComment (some c) t.head?), opensComment_iff, List.infix_cons_iff,
      List.infix_cons_iff, hpair, hpair, List.forall_mem_cons]
    tauto

/-! ## What a scan goes over -/

/-- The second text is read as one when the first one follows it: a complete
quoted span, a complete comment or a character that opens neither. -/
inductive Piece (t : Text) : Text → Prop
  /-- A quoted span, up to the next quote of the same kind. -/
  | span {q : Char} {body : Text} : isQuote q = true → q ∉ body →
    Piece t (q :: body ++ [q])
  /-- A comment up to the end of its line. -/
  | line {body : Text} : '\n' ∉ body → (∀ c ∈ t.head?, c = '\n') →
    Piece t ('-' :: '-' :: body)
  /-- A comment up to the first mark that closes it. -/
  | block {body : Text} : ¬ ['*', '/'] <:+: body ++ ['*'] →
    Piece t ('/' :: '*' :: (body ++ ['*', '/']))
  /-- Any other character. -/
  | char {c : Char} : isQuote c = false →
    opensComment (some c) t.head? = false → Piece t [c]

/-- The first text is gone over, piece by piece, when the second one follows
it. -/
inductive Passed : Text → Text → Prop
  /-- Nothing has been read. -/
  | here {rest : Text} : Passed [] rest
  /-- One piece, and what is gone over behind it. -/
  | piece {x a rest : Text} : Piece (a ++ rest) x → Passed a rest →
    Passed (x ++ a) rest

/-- The text starts with a quote or a comment that is never closed, and this is
the error for its offset. -/
inductive Unclosed (off : Nat) : Text → ParseError → Prop
  /-- The quote does not occur again. -/
  | quote {q : Char} {rest : Text} : isQuote q = true → q ∉ rest →
    Unclosed off (q :: rest) (.openQuote off)
  /-- No mark that closes a comment occurs behind the one that opens it. -/
  | comment {rest : Text} : ¬ ['*', '/'] <:+: rest →
    Unclosed off ('/' :: '*' :: rest) (.openComment off)

/-- The segment at the start of a text covers a piece. -/
theorem piece_of_next {s : Segment} (hs : Segment.next off c (x ++ t) = .ok s)
    (hx : s.source = c :: x) : Piece t (c :: x) := by
  rcases next_cases hs with
    ⟨rfl, hq, hc⟩ | ⟨text, rfl⟩ | ⟨text, rfl, q, body, hq, hb, rfl⟩
  · obtain rfl : x = [] := by simpa [Segment.source, eq_comm] using hx
    exact .char hq hc
  · rcases comment_cases hs hx with ⟨body, e, hb, ht⟩ | ⟨body, e, hb⟩
    · rw [e]
      exact .line hb ht
    · rw [e]
      exact .block hb
  · rw [← hx]
    exact .span hq hb

/-- A piece is covered by one segment, at every offset. -/
theorem next_of_piece (h : Piece t y) :
    ∃ c x s, y = c :: x ∧ s.source = c :: x ∧
      ∀ off, Segment.next off c (x ++ t) = .ok s := by
  cases h with
  | span hq hb => exact ⟨_, _, _, rfl, rfl, fun off => next_span off hq hb t⟩
  | line hb ht => exact ⟨_, _, _, rfl, rfl, fun off => next_line off hb ht⟩
  | block hb => exact ⟨_, _, _, rfl, rfl, fun off => next_block off hb t⟩
  | char hq hc => exact ⟨_, [], _, rfl, rfl, fun off => next_plain off hq hc⟩

/-! ## What is never closed -/

theorem throughFirst_eq_none_iff :
    ∀ {t : Text}, Text.throughFirst c t = none ↔ c ∉ t
  | [] => by simp [Text.throughFirst]
  | d :: t => by
    rw [Text.throughFirst]
    split
    · next hd => simp [beq_iff_eq.1 hd]
    · next hd =>
      have hd' : c ≠ d := fun h => hd (beq_iff_eq.2 h.symm)
      rw [Option.map_eq_none_iff, throughFirst_eq_none_iff, List.mem_cons,
        not_or]
      exact (and_iff_right hd').symm

theorem throughCommentEnd_eq_none_iff :
    ∀ {t : Text}, throughCommentEnd t = none ↔ ¬ ['*', '/'] <:+: t
  | [] => by simp [throughCommentEnd]
  | d :: t => by
    rw [throughCommentEnd, List.infix_cons_iff, not_or]
    split
    · next hd =>
      obtain ⟨rfl, ht⟩ : d = '*' ∧ t.head? = some '/' := by simpa using hd
      obtain ⟨t, rfl⟩ := List.head?_eq_some_iff.1 ht
      simp
    · next hd =>
      have hd' : ¬ ['*', '/'] <+: d :: t := by
        rintro ⟨z, hz⟩
        obtain ⟨rfl, rfl⟩ := List.cons.inj hz
        exact hd rfl
      rw [Option.map_eq_none_iff, throughCommentEnd_eq_none_iff]
      exact (and_iff_right hd').symm

/-- No segment can be read exactly where something opens that is never
closed. -/
theorem next_eq_error_iff :
    Segment.next off c rest = .error e ↔ Unclosed off (c :: rest) e := by
  constructor
  · intro h
    unfold Segment.next at h
    split at h
    · next hq =>
      split at h
      · cases h
      · next hf =>
        cases h
        exact .quote hq (throughFirst_eq_none_iff.1 hf)
    · split at h
      · cases h
      · split at h
        · next hs =>
          obtain ⟨rfl, hr⟩ : c = '/' ∧ rest.head? = some '*' := by
            simpa using hs
          obtain ⟨rest, rfl⟩ := List.head?_eq_some_iff.1 hr
          split at h
          · cases h
          · next hf =>
            cases h
            exact .comment (throughCommentEnd_eq_none_iff.1 hf)
        · cases h
  · intro h
    cases h with
    | quote hq hf => rw [Segment.next, if_pos hq, throughFirst_eq_none_iff.2 hf]
    | @comment rest hf =>
      have hend : throughCommentEnd (('*' :: rest).drop 1) = none :=
        throughCommentEnd_eq_none_iff.2 hf
      rw [Segment.next, if_neg (by decide), if_neg (by simp), if_pos (by simp),
        hend]

/-! ## Where a scan fails -/

/-- Characters that have been dealt with only move the offset. -/
theorem segmentsFrom_length : ∀ (x t : Text) (off : Nat),
    segmentsFrom x.length off (x ++ t) = segmentsFrom 0 (off + x.byteSize) t
  | [], _, _ => rfl
  | c :: x, t, off => by
    rw [List.length_cons, List.cons_append, segmentsFrom, segmentsFrom_length,
      Text.byteSize, Nat.add_assoc]

/-- Step: a piece only moves the place where a scan fails. -/
theorem segmentsFrom_piece (h : Piece t y) (off : Nat) :
    segmentsFrom 0 off (y ++ t) = .error e ↔
    segmentsFrom 0 (off + y.byteSize) t = .error e := by
  obtain ⟨c, x, s, rfl, hx, hs⟩ := next_of_piece h
  rw [List.cons_append, segmentsFrom, hs, Text.byteSize, ← Nat.add_assoc,
    ← segmentsFrom_length]
  simp only [hx, List.length_cons, Nat.add_sub_cancel]
  cases segmentsFrom x.length (off + c.utf8Size) (x ++ t) <;> simp

/-- Run: so does all that is gone over. -/
theorem segmentsFrom_passed (h : Passed a rest) :
    ∀ off : Nat, segmentsFrom 0 off (a ++ rest) = .error e ↔
      segmentsFrom 0 (off + a.byteSize) rest = .error e := by
  induction h with
  | here =>
    intro off
    rfl
  | piece hp _ ih =>
    intro off
    rw [List.append_assoc, segmentsFrom_piece hp, ih, Text.byteSize_append,
      Nat.add_assoc]

/-- A scan fails where something opens that is never closed. -/
theorem segmentsFrom_eq_error_iff :
    segmentsFrom 0 off t = .error e ↔ ∃ a rest, t = a ++ rest ∧ Passed a rest ∧
      Unclosed (off + a.byteSize) rest e := by
  constructor
  · intro h
    generalize hn : t.length = n
    induction n using Nat.strongRecOn generalizing t off with
    | _ n ih =>
      cases t with
      | nil => cases h
      | cons c rest =>
        cases hs : Segment.next off c rest with
        | error e' =>
          rw [segmentsFrom, hs] at h
          cases h
          exact ⟨[], c :: rest, rfl, .here, next_eq_error_iff.1 hs⟩
        | ok s =>
          obtain ⟨x, hx, t, rfl⟩ := Segment.source_next hs
          have hp := piece_of_next hs hx
          rw [← List.cons_append, segmentsFrom_piece hp] at h
          have hlen : t.length < n := by
            rw [← hn, List.length_cons, List.length_append]
            omega
          obtain ⟨a, rest, rfl, ha, hu⟩ := ih t.length hlen h rfl
          refine ⟨c :: x ++ a, rest, by simp, .piece hp ha, ?_⟩
          rwa [Text.byteSize_append, ← Nat.add_assoc]
  · rintro ⟨a, rest, rfl, ha, hu⟩
    rw [segmentsFrom_passed ha]
    cases rest with
    | nil => cases hu
    | cons c rest => rw [segmentsFrom, next_eq_error_iff.2 hu]

/-- Protecting fails exactly at the first quote or comment that is never
closed. -/
theorem protect_eq_error_iff : protect t = .error e ↔
    ∃ a rest, t = a ++ rest ∧ Passed a rest ∧ Unclosed a.byteSize rest e := by
  have hsegments : protect t = .error e ↔ segmentsFrom 0 0 t = .error e := by
    unfold protect segments
    cases segmentsFrom 0 0 t <;> simp
  rw [hsegments, segmentsFrom_eq_error_iff]
  simp only [Nat.zero_add]

/-- Nothing is left to protect in a protected text, and a text is not protected
exactly if some quote or comment in it, outside of complete ones, is never
closed. -/
theorem protect_inert_or_unclosed (t : Text) :
    (∀ masked table, protect t = .ok (masked, table) →
      (∀ c ∈ masked, isQuote c = false) ∧ ¬ "--".toList <:+: masked ∧
      ¬ "/*".toList <:+: masked ∧
      ∃ table', protect masked = .ok (masked, table') ∧ table'.entries = []) ∧
    ∀ e, protect t = .error e ↔
      ∃ a rest, t = a ++ rest ∧ Passed a rest ∧ Unclosed a.byteSize rest e := by
  refine ⟨fun masked table h => ?_, fun e => protect_eq_error_iff⟩
  obtain ⟨segs, hsegs, -, rfl⟩ := protect_eq_ok_iff.1 h
  have hinert : inert (table.maskFrom 0 segs) = true := inert_maskFrom 0 hsegs
  obtain ⟨hquote, hline, hblock⟩ := inert_iff.1 hinert
  exact ⟨hquote, hline, hblock, _, protect_inert hinert, rfl⟩

/-- Quotes in comments and comment marks in a quoted span, and behind them a
quote that is never closed. -/
theorem protect_unclosed_behind :
    let t : Text := "é'--'/*`*/-- '\n-/".toList
    let masked : Text := "é__sqlfmt_lit_0__  \n-/".toList
    (∃ table, protect t = .ok (masked, table)) ∧
        (∃ table', protect masked = .ok (masked, table') ∧
        table'.entries = []) ∧ ∃ a rest : Text, t ++ "`'".toList = a ++ rest ∧
        Passed a rest ∧ Unclosed a.byteSize rest (.openQuote 18) := by
  intro t masked
  have hok : protect t = .ok (masked, ⟨0, ["'--'".toList]⟩) := by decide +kernel
  have herror : protect (t ++ "`'".toList) = .error (.openQuote 18) := by
    decide +kernel
  exact ⟨⟨_, hok⟩, ((protect_inert_or_unclosed t).1 _ _ hok).2.2.2,
    ((protect_inert_or_unclosed (t ++ "`'".toList)).2 _).1 herror⟩

end SqlRiver
