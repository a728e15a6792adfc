import SqlRiver.Split

/-!
# Boundaries of words

A word runs on between two characters if both may be part of a word.
Placeholders and keywords are made of such characters, so neither of them
reaches across a place where no word runs on.

Main definitions:

* `runsOn`: does a word go on from one character to the next?
* `offWord`: is there no character of a word?
-/

namespace SqlRiver

/-- Does a word go on from one character to the next? -/
def runsOn : Option Char → Option Char → Bool
  | some c, some d => isWordChar c && isWordChar d
  | _, _ => false

/-- Is this an end of the text or a character that is not part of a word? -/
def offWord : Option Char → Bool
  | none => true
  | some c => !isWordChar c

theorem isWordChar_of_isEdge {c : Char} (h : isEdge c = true) :
    isWordChar c = false := by
  simp only [isEdge, isSpace, Bool.or_eq_true, beq_iff_eq] at h
  rcases h with ((((((rfl | rfl) | rfl) | rfl) | rfl) | rfl) | rfl) <;> rfl

theorem offWord_of_atEdge {b : Option Char} (h : atEdge b = true) :
    offWord b = true := by
  cases b with
  | none => rfl
  | some c => simpa [offWord] using isWordChar_of_isEdge h

/-- No word runs on behind a place where none stands. -/
theorem runsOn_of_left {b : Option Char} (h : offWord b = true)
    (a : Option Char) : runsOn b a = false := by
  cases b with
  | none => rfl
  | some c =>
    cases a with
    | none => rfl
    | some d => simp_all [offWord, runsOn]

/-- No word runs on into a place where none stands. -/
theorem runsOn_of_right {a : Option Char} (h : offWord a = true)
    (b : Option Char) : runsOn b a = false := by
  cases a with
  | none => cases b <;> rfl
  | some d =>
    cases b with
    | none => rfl
    | some c => simp_all [offWord, runsOn]

theorem head?_append_or {t u : Text} (a : Option Char) :
    (t ++ u).head?.or a = t.head?.or (u.head?.or a) := by
  rw [List.head?_append, Option.or_assoc]

theorem getLast?_append_or {t u : Text} (b : Option Char) :
    (t ++ u).getLast?.or b = u.getLast?.or (t.getLast?.or b) := by
  rw [List.getLast?_append, Option.or_assoc]

end SqlRiver
