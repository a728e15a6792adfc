import SqlRiver.Layout.RoundTrip
import SqlRiver.Proofs.Layout.Reread
import SqlRiver.Proofs.Literal.Remask
import SqlRiver.Proofs.Reading.Clean

/-!
# Layouts that stay as they are

A layout writes the query of the text that was laid out, with the same
placeholders, so formatting it gives the layout again. It need not where a
heading stands next to a comma in the text: the layout has a space there, and
the heading stands alone. And each time a text is formatted, one semicolon at
its end is dropped.

Main statements:

* `readsBack_readMasked`: a query that is read from a text is read back from its
  line.
* `parse_of_format`: a layout writes the query of the text.
* `format_of_format`: a layout stays as it is.
* `format_keyword_at_comma`: a layout that is refused.
-/

namespace SqlRiver

open Text

variable {o : Options} {s r masked x : Text} {table : LiteralTable} {q : Query}

/-- A character outside of words at the end of a text is left there when the
text is restored. -/
theorem getLast?_restore {c : Char} (hc : isWordChar c = false)
    (h : x.getLast? = some c) : (table.restore x).getLast? = some c := by
  obtain ⟨y, rfl⟩ := List.getLast?_eq_some_iff.1 h
  rw [LiteralTable.restore_append_cons hc]
  exact List.getLast?_concat

/-- A query that is read from a text is read back, if no heading stands in the
entries and names inside it. -/
theorem readsBack_readMasked (o : Options)
    (hq : readMasked table masked = .ok q)
    (h : ∀ n inner, Within n q inner → inner.HeadingFree) :
    ReadsBack (readQuery table maxDepth) o q := by
  obtain ⟨-, hbalanced, hread⟩ := readMasked_eq_ok_iff.1 hq
  have ho : Orderly masked.normalize := ⟨thin_normalize masked, hbalanced⟩
  exact readsBack_readQuery o maxDepth _ q ho.trim hread h

/-- A layout writes the query of the text. -/
theorem parse_of_format (hg : ¬ LiteralTable.glue <:+: s)
    (hp : protect s = .ok (masked, table))
    (hq : readMasked table masked = .ok q) (h : ∀ n inner, Within n q inner →
    inner.HeadingFree) (hr : (render o q.restoreColumns).getLast? ≠ some ';') :
    parse (render o q.restoreColumns) = .ok q.restoreColumns := by
  obtain ⟨x, hw, hrender, hprotect⟩ := protect_render o hg hp hq
  have hx : x.getLast? ≠ some ';' :=
    fun hlast => hr (hrender ▸ getLast?_restore rfl hlast)
  have hread := readMasked_woven hw hx (readsBack_readMasked o hq h)
  exact (parse_eq_ok_iff hprotect).2 ⟨q, hread, rfl⟩

/-- Formatting a layout gives the layout again, if the text holds no start of a
tag, if the layout does not end in a semicolon, and if no heading stands in the
entries and names that are read from the text. -/
theorem format_of_format (hg : ¬ LiteralTable.glue <:+: s)
    (hp : protect s = .ok (masked, table))
    (hq : readMasked table masked = .ok q) (h : ∀ n inner, Within n q inner →
    inner.HeadingFree) (hf : format o s = .ok r) (hr : r.getLast? ≠ some ';') :
    format o r = .ok r := by
  have hparse : parse s = .ok q.restoreColumns :=
    (parse_eq_ok_iff hp).2 ⟨q, hq, rfl⟩
  obtain rfl : render o q.restoreColumns = r := by
    rw [format, hparse] at hf
    exact Except.ok.inj hf
  rw [format, parse_of_format hg hp hq h hr]
  rfl

/-- A text with quoted spans, a query in brackets and a join that is written as
a comma. -/
def spannedText : Text :=
  "select 'a b',k from (select k from t) s,u where k='from';".toList

/-- The text with placeholders. -/
def spannedMasked : Text :=
  "select __sqlfmt_lit_0__,k from (select k from t) s,u where k=__sqlfmt_lit_1__;".toList

/-- The quoted spans. -/
def spannedTable : LiteralTable := ⟨0, ["'a b'".toList, "'from'".toList]⟩

/-- The query in brackets. -/
def spannedKeys : Query :=
  { columns := [⟨"k".toList, none⟩], source := .table "t".toList none,
    literals := spannedTable, depth := 1 }

/-- What the text writes. -/
def spannedQuery : Query :=
  { columns := [⟨"__sqlfmt_lit_0__".toList, none⟩, ⟨"k".toList, none⟩]
    source := .subquery spannedKeys (some "s".toList)
    joins := [⟨.cross, .table "u".toList none, none, []⟩]
    filter := [⟨.and, "k=__sqlfmt_lit_1__".toList⟩], literals := spannedTable }

/-- The layout of the text. -/
def spannedLayout : Text :=
  "select 'a b', k\n  from (select k\n          from t) s\n cross join u\n where k='from'".toList

theorem format_of_format_spanned :
    ¬ LiteralTable.glue <:+: spannedText ∧
    protect spannedText = .ok (spannedMasked, spannedTable) ∧
    readMasked spannedTable spannedMasked = .ok spannedQuery ∧
    (∀ n inner, Within n spannedQuery inner → inner.HeadingFree) ∧
    format {} spannedText = .ok spannedLayout ∧
    spannedLayout.getLast? ≠ some ';' ∧
    format {} spannedLayout = .ok spannedLayout := by
  have hg : ¬ LiteralTable.glue <:+: spannedText := by decide +kernel
  have hp : protect spannedText = .ok (spannedMasked, spannedTable) := by
    decide +kernel
  have hq : readMasked spannedTable spannedMasked = .ok spannedQuery := by
    decide +kernel
  have hinner : ∀ n inner, Within n spannedKeys inner → inner.HeadingFree :=
    forall_within_iff.2 ⟨by decide +kernel,
      by simp [spannedKeys, Query.sources]⟩
  have houter : ∀ n inner, Within n spannedQuery inner → inner.HeadingFree :=
    forall_within_iff.2 ⟨by decide +kernel,
      by simpa [spannedQuery, Query.sources] using hinner⟩
  have hf : format {} spannedText = .ok spannedLayout := by decide +kernel
  have hr : spannedLayout.getLast? ≠ some ';' := by decide +kernel
  exact ⟨hg, hp, hq, houter, hf, hr, format_of_format hg hp hq houter hf hr⟩

/-- The column `from` stands behind a comma. In the layout it stands behind a
space, where it ends the select list, and what stands before the comma is not a
list any more. -/
theorem format_keyword_at_comma :
    format {} "select a,from from t".toList =
      .ok "select a, from\n  from t".toList ∧
    format {} "select a, from\n  from t".toList =
      .error (.emptyEntry .select) := by
  decide +kernel

-- of two semicolons one is left, and then none
example :
    format {} "select a from t;;".toList = .ok "select a\n  from t;".toList ∧
    format {} "select a\n  from t;".toList =
      .ok "select a\n  from t".toList := by
  decide +kernel

end SqlRiver
