import SqlRiver.Proofs.Literal.Preserved

/-!
# Restoring what is restored

The text that a placeholder becomes is quoted, so no word runs into it or out of
it. A tag of a restored text is therefore one of the text before, where no index
of a span follows it; and what follows it is no index afterwards either. So
there is nothing to restore a second time, whatever the text is.

Main definitions and statements:

* `LiteralTable.Sealed`: the spans of a table are quoted and do not hold its
  tag.
* `LiteralTable.prefix_of_prefix_restore`: a word at the start of a restored
  text is one of the text.
* `LiteralTable.restore_idempotent`: restoring twice is restoring once.
-/

namespace SqlRiver.LiteralTable

variable {table : LiteralTable} {t : Text}

/-! ## Tables of quoted spans -/

/-- The spans of a table are quoted, and its tag occurs in none of them. -/
structure Sealed (table : LiteralTable) : Prop where
  isSpan : ∀ literal ∈ table.literals, IsSpan literal
  apart : ∀ literal ∈ table.literals, ¬ table.tag <:+: literal

/-- The table of a text is sealed: its tag does not occur in the text at all. -/
theorem sealed_of_protect {masked : Text}
    (h : protect t = .ok (masked, table)) : table.Sealed := by
  obtain ⟨segs, hsegs, rfl, -⟩ := protect_eq_ok_iff.1 h
  refine ⟨isSpan_of_segments hsegs,
    fun literal hmem hi => not_infix_unusedMarks t (hi.trans ?_)⟩
  obtain ⟨a, b, rfl⟩ := List.append_of_mem (mem_literals_ofSegments.1 hmem)
  refine ⟨a.flatMap Segment.source, b.flatMap Segment.source, ?_⟩
  rw [← source_of_segments hsegs]
  simp [Segment.source]

/-- A word at the start of a restored text stands at the start of the text: it
ends before the first quote. -/
theorem prefix_of_prefix_restore (hs : table.Sealed) {w : Text}
    (hw : ∀ c ∈ w, isWordChar c = true) (h : w <+: table.restore t) :
    w <+: t := by
  revert w
  refine scan_induction table (P :=
    fun t _ => ∀ {w : Text}, (∀ c ∈ w, isWordChar c = true) →
    w <+: table.restore t → w <+: t) ?_ ?_ ?_ ?_ t
  · intro w _ h
    exact h
  · intro c rest _ hp ih w hw h
    rw [restore_plain hp] at h
    cases w with
    | nil => exact List.nil_prefix
    | cons d w =>
      obtain ⟨rfl, htail⟩ := List.cons_prefix_cons.1 h
      exact List.cons_prefix_cons.2 ⟨rfl,
        ih (fun c hc => hw c (List.mem_cons_of_mem _ hc)) htail⟩
  · intro rest _ he ih w hw h
    rw [restore_tag he] at h
    obtain ⟨z, hz⟩ := h
    rcases List.append_eq_append_iff.1 hz with ⟨y, e, -⟩ | ⟨y, rfl, e⟩
    · rw [e, List.append_assoc]
      exact List.prefix_append _ _
    · exact (List.prefix_append_right_inj _).2
        (ih (fun c hc => hw c (List.mem_append_right _ hc)) ⟨z, e.symm⟩)
  · intro digits literal rest _ hi _ w hw h
    rw [restore_entry hi] at h
    obtain ⟨q, body, hq, -, rfl⟩ :=
      hs.isSpan literal (List.mem_of_getElem? hi.entry)
    cases w with
    | nil => exact List.nil_prefix
    | cons d w =>
      -- a word does not start with a quote
      obtain ⟨rfl, -⟩ := List.cons_prefix_cons.1 h
      have hd := hw d (List.mem_cons_self ..)
      rw [isWordChar_of_isQuote hq] at hd
      cases hd

/-- Where no index of a span follows a tag, none follows it in the restored
text. -/
theorem entryAfterTag?_restore (hs : table.Sealed)
    (h : table.entryAfterTag? t = none) :
    table.entryAfterTag? (table.restore t) = none := by
  cases hf : table.entryAfterTag? (table.restore t) with
  | none => rfl
  | some found =>
    obtain ⟨literal, n⟩ := found
    obtain ⟨digits, behind, e, hi, -⟩ := entryAfterTag?_eq_some_iff.1 hf
    have hword : ∀ c ∈ digits ++ closing, isWordChar c = true := by
      intro c hc
      rcases List.mem_append.1 hc with hc | hc
      · exact isWordChar_of_isDigit (hi.digit c hc)
      · obtain rfl : c = '_' := by simpa [closing] using hc
        rfl
    obtain ⟨z, hz⟩ := prefix_of_prefix_restore hs hword ⟨behind, e.symm⟩
    have hsome := entryAfterTag?_eq_some_iff.2 ⟨digits, z, hz.symm, hi, rfl⟩
    rw [h] at hsome
    cases hsome

/-- Under a sealed table, a restored text is restored once and for all. -/
theorem Sealed.restore_twice (hs : table.Sealed) (t : Text) :
    table.restore (table.restore t) = table.restore t := by
  refine scan_induction table (P :=
    fun t _ => table.restore (table.restore t) = table.restore t) ?_ ?_ ?_ ?_ t
  · rfl
  · intro c rest _ hp ih
    have hp' : ¬ table.tag <+: c :: table.restore rest := by
      rw [← restore_plain hp]
      exact fun h =>
        hp (prefix_of_prefix_restore hs (isWordChar_of_mem_tag table) h)
    rw [restore_plain hp, restore_plain hp', ih]
  · intro rest _ he ih
    rw [restore_tag he, restore_tag (entryAfterTag?_restore hs he), ih]
  · intro digits literal rest _ hi ih
    have hmem := List.mem_of_getElem? hi.entry
    rw [restore_entry hi,
      restore_append (runsOn_span (hs.isSpan literal hmem) _),
      restore_of_not_infix (hs.apart literal hmem), ih]

/-- Restoring twice is restoring once, whatever text it is that is restored. -/
theorem restore_idempotent {masked : Text} (h : protect t = .ok (masked, table))
    (x : Text) : table.restore (table.restore x) = table.restore x :=
  (sealed_of_protect h).restore_twice x

/-- A tag that overlaps another one, an index of no span, one with a leading
zero, and two parts of a placeholder that a span keeps apart. -/
theorem restore_idempotent_overlap :
    let table : LiteralTable := ⟨0, ["'a'".toList, "'b c'".toList]⟩
    let x :=
      "__sqlfmt_lit__sqlfmt_lit_0__ __sqlfmt_lit_7__ __sqlfmt_lit_01__ __sqlfmt___sqlfmt_lit_0__lit_0__".toList
    protect "'a' 'b c'".toList =
      .ok ("__sqlfmt_lit_0__ __sqlfmt_lit_1__".toList, table) ∧
    table.restore (table.restore x) = table.restore x := by
  intro table x
  have h : protect "'a' 'b c'".toList =
      .ok ("__sqlfmt_lit_0__ __sqlfmt_lit_1__".toList, table) := by
    decide +kernel
  exact ⟨h, restore_idempotent h x⟩

end SqlRiver.LiteralTable
