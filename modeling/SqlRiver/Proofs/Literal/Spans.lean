import SqlRiver.Proofs.Layout.Pieces
import SqlRiver.Proofs.Literal.Segments
import SqlRiver.Proofs.Reading.Order

/-!
# Quoted spans in order

The quoted spans that the placeholders of a text stand for, in order. Blanks,
commas, brackets and keywords hold none, and no placeholder is cut in two where
a word ends. So the spans of a text are those of its words, of the tokens it is
laid out of, or of the chunks it is woven of.

Main definitions and statements:

* `LiteralTable.spans`: the quoted spans of a text with placeholders.
* `LiteralTable.spans_normalize`: the normal form of a text has the same spans.
* `LiteralTable.spans_of_laid`: the spans of a text are those of its tokens.
* `LiteralTable.restore_weave`, `spans_weave`, `inert_weave`: texts that are
  woven of chunks.
-/

namespace SqlRiver

theorem isWordChar_of_isBlank {c : Char} (h : isBlank c = true) :
    isWordChar c = false := by
  by_contra hw
  simp only [Bool.not_eq_false, isWordChar, Char.isAlphanum, isAlpha_iff,
    Char.isDigit, Bool.or_eq_true, Bool.and_eq_true, decide_eq_true_eq,
    beq_iff_eq] at hw
  have hn : (65 ≤ c.toNat ∧ c.toNat ≤ 90 ∨ 97 ≤ c.toNat ∧ c.toNat ≤ 122) ∨
      48 ≤ c.toNat ∧ c.toNat ≤ 57 ∨ c.toNat = 95 := by
    rcases hw with (hw | hw) | rfl
    · exact .inl hw
    · exact .inr (.inl hw)
    · exact .inr (.inr rfl)
  simp only [isBlank, blankRanges, List.any_cons, List.any_nil, Bool.or_false,
    Bool.or_eq_true, Bool.and_eq_true, decide_eq_true_eq] at h
  omega

/-- No word starts or ends at the ends of a blank text. -/
theorem offWord_of_blank {t : Text} (h : t.Blank) :
    offWord t.getLast? = true ∧ offWord t.head? = true := by
  have key : ∀ c ∈ t, offWord (some c) = true := fun c hc => by
    simp [offWord, isWordChar_of_isBlank (h c hc)]
  constructor
  · cases hl : t.getLast? with
    | none => rfl
    | some c => exact key c (List.mem_of_getLast? hl)
  · cases hl : t.head? with
    | none => rfl
    | some c => exact key c (List.mem_of_head? hl)

namespace LiteralTable

variable {table : LiteralTable}

/-- The quoted spans that the placeholders of a text stand for. -/
def spans (table : LiteralTable) (t : Text) : List Text :=
  (table.scan t).filterMap Segment.literal?

@[simp] theorem spans_nil : table.spans [] = [] := rfl

/-- The spans of texts between which no word runs on are those of both. -/
theorem spans_append {u v : Text} (h : runsOn u.getLast? v.head? = false) :
    table.spans (u ++ v) = table.spans u ++ table.spans v := by
  rw [spans, scan_append h, List.filterMap_append]
  rfl

/-- Texts between which no word runs on are restored one by one. -/
theorem restore_append {u v : Text} (h : runsOn u.getLast? v.head? = false) :
    table.restore (u ++ v) = table.restore u ++ table.restore v := by
  rw [← source_scan, scan_append h, List.flatMap_append, source_scan,
    source_scan]

/-- A character that is not part of a word holds no span. -/
theorem spans_append_cons {c : Char} (hc : isWordChar c = false) (u v : Text) :
    table.spans (u ++ c :: v) = table.spans u ++ table.spans v := by
  rw [spans, scan_append_cons hc, List.filterMap_append]
  rfl

/-- The sides of a character outside of words are restored one by one. -/
theorem restore_append_cons {c : Char} (hc : isWordChar c = false)
    (u v : Text) :
    table.restore (u ++ c :: v) = table.restore u ++ c :: table.restore v := by
  rw [← source_scan, scan_append_cons hc, List.flatMap_append,
    List.flatMap_cons, source_scan, source_scan]
  rfl

theorem filterMap_plain (t : Text) :
    (t.map Segment.plain).filterMap Segment.literal? = [] := by
  induction t with
  | nil => rfl
  | cons c t ih => exact ih

theorem spans_of_not_mem {t : Text} (h : '_' ∉ t) : table.spans t = [] := by
  rw [spans, scan_of_not_mem h, filterMap_plain]

theorem restore_of_not_mem {t : Text} (h : '_' ∉ t) : table.restore t = t := by
  rw [← source_scan, scan_of_not_mem h, List.flatMap_map]
  simp [Segment.source]

theorem underscore_not_mem_blank {t : Text} (h : t.Blank) : '_' ∉ t :=
  fun hm => by
  have := h _ hm
  cases this

/-- Commas, brackets and keywords hold no quoted spans. -/
theorem collects_spans (table : LiteralTable) : Collects table.spans where
  letters t ht := spans_of_not_mem (ht.not_mem rfl (by decide))
  comma t := by simpa using spans_append_cons (c := ',') rfl t []
  opening t := by simpa using spans_append_cons (c := '(') rfl [] t
  closing t := by simpa using spans_append_cons (c := ')') rfl t []

/-- The spans of a text are those of the tokens it is laid out of. -/
theorem spans_of_laid {b a : Option Char} {ks : List Token} {t : Text}
    (h : Laid b ks t a) : table.spans t = ks.flatMap (table.spans ·.text) := by
  induction h with
  | nil => rfl
  | @token b a k ks t _ _ hr _ ih =>
    rw [spans_append, ih, List.flatMap_cons]
    cases t with
    | nil => exact runsOn_of_right rfl _
    | cons c t => exact hr
  | @space b a ks t _ ih =>
    rw [← ih]
    exact spans_append_cons rfl [] t
  | @comma b a ks t _ ih =>
    rw [← ih]
    exact spans_append_cons rfl [] t
  | @word b a ks m t hm _ hr _ ih =>
    have hlet : '_' ∉ m := fun hmem => by
      have hw := mem_of_isPhrase
        (isPhrase_of_mem_fillerWords hm) _ (List.mem_map_of_mem hmem)
      rcases hw with hw | hw <;> cases hw
    rw [← ih, spans_append, spans_of_not_mem hlet, List.nil_append]
    cases t with
    | nil => exact runsOn_of_right rfl _
    | cons c t => exact runsOn_of_right (offWord_of_atEdge hr) _

/-! ## Words -/

/-- The spans of a text are those of its words, in order. -/
theorem spans_words (t : Text) :
    table.spans t = t.words.flatMap table.spans := by
  have hrun : ∀ v : Text, (∀ c ∈ v, isBlank c = false) →
      table.spans v = v.words.flatMap table.spans := by
    intro v hv
    rw [Text.words_of_noBlank hv]
    split
    · next h₀ => rw [h₀]; rfl
    · simp
  induction t using Text.words_induction with
  | last v hv => exact hrun v hv
  | cut v c u hv hc ih =>
    rw [spans_append_cons (isWordChar_of_isBlank hc), Text.words_append hc,
      List.flatMap_append, ← ih, hrun v hv]

/-- The normal form of a text has the same spans. -/
theorem spans_normalize (t : Text) :
    table.spans t.normalize = table.spans t := by
  have hcollapse : table.spans t.collapse = table.spans t := by
    rw [spans_words t.collapse, Text.words_collapse, ← spans_words]
  rw [← hcollapse]
  rcases Text.normalize_cases t with h | ⟨r, hr, h⟩
  · rw [h]
  · rw [h, List.append_assoc, spans_append]
    · have hnot : '_' ∉ r ++ [';'] := by
        simp [underscore_not_mem_blank hr]
      rw [spans_of_not_mem hnot, List.append_nil]
    · refine runsOn_of_right ?_ _
      cases r with
      | nil => rfl
      | cons c r => exact (offWord_of_blank hr).2

/-! ## Woven texts -/

section Weave

variable {g k : Text} {gs ks : List Text}

/-- What follows a chunk starts with a blank, if anything follows it. -/
theorem offWord_weave (h : Gaps (g :: gs)) (ks : List Text) :
    offWord (weave gs ks).head? = true := by
  cases gs with
  | nil => cases ks <;> rfl
  | cons g' gs =>
    cases ks with
    | nil => rfl
    | cons k ks =>
      obtain ⟨c, x, rfl⟩ := List.exists_cons_of_ne_nil (h.apart g' (by simp))
      exact (offWord_of_blank (h.blank (c :: x) (by simp))).2

/-- The segments of a woven text are those of its chunks, with the blanks
between them. -/
theorem scan_weave_cons (h : Gaps (g :: gs)) (k : Text) (ks : List Text) :
    table.scan (weave (g :: gs) (k :: ks)) =
      g.map .plain ++ (table.scan k ++ table.scan (weave gs ks)) := by
  have hg := h.blank g (by simp)
  rw [weave, List.append_assoc,
    scan_append (runsOn_of_left (offWord_of_blank hg).1 _),
    scan_append (runsOn_of_right (offWord_weave h ks) _),
    scan_of_not_mem (underscore_not_mem_blank hg)]

/-- Chunks with gaps are restored chunk by chunk. -/
theorem restore_weave : ∀ {gs ks : List Text}, Gaps gs →
    table.restore (weave gs ks) = weave gs (ks.map table.restore)
  | [], ks, _ => by cases ks <;> rfl
  | g :: gs, [], _ => rfl
  | g :: gs, k :: ks, h => by
    rw [← source_scan, scan_weave_cons h, List.flatMap_append,
      List.flatMap_append, source_scan, source_scan, restore_weave h.tail,
      List.map_cons, weave, List.flatMap_map]
    simp [Segment.source]

/-- The spans of chunks with gaps are those of the chunks, in order. -/
theorem spans_weave : ∀ {gs ks : List Text}, Gaps gs → gs.length = ks.length →
    table.spans (weave gs ks) = ks.flatMap table.spans
  | [], [], _, _ => rfl
  | [], _ :: _, _, h => by cases h
  | _ :: _, [], _, h => by cases h
  | g :: gs, k :: ks, h, hlen => by
    rw [spans, scan_weave_cons h, List.filterMap_append, List.filterMap_append,
      filterMap_plain, List.flatMap_cons,
      ← spans_weave h.tail (by simpa using hlen)]
    rfl

end Weave

end LiteralTable

/-! ## Inert texts -/

theorem inert_of_blank {c : Char} (h : isBlank c = true) :
    isQuote c = false ∧ c ≠ '-' ∧ c ≠ '/' ∧ c ≠ '*' := by
  refine ⟨?_, ?_, ?_, ?_⟩
  · by_contra hq
    simp only [Bool.not_eq_false, isQuote, Bool.or_eq_true, beq_iff_eq] at hq
    rcases hq with ((rfl | rfl) | rfl) <;> cases h
  · rintro rfl
    cases h
  · rintro rfl
    cases h
  · rintro rfl
    cases h

/-- A blank opens no comment, neither with the character before it nor with the
one behind it. -/
theorem inert_append_blank {c : Char} (hc : isBlank c = true) (u v : Text) :
    inert (u ++ c :: v) = true ↔ inert u = true ∧ inert v = true := by
  obtain ⟨hq, hd, hs, ha⟩ := inert_of_blank hc
  have hbehind : opensComment u.getLast? (some c) = false := by
    cases u.getLast? with
    | none => rfl
    | some d => simp [opensComment, hd, ha]
  rw [inert_append, inert_cons]
  simp [hq, opensComment_of_ne hd hs, hbehind]

/-- A text is inert if its words are: a comment is opened by two characters of
one word. -/
theorem inert_words (t : Text) :
    inert t = true ↔ ∀ w ∈ t.words, inert w = true :=
  Text.forall_words (P := fun t => inert t = true) rfl
    (fun u _ v hc => inert_append_blank hc u v) t

/-- The normal form of an inert text is inert. -/
theorem inert_normalize {t : Text} (h : inert t = true) :
    inert t.normalize = true := by
  have hcollapse : inert t.collapse = true := by
    rwa [inert_words, Text.words_collapse, ← inert_words]
  exact inert_of_infix hcollapse (Text.normalize_isPrefix t).isInfix

/-- Blanks before a text open no comment. -/
theorem inert_blank_append {g : Text} (hg : g.Blank) (t : Text) :
    inert (g ++ t) = true ↔ inert t = true := by
  rw [inert_words, Text.words_blank_append hg, ← inert_words]

/-- Blanks between chunks open no comment. -/
theorem inert_weave :
    ∀ {gs ks : List Text}, Gaps gs → (∀ k ∈ ks, inert k = true) →
      inert (weave gs ks) = true
  | [], ks, _, _ => by cases ks <;> rfl
  | g :: gs, [], _, _ => rfl
  | g :: gs, k :: ks, h, hk => by
    have hrest :=
      inert_weave h.tail fun x hx => hk x (List.mem_cons_of_mem _ hx)
    have hk₀ := hk k (by simp)
    rw [weave, List.append_assoc, inert_blank_append (h.blank g (by simp))]
    -- a blank or nothing follows the chunk
    cases gs with
    | nil => cases ks <;> simpa [weave] using hk₀
    | cons g' gs =>
      cases ks with
      | nil => simpa [weave] using hk₀
      | cons k' ks =>
        obtain ⟨c, x, rfl⟩ := List.exists_cons_of_ne_nil (h.apart g' (by simp))
        have hg := h.blank (c :: x) (by simp)
        have hc := hg c (by simp)
        rw [weave, List.append_assoc, inert_blank_append hg] at hrest
        rw [weave, List.append_assoc, List.cons_append, inert_append_blank hc,
          inert_blank_append (Text.blank_cons.1 hg).2]
        exact ⟨hk₀, hrest⟩

end SqlRiver
