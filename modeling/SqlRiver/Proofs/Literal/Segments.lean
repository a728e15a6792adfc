import SqlRiver.Proofs.Literal.Mask

/-!
# Segments of a restored text

A text is *inert* if it holds no quote and no mark that opens a comment. Masked
texts are inert, and restoring an inert text puts quoted spans into it and
nothing else: read again, the restored text has just the segments that a scan
finds.

Main definitions and statements:

* `inert`, `inert_append`: texts without quotes and comment marks.
* `IsSpan`: a quoted span.
* `inert_maskFrom`, `isSpan_of_segments`: what masking leaves, and what it takes
  out.
* `segments_restore`: the segments of a restored text.
-/

namespace SqlRiver

/-! ## Inert texts -/

/-- Do two neighbouring characters open a comment? -/
def opensComment : Option Char → Option Char → Bool
  | some c, some d => (c == '-' && d == '-') || (c == '/' && d == '*')
  | _, _ => false

/-- Is the text without quotes and without the marks that open comments? -/
def inert : Text → Bool
  | [] => true
  | c :: t => !isQuote c && !opensComment (some c) t.head? && inert t

/-- A text is inert if its first character is no quote and opens no comment, and
the rest is inert. -/
theorem inert_cons {c : Char} {t : Text} :
    inert (c :: t) = true ↔ isQuote c = false ∧
    opensComment (some c) t.head? = false ∧ inert t = true := by
  simp [inert, and_assoc]

@[simp] theorem opensComment_none_left (a : Option Char) :
    opensComment none a = false :=
  rfl

@[simp] theorem opensComment_none_right (b : Option Char) :
    opensComment b none = false := by
  cases b <;> rfl

theorem opensComment_of_ne {c : Char} (hd : c ≠ '-') (hs : c ≠ '/')
    (a : Option Char) : opensComment (some c) a = false := by
  cases a with
  | none => rfl
  | some d => simp [opensComment, hd, hs]

/-- Two texts are inert together if both are and no comment opens between
them. -/
theorem inert_append {t u : Text} :
    inert (t ++ u) = true ↔ inert t = true ∧ inert u = true ∧
    opensComment t.getLast? u.head? = false := by
  induction t with
  | nil => simp [inert, opensComment]
  | cons c t ih =>
    rw [List.cons_append, inert_cons, inert_cons, ih]
    cases t with
    | nil => simp [inert, and_comm, and_left_comm]
    | cons d t =>
      rw [List.getLast?_cons_cons]
      simp [and_assoc]

theorem inert_of_infix {t u : Text} (h : inert u = true) (ht : t <:+: u) :
    inert t = true := by
  obtain ⟨a, b, rfl⟩ := ht
  exact (inert_append.1 (inert_append.1 h).1).2.1

/-- Characters that are no quote, no dash and no slash are inert. -/
theorem inert_of_forall {t : Text}
    (h : ∀ c ∈ t, isQuote c = false ∧ c ≠ '-' ∧ c ≠ '/') : inert t = true := by
  induction t with
  | nil => rfl
  | cons c t ih =>
    obtain ⟨hq, hd, hs⟩ := h c (by simp)
    rw [inert_cons]
    exact ⟨hq, opensComment_of_ne hd hs _, ih fun d hd => h d (by simp [hd])⟩

/-! ## Reading segments -/

/-- A complete segment is the same at every offset. -/
theorem next_offset {off : Nat} {c : Char} {rest : Text} {s : Segment}
    (h : Segment.next off c rest = .ok s) (off' : Nat) :
    Segment.next off' c rest = .ok s := by
  unfold Segment.next at h ⊢
  split
  · next hq =>
    rw [if_pos hq] at h
    split <;> simp_all
  · next hq =>
    rw [if_neg hq] at h
    split
    · next hd => rwa [if_pos hd] at h
    · next hd =>
      rw [if_neg hd] at h
      split
      · next hs =>
        rw [if_pos hs] at h
        split <;> simp_all
      · next hs => rwa [if_neg hs] at h

/-- The offset that errors tell does not change what is read. -/
theorem segmentsFrom_offset :
    ∀ {inside off : Nat} {t : Text} {segs : List Segment},
      segmentsFrom inside off t = .ok segs →
      ∀ off', segmentsFrom inside off' t = .ok segs
  | _, _, [], _, h, _ => by
    rw [segmentsFrom] at h ⊢
    exact h
  | inside + 1, off, c :: rest, segs, h, off' => by
    rw [segmentsFrom] at h ⊢
    exact segmentsFrom_offset h _
  | 0, off, c :: rest, segs, h, off' => by
    rw [segmentsFrom] at h ⊢
    split at h
    · cases h
    · next s hs =>
      rw [next_offset hs off']
      simp only
      split at h
      · cases h
      · next more hm =>
        rw [segmentsFrom_offset hm _]
        exact h

/-- What has been dealt with is passed over. -/
theorem segmentsFrom_inside {segs : List Segment} : ∀ {x t : Text} {off : Nat},
    segmentsFrom x.length off (x ++ t) = .ok segs ↔ segments t = .ok segs
  | [], t, off =>
    ⟨fun h => segmentsFrom_offset h 0, fun h => segmentsFrom_offset h off⟩
  | c :: x, t, off => by
    rw [List.length_cons, List.cons_append, segmentsFrom]
    exact segmentsFrom_inside

/-- A segment at the start of a text, and the segments behind it. -/
theorem segments_cons {c : Char} {x t : Text} {s : Segment}
    {segs : List Segment} (hs : Segment.next 0 c (x ++ t) = .ok s)
    (hx : s.source = c :: x) (h : segments t = .ok segs) :
    segments (c :: x ++ t) = .ok (s :: segs) := by
  rw [segments, List.cons_append, segmentsFrom, hs]
  simp only [hx, List.length_cons, Nat.add_sub_cancel]
  rw [segmentsFrom_inside.2 h]

/-- The first segment of a text, and those behind it. -/
theorem segments_eq_cons {t : Text} {s : Segment} {segs : List Segment}
    (h : segments t = .ok (s :: segs)) :
    ∃ c x rest, t = c :: x ++ rest ∧ s.source = c :: x ∧
      Segment.next 0 c (x ++ rest) = .ok s ∧ segments rest = .ok segs := by
  cases t with
  | nil => cases h
  | cons c rest =>
    rw [segments, segmentsFrom] at h
    split at h
    · cases h
    · next s' hs =>
      split at h
      · cases h
      · next more hm =>
        cases h
        obtain ⟨x, hx, rest, rfl⟩ := Segment.source_next hs
        refine ⟨c, x, rest, rfl, hx, hs, ?_⟩
        rw [hx, List.length_cons, Nat.add_sub_cancel] at hm
        exact segmentsFrom_inside.1 hm

/-! ## Quoted spans -/

/-- A quoted span: a quote, and everything up to the next quote of the same
kind. -/
def IsSpan (text : Text) : Prop :=
  ∃ q body, isQuote q = true ∧ q ∉ body ∧ text = q :: body ++ [q]

/-- The text up to the first place of a character, and with it. -/
theorem Text.throughFirst_eq_some_iff {c : Char} :
    ∀ {t u : Text}, Text.throughFirst c t = some u ↔
      ∃ body rest, t = body ++ c :: rest ∧ c ∉ body ∧ u = body ++ [c]
  | [], u => by simp [Text.throughFirst]
  | d :: t, u => by
    rw [Text.throughFirst]
    split
    · next hd =>
      obtain rfl : d = c := by simpa using hd
      constructor
      · rintro ⟨⟩
        exact ⟨[], t, rfl, by simp, rfl⟩
      · rintro ⟨body, rest, e, hb, rfl⟩
        cases body with
        | nil => rfl
        | cons f body =>
          obtain ⟨rfl, -⟩ := List.cons.inj e
          simp at hb
    · next hd =>
      have hd' : d ≠ c := by simpa using hd
      rw [Option.map_eq_some_iff]
      constructor
      · rintro ⟨v, hv, rfl⟩
        obtain ⟨body, rest, rfl, hb, rfl⟩ := Text.throughFirst_eq_some_iff.1 hv
        exact ⟨d :: body, rest, rfl, by simp [hb, hd'.symm], rfl⟩
      · rintro ⟨body, rest, e, hb, rfl⟩
        cases body with
        | nil => exact absurd (List.cons.inj e).1 hd'
        | cons f body =>
          obtain ⟨rfl, rfl⟩ := List.cons.inj e
          exact ⟨body ++ [c], Text.throughFirst_eq_some_iff.2
            ⟨body, rest, rfl, fun h => hb (by simp [h]), rfl⟩, rfl⟩

/-- A quote and everything up to the next one is a quoted span. -/
theorem next_span (off : Nat) {q : Char} {body : Text} (hq : isQuote q = true)
    (hb : q ∉ body) (t : Text) :
    Segment.next off q (body ++ [q] ++ t) =
      .ok (.quoted (q :: body ++ [q])) := by
  have hf : Text.throughFirst q (body ++ [q] ++ t) = some (body ++ [q]) :=
    Text.throughFirst_eq_some_iff.2 ⟨body, t, by simp, hb, rfl⟩
  rw [Segment.next, if_pos hq, hf]
  rfl

/-- A quoted span at the start of a text is one segment. -/
theorem segments_span {text t : Text} {segs : List Segment} (h : IsSpan text)
    (ht : segments t = .ok segs) :
    segments (text ++ t) = .ok (.quoted text :: segs) := by
  obtain ⟨q, body, hq, hb, rfl⟩ := h
  exact segments_cons (next_span 0 hq hb t) rfl ht

/-- A comment is opened by two dashes or by a slash and a star. -/
theorem opensComment_iff {c : Char} {a : Option Char} :
    opensComment (some c) a = true ↔
    c = '-' ∧ a = some '-' ∨ c = '/' ∧ a = some '*' := by
  cases a <;> simp [opensComment]

theorem next_plain (off : Nat) {c : Char} {t : Text} (hq : isQuote c = false)
    (hc : opensComment (some c) t.head? = false) :
    Segment.next off c t = .ok (.plain c) := by
  rw [← Bool.not_eq_true, opensComment_iff, not_or] at hc
  rw [Segment.next, if_neg (by simp [hq]), if_neg (by simpa using hc.1),
    if_neg (by simpa using hc.2)]

/-- A character that opens nothing is one segment. -/
theorem segments_plain {c : Char} {t : Text} {segs : List Segment}
    (hq : isQuote c = false) (hc : opensComment (some c) t.head? = false)
    (ht : segments t = .ok segs) : segments (c :: t) = .ok (.plain c :: segs) :=
  segments_cons (x := []) (next_plain 0 hq hc) rfl ht

/-- What the first segment of a text is like. -/
theorem next_cases {off : Nat} {c : Char} {rest : Text} {s : Segment}
    (h : Segment.next off c rest = .ok s) :
    (s = .plain c ∧ isQuote c = false ∧
      opensComment (some c) rest.head? = false) ∨
    (∃ text, s = .comment text) ∨ ∃ text, s = .quoted text ∧ IsSpan text := by
  unfold Segment.next at h
  split at h
  · next hq =>
    split at h
    · next body hb =>
      cases h
      obtain ⟨b, _, -, hnot, rfl⟩ := Text.throughFirst_eq_some_iff.1 hb
      exact .inr (.inr ⟨_, rfl, c, b, hq, hnot, rfl⟩)
    · cases h
  · next hq =>
    split at h
    · cases h
      exact .inr (.inl ⟨_, rfl⟩)
    · next hd =>
      split at h
      · split at h
        · cases h
          exact .inr (.inl ⟨_, rfl⟩)
        · cases h
      · next hs =>
        cases h
        refine .inl ⟨rfl, by simpa using hq, ?_⟩
        rw [← Bool.not_eq_true, opensComment_iff, not_or]
        exact ⟨by simpa using hd, by simpa using hs⟩

/-! ## Masked texts -/

/-- The quoted segments of a text are quoted spans. -/
theorem isSpan_of_segments :
    ∀ {segs : List Segment} {t : Text}, segments t = .ok segs →
      ∀ text ∈ segs.filterMap Segment.literal?, IsSpan text
  | [], _, _, text, h => by cases h
  | s :: segs, t, ht, text, h => by
    obtain ⟨c, x, rest, rfl, -, hs, hrest⟩ := segments_eq_cons ht
    rcases next_cases hs with ⟨rfl, -⟩ | ⟨text', rfl⟩ | ⟨text', rfl, hspan⟩
    · exact isSpan_of_segments hrest text h
    · exact isSpan_of_segments hrest text h
    · rcases List.mem_cons.1 h with rfl | h
      · exact hspan
      · exact isSpan_of_segments hrest text h

/-- A character that a word may hold opens no comment. -/
theorem opensComment_of_isWordChar {d : Char} (h : isWordChar d = true)
    (b : Option Char) : opensComment b (some d) = false := by
  cases b with
  | none => rfl
  | some c =>
    have hdash : d ≠ '-' := by
      rintro rfl
      cases h
    have hstar : d ≠ '*' := by
      rintro rfl
      cases h
    simp [opensComment, hdash, hstar]

theorem isWordChar_of_isQuote {q : Char} (h : isQuote q = true) :
    isWordChar q = false := by
  simp only [isQuote, Bool.or_eq_true, beq_iff_eq] at h
  rcases h with (rfl | rfl) | rfl <;> rfl

/-- No word runs on behind a quoted span. -/
theorem runsOn_span {text : Text} (h : IsSpan text) (a : Option Char) :
    runsOn text.getLast? a = false := by
  obtain ⟨q, body, hq, -, rfl⟩ := h
  rw [List.getLast?_concat]
  exact runsOn_of_left (by simp [offWord, isWordChar_of_isQuote hq]) a

/-- A text of characters of words is inert. -/
theorem inert_of_isWordChar {t : Text} (h : ∀ c ∈ t, isWordChar c = true) :
    inert t = true := by
  refine inert_of_forall fun c hc => ⟨?_, ?_, ?_⟩
  · by_contra hq
    have hword := isWordChar_of_isQuote (by simpa using hq)
    rw [h c hc] at hword
    cases hword
  · rintro rfl
    cases h _ hc
  · rintro rfl
    cases h _ hc

namespace LiteralTable

variable {table : LiteralTable}

/-- A placeholder is a run of characters of words. -/
theorem isWordChar_of_mem_placeholder (table : LiteralTable) (index : Nat) :
    ∀ c ∈ table.placeholder index, isWordChar c = true := by
  intro c hc
  rcases List.mem_append.1 hc with hc | hc
  · rcases List.mem_append.1 hc with hc | hc
    · exact isWordChar_of_mem_tag table c hc
    · exact isWordChar_of_isDigit (isDigit_of_mem_ofNat hc)
  · obtain rfl : c = '_' := by simpa [closing] using hc
    rfl

theorem placeholder_ne_nil (table : LiteralTable) (index : Nat) :
    table.placeholder index ≠ [] := by
  simp [placeholder, tag_ne_nil table]

/-- A masked text is inert. -/
theorem inert_maskFrom :
    ∀ {segs : List Segment} {t : Text} (index : Nat), segments t = .ok segs →
      inert (table.maskFrom index segs) = true
  | [], _, _, _ => rfl
  | s :: segs, t, index, ht => by
    obtain ⟨c, x, rest, rfl, hx, hs, hrest⟩ := segments_eq_cons ht
    rcases next_cases hs with ⟨rfl, hq, hc⟩ | ⟨text', rfl⟩ | ⟨text', rfl, -⟩
    · rw [maskFrom, inert_cons]
      refine ⟨hq, ?_, inert_maskFrom index hrest⟩
      -- what follows is the next character of the text, a space or a
      -- placeholder
      obtain rfl : x = [] := by
        simpa [Segment.source, eq_comm] using hx
      have hsrc := source_of_segments hrest
      cases segs with
      | nil => simp [maskFrom]
      | cons s' segs =>
        cases s' with
        | plain d =>
          rw [← hsrc] at hc
          exact hc
        | comment text => simp [maskFrom, opensComment]
        | quoted text =>
          have hne := placeholder_ne_nil table index
          rw [maskFrom, List.head?_append_of_ne_nil _ hne]
          obtain ⟨d, u, hu⟩ := List.exists_cons_of_ne_nil hne
          have hd :=
            isWordChar_of_mem_placeholder table index d (by rw [hu]; simp)
          rw [hu]
          exact opensComment_of_isWordChar hd _
    · rw [maskFrom, inert_cons]
      exact ⟨rfl, opensComment_of_ne (by decide) (by decide) _,
        inert_maskFrom index hrest⟩
    · rw [maskFrom, inert_append]
      refine ⟨inert_of_isWordChar (isWordChar_of_mem_placeholder table index),
        inert_maskFrom _ hrest, ?_⟩
      have hl : (table.placeholder index).getLast? = some '_' := by
        rw [placeholder, closing, List.getLast?_append_of_ne_nil _ (by simp)]
        rfl
      rw [hl]
      exact opensComment_of_ne (by decide) (by decide) _

/-! ## Restored texts -/

/-- The tag, read again, is a run of single characters. -/
theorem segments_map_plain {w t : Text} {segs : List Segment}
    (hw : ∀ c ∈ w, isWordChar c = true) (ht : segments t = .ok segs) :
    segments (w ++ t) = .ok (w.map .plain ++ segs) := by
  have hin := inert_of_isWordChar hw
  induction w with
  | nil => exact ht
  | cons c w ih =>
    have hc : c ≠ '-' ∧ c ≠ '/' := by
      have := hw c (by simp)
      constructor <;> (rintro rfl; cases this)
    exact segments_plain (inert_cons.1 hin).1 (opensComment_of_ne hc.1 hc.2 _)
      (ih (fun d hd => hw d (by simp [hd])) (inert_cons.1 hin).2.2)

/-- Read again, a restored text has the segments that a scan finds. -/
theorem segments_restore {t : Text} (ht : inert t = true)
    (hl : ∀ text ∈ table.literals, IsSpan text) :
    segments (table.restore t) = .ok (table.scan t) := by
  -- a restored text starts with a quote, or as the text does
  have key := scan_induction table (P := fun t segs => inert t = true →
    segments (segs.flatMap Segment.source) = .ok segs ∧
    ∀ c ∈ (segs.flatMap Segment.source).head?, isQuote c = true ∨
    t.head? = some c) ?_ ?_ ?_ ?_ t ht
  · rw [source_scan] at key
    exact key.1
  · intro _
    exact ⟨rfl, by simp⟩
  · intro c rest segs _ ih h
    obtain ⟨hq, hc, hrest⟩ := inert_cons.1 h
    obtain ⟨hsegs, hhead⟩ := ih hrest
    refine ⟨?_, by simp [Segment.source]⟩
    change segments (c :: segs.flatMap Segment.source) = _
    refine segments_plain hq ?_ hsegs
    cases hh : (segs.flatMap Segment.source).head? with
    | none => rfl
    | some d =>
      rcases hhead d hh with hd | hd
      · simp only [isQuote, Bool.or_eq_true, beq_iff_eq] at hd
        rcases hd with ((rfl | rfl) | rfl) <;> simp [opensComment]
      · rwa [hd] at hc
  · intro rest segs _ ih h
    obtain ⟨hsegs, -⟩ := ih (inert_append.1 h).2.1
    have e : (table.tag.map Segment.plain ++ segs).flatMap Segment.source
        = table.tag ++ segs.flatMap Segment.source := by
      rw [List.flatMap_append, List.flatMap_map]
      simp [Segment.source]
    rw [e]
    refine ⟨segments_map_plain (isWordChar_of_mem_tag table) hsegs,
      fun c hc => .inr ?_⟩
    rw [List.head?_append_of_ne_nil _ (tag_ne_nil table)] at hc ⊢
    exact hc
  · intro digits literal rest segs hi ih h
    obtain ⟨hsegs, -⟩ := ih (inert_append.1 h).2.1
    have hspan := hl literal (List.mem_of_getElem? hi.entry)
    rw [List.flatMap_cons]
    refine ⟨segments_span hspan hsegs, fun c hc => .inl ?_⟩
    obtain ⟨q, body, hq, -, rfl⟩ := hspan
    obtain rfl : q = c := by simpa [Segment.source] using hc
    exact hq

end LiteralTable

end SqlRiver
