import SqlRiver.Proofs.Literal.Preserved

/-!
# Layouts are masked as they were

The quoted spans of a layout stand in the order of the text that was laid out.
So if the tag is the same, each of them gets the placeholder that it had, and
masking a layout gives back the text that was restored.

The order of the placeholders themselves is told by a table whose spans are its
own placeholders: what it finds in a text is the number of each placeholder, and
restoring with it writes the numbers without leading zeros.

Main definitions and statements:

* `LiteralTable.mirror`: the table whose spans are the placeholders.
* `LiteralTable.maskFrom_scan`: placeholders in order come back when the text is
  restored and masked.
* `LiteralTable.Canonical`: a text whose placeholders are written as a table
  writes them.
* `protect_render`: masking a layout.
-/

namespace SqlRiver

namespace LiteralTable

variable {table : LiteralTable} {t u v : Text}

/-! ## Placeholders in order -/

/-- The table whose spans are the placeholders. -/
def mirror (table : LiteralTable) : LiteralTable :=
  ⟨table.marks, (List.range table.literals.length).map table.placeholder⟩

theorem mirror_tag : table.mirror.tag = table.tag := rfl

/-- A table and its mirror mask alike. -/
theorem maskFrom_mirror : ∀ (index : Nat) (segs : List Segment),
    table.mirror.maskFrom index segs = table.maskFrom index segs
  | _, [] => rfl
  | index, .plain c :: segs =>
    by rw [maskFrom, maskFrom, maskFrom_mirror index segs]
  | index, .comment text :: segs =>
    by rw [maskFrom, maskFrom, maskFrom_mirror index segs]
  | index, .quoted text :: segs => by
    rw [maskFrom, maskFrom, maskFrom_mirror (index + 1) segs]
    rfl

/-- The mirror has a placeholder where the table has a span. -/
theorem mirror_getElem? (index : Nat) :
    table.mirror.literals[index]? = table.literals[index]?.map fun _ =>
      table.placeholder index := by
  by_cases h : index < table.literals.length
  · simp [mirror, h]
  · simp [mirror, h]

theorem indexes_mirror {digits literal : Text}
    (h : table.Indexes digits literal) :
    table.mirror.Indexes digits
      (table.placeholder (Text.decimalValue digits)) :=
  ⟨h.ne_nil, h.digit, by rw [mirror_getElem?, h.entry]; rfl⟩

/-- Where the table has no entry behind a tag its mirror has none. -/
theorem entryAfterTag?_mirror (h : table.entryAfterTag? t = none) :
    table.mirror.entryAfterTag? t = none := by
  cases hm : table.mirror.entryAfterTag? t with
  | none => rfl
  | some found =>
    obtain ⟨literal, n⟩ := found
    obtain ⟨digits, rest, rfl, hi, rfl⟩ := entryAfterTag?_eq_some_iff.1 hm
    have hentry := hi.entry
    rw [mirror_getElem?] at hentry
    obtain ⟨literal', hl, -⟩ := Option.map_eq_some_iff.1 hentry
    have hsome := entryAfterTag?_eq_some_iff.2 ⟨digits, rest, rfl,
      ⟨hi.ne_nil, hi.digit, hl⟩, rfl⟩
    rw [h] at hsome
    cases hsome

/-- Placeholders that stand in order, from `index` on, come back when a text is
restored and masked. -/
theorem maskFrom_scan (t : Text) :
    ∀ index, table.mirror.spans t <+: table.mirror.literals.drop index →
      table.maskFrom index (table.scan t) = table.mirror.restore t := by
  refine scan_induction table (P := fun t segs => ∀ index,
    table.mirror.spans t <+: table.mirror.literals.drop index →
      table.maskFrom index segs = table.mirror.restore t) ?_ ?_ ?_ ?_ t
  · intro index _
    rfl
  · intro c rest segs hp ih index h
    have hscan := @scan_cons table.mirror c rest hp
    rw [spans, hscan] at h
    rw [maskFrom, ih index h, ← source_scan, ← source_scan, hscan]
    rfl
  · intro rest segs he ih index h
    have hscan := scan_tag (entryAfterTag?_mirror he)
    rw [mirror_tag] at hscan
    rw [spans, hscan, List.filterMap_append, filterMap_plain, List.nil_append]
      at h
    rw [maskFrom_plain_append, ih index h, ← source_scan, ← source_scan, hscan,
      List.flatMap_append, List.flatMap_map]
    simp [Segment.source]
  · intro digits literal rest segs hi ih index h
    have hscan := scan_entry (indexes_mirror hi) rest
    rw [mirror_tag] at hscan
    rw [spans, hscan] at h
    obtain ⟨hentry, h'⟩ := literal_of_prefix h
    rw [mirror_getElem?] at hentry
    obtain ⟨-, -, hindex⟩ := Option.map_eq_some_iff.1 hentry
    rw [maskFrom, ih (index + 1) h', ← source_scan, ← source_scan, hscan,
      List.flatMap_cons, hindex]
    rfl

/-! ## Masked texts -/

/-- The spans that a masked text shows are those of the table from the index
on. -/
theorem literals_shown :
    ∀ {index : Nat} {segs : List Segment},
      (∀ k < (segs.filterMap Segment.literal?).length,
      index + k < table.literals.length) →
      (table.shown index segs).filterMap Segment.literal? <+:
      table.literals.drop index
  | _, [], _ => List.nil_prefix
  | index, .plain c :: segs, hl => @literals_shown index segs hl
  | index, .comment text :: segs, hl => @literals_shown index segs hl
  | index, .quoted text :: segs, hl => by
    have hlen :
        ((Segment.quoted text :: segs).filterMap Segment.literal?).length =
        (segs.filterMap Segment.literal?).length + 1 := rfl
    have hlt : index < table.literals.length := hl 0 (by omega)
    have ih := @literals_shown (index + 1) segs fun k hk => by
      have := hl (k + 1) (by omega)
      omega
    rw [List.drop_eq_getElem_cons hlt]
    have hget : table.literals.getD index [] = table.literals[index] := by
      rw [List.getD_eq_getElem?_getD, List.getElem?_eq_getElem hlt]
      rfl
    rw [← hget]
    exact List.cons_prefix_cons.2 ⟨rfl, ih⟩

/-- The mirror shows the masked text itself. -/
theorem source_shown_mirror :
    ∀ {index : Nat} {segs : List Segment},
      (∀ k < (segs.filterMap Segment.literal?).length,
      index + k < table.literals.length) →
      (table.mirror.shown index segs).flatMap Segment.source =
      table.maskFrom index segs
  | _, [], _ => rfl
  | index, .plain c :: segs, hl => by
    have ih := @source_shown_mirror index segs hl
    rw [shown, maskFrom, List.flatMap_cons, ih]
    rfl
  | index, .comment text :: segs, hl => by
    have ih := @source_shown_mirror index segs hl
    rw [shown, maskFrom, List.flatMap_cons, ih]
    rfl
  | index, .quoted text :: segs, hl => by
    have hlen :
        ((Segment.quoted text :: segs).filterMap Segment.literal?).length =
        (segs.filterMap Segment.literal?).length + 1 := rfl
    have hlt : index < table.literals.length := hl 0 (by omega)
    have ih := @source_shown_mirror (index + 1) segs fun k hk => by
      have := hl (k + 1) (by omega)
      omega
    rw [shown, maskFrom, List.flatMap_cons, ih, List.getD_eq_getElem?_getD,
      mirror_getElem?, List.getElem?_eq_getElem hlt]
    rfl

/-- The placeholders of a masked text stand in order, and are written as the
table writes them. -/
theorem mirror_maskFrom {segs : List Segment} (hu : Unglued segs)
    (ht : ¬ table.tag <:+: segs.flatMap Segment.source)
    (hl : segs.filterMap Segment.literal? = table.literals) :
    table.mirror.spans (table.maskFrom 0 segs) <+: table.mirror.literals ∧
      table.mirror.restore (table.maskFrom 0 segs) = table.maskFrom 0 segs := by
  have hbound : ∀ k < (segs.filterMap Segment.literal?).length,
      0 + k < table.literals.length := by
    intro k hk
    rw [hl] at hk
    omega
  have hlength : table.mirror.literals.length = table.literals.length := by
    simp [mirror]
  have hscan : table.mirror.scan (table.maskFrom 0 segs) =
      table.mirror.shown 0 segs := by
    rw [← maskFrom_mirror]
    exact scan_shown (fun _ => hu) ht (hlength ▸ hbound)
  constructor
  · rw [spans, hscan]
    exact @literals_shown table.mirror 0 segs (hlength ▸ hbound)
  · rw [← source_scan, hscan, source_shown_mirror hbound]

/-! ## Canonical placeholders -/

/-- Digits write a number below the power of their count. -/
theorem decimalValue_lt {digits : Text} (h : ∀ c ∈ digits, c.isDigit = true) :
    Text.decimalValue digits < Nat.pow 10 digits.length := by
  have key : ∀ (ds : Text) (n : Nat), (∀ c ∈ ds, c.isDigit = true) →
      ds.foldl (fun n c => 10 * n + (c.toNat - '0'.toNat)) n <
      (n + 1) * 10 ^ ds.length := by
    intro ds
    induction ds with
    | nil => simp
    | cons c ds ih =>
      intro n hd
      have hdigit : c.toNat - '0'.toNat ≤ 9 := by
        have := hd c (by simp)
        simp only [Char.isDigit, Bool.and_eq_true, decide_eq_true_eq] at this
        have h57 : c.toNat ≤ 57 := this.2
        have h48 : '0'.toNat = 48 := rfl
        omega
      calc
        ds.foldl (fun n c => 10 * n + (c.toNat - '0'.toNat))
            (10 * n + (c.toNat - '0'.toNat)) <
            (10 * n + (c.toNat - '0'.toNat) + 1) * 10 ^ ds.length :=
          ih _ fun d hm => hd d (by simp [hm])
        _ ≤ ((n + 1) * 10) * 10 ^ ds.length := Nat.mul_le_mul_right _ (by omega)
        _ = (n + 1) * 10 ^ (ds.length + 1) := by
          rw [Nat.pow_succ', Nat.mul_assoc]
  have := key digits 0 h
  rwa [Nat.zero_add, Nat.one_mul] at this

/-- Each placeholder of the text is written as the table writes it, without
leading zeros. -/
def Canonical (table : LiteralTable) (t : Text) : Prop :=
  table.mirror.restore t = t

/-- A placeholder has no more digits than its index may be written with. -/
theorem length_restore_mirror (t : Text) :
    (table.mirror.restore t).length ≤ t.length := by
  rw [← source_scan]
  refine scan_induction table.mirror (P :=
    fun t segs => (segs.flatMap Segment.source).length ≤ t.length) ?_ ?_ ?_ ?_ t
  · simp
  · intro c rest segs _ ih
    simpa [Segment.source] using ih
  · intro rest segs _ ih
    rw [List.flatMap_append, List.flatMap_map]
    simpa [Segment.source] using ih
  · intro digits literal rest segs hi ih
    have hentry := hi.entry
    rw [mirror_getElem?] at hentry
    obtain ⟨-, -, rfl⟩ := Option.map_eq_some_iff.1 hentry
    have hdigits :
        (Text.ofNat (Text.decimalValue digits)).length ≤ digits.length :=
      (Nat.length_toDigits_le_iff (by decide)
        (List.length_pos_iff.2 hi.ne_nil)).2 (decimalValue_lt hi.digit)
    simp only [List.flatMap_cons, Segment.source, placeholder,
      List.length_append, mirror_tag]
    omega

/-- If the mirror restores a text before another to itself, and what is behind
is no longer, the text is canonical. -/
theorem canonical_of_append {w w' : Text} (hlen : w'.length ≤ w.length)
    (h : table.mirror.restore u ++ w' = u ++ w) :
    table.Canonical u ∧ w' = w := by
  have hu : (table.mirror.restore u).length ≤ u.length :=
    length_restore_mirror u
  have hlen' := congrArg List.length h
  simp only [List.length_append] at hlen'
  exact List.append_inj h (by omega)

/-- Whether a text is canonical depends on its words. -/
theorem wordWise_canonical (table : LiteralTable) :
    WordWise table.Canonical where
  bare t ht := restore_of_not_mem ht
  cut {c} hc u v := by
    rw [Canonical, restore_append_cons hc]
    constructor
    · intro h
      obtain ⟨hu, hv⟩ :=
        canonical_of_append (by simpa using length_restore_mirror v) h
      exact ⟨hu, (List.cons.inj hv).2⟩
    · rintro ⟨hu, hv⟩
      rw [hu, hv]
  of_append {u v} hr h := by
    rw [Canonical, restore_append hr] at h
    exact canonical_of_append (length_restore_mirror v) h

/-! ## Layouts -/

theorem glue_infix_tag : glue <:+: tagOf 0 := ⟨[], ['_'], rfl⟩

end LiteralTable

/-- A text in which no tag can begin is unglued. -/
theorem Unglued.of_not_infix {t : Text} {segs : List Segment}
    (h : segments t = .ok segs) (hg : ¬ LiteralTable.glue <:+: t) :
    Unglued segs := by
  rintro a text b rfl hs
  refine hg (hs.isInfix.trans ?_)
  rw [← source_of_segments h, List.flatMap_append]
  exact (List.prefix_append _ _).isInfix

/-- A text without the letters of a tag: masking its layout gives the chunks of
the query again, with the placeholders that they had. -/
theorem protect_render (o : Options) {t masked : Text} {table : LiteralTable}
    {q : Query}
    (hg : ¬ LiteralTable.glue <:+: t) (hp : protect t = .ok (masked, table))
    (hq : readMasked table masked = .ok q) :
    ∃ x, Woven (q.chunks o) x ∧ render o q.restoreColumns = table.restore x ∧
      protect (render o q.restoreColumns) = .ok (x, table) := by
  obtain ⟨segs, hsegs, htable, hmasked⟩ := protect_eq_ok_iff.1 hp
  have hliterals : segs.filterMap Segment.literal? = table.literals := by
    rw [htable]
    rfl
  have hmarks : table.marks = 0 := by
    rw [htable]
    exact LiteralTable.unusedMarks_eq_zero fun h =>
      hg (LiteralTable.glue_infix_tag.trans h)
  have htag : ¬ table.tag <:+: segs.flatMap Segment.source := by
    rw [source_of_segments hsegs, htable]
    exact LiteralTable.not_infix_unusedMarks t
  have hunglued := Unglued.of_not_infix hsegs hg
  have hlaid := laid_readMasked hq
  have hsettled : table.Settled masked := by
    rw [hmasked]
    exact LiteralTable.settled_maskFrom hunglued htag
      (hliterals ▸ List.prefix_rfl)
  obtain ⟨horder, hcanonical⟩ :=
    LiteralTable.mirror_maskFrom hunglued htag hliterals
  rw [← hmasked] at horder hcanonical
  have htokens := hsettled.normalize.of_laid hlaid
  obtain ⟨hfilled, hunder⟩ := shape_readMasked hq
  obtain ⟨x, hw, hrender⟩ := render_restoreColumns o hfilled hunder htokens
  refine ⟨x, hw, hrender, ?_⟩
  obtain ⟨gs, hlen, hgs, rfl⟩ := hw
  -- what the words of the masked text are, the chunks are, and so is the text
  -- that is woven of them
  have hkeep : ∀ {P : Text → Prop}, WordWise P → P masked →
      P (weave gs (q.chunks o)) :=
    fun hP h =>
    hP.weave hgs hlen (hP.chunks o (hP.of_laid hlaid (hP.normalize h)))
  have hspans : ∀ table' : LiteralTable,
      table'.spans (weave gs (q.chunks o)) = table'.spans masked := by
    intro table'
    rw [LiteralTable.spans_weave hgs hlen,
      (LiteralTable.collects_spans table').flatMap_chunks,
      ← LiteralTable.spans_of_laid hlaid, LiteralTable.spans_normalize]
  have hread : segments (render o q.restoreColumns) =
      .ok (table.scan (weave gs (q.chunks o))) := by
    rw [hrender]
    refine LiteralTable.segments_restore (inert_weave hgs ?_) ?_
    · have hinert : inert masked = true := by
        rw [hmasked]
        exact LiteralTable.inert_maskFrom 0 hsegs
      exact inert_chunks o fun k hk =>
        inert_of_infix (inert_normalize hinert) (hlaid.isInfix k hk)
    · rw [← hliterals]
      exact isSpan_of_segments hsegs
  have hsame : table = .ofSegments (render o q.restoreColumns)
      (table.scan (weave gs (q.chunks o))) := by
    have hmarks' :
        LiteralTable.unusedMarks (render o q.restoreColumns) = 0 := by
      refine LiteralTable.unusedMarks_eq_zero ?_
      rw [hrender, ← hmarks]
      exact hkeep table.wordWise_settled hsettled
    have hliterals' : table.spans (weave gs (q.chunks o)) = table.literals := by
      rw [hspans, LiteralTable.spans, hmasked,
        LiteralTable.scan_maskFrom hunglued htag (hliterals ▸ List.prefix_rfl),
        filterMap_visible, hliterals]
    rw [LiteralTable.spans] at hliterals'
    rw [LiteralTable.ofSegments, hmarks', hliterals', ← hmarks]
  refine protect_eq_ok_iff.2 ⟨_, hread, hsame, ?_⟩
  rw [LiteralTable.maskFrom_scan _ 0 ?_]
  · exact (hkeep table.wordWise_canonical hcanonical).symm
  · rw [hspans, List.drop_zero]
    exact horder

end SqlRiver
