import Mathlib.Order.Bounds.Basic
import SqlRiver.Proofs.Literal.Scan

/-!
# Masking and scanning

The tag of a table does not occur in the text that the table was made for. So
scanning the masked text gives the segments of the text again, with a space for
each comment, as long as no placeholder is glued to a text in front of it in
such a way that both together spell a tag. A tag overlaps itself in at most one
character, so there is only one such text: the tag without marks, less its last
character.

Main definitions and statements:

* `LiteralTable.isLeast_unusedMarks`: the tag of a table is the first unused
  one.
* `LiteralTable.unusedMarks_congr`: the tag depends on the tags that occur.
* `LiteralTable.eq_glue_of_border`: how a tag overlaps itself.
* `Unglued`: no quoted span follows a text that spells a tag together with a
  placeholder.
* `LiteralTable.scan_shown`: a masked text is scanned as it was masked.
* `LiteralTable.scan_maskFrom`: scanning undoes masking.
-/

namespace SqlRiver

/-! ## Unused tags -/

/-- The search for a text decides whether it is an infix. -/
theorem Text.occursIn_iff {needle : Text} : ∀ {t : Text},
    Text.occursIn needle t = true ↔ needle <:+: t
  | [] => by simp [Text.occursIn]
  | c :: t => by
    rw [Text.occursIn, Bool.or_eq_true, List.isPrefixOf_iff_prefix,
      Text.occursIn_iff, List.infix_cons_iff]

namespace LiteralTable

/-- A tag is longer than the number of its marks. -/
theorem length_tagOf (marks : Nat) : marks < (tagOf marks).length := by
  simp [tagOf]

/-- The marks of a table are the fewest whose tag does not occur in the text. -/
theorem isLeast_unusedMarks (t : Text) :
    IsLeast {marks | ¬ tagOf marks <:+: t} (unusedMarks t) := by
  have hfree : ∀ marks, (!Text.occursIn (tagOf marks) t) = true ↔
      ¬ tagOf marks <:+: t := by
    intro marks
    rw [← Text.occursIn_iff, Bool.not_eq_true', Bool.not_eq_true]
  unfold unusedMarks
  cases h : (List.range (t.length + 1)).find? fun marks =>
    !Text.occursIn (tagOf marks) t with
  | some marks =>
    obtain ⟨hunused, -, hfewer⟩ := List.find?_range_eq_some.1 h
    refine ⟨(hfree marks).1 hunused, fun fewer hunused' => ?_⟩
    by_contra hlt
    have htaken := hfewer fewer (not_le.1 hlt)
    rw [(hfree fewer).2 hunused'] at htaken
    cases htaken
  | none =>
    -- a tag that is longer than the text does not occur in it
    have htaken :=
      List.find?_eq_none.1 h t.length (List.mem_range.2 (Nat.lt_succ_self _))
    rw [hfree, not_not] at htaken
    have := htaken.length_le
    have := length_tagOf t.length
    omega

/-- The tag of a table does not occur in the text that the table was made
for. -/
theorem not_infix_unusedMarks (t : Text) : ¬ tagOf (unusedMarks t) <:+: t :=
  (isLeast_unusedMarks t).1

/-- Every tag that the search passes over occurs in the text. -/
theorem infix_of_lt_unusedMarks {t : Text} {marks : Nat}
    (h : marks < unusedMarks t) : tagOf marks <:+: t := by
  by_contra hunused
  exact absurd ((isLeast_unusedMarks t).2 hunused) (not_le.2 h)

/-- Two texts in which the same tags occur have the same tag. -/
theorem unusedMarks_congr {t u : Text} (h : ∀ marks, tagOf marks <:+: t ↔
    tagOf marks <:+: u) : unusedMarks t = unusedMarks u := by
  have hleast := isLeast_unusedMarks t
  simp only [h] at hleast
  exact hleast.unique (isLeast_unusedMarks u)

theorem unusedMarks_eq_zero {t : Text} (h : ¬ tagOf 0 <:+: t) :
    unusedMarks t = 0 :=
  Nat.le_zero.1 ((isLeast_unusedMarks t).2 h)

/-! ## Overlaps of a tag with itself -/

/-- The tag without marks, less its last character. -/
def glue : Text := "__sqlfmt_lit".toList

/-- A tag overlaps itself in its last character only, and only where it has no
marks. -/
theorem eq_glue_of_border {marks : Nat} {p z y : Text}
    (hp : tagOf marks = p ++ z)
    (hz : tagOf marks = z ++ y) (hp₀ : p ≠ []) (hz₀ : z ≠ []) : p = glue := by
  cases marks with
  | zero =>
    have hstem : ∀ k < 13, 0 < k →
        "__sqlfmt_lit_".toList.drop k <+: "__sqlfmt_lit_".toList →
        "__sqlfmt_lit_".toList.take k = glue := by decide
    have e : "__sqlfmt_lit_".toList = p ++ z := hp
    have hlen : 13 = p.length + z.length := by
      have := congrArg List.length e
      rwa [List.length_append] at this
    have h := hstem p.length (by have := List.length_pos_iff.2 hz₀; omega)
      (List.length_pos_iff.2 hp₀)
    rw [e, List.drop_left, List.take_left] at h
    exact h ⟨y, by rw [← e]; exact hz.symm⟩
  | succ marks =>
    -- all marks stand at the start of the tag, and the overlap would hold them
    -- all
    have hcount : (tagOf (marks + 1)).count 'x' = marks + 1 := by
      rw [tagOf, List.count_append, List.count_replicate_self]
      rfl
    have hstart : p.count 'x' ≠ 0 := by
      obtain ⟨c, p, rfl⟩ := List.exists_cons_of_ne_nil hp₀
      have : c = 'x' := by
        rw [tagOf, List.replicate_succ] at hp
        exact (List.cons.inj hp).1.symm
      simp [this]
    have hlast : '_' ∈ z := by
      have hl : (tagOf (marks + 1)).getLast? = some '_' :=
        getLast?_tag ⟨marks + 1, []⟩
      rw [hp, List.getLast?_append_of_ne_nil _ hz₀] at hl
      exact List.mem_of_getLast? hl
    have hmarks : z.count 'x' = marks + 1 := by
      rw [tagOf] at hz
      rcases List.append_eq_append_iff.1 hz with ⟨w, rfl, hw⟩ | ⟨w, hw, -⟩
      · rw [List.count_append, List.count_replicate_self]
        have hno : w.count 'x' ≤ ("__sqlfmt_lit_".toList).count 'x' := by
          rw [hw, List.count_append]
          exact Nat.le_add_right _ _
        have : ("__sqlfmt_lit_".toList).count 'x' = 0 := rfl
        omega
      · have : '_' ∈ List.replicate (marks + 1) 'x' := by
          rw [hw]
          simp [hlast]
        cases List.eq_of_mem_replicate this
    have := congrArg (List.count 'x') hp
    rw [hcount, List.count_append, hmarks] at this
    omega

end LiteralTable

/-! ## Scanning a masked text -/

/-- No quoted span directly follows a text that spells a tag together with the
start of a placeholder. -/
def Unglued (segs : List Segment) : Prop :=
  ∀ a text b, segs = a ++ .quoted text :: b →
    ¬ LiteralTable.glue <:+ a.flatMap Segment.source

/-- A text is unglued if what stands before each of its quoted spans does not
end like a tag without its last character. -/
theorem unglued_iff {segs : List Segment} :
    Unglued segs ↔ ∀ i : Fin segs.length, (segs.get i).literal?.isSome = true →
      ¬ LiteralTable.glue <:+ (segs.take i).flatMap Segment.source := by
  constructor
  · intro h i hi
    obtain ⟨text, ht⟩ := Option.isSome_iff_exists.1 hi
    refine h (segs.take i) text (segs.drop (i + 1)) ?_
    have hget : segs.get i = .quoted text := by
      cases hs : segs.get i with
      | quoted text' =>
        rw [hs] at ht
        cases ht
        rfl
      | _ =>
        rw [hs] at ht
        cases ht
    rw [← hget, List.get_eq_getElem, ← List.drop_eq_getElem_cons i.isLt,
      List.take_append_drop]
  · rintro h a text b rfl
    have := h ⟨a.length, by simp⟩
    simpa [Segment.literal?] using this

instance (segs : List Segment) : Decidable (Unglued segs) :=
  decidable_of_iff _ unglued_iff.symm

theorem Unglued.tail {s : Segment} {segs : List Segment}
    (h : Unglued (s :: segs)) : Unglued segs := by
  rintro a text b rfl hs
  refine h (s :: a) text b rfl (hs.trans ?_)
  rw [List.flatMap_cons]
  exact List.suffix_append _ _

/-- A segment as it is found again: a comment is a space. -/
def Segment.visible : Segment → Segment
  | .comment _ => .plain ' '
  | s => s

namespace LiteralTable

variable {table : LiteralTable}

/-- A word at the start of a masked text is at the start of the text, or it ends
in a placeholder. -/
theorem prefix_maskFrom {w : Text} (hw : ' ' ∉ w) :
    ∀ {index : Nat} {segs : List Segment}, w <+: table.maskFrom index segs →
      w <+: segs.flatMap Segment.source ∨
      ∃ a text b p z rest, segs = a ++ .quoted text :: b ∧
      p = a.flatMap Segment.source ∧ w = p ++ z ∧
      z ≠ [] ∧ z <+: table.tag ++ rest := by
  induction w with
  | nil =>
    intro index segs _
    exact .inl (by simp)
  | cons c w ih =>
    intro index segs h
    cases segs with
    | nil =>
      obtain ⟨z, hz⟩ := h
      cases hz
    | cons s segs =>
      cases s with
      | plain d =>
        obtain ⟨rfl, hrest⟩ := List.cons_prefix_cons.1 h
        rcases ih (fun hm => hw (by simp [hm])) hrest with
          h | ⟨a, text, b, p, z, rest, rfl, rfl, rfl, hz, h⟩
        · exact .inl (by simpa [Segment.source] using h)
        · exact .inr ⟨.plain c :: a, text, b, _, z, rest, rfl, rfl,
            by simp [Segment.source], hz, h⟩
      | comment d =>
        obtain ⟨rfl, -⟩ := List.cons_prefix_cons.1 h
        simp at hw
      | quoted text =>
        rw [maskFrom, placeholder, List.append_assoc, List.append_assoc] at h
        exact .inr ⟨[], text, segs, [], c :: w, _, rfl, rfl, rfl, by simp, h⟩

/-- Plain characters before a text are masked as they stand. -/
theorem maskFrom_plain_append (index : Nat) (w : Text) (segs : List Segment) :
    table.maskFrom index (w.map .plain ++ segs) =
      w ++ table.maskFrom index segs := by
  induction w with
  | nil => rfl
  | cons c w ih =>
    rw [List.map_cons, List.cons_append, maskFrom, ih]
    rfl

theorem space_not_mem_tag : ' ' ∉ table.tag := fun h => by
  have := isWordChar_of_mem_tag table _ h
  cases this

theorem indexes_ofNat {i : Nat} {literal : Text}
    (h : table.literals[i]? = some literal) :
    table.Indexes (Text.ofNat i) literal where
  ne_nil := Nat.toDigits_ne_nil
  digit _ := isDigit_of_mem_ofNat
  entry := by rw [decimalValue_ofNat]; exact h

/-- The quoted span of the next placeholder, and those behind it. -/
theorem literal_of_prefix {index : Nat} {text : Text} {segs : List Segment}
    (h : (Segment.quoted text :: segs).filterMap Segment.literal? <+:
    table.literals.drop index) :
    table.literals[index]? = some text ∧
    segs.filterMap Segment.literal? <+: table.literals.drop (index + 1) := by
  obtain ⟨rest, hr⟩ := h
  have hd : table.literals.drop index =
      text :: (segs.filterMap Segment.literal? ++ rest) := by
    rw [← hr]
    rfl
  constructor
  · rw [← List.head?_drop, hd]
    rfl
  · rw [← List.drop_drop, hd]
    exact List.prefix_append _ _

/-- A tag at the start of a masked text that the text does not hold runs into a
placeholder. -/
theorem glue_of_tag_prefix {index : Nat} {segs : List Segment} {c : Char}
    (ht : ¬ table.tag <:+: (Segment.plain c :: segs).flatMap Segment.source)
    (hp : table.tag <+: table.maskFrom index (.plain c :: segs)) :
    table.marks = 0 ∧ ∃ a text b, .plain c :: segs = a ++ .quoted text :: b ∧
      a.flatMap Segment.source = glue := by
  rcases prefix_maskFrom space_not_mem_tag hp with
    hp | ⟨a, text, b, p, z, rest, e, rfl, e', hz₀, hz⟩
  · exact absurd hp.isInfix ht
  · have hp₀ : a.flatMap Segment.source ≠ [] := by
      cases a with
      | nil => cases e
      | cons s a =>
        obtain ⟨rfl, -⟩ := List.cons.inj e
        simp [Segment.source]
    have hz' : z <+: table.tag := by
      refine List.prefix_of_prefix_length_le hz (List.prefix_append _ _) ?_
      rw [e', List.length_append]
      omega
    obtain ⟨y, hy⟩ := hz'
    have hglue := eq_glue_of_border e' hy.symm hp₀ hz₀
    refine ⟨?_, a, text, b, e, hglue⟩
    -- a tag with marks does not start with an underscore
    by_contra hm
    obtain ⟨n, hn⟩ := Nat.exists_eq_succ_of_ne_zero hm
    rw [hglue, tag, hn, tagOf, List.replicate_succ] at e'
    cases (List.cons.inj e').1

/-- What the segments of a text are for the table: the quoted spans, from
`index` on, are those of the table, and the comments are spaces. -/
def shown (table : LiteralTable) : Nat → List Segment → List Segment
  | _, [] => []
  | index, .plain c :: more => .plain c :: shown table index more
  | index, .comment _ :: more => .plain ' ' :: shown table index more
  | index, .quoted _ :: more =>
    .quoted (table.literals.getD index []) :: shown table (index + 1) more

/-- A masked text is scanned as it was masked, unless a tag without marks runs
into a placeholder. -/
theorem scan_shown :
    ∀ {index : Nat} {segs : List Segment}, (table.marks = 0 → Unglued segs) →
      ¬ table.tag <:+: segs.flatMap Segment.source →
      (∀ k < (segs.filterMap Segment.literal?).length,
      index + k < table.literals.length) →
      table.scan (table.maskFrom index segs) = table.shown index segs
  | _, [], _, _, _ => rfl
  | index, .plain c :: segs, hu, ht, hl => by
    have hp : ¬ table.tag <+: table.maskFrom index (.plain c :: segs) := by
      intro hp
      obtain ⟨hm, a, text, b, e, hglue⟩ := glue_of_tag_prefix ht hp
      exact hu hm a text b e (hglue ▸ List.suffix_refl _)
    rw [maskFrom] at hp ⊢
    rw [scan_cons hp,
      scan_shown (fun hm => (hu hm).tail) (fun h => ht (h.trans ?_)) hl]
    · rfl
    · rw [List.flatMap_cons]
      exact (List.suffix_append _ _).isInfix
  | index, .comment text :: segs, hu, ht, hl => by
    have h : table.scan _ = _ :=
      scan_append_cons (c := ' ') rfl [] (table.maskFrom index segs)
    rw [List.nil_append] at h
    rw [maskFrom, h,
      scan_shown (fun hm => (hu hm).tail) (fun h => ht (h.trans ?_)) hl]
    · rfl
    · rw [List.flatMap_cons]
      exact (List.suffix_append _ _).isInfix
  | index, .quoted text :: segs, hu, ht, hl => by
    have hlen :
        ((Segment.quoted text :: segs).filterMap Segment.literal?).length =
        (segs.filterMap Segment.literal?).length + 1 := rfl
    have hl' : ∀ k < (segs.filterMap Segment.literal?).length,
        index + 1 + k < table.literals.length := by
      intro k hk
      have := hl (k + 1) (by omega)
      omega
    have hlt : index < table.literals.length := hl 0 (by omega)
    have hi : table.literals[index]? = some (table.literals.getD index []) := by
      rw [List.getD_eq_getElem?_getD, List.getElem?_eq_getElem hlt]
      rfl
    rw [maskFrom, placeholder, scan_entry (indexes_ofNat hi),
      scan_shown (fun hm => (hu hm).tail) (fun h => ht (h.trans ?_)) hl']
    · rfl
    · rw [List.flatMap_cons]
      exact (List.suffix_append _ _).isInfix

/-- The table of a text shows the quoted spans of the text. -/
theorem shown_eq_visible : ∀ {index : Nat} {segs : List Segment},
    segs.filterMap Segment.literal? <+: table.literals.drop index →
      table.shown index segs = segs.map Segment.visible
  | _, [], _ => rfl
  | index, .plain c :: segs, hl => by
    have ih : table.shown index segs = segs.map Segment.visible :=
      shown_eq_visible hl
    rw [shown, ih]
    rfl
  | index, .comment text :: segs, hl => by
    have ih : table.shown index segs = segs.map Segment.visible :=
      shown_eq_visible hl
    rw [shown, ih]
    rfl
  | index, .quoted text :: segs, hl => by
    obtain ⟨hi, hl'⟩ := literal_of_prefix hl
    have ih := shown_eq_visible hl'
    rw [shown, ih, List.getD_eq_getElem?_getD, hi]
    rfl

/-- Scanning undoes masking, unless a tag without marks runs into a
placeholder. -/
theorem scan_masked {index : Nat} {segs : List Segment}
    (hu : table.marks = 0 → Unglued segs)
    (ht : ¬ table.tag <:+: segs.flatMap Segment.source)
    (hl : segs.filterMap Segment.literal? <+: table.literals.drop index) :
    table.scan (table.maskFrom index segs) = segs.map Segment.visible := by
  have hlen := hl.length_le
  rw [List.length_drop] at hlen
  rw [scan_shown hu ht (fun k hk => by omega), shown_eq_visible hl]

/-- Scanning undoes masking. -/
theorem scan_maskFrom {index : Nat} {segs : List Segment} (hu : Unglued segs)
    (ht : ¬ table.tag <:+: segs.flatMap Segment.source)
    (hl : segs.filterMap Segment.literal? <+: table.literals.drop index) :
    table.scan (table.maskFrom index segs) = segs.map Segment.visible :=
  scan_masked (fun _ => hu) ht hl

end LiteralTable

end SqlRiver
