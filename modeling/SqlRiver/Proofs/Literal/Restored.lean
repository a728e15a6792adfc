import SqlRiver.Proofs.Literal.Spans

/-!
# Texts restored twice

The select lists of a query are restored when the query is read, and once more
with all else when it is laid out. The second time finds nothing to restore,
since no tag occurs in a restored text: it would occur in the text that the
table was made for.

Main definitions and statements:

* `WordWise`: properties of texts that depend on the words in them, and how they
  are kept.
* `LiteralTable.Settled`: no tag occurs in a text once it is restored.
* `LiteralTable.restore_restore`: such a text is restored once and for all.
* `LiteralTable.settled_maskFrom`, `Settled.normalize`, `Settled.of_laid`: a
  masked text is settled, and so are its normal form and the tokens of that.
-/

namespace SqlRiver

/-- A text without the character in the middle is on one side of it. -/
theorem infix_append_cons {w a b : Text} {c : Char} (hc : c ∉ w) :
    w <:+: a ++ c :: b ↔ w <:+: a ∨ w <:+: b := by
  constructor
  · intro h
    rcases List.infix_append_iff.1 h with h | h | ⟨x, y, rfl, hx, hy⟩
    · exact .inl h
    · rcases List.infix_cons_iff.1 h with h | h
      · cases w with
        | nil => exact .inl (List.nil_infix)
        | cons d w => exact absurd (by simp [(List.cons_prefix_cons.1 h).1]) hc
      · exact .inr h
    · cases y with
      | nil =>
        rw [List.append_nil]
        exact .inl hx.isInfix
      | cons d y => exact absurd (by simp [(List.cons_prefix_cons.1 hy).1]) hc
  · rintro (h | h)
    · exact List.infix_append_of_infix_left h
    · exact List.infix_append_of_infix_right
        (h.trans (List.suffix_cons c b).isInfix)

/-! ## Properties of words -/

/-- A property of texts that depends on the words in them: no text without an
underscore lacks it, a text has it if both of its parts beside a character
outside of words have it, and it is left in both parts of a text where no word
runs on. -/
structure WordWise (P : Text → Prop) : Prop where
  bare : ∀ t, '_' ∉ t → P t
  cut : ∀ {c : Char}, isWordChar c = false → ∀ u v, P (u ++ c :: v) ↔ P u ∧ P v
  of_append : ∀ {u v : Text}, runsOn u.getLast? v.head? = false → P (u ++ v) →
    P u ∧ P v

namespace WordWise

variable {P : Text → Prop} (hP : WordWise P) {t : Text}
include hP

theorem words (t : Text) : P t ↔ ∀ w ∈ t.words, P w :=
  Text.forall_words (hP.bare [] (by simp))
    (fun u _ v hc => hP.cut (isWordChar_of_isBlank hc) u v) t

/-- A property of words outlives normalization. -/
theorem normalize (h : P t) : P t.normalize := by
  have hcollapse : P t.collapse := by
    rwa [hP.words, Text.words_collapse, ← hP.words]
  rcases Text.normalize_cases t with e | ⟨r, hr, e⟩
  · rwa [e]
  · rw [e, List.append_assoc] at hcollapse
    refine (hP.of_append (runsOn_of_right ?_ _) hcollapse).1
    cases r with
    | nil => rfl
    | cons c r => exact (offWord_of_blank hr).2

/-- A property of words passes from a text to the tokens that are laid in it. -/
theorem of_laid {b a : Option Char} {ks : List Token} (h : Laid b ks t a)
    (ht : P t) : ∀ k ∈ ks, P k.text := by
  induction h with
  | nil => simp
  | @token b a k ks t _ _ hr _ ih =>
    have hr' : runsOn k.text.getLast? t.head? = false := by
      cases t with
      | nil => exact runsOn_of_right rfl _
      | cons c t => exact hr
    obtain ⟨hk, ht⟩ := hP.of_append hr' ht
    exact List.forall_mem_cons.2 ⟨hk, ih ht⟩
  | @space b a ks t _ ih => exact ih ((hP.cut rfl [] t).1 ht).2
  | @comma b a ks t _ ih => exact ih ((hP.cut rfl [] t).1 ht).2
  | @word b a ks m t hm _ hr _ ih =>
    refine ih (hP.of_append (runsOn_of_right ?_ _) ht).2
    cases t with
    | nil => rfl
    | cons c t => exact offWord_of_atEdge hr

/-- A property of words holds of the chunks of a query if it holds of its
tokens. -/
theorem chunks (o : Options) {q : Query} (hq : ∀ k ∈ q.tokens, P k.text) :
    ∀ k ∈ q.chunks o, P k := by
  classical
  have hnil : P [] := hP.bare [] (by simp)
  have hbehind : ∀ (c : Char) (t : Text), isWordChar c = false →
      (P (t ++ [c]) ↔ P t) :=
    fun c t hc => by
    rw [hP.cut hc t []]
    exact and_iff_left hnil
  have hbefore : ∀ (c : Char) (t : Text), isWordChar c = false →
      (P ([c] ++ t) ↔ P t) :=
    fun c t hc =>
    (hP.cut hc [] t).trans (and_iff_right hnil)
  have key := forall_chunks (p := fun t => decide (P t)) (fun t ht => ?_)
    (fun t => ?_) (fun t => ?_) (fun t => ?_) o q (by simpa using hq)
  · simpa using key
  · exact decide_eq_true (hP.bare t (ht.not_mem rfl (by decide)))
  · simp only [hbehind ',' t rfl]
  · simp only [hbefore '(' t rfl]
  · simp only [hbehind ')' t rfl]

theorem weave {gs ks : List Text} (hg : Gaps gs) (hlen : gs.length = ks.length)
    (h : ∀ k ∈ ks, P k) : P (SqlRiver.weave gs ks) := by
  rw [hP.words, words_weave hg hlen]
  intro w hw
  obtain ⟨k, hk, hw⟩ := List.mem_flatMap.1 hw
  exact (hP.words k).1 (h k hk) w hw

end WordWise

/-! ## Comments as spaces -/

/-- A text without spaces that starts what is visible starts the text itself. -/
theorem prefix_visible :
    ∀ {segs : List Segment} {w : Text}, ' ' ∉ w →
      w <+: (segs.map Segment.visible).flatMap Segment.source →
      w <+: segs.flatMap Segment.source
  | [], _, _, h => h
  | s :: segs, w, hw, h => by
    have key : ∀ x : Text,
        w <+: x ++ (segs.map Segment.visible).flatMap Segment.source →
        w <+: x ++ segs.flatMap Segment.source := by
      rintro x ⟨z, hz⟩
      rcases List.append_eq_append_iff.1 hz with ⟨y, rfl, -⟩ | ⟨y, rfl, e⟩
      · exact (List.prefix_append w y).trans (List.prefix_append _ _)
      · have hy := fun hm => hw (List.mem_append_right _ hm)
        exact (List.prefix_append_right_inj x).2
          (prefix_visible hy ⟨z, e.symm⟩)
    cases s with
    | plain c => exact key _ h
    | quoted text => exact key _ h
    | comment text =>
      cases w with
      | nil => exact List.nil_prefix
      | cons c w => exact absurd (by simp [(List.cons_prefix_cons.1 h).1]) hw

/-- What occurs in a text whose comments are spaces, and holds no space, occurs
in the text. -/
theorem infix_visible :
    ∀ {segs : List Segment} {w : Text}, ' ' ∉ w →
      w <:+: (segs.map Segment.visible).flatMap Segment.source →
      w <:+: segs.flatMap Segment.source
  | [], _, _, h => h
  | s :: segs, w, hw, h => by
    have key : ∀ x : Text,
        w <:+: x ++ (segs.map Segment.visible).flatMap Segment.source →
        w <:+: x ++ segs.flatMap Segment.source := by
      intro x h
      rcases List.infix_append_iff.1 h with h | h | ⟨y, z, rfl, hy, hz⟩
      · exact List.infix_append_of_infix_left h
      · exact List.infix_append_of_infix_right (infix_visible hw h)
      · have hz' :=
          prefix_visible (fun hm => hw (List.mem_append_right _ hm)) hz
        exact List.infix_append_iff.2 (.inr (.inr ⟨y, z, rfl, hy, hz'⟩))
    cases s with
    | plain c => exact key _ h
    | quoted text => exact key _ h
    | comment text =>
      have h' : w <:+:
          [] ++ ' ' :: (segs.map Segment.visible).flatMap Segment.source := h
      rcases (infix_append_cons hw).1 h' with h' | h'
      · obtain rfl := List.eq_nil_of_infix_nil h'
        exact List.nil_infix
      · exact List.infix_append_of_infix_right (infix_visible hw h')

namespace LiteralTable

variable {table : LiteralTable} {t u v : Text}

/-! ## Settled texts -/

/-- No tag occurs in a text once it is restored. -/
def Settled (table : LiteralTable) (t : Text) : Prop :=
  ¬ table.tag <:+: table.restore t

/-- Without the tag in it a text is scanned to its characters. -/
theorem scan_of_not_infix (h : ¬ table.tag <:+: t) :
    table.scan t = t.map .plain := by
  induction t with
  | nil => rfl
  | cons c t ih =>
    rw [scan_cons fun hp => h hp.isInfix, ih fun hi => h (List.infix_cons hi),
      List.map_cons]

theorem restore_of_not_infix (h : ¬ table.tag <:+: t) :
    table.restore t = t := by
  rw [← source_scan, scan_of_not_infix h, List.flatMap_map]
  simp [Segment.source]

/-- A settled text is restored once and for all. -/
theorem restore_restore (h : table.Settled t) :
    table.restore (table.restore t) = table.restore t :=
  restore_of_not_infix h

theorem not_mem_tag {c : Char} (h : isWordChar c = false) : c ∉ table.tag :=
  fun hm => by
  rw [isWordChar_of_mem_tag table c hm] at h
  cases h

/-- A text is settled if both sides of a character outside of words are. -/
theorem settled_append_cons {c : Char} (hc : isWordChar c = false) :
    table.Settled (u ++ c :: v) ↔ table.Settled u ∧ table.Settled v := by
  rw [Settled, restore_append_cons hc, infix_append_cons (not_mem_tag hc),
    not_or]
  rfl

/-- Both parts of a settled text are settled, unless a word runs on from one to
the other. -/
theorem Settled.of_append (h : table.Settled (u ++ v))
    (hr : runsOn u.getLast? v.head? = false) :
    table.Settled u ∧ table.Settled v := by
  rw [Settled, restore_append hr] at h
  exact ⟨fun hu => h (List.infix_append_of_infix_left hu),
    fun hv => h (List.infix_append_of_infix_right hv)⟩

/-- The masked text of a text in which the tag does not occur is settled. -/
theorem settled_maskFrom {segs : List Segment} (hu : Unglued segs)
    (ht : ¬ table.tag <:+: segs.flatMap Segment.source)
    (hl : segs.filterMap Segment.literal? <+: table.literals) :
    table.Settled (table.maskFrom 0 segs) := by
  rw [Settled, ← source_scan, scan_maskFrom hu ht (by simpa using hl)]
  exact fun h => ht (infix_visible space_not_mem_tag h)

/-- Whether a text is settled depends on its words. -/
theorem wordWise_settled (table : LiteralTable) : WordWise table.Settled where
  bare t ht := by
    rw [Settled, restore_of_not_mem ht]
    exact fun h => ht (h.subset (List.mem_of_getLast? (getLast?_tag table)))
  cut hc _ _ := settled_append_cons hc
  of_append hr h := h.of_append hr

/-- The normal form of a settled text is settled. -/
theorem Settled.normalize (h : table.Settled t) : table.Settled t.normalize :=
  (wordWise_settled table).normalize h

/-- The tokens that a settled text is laid out of are settled. -/
theorem Settled.of_laid {b a : Option Char} {ks : List Token}
    (h : Laid b ks t a) (ht : table.Settled t) :
    ∀ k ∈ ks, table.Settled k.text :=
  (wordWise_settled table).of_laid h ht

end LiteralTable

end SqlRiver
