import SqlRiver.Proofs.Literal.Preserved

/-!
# Restoring a masked text

Restoring puts the quoted spans of a masked text back. What comes out is the
text with a space for each comment, unless a quote opens directly behind the
characters `__sqlfmt_lit`: these and the first character of the placeholder
spell a tag, and the placeholder is then never found.

Main definitions and statements:

* `Uncommented`: a text and the text with a space for each of its comments.
* `uncommented_iff`: the segments of a text tell the one text without comments.
* `restore_protect`: when restoring undoes masking.
-/

namespace SqlRiver

open LiteralTable

/-! ## Texts without their comments -/

/-- The second text is the first one with a space for each comment. Quoted spans
are kept whole. -/
inductive Uncommented : Text → Text → Prop
  /-- Nothing is left. -/
  | nil : Uncommented [] []
  /-- A quoted span, up to the next quote of the same kind. -/
  | span {q : Char} {body t u : Text} : isQuote q = true → q ∉ body →
    Uncommented t u →
    Uncommented (q :: (body ++ q :: t)) (q :: (body ++ q :: u))
  /-- A comment up to the end of its line. -/
  | line {body t u : Text} : '\n' ∉ body → (∀ c ∈ t.head?, c = '\n') →
    Uncommented t u → Uncommented ('-' :: '-' :: (body ++ t)) (' ' :: u)
  /-- A comment up to the first mark that closes it. -/
  | block {body t u : Text} : ¬ ['*', '/'] <:+: body ++ ['*'] →
    Uncommented t u →
    Uncommented ('/' :: '*' :: (body ++ '*' :: '/' :: t)) (' ' :: u)
  /-- A character that opens neither a quoted span nor a comment. -/
  | char {c : Char} {t u : Text} : isQuote c = false →
    opensComment (some c) t.head? = false →
    Uncommented t u → Uncommented (c :: t) (c :: u)

/-- The first mark that closes a comment. -/
theorem throughCommentEnd_eq_some_iff :
    ∀ {t u : Text}, throughCommentEnd t = some u ↔
      ∃ body rest, t = body ++ '*' :: '/' :: rest ∧
      ¬ ['*', '/'] <:+: body ++ ['*'] ∧ u = body ++ ['*', '/']
  | [], u => by simp [throughCommentEnd]
  | d :: t, u => by
    rw [throughCommentEnd]
    split
    · next hd =>
      obtain ⟨rfl, ht⟩ : d = '*' ∧ t.head? = some '/' := by simpa using hd
      obtain ⟨t, rfl⟩ := List.head?_eq_some_iff.1 ht
      constructor
      · rintro ⟨⟩
        exact ⟨[], t, rfl, by decide, rfl⟩
      · rintro ⟨body, rest, e, hb, rfl⟩
        cases body with
        | nil => rfl
        | cons f body =>
          -- the mark would stand at the start of the body
          obtain ⟨rfl, e'⟩ := List.cons.inj e
          refine absurd (List.IsPrefix.isInfix ?_) hb
          cases body with
          | nil => cases e'
          | cons f body =>
            obtain ⟨rfl, -⟩ := List.cons.inj e'
            exact ⟨body ++ ['*'], rfl⟩
    · next hd =>
      rw [Option.map_eq_some_iff]
      constructor
      · rintro ⟨v, hv, rfl⟩
        obtain ⟨body, rest, rfl, hb, rfl⟩ := throughCommentEnd_eq_some_iff.1 hv
        refine ⟨d :: body, rest, rfl, fun h => ?_, rfl⟩
        rcases List.infix_cons_iff.1 h with h | h
        · refine hd ?_
          obtain ⟨rfl, h'⟩ := List.cons_prefix_cons.1 h
          cases body with
          | nil =>
            obtain ⟨z, hz⟩ := h'
            cases hz
          | cons f body =>
            obtain ⟨rfl, -⟩ := List.cons_prefix_cons.1 h'
            rfl
        · exact hb h
      · rintro ⟨body, rest, e, hb, rfl⟩
        cases body with
        | nil =>
          obtain ⟨rfl, rfl⟩ := List.cons.inj e
          exact absurd rfl hd
        | cons f body =>
          obtain ⟨rfl, rfl⟩ := List.cons.inj e
          refine ⟨body ++ ['*', '/'],
            throughCommentEnd_eq_some_iff.2 ⟨body, rest, rfl, ?_, rfl⟩, rfl⟩
          exact fun h => hb (List.infix_cons h)

/-- What a comment at the start of a text is like. -/
theorem comment_cases {off : Nat} {c : Char} {x rest text : Text}
    (h : Segment.next off c (x ++ rest) = .ok (.comment text))
    (hx : text = c :: x) :
    (∃ body, c :: x = '-' :: '-' :: body ∧ '\n' ∉ body ∧
      ∀ c ∈ rest.head?, c = '\n') ∨
    ∃ body, c :: x = '/' :: '*' :: (body ++ ['*', '/']) ∧
      ¬ ['*', '/'] <:+: body ++ ['*'] := by
  unfold Segment.next at h
  split at h
  · split at h <;> cases h
  · split at h
    · next hd =>
      obtain ⟨rfl, hhead⟩ : c = '-' ∧ (x ++ rest).head? = some '-' := by
        simpa using hd
      have htext : text = '-' :: (x ++ rest).takeWhile (· != '\n') := by
        cases h; rfl
      have hx' : x = (x ++ rest).takeWhile (· != '\n') :=
        (List.cons.inj (hx.symm.trans htext))|>.2
      have hno : ∀ d ∈ x, d ≠ '\n' := by
        intro d hd
        rw [hx'] at hd
        simpa using List.mem_takeWhile_imp hd
      have hrest : ∀ d ∈ rest.head?, d = '\n' := by
        intro d hd
        obtain ⟨rest, rfl⟩ := List.head?_eq_some_iff.1 hd
        by_contra hne
        rw [List.takeWhile_append_of_pos (by simpa using hno),
          List.takeWhile_cons_of_pos (by simpa using hne)] at hx'
        simpa using congrArg List.length hx'
      cases x with
      | nil =>
        rw [List.nil_append] at hhead
        cases hrest _ hhead
      | cons d x =>
        obtain rfl : d = '-' := by simpa using hhead
        exact .inl ⟨x, rfl, fun hmem => hno _ (List.mem_cons_of_mem _ hmem) rfl,
          hrest⟩
    · split at h
      · next hc =>
        obtain ⟨rfl, hhead⟩ : c = '/' ∧ (x ++ rest).head? = some '*' := by
          simpa using hc
        split at h
        · next u hu =>
          obtain ⟨body, tail, -, hb, rfl⟩ := throughCommentEnd_eq_some_iff.1 hu
          have htext : text = '/' :: '*' :: (body ++ ['*', '/']) := by
            cases h; rfl
          exact .inr ⟨body, hx.symm.trans htext, hb⟩
        · cases h
      · cases h

/-- A line comment goes up to the line break. -/
theorem next_line (off : Nat) {body t : Text} (hb : '\n' ∉ body)
    (ht : ∀ c ∈ t.head?, c = '\n') :
    Segment.next off '-' ('-' :: body ++ t) =
      .ok (.comment ('-' :: '-' :: body)) := by
  have htake : ('-' :: body ++ t).takeWhile (· != '\n') = '-' :: body := by
    rw [List.takeWhile_append_of_pos]
    · cases t with
      | nil => simp
      | cons c t =>
        obtain rfl := ht c rfl
        simp
    · intro c hc
      rcases List.mem_cons.1 hc with rfl | hc
      · rfl
      · exact bne_iff_ne.2 fun e => hb (e ▸ hc)
  rw [Segment.next, if_neg (by decide), if_pos (by simp), htake]

/-- A block comment goes up to its first closing mark. -/
theorem next_block (off : Nat) {body : Text}
    (hb : ¬ ['*', '/'] <:+: body ++ ['*']) (t : Text) :
    Segment.next off '/' ('*' :: (body ++ ['*', '/']) ++ t) =
      .ok (.comment ('/' :: '*' :: (body ++ ['*', '/']))) := by
  have hend : throughCommentEnd (('*' :: (body ++ ['*', '/']) ++ t).drop 1) =
      some (body ++ ['*', '/']) :=
    throughCommentEnd_eq_some_iff.2 ⟨body, t, by simp, hb, rfl⟩
  rw [Segment.next, if_neg (by decide), if_neg (by simp), if_pos (by simp),
    hend]

/-- A comment at the start of a text is one segment. -/
theorem segments_line {body t : Text} {segs : List Segment} (hb : '\n' ∉ body)
    (ht : ∀ c ∈ t.head?, c = '\n') (h : segments t = .ok segs) :
    segments ('-' :: '-' :: (body ++ t)) =
      .ok (.comment ('-' :: '-' :: body) :: segs) :=
  segments_cons (x := '-' :: body) (next_line 0 hb ht) rfl h

/-- A block comment before a text is one segment more. -/
theorem segments_block {body t : Text} {segs : List Segment}
    (hb : ¬ ['*', '/'] <:+: body ++ ['*']) (h : segments t = .ok segs) :
    segments ('/' :: '*' :: (body ++ '*' :: '/' :: t)) =
      .ok (.comment ('/' :: '*' :: (body ++ ['*', '/'])) :: segs) := by
  have e : '/' :: '*' :: (body ++ '*' :: '/' :: t) =
      '/' :: ('*' :: (body ++ ['*', '/'])) ++ t := by simp
  rw [e]
  exact segments_cons (next_block 0 hb t) rfl h

/-- The text of segments with a space for each comment. -/
def visibleText (segs : List Segment) : Text :=
  (segs.map Segment.visible).flatMap Segment.source

/-- What is visible of the segments is the text without its comments, by
induction on the segments. -/
theorem uncommented_of_segments :
    ∀ {segs : List Segment} {t : Text}, segments t = .ok segs →
      Uncommented t (visibleText segs)
  | [], t, h => by
    obtain rfl : [] = t := source_of_segments h
    exact .nil
  | s :: segs, t, h => by
    obtain ⟨c, x, rest, rfl, hx, hs, hrest⟩ := segments_eq_cons h
    have ih := uncommented_of_segments hrest
    rcases next_cases hs with
      ⟨rfl, hq, hc⟩ | ⟨text, rfl⟩ | ⟨text, rfl, q, body, hq, hb, rfl⟩
    · obtain rfl : x = [] := by simpa [Segment.source, eq_comm] using hx
      exact .char hq hc ih
    · rcases comment_cases hs hx with ⟨body, e, hb, hrest⟩ | ⟨body, e, hb⟩
      · rw [e]
        exact .line hb hrest ih
      · have e' :
            c :: x ++ rest = '/' :: '*' :: (body ++ '*' :: '/' :: rest) := by
          rw [e]
          simp
        rw [e']
        exact .block hb ih
    · have e : c :: x ++ rest = q :: (body ++ q :: rest) := by
        rw [← hx]
        simp [Segment.source]
      have e' : visibleText (.quoted (q :: body ++ [q]) :: segs) =
          q :: (body ++ q :: visibleText segs) := by
        simp [visibleText, Segment.visible, Segment.source]
      rw [e, e']
      exact .span hq hb ih

/-- The segments of a text tell the one text without comments. -/
theorem uncommented_iff {t u : Text} :
    Uncommented t u ↔ ∃ segs, segments t = .ok segs ∧ u = visibleText segs := by
  constructor
  · intro h
    induction h with
    | nil => exact ⟨[], rfl, rfl⟩
    | @span q body t u hq hb _ ih =>
      obtain ⟨segs, hsegs, rfl⟩ := ih
      have hspan := segments_span ⟨q, body, hq, hb, rfl⟩ hsegs
      have e : q :: body ++ [q] ++ t = q :: (body ++ q :: t) := by simp
      rw [e] at hspan
      exact ⟨_, hspan, by simp [visibleText, Segment.visible, Segment.source]⟩
    | line hb ht _ ih =>
      obtain ⟨segs, hsegs, rfl⟩ := ih
      exact ⟨_, segments_line hb ht hsegs, rfl⟩
    | block hb _ ih =>
      obtain ⟨segs, hsegs, rfl⟩ := ih
      exact ⟨_, segments_block hb hsegs, rfl⟩
    | char hq hc _ ih =>
      obtain ⟨segs, hsegs, rfl⟩ := ih
      exact ⟨_, segments_plain hq hc hsegs, rfl⟩
  · rintro ⟨segs, hsegs, rfl⟩
    exact uncommented_of_segments hsegs

/-! ## Quotes behind a text that is glued to them -/

/-- A suffix without a character stands behind every place of it. -/
theorem suffix_of_not_mem {c : Char} {w x y : Text} (hc : c ∉ w)
    (h : w <:+ x ++ c :: y) : w <:+ y := by
  rcases List.suffix_or_suffix_of_suffix h (List.suffix_append x (c :: y)) with
    h | h
  · rcases List.suffix_cons_iff.1 h with rfl | h
    · simp at hc
    · exact h
  · exact absurd (h.subset (by simp)) hc

/-- A segment that is more than a character holds a character that is not part
of a word. -/
theorem plain_or_of_segments :
    ∀ {segs : List Segment} {t : Text}, segments t = .ok segs →
      ∀ s ∈ segs, (∃ c, s = .plain c) ∨ ∃ c ∈ s.source, isWordChar c = false
  | s :: segs, t, h, s', hs' => by
    obtain ⟨c, x, rest, rfl, hx, hs, hrest⟩ := segments_eq_cons h
    rcases List.mem_cons.1 hs' with rfl | hs'
    · rcases next_cases hs with
        ⟨rfl, -⟩ | ⟨text, rfl⟩ | ⟨text, rfl, q, body, hq, -, rfl⟩
      · exact .inl ⟨c, rfl⟩
      · refine .inr ⟨c, by rw [hx]; simp, ?_⟩
        rcases comment_cases hs hx with ⟨body, e, -⟩ | ⟨body, e, -⟩
        · obtain rfl := (List.cons.inj e).1
          rfl
        · obtain rfl := (List.cons.inj e).1
          rfl
      · exact .inr ⟨q, by simp [Segment.source], isWordChar_of_isQuote hq⟩
    · exact plain_or_of_segments hrest s' hs'

/-- Segments whose text has only characters of words are plain ones, if every
other segment has some other character. -/
theorem eq_map_plain {segs : List Segment}
    (h : ∀ s ∈ segs, (∃ c, s = .plain c) ∨ ∃ c ∈ s.source, isWordChar c = false)
    (hw : ∀ c ∈ segs.flatMap Segment.source, isWordChar c = true) :
    segs = (segs.flatMap Segment.source).map .plain := by
  induction segs with
  | nil => rfl
  | cons s segs ih =>
    rw [List.flatMap_cons] at hw ⊢
    rw [List.map_append, ← ih (fun s' hs' => h s' (List.mem_cons_of_mem _ hs'))
      fun c hc => hw c (List.mem_append_right _ hc)]
    rcases h s (List.mem_cons_self ..) with ⟨c, rfl⟩ | ⟨c, hc, hc'⟩
    · rfl
    · rw [hw c (List.mem_append_left _ hc)] at hc'
      cases hc'

/-- Behind a segment that is more than a character, nothing is glued across
it. -/
theorem glue_suffix_tail {s : Segment} {a b : List Segment} {t text : Text}
    (h : segments t = .ok (s :: (a ++ .quoted text :: b)))
    (hs : ∀ c, s ≠ .plain c) (hg : glue <:+ (s :: a).flatMap Segment.source) :
    glue <:+ a.flatMap Segment.source := by
  have hglue : ∀ c, isWordChar c = false → c ∉ glue := by
    intro c hc hmem
    have : ∀ c ∈ glue, isWordChar c = true := by decide
    rw [this c hmem] at hc
    cases hc
  obtain ⟨c, x, rest, rfl, hx, hnext, hrest⟩ := segments_eq_cons h
  rw [List.flatMap_cons] at hg
  rcases next_cases hnext with
    ⟨rfl, -⟩ | ⟨ctext, rfl⟩ | ⟨qtext, rfl, q, body, hq, -, rfl⟩
  · exact absurd rfl (hs c)
  · rcases comment_cases hnext hx with ⟨body, -, -, hrest'⟩ | ⟨body, e, -⟩
    · -- the line ends before the quote, which is on another line
      have hsrc := source_of_segments hrest
      cases a with
      | nil =>
        obtain ⟨q, body, hq, -, rfl⟩ :=
          isSpan_of_segments hrest text (by simp [Segment.literal?])
        obtain rfl : q = '\n' :=
          hrest' q (by rw [← hsrc]; simp [Segment.source])
        cases hq
      | cons s' a =>
        obtain ⟨d, y, rest', rfl, hy, -, -⟩ := segments_eq_cons hrest
        obtain rfl : d = '\n' := hrest' d rfl
        rw [List.flatMap_cons, hy, List.cons_append] at hg ⊢
        exact (suffix_of_not_mem (hglue _ rfl) hg).trans (List.suffix_cons _ _)
    · have e' : Segment.source (.comment ctext) =
          '/' :: '*' :: (body ++ ['*']) ++ ['/'] := by
        rw [hx, e]
        simp
      rw [e', List.append_assoc] at hg
      exact suffix_of_not_mem (hglue '/' rfl) hg
  · have e : Segment.source (.quoted (q :: body ++ [q])) ++ a.flatMap
        Segment.source = q :: body ++ q :: a.flatMap Segment.source := by
      simp [Segment.source]
    rw [e] at hg
    exact suffix_of_not_mem (hglue q (isWordChar_of_isQuote hq)) hg

namespace LiteralTable

variable {table : LiteralTable}

/-- A text that is glued to a quote spells a tag without marks, and no index
follows it. -/
theorem exists_tag_of_glue (hm : table.marks = 0) {a : List Segment}
    (hg : a.flatMap Segment.source = glue)
    (ha : ∀ s ∈ a, (∃ c, s = .plain c) ∨ ∃ c ∈ s.source, isWordChar c = false)
    (index : Nat) (text : Text) (b : List Segment) :
    ∃ rest, table.maskFrom index (a ++ .quoted text :: b) =
      table.tag ++ '_' :: rest := by
  have htag : table.tag = "__sqlfmt_lit_".toList := by
    rw [tag, hm]
    rfl
  have hplain := eq_map_plain ha (by rw [hg]; decide)
  rw [hplain, hg, maskFrom_plain_append, maskFrom, placeholder, htag]
  exact ⟨_, rfl⟩

/-- A tag without an index stays. -/
theorem tag_prefix_restore (rest : Text) :
    table.tag <+: table.restore (table.tag ++ '_' :: rest) := by
  have hentry : table.entryAfterTag? ('_' :: rest) = none := by
    cases h : table.entryAfterTag? ('_' :: rest) with
    | none => rfl
    | some v =>
      obtain ⟨literal, n⟩ := v
      obtain ⟨digits, tail, e, hd, -⟩ := entryAfterTag?_eq_some_iff.1 h
      obtain ⟨f, digits, rfl⟩ := List.exists_cons_of_ne_nil hd.ne_nil
      obtain rfl : '_' = f := (List.cons.inj e).1
      cases hd.digit _ (List.mem_cons_self ..)
  rw [restore_tag hentry]
  exact List.prefix_append _ _

/-- Where a text is glued to a quote, the tag is found in the restored text. -/
theorem tag_of_glued (hm : table.marks = 0) :
    ∀ {segs : List Segment} {t : Text} {index : Nat}, segments t = .ok segs →
      ¬ table.tag <:+: t →
      segs.filterMap Segment.literal? <+: table.literals.drop index →
      ¬ Unglued segs → table.tag <:+: table.restore (table.maskFrom index segs)
  | [], _, _, _, _, _, hu => absurd (fun a text b e => by simp at e) hu
  | s :: segs, t, index, ht, htag, hl, hu => by
    simp only [Unglued, not_forall, not_not] at hu
    obtain ⟨a, text, b, e, hg⟩ := hu
    have hsegs := plain_or_of_segments ht
    have hsrc := source_of_segments ht
    obtain ⟨c, x, rest, rfl, -, -, hrest⟩ := segments_eq_cons ht
    cases a with
    | nil => cases List.suffix_nil.1 hg
    | cons s' a =>
      obtain ⟨rfl, htail⟩ := List.cons.inj e
      -- it suffices that a text is glued to a quote further on
      have later : glue <:+ a.flatMap Segment.source → ∀ index',
          segs.filterMap Segment.literal? <+: table.literals.drop index' →
          table.tag <:+: table.restore (table.maskFrom index' segs) :=
        fun hg' index' hl' =>
        tag_of_glued hm hrest (fun h =>
          htag (h.trans (List.suffix_append _ _).isInfix)) hl' fun hu' =>
          hu' a text b htail hg'
      cases s with
      | plain d =>
        by_cases hp : table.tag <+: table.maskFrom index (.plain d :: segs)
        · -- the tag is found here and is no placeholder
          obtain ⟨-, a', text', b', e', hglue⟩ :=
            glue_of_tag_prefix (hsrc.symm ▸ htag) hp
          rw [e'] at hsegs ⊢
          obtain ⟨y, hy⟩ := exists_tag_of_glue hm hglue
            (fun s' hs' => hsegs s' (List.mem_append_left _ hs')) index text' b'
          rw [hy]
          exact (tag_prefix_restore y).isInfix
        · have hstep : table.restore (table.maskFrom index (.plain d :: segs)) =
              d :: table.restore (table.maskFrom index segs) := by
            rw [maskFrom] at hp ⊢
            exact restore_plain hp
          rw [hstep]
          rw [List.flatMap_cons, Segment.source, List.singleton_append] at hg
          refine List.infix_cons
            (later ((List.suffix_cons_iff.1 hg).resolve_left fun hglue =>
            hp ?_) index hl)
          -- otherwise the tag would be found here
          rw [e] at hsegs ⊢
          obtain ⟨y, hy⟩ :=
            exists_tag_of_glue (a := .plain d :: a) hm hglue.symm
              (fun s' hs' => hsegs s' (List.mem_append_left _ hs')) index text b
          rw [hy]
          exact List.prefix_append _ _
      | comment ctext =>
        have hstep :
            table.restore (table.maskFrom index (.comment ctext :: segs)) =
            ' ' :: table.restore (table.maskFrom index segs) :=
          restore_append_cons (c := ' ') rfl [] _
        rw [hstep]
        rw [e] at ht
        exact List.infix_cons
          (later (glue_suffix_tail ht (by simp) hg) index hl)
      | quoted qtext =>
        obtain ⟨hi, hl'⟩ := literal_of_prefix hl
        have hstep :
            table.restore (table.maskFrom index (.quoted qtext :: segs)) =
            qtext ++ table.restore (table.maskFrom (index + 1) segs) := by
          rw [maskFrom, placeholder, restore_entry (indexes_ofNat hi)]
        rw [hstep]
        rw [e] at ht
        exact (later (glue_suffix_tail ht (by simp) hg) _ hl').trans
          (List.suffix_append _ _).isInfix

end LiteralTable

/-! ## Restoring undoes masking -/

/-- Restoring undoes masking, but for comments, exactly when no quote opens
directly behind a text that spells the tag together with the start of its
placeholder. A tag with marks is spelled by no such text. -/
theorem restore_protect {t masked : Text} {table : LiteralTable}
    (h : protect t = .ok (masked, table)) :
    ∃ u segs, (∀ v, Uncommented t v ↔ v = u) ∧ segments t = .ok segs ∧
      (table.restore masked = u ↔ (table.marks = 0 → Unglued segs)) := by
  obtain ⟨segs, hsegs, htable, hmasked⟩ := protect_eq_ok_iff.1 h
  have htag : ¬ table.tag <:+: t := by
    rw [htable]
    exact not_infix_unusedMarks t
  have hl : segs.filterMap Segment.literal? <+: table.literals.drop 0 := by
    rw [htable]
    exact List.prefix_rfl
  refine ⟨visibleText segs, segs, fun v => ?_, hsegs, ?_⟩
  · rw [uncommented_iff]
    simp [hsegs]
  · rw [hmasked]
    constructor
    · intro hrestore hm
      by_contra hu
      -- the restored text would hold the tag, and the text does not
      have hfound := tag_of_glued hm hsegs htag hl hu
      rw [hrestore] at hfound
      have hsource := infix_visible space_not_mem_tag hfound
      rw [source_of_segments hsegs] at hsource
      exact htag hsource
    · intro hu
      rw [← source_scan, scan_masked hu (by rwa [source_of_segments hsegs]) hl]
      rfl

/-- Comments next to quoted spans, and a quoted span behind a tag with marks. -/
theorem restore_protect_marks :
    ∃ masked table, protect "a/*'*/'b'--c\n__sqlfmt_lit_'d'".toList =
      .ok (masked, table) ∧ ∃ u segs,
      (∀ v, Uncommented "a/*'*/'b'--c\n__sqlfmt_lit_'d'".toList v ↔ v = u) ∧
      segments "a/*'*/'b'--c\n__sqlfmt_lit_'d'".toList = .ok segs ∧
      (table.restore masked = u ↔ (table.marks = 0 → Unglued segs)) := by
  generalize ht : "a/*'*/'b'--c\n__sqlfmt_lit_'d'".toList = t
  have hok : (protect t).isOk = true := by
    subst ht
    decide +kernel
  cases h : protect t with
  | error e =>
    rw [h] at hok
    cases hok
  | ok p => exact ⟨p.1, p.2, rfl, restore_protect h⟩

/-- A quoted span behind `__sqlfmt_lit` is not restored. -/
theorem restore_glued :
    ∃ masked table, protect "__sqlfmt_lit'a'".toList = .ok (masked, table) ∧
      Uncommented "__sqlfmt_lit'a'".toList "__sqlfmt_lit'a'".toList ∧
      table.restore masked = "__sqlfmt_lit__sqlfmt_lit_0__".toList := by
  refine ⟨"__sqlfmt_lit__sqlfmt_lit_0__".toList, ⟨0, ["'a'".toList]⟩,
    by decide +kernel, ?_, by decide +kernel⟩
  refine uncommented_iff.2
    ⟨"__sqlfmt_lit".toList.map .plain ++ [.quoted "'a'".toList], ?_, ?_⟩
  · decide +kernel
  · decide +kernel

end SqlRiver
