import SqlRiver.Proofs.Keyword.Count
import SqlRiver.Proofs.Line.Clear

/-!
# Lists and conditions that are read back

Entries with commas between them are read back if no entry has a comma at its
top level. Predicates with `and` between them are read back if each of them is
one predicate when it stands alone, and none but the last one is left open.

Main definitions and statements:

* `Tidy`: a piece that reading does not change.
* `commaList_rowText`: lists are read back.
* `split_append`: a split at a place where a keyword stands.
* `Divided`, `predicates_join`: predicates are read back.
-/

namespace SqlRiver

open Text

variable {w word p x y z : Text} {o : Options}

/-- A piece that has single spaces inside, none around it, and balanced
brackets. -/
structure Tidy (p : Text) : Prop where
  ne_nil : p ≠ []
  spaced : p.Spaced
  balanced : isBalanced p = true

theorem Tidy.trimmed (h : Tidy p) : p.Trimmed := trimmed_of_spaced h.spaced

theorem Tidy.top (h : Tidy p) : depth p = 0 := depth_of_isBalanced h.balanced

/-! ## Lists -/

/-- No space, or one. -/
def Gap (l : Text) : Prop := l = [] ∨ l = [' ']

theorem Gap.blank {l : Text} (h : Gap l) : Blank l := by
  rcases h with rfl | rfl
  · exact blank_nil
  · exact blank_space

theorem Gap.spaceOnly {l : Text} (h : Gap l) : l.SpaceOnly := by
  rcases h with rfl | rfl <;> simp [SpaceOnly]

theorem Gap.top {l : Text} (h : Gap l) : depth l = 0 := depth_blank h.blank

theorem Gap.sequel {l : Text} (h : Gap l) : Sequel l := by
  rcases h with rfl | rfl
  · exact sequel_nil
  · exact .inr ⟨[], rfl, by simp⟩

theorem Gap.absent {l : Text} (h : Gap l) (hw : isPhrase w = true) :
    Absent w l := by
  rcases h with rfl | rfl
  · exact absent_nil hw
  · exact (absentIn_nil_iff hw).1 (absentIn_space hw [])

/-- A row is divided into its entries, by induction on them. -/
theorem pieces_rowText :
    ∀ {entries : List Text}, entries ≠ [] → (∀ e ∈ entries, Tidy e) →
      (∀ e ∈ entries, NoTop isComma e) → ∀ {l : Text}, Gap l →
      (split [','] (l ++ rowText entries)).pieces = entries
  | [], h, _, _, _, _ => absurd rfl h
  | [e], _, ht, hc, l, hl => by
    have hno : NoTop isComma (l ++ e) := (noTop_append hl.top).2
      ⟨noTop_of_forall (by rcases hl with rfl | rfl <;> simp [isComma]),
      hc e (by simp)⟩
    rw [rowText, Text.join, split_of_noTop hno]
    simp [Split.pieces, Split.parts,
      trim_padStart hl.blank (ht e (by simp)).trimmed]
  | e :: e' :: more, _, ht, hc, l, hl => by
    have ih :
        (split [','] ([' '] ++ rowText (e' :: more))).pieces = e' :: more :=
      pieces_rowText (by simp) (fun x hx => ht x (List.mem_cons_of_mem _ hx))
        (fun x hx => hc x (List.mem_cons_of_mem _ hx)) (.inr rfl)
    have hno : NoTop isComma (l ++ e) := (noTop_append hl.top).2
      ⟨noTop_of_forall (by rcases hl with rfl | rfl <;> simp [isComma]),
      hc e (by simp)⟩
    have htidy := ht e (by simp)
    have hrow : l ++ rowText (e :: e' :: more) =
        (l ++ e) ++ ',' :: ([' '] ++ rowText (e' :: more)) := by
      simp [rowText, Text.join]
    have hpieces : ∀ (a : Text) (s : Split),
        Split.pieces ⟨a, ([','], s.first) :: s.rest⟩ = a.trim :: s.pieces :=
      fun _ _ => rfl
    rw [hrow, split_comma hno (by simp [hl.top, htidy.top]), hpieces, ih,
      trim_padStart hl.blank htidy.trimmed]

/-- Tidy pieces make a trimmed text, whatever stands between them. -/
theorem trimmed_tidy (sep : Text) {ps : List Text} (h₀ : ps ≠ [])
    (ht : ∀ p ∈ ps, Tidy p) :
    (Text.join sep ps).Trimmed ∧ Text.join sep ps ≠ [] := by
  have h := trimmed_join sep (fun p hp => (ht p hp).trimmed) fun p hp =>
    (ht p hp).ne_nil
  exact ⟨h.1, h.2 h₀⟩

/-- Tidy pieces with a balanced separator between them have balanced
brackets. -/
theorem balanced_tidy {sep : Text} (hs : isBalanced sep = true) :
    ∀ {ps : List Text}, (∀ p ∈ ps, Tidy p) →
      isBalanced (Text.join sep ps) = true
  | [], _ => rfl
  | [p], h => (h p (by simp)).balanced
  | p :: p' :: ps, h => by
    have ih : isBalanced (Text.join sep (p' :: ps)) = true :=
      balanced_tidy hs fun x hx => h x (List.mem_cons_of_mem _ hx)
    have hp := h p (by simp)
    rw [Text.join, isBalanced_append (by simp [hp.top, depth_of_isBalanced hs]),
      isBalanced_append hp.top]
    · exact ⟨⟨hp.balanced, hs⟩, ih⟩
    · simp

/-- A list is read back. -/
theorem commaList_rowText {clause : Clause} {body : Text} {entries : List Text}
    (h₀ : entries ≠ []) (ht : ∀ e ∈ entries, Tidy e)
    (hc : ∀ e ∈ entries, NoTop isComma e) (hb : body.trim = rowText entries) :
    commaList clause body = .ok entries := by
  rw [commaList_eq_ok_iff, hb]
  refine ⟨(trimmed_tidy _ h₀ ht).2, ?_, fun e he => (ht e he).ne_nil⟩
  exact (pieces_rowText h₀ ht hc (.inl rfl)).symm

/-! ## Splits -/

section Word

variable (hw : isPhrase w = true) (hsp : ' ' ∉ w)
include hw

include hsp in
/-- No character of a word bounds a keyword, in any spelling. -/
theorem isEdge_of_mem_spelling {m : Text} (hm : m.lower = w.lower) :
    ∀ c ∈ m, isEdge c = false := by
  intro c hc
  have hc' : c.toLower ∈ w := by
    rw [← lower_of_isPhrase hw, ← hm]
    exact List.mem_map_of_mem hc
  rw [← isEdge_toLower]
  rcases mem_of_isPhrase hw _ hc' with h | h
  · exact isEdge_of_isLower h
  · exact absurd (h ▸ hc') hsp

include hsp in
/-- What follows an edge does not matter to the words that start before it. -/
theorem AbsentIn.extend (h : AbsentIn w x y)
    (he : atEdge (x ++ y).getLast? = true) (z : Text) :
    AbsentIn w x (y ++ z) := by
  rintro u v m c rfl hv hmc hs
  rw [← List.append_assoc] at hmc
  rcases List.append_eq_append_iff.1 hmc with ⟨e, rfl, -⟩ | ⟨e, hvy, rfl⟩
  · -- the word would hold the edge
    obtain ⟨d, hd⟩ := Option.isSome_iff_exists.1
      (List.getLast?_isSome.2 (List.append_ne_nil_of_left_ne_nil hv y))
    rw [List.append_assoc, List.getLast?_append, hd, Option.some_or, atEdge,
      isEdge_of_mem_spelling hw hsp hs.spelled d
        (List.mem_append_left _ (List.mem_of_getLast? hd))] at he
    cases he
  · refine h u v m e rfl hv hvy ⟨hs.spelled, hs.top, hs.left, ?_⟩
    cases e with
    | nil => rfl
    | cons d e => exact hs.right

include hsp in
/-- Blanks around a text are no part of the words that stand in it. -/
theorem Stands.of_pad {l r a m c : Text} (hs : Stands w a m c) (hl : l.Blank)
    (hr : r.Blank) (e : l ++ p ++ r = a ++ m ++ c) :
    ∃ a' c', a = l ++ a' ∧ c = c' ++ r ∧ p = a' ++ m ++ c' ∧
      Stands w a' m c' := by
  have hblank : ∀ d ∈ m, isBlank d = false := by
    intro d hd
    have hd' : d.toLower ∈ w := by
      rw [← lower_of_isPhrase hw, ← hs.spelled]
      exact List.mem_map_of_mem hd
    rw [← isBlank_toLower]
    rcases mem_of_isPhrase hw _ hd' with h | h
    · exact isBlank_of_isLower h
    · exact absurd (h ▸ hd') hsp
  have hm₀ := spelling_ne_nil hw hs.spelled
  obtain ⟨a', rfl, e₁⟩ : ∃ a', a = l ++ a' ∧ p ++ r = a' ++ m ++ c := by
    rw [List.append_assoc, List.append_assoc] at e
    rcases List.append_eq_append_iff.1 e with ⟨a', rfl, h⟩ | ⟨z, rfl, h⟩
    · exact ⟨a', rfl, by simpa using h⟩
    · cases z with
      | nil => exact ⟨[], by simp, by simpa using h.symm⟩
      | cons d z =>
        obtain ⟨f, m, rfl⟩ := List.exists_cons_of_ne_nil hm₀
        obtain ⟨rfl, -⟩ := List.cons.inj h
        have h₁ := hl f (by simp)
        rw [hblank f (by simp)] at h₁
        cases h₁
  obtain ⟨c', rfl, rfl⟩ : ∃ c', c = c' ++ r ∧ p = a' ++ m ++ c' := by
    rcases List.append_eq_append_iff.1 e₁ with ⟨z, h, rfl⟩ | ⟨c', rfl, rfl⟩
    · rcases List.eq_nil_or_concat' z with rfl | ⟨z, d, rfl⟩
      · exact ⟨[], by simp, by simpa using h.symm⟩
      · have hlast := congrArg List.getLast? h
        rw [List.getLast?_append_of_ne_nil _ hm₀,
          List.getLast?_append_of_ne_nil _ (by simp), List.getLast?_concat]
          at hlast
        have h₁ := hr d (by simp)
        rw [hblank d (List.mem_of_getLast? hlast)] at h₁
        cases h₁
    · exact ⟨c', rfl, rfl⟩
  refine ⟨a', c', rfl, rfl, rfl, hs.spelled, ?_, ?_, ?_⟩
  · have := hs.top
    rwa [depth_append, depth_blank hl, Int.zero_add] at this
  · cases ha : a' with
    | nil => rfl
    | cons d u =>
      have hleft := hs.left
      rwa [List.getLast?_append_of_ne_nil _ (by simp [ha]), ha] at hleft
  · cases c' with
    | nil => rfl
    | cons d u => exact hs.right

include hsp in
/-- A text is split at a place where a keyword stands, and on both sides of
it. -/
theorem split_append {m c : Text} :
    ∀ {a : Text}, Stands w a m c → split w (a ++ m ++ c) = ⟨(split w a).first,
      (split w a).rest ++ (m, (split w c).first) :: (split w c).rest⟩ := by
  intro a
  refine split_phrase_induction hw (P := fun a s => Stands w a m c →
    split w (a ++ m ++ c) =
    ⟨s.first, s.rest ++ (m, (split w c).first) :: (split w c).rest⟩) ?_ ?_ a
  · intro a ha hs
    rw [split_of_stands hw hs]
    · rfl
    · have h := AbsentIn.extend hw hsp (y := []) ((absentIn_nil_iff hw).2 ha)
        (by rw [List.append_nil]; exact hs.left) (m ++ c)
      simpa using h
  · intro a n b s hn habs ih hs
    -- something stands between two words
    have hb : b ≠ [] := by
      rintro rfl
      have hl := hs.left
      rw [List.append_nil,
        List.getLast?_append_of_ne_nil _ (spelling_ne_nil hw hn.spelled),
        isEdge_last_spelling hw hn.spelled] at hl
      cases hl
    have hn' : Stands w a n (b ++ m ++ c) := by
      refine ⟨hn.spelled, hn.top, hn.left, ?_⟩
      rw [List.append_assoc, List.head?_append_of_ne_nil _ hb]
      exact hn.right
    have hs' := (hn'.behind_iff hw).1 hs
    have habs' : AbsentIn w a (n ++ (b ++ m ++ c)) := by
      have h :=
        habs.extend hw hsp (by rw [← List.append_assoc]; exact hs.left) (m ++ c)
      simpa using h
    have e : a ++ n ++ b ++ m ++ c = a ++ n ++ (b ++ m ++ c) := by simp
    rw [e, split_of_stands hw hn' habs', ih hs']
    rfl

end Word

/-! ## Predicates -/

/-- The text is one predicate: before each `and` in it a `between` or a `case`
is open. -/
def Whole (t : Text) : Prop :=
  ∀ a m c, t = a ++ m ++ c → Stands "and".toList a m c → isOpen a = true

/-- Putting predicates back together leaves at least one. -/
theorem regroup_ne_nil :
    ∀ (current : Text) (rest : List (Text × Text)), regroup current rest ≠ []
  | current, [] => by simp [regroup]
  | current, (sep, piece) :: more => by
    rw [regroup]
    split
    · exact regroup_ne_nil _ more
    · simp

/-- A text is one predicate behind `u` if a `between` or a `case` is open before
each `and` in it. -/
theorem regroup_whole (t : Text) :
    ∀ u : Text, (∀ a m c, t = a ++ m ++ c → Stands "and".toList a m c →
      isOpen (u ++ a) = true) →
      regroup (u ++ (split "and".toList t).first) (split "and".toList t).rest =
      [u ++ t] := by
  have hand : isPhrase "and".toList = true := by decide
  refine split_phrase_induction hand (P :=
    fun t s => ∀ u : Text, (∀ a m c, t = a ++ m ++ c →
    Stands "and".toList a m c → isOpen (u ++ a) = true) →
    regroup (u ++ s.first) s.rest = [u ++ t]) ?_ ?_ t
  · intro t _ u _
    rfl
  · intro a m c s hs _ ih u h
    rw [regroup, if_pos (h a m c rfl hs)]
    have hc := ih (u ++ a ++ m) fun a' m' c' hc hs' => by
      have h' := h (a ++ m ++ a') m' c' (by simp [hc])
        (((hc ▸ hs : Stands _ a m (a' ++ m' ++ c')).behind_iff hand).2 hs')
      simpa using h'
    simpa using hc

/-- A predicate is closed off where a separator follows it. -/
theorem regroup_append {current P m x : Text} {rest : List (Text × Text)} :
    ∀ {rs : List (Text × Text)}, regroup current rs = [P] → isOpen P = false →
      regroup current (rs ++ (m, x) :: rest) = P :: regroup x rest := by
  intro rs
  induction rs generalizing current with
  | nil =>
    rintro ⟨⟩ hP
    rw [List.nil_append, regroup, if_neg (by simp [hP])]
  | cons r rs ih =>
    intro h hP
    rw [regroup] at h
    rw [List.cons_append, regroup]
    split at h
    · next ho =>
      rw [if_pos ho]
      exact ih h hP
    · obtain ⟨-, h⟩ := List.cons.inj h
      exact absurd h (regroup_ne_nil _ _)

section Pad

variable {l r : Text}

/-- Spaces around a predicate leave it open or closed. -/
theorem isOpen_pad (hl : Gap l) (hr : Gap r) (hp : depth p = 0) :
    isOpen (l ++ p ++ r) = isOpen p := by
  have key : ∀ w : Text, isPhrase w = true → ' ' ∉ w.lower →
      countTop w (l ++ p ++ r) = countTop w p := by
    intro w hw hsp
    rw [List.append_assoc, countTop_blank_append hsp hw hl.blank hl.spaceOnly,
      countTop_append_blank hsp hw hr.blank hr.spaceOnly hp]
  rw [isOpen, isOpen, key _ (by decide) (by decide), key _ (by decide)
    (by decide), key _ (by decide) (by decide), key _ (by decide) (by decide)]

/-- A predicate with spaces around it is one predicate. -/
theorem regroup_pad (hl : Gap l) (hr : Gap r) (h : Whole p) :
    regroup (split "and".toList (l ++ p ++ r)).first
      (split "and".toList (l ++ p ++ r)).rest = [l ++ p ++ r] := by
  have hand : isPhrase "and".toList = true := by decide
  refine regroup_whole (l ++ p ++ r) [] fun a m c e hs => ?_
  -- the spaces are no part of the word
  obtain ⟨a', c', rfl, rfl, hp, hs'⟩ :=
    hs.of_pad hand (by decide) hl.blank hr.blank e
  have ho := h a' m c' hp hs'
  have hpad := isOpen_pad hl (.inl rfl) hs'.top
  rw [List.append_nil] at hpad
  rw [List.nil_append, hpad]
  exact ho

end Pad

/-- Predicates that are read back when `and` stands between them. -/
structure Divided (ps : List Text) : Prop where
  whole : ∀ p ∈ ps, Whole p
  closed : ∀ p ∈ ps.dropLast, isOpen p = false

/-- Predicates with `and` between them. -/
def andText (o : Options) (ps : List Text) : Text :=
  Text.join (' ' :: (o.keyword "and".toList ++ [' '])) ps

theorem andText_cons (o : Options) (p : Text) {ps : List Text} (h : ps ≠ []) :
    andText o (p :: ps) =
      p ++ ' ' :: (o.keyword "and".toList ++ ' ' :: andText o ps) := by
  obtain ⟨p', ps, rfl⟩ := List.exists_cons_of_ne_nil h
  simp [andText, Text.join]

/-- Predicates with `and` between them are read back, up to the spaces around
them. -/
theorem regroup_andText (o : Options) :
    ∀ {ps : List Text}, ps ≠ [] → (∀ p ∈ ps, Tidy p) → Divided ps →
      ∀ {l : Text}, Gap l →
      (regroup (split "and".toList (l ++ andText o ps)).first
      (split "and".toList (l ++ andText o ps)).rest).map Text.trim = ps
  | [], h, _, _, _, _ => absurd rfl h
  | [p], _, ht, hd, l, hl => by
    have h := regroup_pad hl (.inl rfl) (hd.whole p (by simp))
    rw [List.append_nil] at h
    rw [andText, Text.join, h, List.map_singleton,
      trim_padStart hl.blank (ht p (by simp)).trimmed]
  | p :: p' :: ps, _, ht, hd, l, hl => by
    have hand : isPhrase "and".toList = true := by decide
    have htidy := ht p (by simp)
    have ih :
        (regroup (split "and".toList ([' '] ++ andText o (p' :: ps))).first
        (split "and".toList ([' '] ++ andText o (p' :: ps))).rest).map
        Text.trim = p' :: ps :=
      regroup_andText o (by simp) (fun x hx => ht x (List.mem_cons_of_mem _ hx))
        ⟨fun x hx => hd.whole x (List.mem_cons_of_mem _ hx),
        fun x hx => hd.closed x (List.mem_cons_of_mem _ hx)⟩ (.inr rfl)
    have htext : l ++ andText o (p :: p' :: ps) = (l ++ p ++ [' ']) ++
        o.keyword "and".toList ++ ([' '] ++ andText o (p' :: ps)) := by
      rw [andText_cons o p (by simp)]
      simp
    have hs : Stands "and".toList (l ++ p ++ [' ']) (o.keyword "and".toList)
        ([' '] ++ andText o (p' :: ps)) := by
      refine ⟨lower_keyword o _, ?_, ?_, rfl⟩
      · simp [hl.top, htidy.top, depthStep]
      · rw [List.getLast?_concat]
        rfl
    have hclosed : isOpen (l ++ p ++ [' ']) = false := by
      rw [isOpen_pad hl (.inr rfl) htidy.top]
      exact hd.closed p (by simp)
    rw [htext, split_append hand (by decide) hs,
      regroup_append (regroup_pad hl (.inr rfl) (hd.whole p (by simp))) hclosed,
      List.map_cons, ih, trim_pad hl.blank htidy.trimmed blank_space]

/-- Conditions are read back. -/
theorem conditions_andText {clause : Clause} {body : Text} {ps : List Text}
    (h₀ : ps ≠ [])
    (ht : ∀ p ∈ ps, Tidy p) (hd : Divided ps) (hb : body.trim = andText o ps) :
    conditions clause body = .ok (ps.map fun p => ⟨.and, p⟩) := by
  have hp : predicates (andText o ps) = ps :=
    regroup_andText o h₀ ht hd (.inl rfl)
  rw [conditions_eq_ok_iff, hb, hp]
  exact ⟨(trimmed_tidy _ h₀ ht).2, fun p hp => (ht p hp).ne_nil, rfl⟩

/-- Predicates with `and` between them are clear of a word if each of them
is. -/
theorem clear_andText (hw : isPhrase w = true)
    (hand : ¬ ("and".toList ++ [' ']) <+: w ++ [' ']) :
    ∀ {ps : List Text}, (∀ p ∈ ps, depth p = 0) → (∀ p ∈ ps, Absent w p) →
      Clear w (andText o ps)
  | [], _, _ => clear_nil w
  | [p], hd, h => clear_piece hw (hd p (by simp)) (h p (by simp))
  | p :: p' :: ps, hd, h => by
    have ih : Clear w (andText o (p' :: ps)) :=
      clear_andText hw hand (fun x hx => hd x (List.mem_cons_of_mem _ hx))
        fun x hx => h x (List.mem_cons_of_mem _ hx)
    rw [andText_cons o p (by simp)]
    refine (clear_piece hw (hd p (by simp)) (h p (by simp))).append ?_ ?_
    · exact ih.led hw (by decide) hand
    · exact sequel_keyword o ⟨'a', _, rfl, by decide⟩ _

end SqlRiver
