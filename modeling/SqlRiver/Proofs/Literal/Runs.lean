import SqlRiver.Proofs.Literal.Remask
import SqlRiver.Proofs.Reading.Wrapped

/-!
# Layout and comments are not read

What a text says is in its quoted spans and in its characters that are no
blanks, and in the places where one of them is set off from the next. It is set
off by a *gap*: blanks and comments in any number and order. The segments
between two gaps make a *run*. The words of a masked text are its runs, each
masked by itself, so a query depends on the runs of its text only, and neither
on what a gap holds nor on a gap at an end of the text.

Main definitions and statements:

* `Segment.isGap`, `runs`: the runs of a text.
* `LiteralTable.words_maskFrom`: the words of a masked text are its masked runs.
* `parse_eq_of_runs`: texts with the same runs are read alike, and refused
  alike.
-/

namespace SqlRiver

/-! ## Runs -/

/-- Does the segment only set others off: is it a comment or a blank? -/
def Segment.isGap : Segment → Bool
  | .quoted _ => false
  | .comment _ => true
  | .plain c => isBlank c

/-- The maximal runs of segments without a gap, in order. -/
def runs (segs : List Segment) : List (List Segment) :=
  (segs.splitOnP Segment.isGap).filter fun run => !run.isEmpty

/-- The segments of a run that is all there is, if there is any. -/
theorem runs_of_forall {segs : List Segment} (h : ∀ s ∈ segs, s.isGap = false) :
    runs segs = if segs = [] then [] else [segs] := by
  rw [runs, List.splitOnP_eq_singleton h]
  cases segs <;> rfl

theorem runs_append_cons {a b : List Segment} {gap : Segment}
    (hgap : gap.isGap = true) : runs (a ++ gap :: b) = runs a ++ runs b := by
  rw [runs, List.splitOnP_append_cons a b hgap, List.filter_append]
  rfl

/-- Induction over the runs of a text: there is no gap, or one follows the first
run. -/
@[elab_as_elim]
theorem runs_induction {P : List Segment → Prop}
    (last : ∀ run, (∀ s ∈ run, s.isGap = false) → P run) (cut : ∀ run gap rest,
    (∀ s ∈ run, s.isGap = false) → gap.isGap = true → P rest →
    P (run ++ gap :: rest)) (segs : List Segment) : P segs := by
  -- The segments read so far are kept as a run that no gap has ended yet.
  suffices h : ∀ segs run : List Segment, (∀ s ∈ run, s.isGap = false) →
    P (run ++ segs) by
    simpa using h segs [] (by simp)
  intro segs
  induction segs with
  | nil => simpa using last
  | cons s segs ih =>
    intro run hrun
    cases hs : s.isGap with
    | true => exact cut run s segs hrun hs (by simpa using ih [] (by simp))
    | false =>
      have h : ∀ x ∈ run ++ [s], x.isGap = false :=
        List.forall_mem_append.2 ⟨hrun, List.forall_mem_singleton.2 hs⟩
      simpa using ih (run ++ [s]) h

/-! ## Masked runs -/

/-- The quoted spans stand in the runs. -/
theorem filterMap_runs (segs : List Segment) :
    (runs segs).flatten.filterMap Segment.literal? =
      segs.filterMap Segment.literal? := by
  have hrun {run : List Segment} (h : ∀ s ∈ run, s.isGap = false) :
      (runs run).flatten = run := by
    rw [runs_of_forall h]
    split
    · next h₀ => rw [h₀]; rfl
    · simp
  induction segs using runs_induction with
  | last run h => rw [hrun h]
  | cut run gap rest h hgap ih =>
    have hnone : gap.literal? = none := by
      cases gap with
      | quoted text => cases hgap
      | comment text => rfl
      | plain c => rfl
    rw [runs_append_cons hgap, List.flatten_append, hrun h,
      List.filterMap_append, ih, List.filterMap_append,
      List.filterMap_cons_none hnone]

namespace LiteralTable

variable {table : LiteralTable}

/-- The texts of runs that follow each other, with a placeholder for each quoted
span. -/
def maskRuns (table : LiteralTable) : Nat → List (List Segment) → List Text
  | _, [] => []
  | index, run :: more =>
    table.maskFrom index run ::
      maskRuns table (index + (run.filterMap Segment.literal?).length) more

/-- The segments behind others are masked from the next index on. -/
theorem maskFrom_append (table : LiteralTable) :
    ∀ (index : Nat) (a b : List Segment),
      table.maskFrom index (a ++ b) = table.maskFrom index a ++
      table.maskFrom (index + (a.filterMap Segment.literal?).length) b
  | _, [], _ => rfl
  | index, .plain c :: a, b =>
    congrArg (c :: ·) (maskFrom_append table index a b)
  | index, .comment _ :: a, b =>
    congrArg (' ' :: ·) (maskFrom_append table index a b)
  | index, .quoted text :: a, b => by
    rw [List.cons_append, maskFrom, maskFrom,
      maskFrom_append table (index + 1) a b, List.append_assoc,
      List.filterMap_cons_some (show (Segment.quoted text).literal? = some text
      from rfl), List.length_cons, Nat.add_right_comm, Nat.add_assoc]

/-- A gap is masked as a blank. -/
theorem maskFrom_gap (table : LiteralTable) {gap : Segment}
    (h : gap.isGap = true) (index : Nat) (segs : List Segment) :
    ∃ c, isBlank c = true ∧
      table.maskFrom index (gap :: segs) = c :: table.maskFrom index segs := by
  cases gap with
  | quoted text => cases h
  | comment text => exact ⟨' ', rfl, rfl⟩
  | plain c => exact ⟨c, h, rfl⟩

/-- A run is masked without a blank. -/
theorem noBlank_maskFrom :
    ∀ {index : Nat} {run : List Segment}, (∀ s ∈ run, s.isGap = false) →
      ∀ c ∈ table.maskFrom index run, isBlank c = false
  | _, [], _, _, hc => by cases hc
  | index, .plain d :: run, h, c, hc => by
    obtain ⟨hd, hrun⟩ := List.forall_mem_cons.1 h
    rcases List.mem_cons.1 hc with rfl | hc
    · exact hd
    · exact noBlank_maskFrom hrun c hc
  | index, .comment text :: run, h, _, _ => by
    cases (List.forall_mem_cons.1 h).1
  | index, .quoted text :: run, h, c, hc => by
    obtain ⟨-, hrun⟩ := List.forall_mem_cons.1 h
    rcases List.mem_append.1 hc with hc | hc
    · by_contra hb
      have hw := isWordChar_of_mem_placeholder table index c hc
      rw [isWordChar_of_isBlank (by simpa using hb)] at hw
      cases hw
    · exact noBlank_maskFrom hrun c hc

/-- No segment is masked to nothing. -/
theorem maskFrom_eq_nil_iff {index : Nat} : ∀ {segs : List Segment},
    table.maskFrom index segs = [] ↔ segs = []
  | [] => iff_of_true rfl rfl
  | .plain c :: segs => by simp [maskFrom]
  | .comment text :: segs => by simp [maskFrom]
  | .quoted text :: segs => by simp [maskFrom, placeholder_ne_nil]

/-- The words of a masked text are its runs, each masked by itself. -/
theorem words_maskFrom (index : Nat) (segs : List Segment) :
    Text.words (table.maskFrom index segs) =
      table.maskRuns index (runs segs) := by
  induction segs using runs_induction generalizing index with
  | last run h =>
    rw [Text.words_of_noBlank (noBlank_maskFrom h), runs_of_forall h]
    simp only [maskFrom_eq_nil_iff]
    split <;> rfl
  | cut run gap rest h hgap ih =>
    obtain ⟨c, hc, e⟩ := maskFrom_gap table hgap
      (index + (run.filterMap Segment.literal?).length) rest
    rw [maskFrom_append, e, Text.words_append hc, ih, Text.words_of_noBlank
      (noBlank_maskFrom h), runs_append_cons hgap, runs_of_forall h]
    simp only [maskFrom_eq_nil_iff]
    split
    · next h₀ => rw [h₀]; rfl
    · rfl

end LiteralTable

/-! ## Texts -/

/-- Masked texts of the same words are read the same. -/
theorem readMasked_of_words_eq (literals : LiteralTable) {t u : Text}
    (h : t.words = u.words) :
    readMasked literals t = readMasked literals u := by
  have hc : t.collapse = u.collapse := by rw [Text.collapse, Text.collapse, h]
  have hn : t.normalize = u.normalize := by
    rw [Text.normalize, Text.normalize, hc]
  rw [readMasked, readMasked, hn]

/-- Texts with the same runs, in which nothing looks like a placeholder, have
the same table. -/
theorem ofSegments_eq_of_runs {s₁ s₂ : Text} {g₁ g₂ : List Segment}
    (hs₁ : ¬ LiteralTable.tagOf 0 <:+: s₁)
    (hs₂ : ¬ LiteralTable.tagOf 0 <:+: s₂) (h : runs g₁ = runs g₂) :
    LiteralTable.ofSegments s₁ g₁ = LiteralTable.ofSegments s₂ g₂ := by
  rw [LiteralTable.ofSegments, LiteralTable.ofSegments,
    LiteralTable.unusedMarks_eq_zero hs₁, LiteralTable.unusedMarks_eq_zero hs₂,
    ← filterMap_runs g₁, ← filterMap_runs g₂, h]

/-- Layout and comments are not read: two texts with the same runs of segments
between their gaps give the same query, with the same table, or are refused with
the same error. -/
theorem parse_eq_of_runs {s₁ s₂ : Text} {g₁ g₂ : List Segment}
    (h₁ : segments s₁ = .ok g₁)
    (h₂ : segments s₂ = .ok g₂) (hs₁ : ¬ LiteralTable.tagOf 0 <:+: s₁)
    (hs₂ : ¬ LiteralTable.tagOf 0 <:+: s₂) (h : runs g₁ = runs g₂) :
    parse s₁ = parse s₂ := by
  have htable := ofSegments_eq_of_runs hs₁ hs₂ h
  have hp₁ : protect s₁ = .ok ((LiteralTable.ofSegments s₂ g₂).maskFrom 0 g₁,
      .ofSegments s₂ g₂) :=
    protect_eq_ok_iff.2 ⟨g₁, h₁, htable.symm, rfl⟩
  have hp₂ : protect s₂ = .ok ((LiteralTable.ofSegments s₂ g₂).maskFrom 0 g₂,
      .ofSegments s₂ g₂) :=
    protect_eq_ok_iff.2 ⟨g₂, h₂, rfl, rfl⟩
  have hwords : Text.words ((LiteralTable.ofSegments s₂ g₂).maskFrom 0 g₁) =
      Text.words ((LiteralTable.ofSegments s₂ g₂).maskFrom 0 g₂) := by
    rw [LiteralTable.words_maskFrom, LiteralTable.words_maskFrom, h]
  have hread := readMasked_of_words_eq (LiteralTable.ofSegments s₂ g₂) hwords
  rw [parse, parse, hp₁, hp₂]
  show (readMasked _ _ >>= _) = (readMasked _ _ >>= _)
  rw [hread]

/-- A comment with a quote in it, a line comment that the end of the text ends,
a comment glued to a word and other blanks than spaces, next to the plain
text. -/
theorem parse_runs_commented :
    (segments "select/*it's*/a,'--'\x0bfrom\u2003t--".toList).map runs =
      (segments " select a,'--' from t".toList).map runs ∧
    parse "select/*it's*/a,'--'\x0bfrom\u2003t--".toList =
      parse " select a,'--' from t".toList := by
  have h₁ : segments "select/*it's*/a,'--'\x0bfrom\u2003t--".toList =
      .ok ("select".toList.map .plain ++ [.comment "/*it's*/".toList,
      .plain 'a', .plain ',', .quoted "'--'".toList, .plain '\x0b'] ++
      "from\u2003t".toList.map .plain ++ [.comment "--".toList]) := by
    decide +kernel
  have h₂ : segments " select a,'--' from t".toList =
      .ok (" select a,".toList.map .plain ++ [.quoted "'--'".toList] ++
      " from t".toList.map .plain) := by
    decide +kernel
  refine ⟨by decide +kernel, parse_eq_of_runs h₁ h₂ ?_ ?_ (by decide +kernel)⟩
  · rw [← Text.occursIn_iff]
    decide +kernel
  · rw [← Text.occursIn_iff]
    decide +kernel

end SqlRiver
