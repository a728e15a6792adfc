import SqlRiver.Proofs.Line.Query

/-!
# Properties that the parts of a text inherit

Readers divide a text in few ways: at a keyword, where a clause ends, behind a
bracket, and at the end of a name or an alias. Each of these cuts is made at
depth zero, next to an edge or before a comma. So a property that passes to the
parts at such cuts passes to everything that a reader keeps or leaves.

Main definitions and statements:

* `Inherited`: a property that passes to the parts of a text.
* `Inherited.stands`, `Inherited.upTo`, `Inherited.trim`: keywords, clauses and
  blanks.
* `Inherited.brackets`, `Inherited.nameEnds`, `Inherited.upToComma`,
  `Inherited.behindComma`: sources.
* `Inherited.trailingModifiers`: what stands before the words that choose a kind
  of join.
-/

namespace SqlRiver

open Text

/-- A property of texts in good order that passes to both parts where a text is
cut at depth zero next to an edge, and to what a comma starts. -/
structure Inherited (P : Text → Prop) : Prop where
  orderly : ∀ {t}, P t → Orderly t
  nil : P []
  cut : ∀ {a b}, P (a ++ b) → depth a = 0 → Cut a b → P a ∧ P b
  comma : ∀ {a b}, P (a ++ ',' :: b) → depth a = 0 → P (',' :: b)

namespace Inherited

variable {P : Text → Prop} {t a b m c p : Text}

/-! ## Clauses -/

theorem stands (hP : Inherited P) {v : Text} (h : P (a ++ m ++ c))
    (hv : isPhrase v = true) (hs : Stands v a m c) : P a ∧ P c := by
  obtain ⟨ham, hc⟩ := hP.cut h (hs.depth_eq hv) (.inr hs.right)
  exact ⟨(hP.cut ham hs.top (.inl hs.left)).1, hc⟩

/-- Both parts of a text that is cut before a word inherit a property from
it. -/
theorem upTo (hP : Inherited P) {words : List Text} (h : P (a ++ b))
    (hu : UpTo words a b) : P a ∧ P b :=
  hP.cut h (depth_of_isBalanced ((hP.orderly h).upTo hu).1.balanced) hu.cut

/-- A text without the spaces around it inherits a property. -/
theorem trim (hP : Inherited P) (h : P t) : P t.trim := by
  have ho := hP.orderly h
  obtain ⟨l, r, hl, hr, e⟩ := exists_trim t
  have hl' : l.SpaceOnly :=
    ho.thin.spaceOnly.of_subset fun d hd => by rw [e]; simp [hd]
  have hr' : r.SpaceOnly :=
    ho.thin.spaceOnly.of_subset fun d hd => by rw [e]; simp [hd]
  have hd := depth_of_isBalanced ho.trim.balanced
  rw [e, List.append_assoc] at h
  have hbehind := (hP.cut h (depth_blank hl) (cut_blank_left hl hl' _)).2
  exact (hP.cut hbehind hd (cut_blank_right hr hr' _)).1

/-! ## Sources and joins -/

/-- What stands behind a bracket, whatever stands before the bracket. -/
theorem brackets (hP : Inherited P) {inside tail : Text}
    (h : P (p ++ ('(' :: inside ++ ')' :: tail)))
    (hp : depth p = 0) (hi : isBalanced inside = true) : P tail := by
  have e : p ++ ('(' :: inside ++ ')' :: tail) =
      (p ++ '(' :: (inside ++ [')'])) ++ tail := by simp
  have hd : depth (p ++ '(' :: (inside ++ [')'])) = 0 := by
    rw [depth_append, hp, depth_of_isBalanced (isBalanced_brackets hi)]
    rfl
  rw [e] at h
  refine (hP.cut h hd (.inl ?_)).2
  rw [← List.cons_append, ← List.append_assoc, List.getLast?_concat]
  rfl

/-- What stands behind a name, whatever stands before the name. -/
theorem nameEnds (hP : Inherited P) {name tail : Text}
    (h : P (p ++ (name ++ tail))) (hp : depth p = 0) (hn : NameEnds name tail) :
    P tail := by
  cases tail with
  | nil => exact hP.nil
  | cons c tail =>
    obtain ⟨hd, hc⟩ := hn.stop c rfl
    have hd' : depth (p ++ name) = 0 := by rw [depth_append, hp, hd]; rfl
    rw [← List.append_assoc] at h
    -- a name ends at a space or at a comma
    obtain rfl | rfl : c = ' ' ∨ c = ',' := by simpa [endsName] using hc
    · exact (hP.cut h hd' (cut_of_head rfl _ _)).2
    · exact hP.comma h hd'

/-- What stands behind the alias of a source. -/
theorem upToComma (hP : Inherited P) {ends : List Text} {x y : Text}
    (h : P (x ++ y)) (hu : UpToComma ends x y) : P y := by
  rcases hu.stop with rfl | ⟨hd, hcomma⟩ | ⟨w, -, m, c, rfl, hs⟩
  · exact hP.nil
  · obtain ⟨y, rfl⟩ := List.head?_eq_some_iff.1 hcomma
    exact hP.comma h hd
  · exact (hP.cut h hs.top (.inl hs.left)).2

/-- A source behind a comma, together with the comma. -/
theorem behindComma (hP : Inherited P) {tail : Text} (h : P (',' :: tail)) :
    ∃ l, depth l = 0 ∧ P (l ++ tail.trim) := by
  have hspace := (hP.orderly h).thin.spaceOnly
  obtain ⟨l, r, hl, hr, e⟩ := exists_trim tail
  have hr' : r.SpaceOnly := hspace.of_subset fun d hd => by rw [e]; simp [hd]
  have hd : depth (',' :: l) = 0 := by simp [depth_blank hl, depthStep]
  have hcut : P ((',' :: l ++ tail.trim) ++ r) := by
    rwa [List.cons_append, List.cons_append, ← e]
  have hd' : depth (',' :: l ++ tail.trim) = 0 := by
    have hbal := depth_of_isBalanced (hP.orderly hcut).balanced
    rwa [depth_append, depth_blank hr, Int.add_zero] at hbal
  exact ⟨',' :: l, hd, (hP.cut hcut hd' (cut_blank_right hr hr' _)).1⟩

/-- What is left before the words for a join inherits a property from the
piece. -/
theorem trailingModifiers (hP : Inherited P) (h : P t) :
    P (SqlRiver.trailingModifiers t).1 := by
  obtain ⟨x, y, e, hcut, hxy⟩ := exists_trailingModifiers t
  have ho := orderly_trailingModifiers (hP.orderly h)
  obtain ⟨l, r, hl, hr, ex⟩ := exists_trim x
  have hd : depth x = 0 := by
    rw [hxy] at ho
    rw [ex, depth_append, depth_append, depth_blank hl, depth_blank hr,
      depth_of_isBalanced ho.balanced]
    rfl
  rw [hxy]
  rw [e] at h
  exact hP.trim (hP.cut h hd hcut).1

end Inherited

end SqlRiver
