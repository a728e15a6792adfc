import SqlRiver.Clause.Join
import SqlRiver.Proofs.Reading.Sources
import SqlRiver.Proofs.Text.Blank

/-!
# When joins are read

The readers of joins, described by the parts of the text, and the division of a
piece before the modifiers at its end.

Main statements:

* `readJoin_eq_ok_iff`, `readJoins_eq_ok_iff`: one join, and all joins of a
  query.
* `exists_trailingModifiers`: a piece is divided at a word.
-/

namespace SqlRiver

variable {nested : Nested} {literals : LiteralTable} {t rest : Text}

/-! ## One join -/

/-- The phrases that end the source of a join. -/
def joinSourceEnds : List Text :=
  [Clause.joinOn.phrase, Clause.joinUsing.phrase]

theorem isPhrase_of_mem_joinSourceEnds :
    ∀ w ∈ joinSourceEnds, isPhrase w = true := by
  decide

/-- The columns of `using` are a list in one pair of brackets. -/
theorem usingList_eq_ok_iff {columns : List Text} :
    usingList t = .ok columns ↔
      ∃ inside, t = '(' :: inside ++ [')'] ∧ isBalanced inside = true ∧
        commaList .joinUsing inside = .ok columns := by
  unfold usingList
  constructor
  · intro h
    split at h
    · next inside hu =>
      obtain ⟨rfl, hb⟩ := unwrap?_eq_some_iff.1 hu
      exact ⟨inside, rfl, hb, h⟩
    · cases h
  · rintro ⟨inside, rfl, hb, h⟩
    rw [unwrap?_eq_some_iff.2 ⟨rfl, hb⟩]
    exact h

/-- How the text behind a joined source conditions the join. -/
inductive Conditioned (kind : JoinKind) (source : Source) : Text → Join → Prop
  /-- There is no condition. -/
  | bare : Conditioned kind source [] { kind, source }
  /-- A predicate behind `on`. -/
  | predicate {m c : Text} : Stands Clause.joinOn.phrase [] m c → c.trim ≠ [] →
    Conditioned kind source (m ++ c)
      { kind, source, onPredicate := some c.trim }
  /-- A list of columns behind `using`. -/
  | columns {m c : Text} {usingColumns : List Text} :
    stripWord? Clause.joinOn.phrase (m ++ c) = none →
    Stands Clause.joinUsing.phrase [] m c →
    usingList c.trim = .ok usingColumns →
    Conditioned kind source (m ++ c) { kind, source, usingColumns }

/-- A join is a source and the condition behind it. -/
theorem readJoin_eq_ok_iff {kind : JoinKind} {body : Text} {j : Join} :
    readJoin nested literals kind body = .ok j ↔
    ∃ source rest, readSource nested literals joinSourceEnds .join body.trim =
      .ok (source, rest) ∧ Conditioned kind source rest j := by
  simp only [readJoin, bind_eq_ok]
  constructor
  · rintro ⟨⟨source, rest⟩, hs, h⟩
    refine ⟨source, rest, hs, ?_⟩
    simp only at h
    split at h
    · next h₀ =>
      cases h
      obtain rfl : rest = [] := by simpa using h₀
      exact .bare
    · next h₀ =>
      split at h
      · next behind hon =>
        obtain ⟨m, rfl, hm⟩ := stripWord?_eq_some_iff.1 hon
        split at h
        · cases h
        · next hp =>
          cases h
          exact .predicate hm (by simpa using hp)
      · next hon =>
        split at h
        · next behind hu =>
          obtain ⟨m, rfl, hm⟩ := stripWord?_eq_some_iff.1 hu
          obtain ⟨columns, hc, h⟩ := bind_eq_ok.1 h
          cases h
          exact .columns hon hm hc
        · cases h
  · rintro ⟨source, rest, hs, h⟩
    refine ⟨(source, rest), hs, ?_⟩
    cases h with
    | bare => rfl
    | @predicate m c hm hp =>
      have h₀ : m ++ c ≠ [] := by
        simp [spelling_ne_nil (isPhrase_phrase .joinOn) hm.spelled]
      simp only
      rw [if_neg (by simpa using h₀), stripWord?_eq_some_iff.2 ⟨m, rfl, hm⟩]
      simp only
      rw [if_neg (by simpa using hp)]
    | @columns m c columns hon hm hc =>
      have h₀ : m ++ c ≠ [] := by
        simp [spelling_ne_nil (isPhrase_phrase .joinUsing) hm.spelled]
      simp only
      rw [if_neg (by simpa using h₀), hon,
        stripWord?_eq_some_iff.2 ⟨m, rfl, hm⟩]
      simp only [bind_eq_ok]
      exact ⟨columns, hc, rfl⟩

/-! ## Modifiers at the end of a piece -/

/-- The last word of a text stands at its start or behind a space, with blanks
behind it. -/
theorem exists_lastWord (h tail : Text) :
    ∃ pre r, h = pre ++ lastWord (h ++ tail) h.length ++ r ∧ Text.Blank r ∧
      (pre = [] ∨ pre.getLast? = some ' ') ∧
      lastWordStart (h ++ tail) h.length = pre.length := by
  simp only [lastWord, lastWordStart, List.take_left]
  obtain ⟨r, hr, e, -⟩ := Text.exists_trimEnd h
  obtain ⟨pre, hp, hspace, -⟩ := Text.exists_afterLast ' ' (Text.trimEnd h)
  refine ⟨pre, r, ?_, hr, hspace, ?_⟩
  · rw [← hp]
    exact e
  · conv => lhs; lhs; rw [hp]
    rw [List.length_append]
    omega

/-- The modifiers at the end of a text start at a word. -/
theorem exists_modifiersStart :
    ∀ (bound : Nat) (h tail : Text), Cut h tail → ∃ x y, h ++ tail = x ++ y ∧
      modifiersStart (h ++ tail) bound h.length = x.length ∧ Cut x y
  | 0, h, tail, hcut => ⟨h, tail, rfl, rfl, hcut⟩
  | bound + 1, h, tail, hcut => by
    rw [modifiersStart]
    split
    · obtain ⟨pre, r, e, -, hspace, hstart⟩ := exists_lastWord h tail
      have e' :
          h ++ tail = pre ++ (lastWord (h ++ tail) h.length ++ r ++ tail) := by
        conv => lhs; lhs; rw [e]
        simp
      have hcut' : Cut pre (lastWord (h ++ tail) h.length ++ r ++ tail) := by
        refine .inl ?_
        rcases hspace with rfl | hspace
        · rfl
        · rw [hspace]
          rfl
      rw [hstart, e']
      exact exists_modifiersStart bound _ _ hcut'
    · exact ⟨h, tail, rfl, rfl, hcut⟩

/-- The words for a join are cut off the end of a piece. -/
theorem exists_trailingModifiers (piece : Text) :
    ∃ x y, piece = x ++ y ∧ Cut x y ∧
      trailingModifiers piece = (x.trim, y.trim) := by
  obtain ⟨x, y, e, hstart, hcut⟩ :=
    exists_modifiersStart piece.length piece [] (cut_nil_right piece)
  rw [List.append_nil] at e hstart
  refine ⟨x, y, e, hcut, ?_⟩
  rw [trailingModifiers, hstart, e, List.take_left, List.drop_left]

/-! ## All joins -/

theorem isPhrase_of_mem_joinEnds : ∀ w ∈ joinEnds, isPhrase w = true := by
  decide

/-- The joins are read from what runs up to the next clause. The piece before
the first `join` has the words for its kind only. -/
theorem readJoins_eq_ok_iff {joins : List Join} :
    readJoins nested literals t = .ok (joins, rest) ↔
    ∃ region tail, t = region ++ tail ∧ UpTo joinEnds region tail ∧
      ((region.trim = [] ∧ joins = [] ∧ rest = t) ∨
      (region.trim ≠ [] ∧ ∃ modifiers piece more,
      (split Clause.join.phrase region).pieces = modifiers :: piece :: more ∧
      joinsOf nested literals modifiers (piece :: more) = .ok joins ∧
      rest = tail.trim)) := by
  unfold readJoins
  constructor
  · intro h
    cases hc : cutBefore joinEnds t with
    | mk region tail =>
      obtain ⟨rfl, hu⟩ := (cutBefore_eq_iff isPhrase_of_mem_joinEnds).1 hc
      refine ⟨region, tail, rfl, hu, ?_⟩
      simp only [hc] at h
      split at h
      · next h₀ =>
        cases h
        exact .inl ⟨by simpa using h₀, rfl, rfl⟩
      · next h₀ =>
        refine .inr ⟨by simpa using h₀, ?_⟩
        split at h
        · next modifiers piece more hp =>
          obtain ⟨js, hj, h⟩ := bind_eq_ok.1 h
          cases h
          exact ⟨modifiers, piece, more, hp, hj, rfl⟩
        · cases h
  · rintro ⟨region, tail, rfl, hu, h⟩
    simp only [(cutBefore_eq_iff isPhrase_of_mem_joinEnds).2 ⟨rfl, hu⟩]
    rcases h with ⟨h₀, rfl, rfl⟩ | ⟨h₀, modifiers, piece, more, hp, hj, rfl⟩
    · rw [if_pos (by simp [h₀])]
    · rw [if_neg (by simpa using h₀), hp]
      simp only [bind_eq_ok]
      exact ⟨joins, hj, rfl⟩

end SqlRiver
