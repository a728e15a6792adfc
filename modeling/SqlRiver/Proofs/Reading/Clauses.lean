import SqlRiver.Clause.Basic
import SqlRiver.Clause.Join
import SqlRiver.Proofs.Split

/-!
# When readers succeed

One statement for each reader: the texts it reads, and what it answers for them.
A text is described by the parts it is put together from, with keywords that
stand between them, and never by positions.

Main statements:

* `commaList_eq_ok_iff`, `conditions_eq_ok_iff`: lists and conditions.
* `readTrailing_eq_ok_iff`, `readOrderBy_eq_ok_iff`: the clauses at the end.
* `cutBefore_eq_iff`, `bodyOf?_eq_none_iff`, `bodyOf?_eq_some_iff`: a clause at
  the start.
* `readGroupBy_eq_ok_iff`, `readFilter_eq_ok_iff`, `readHaving_eq_ok_iff`: the
  clauses at the start.
-/

namespace SqlRiver

variable {clause : Clause} {t rest : Text}

/-- A computation of two steps answers what the second step answers. -/
theorem bind_eq_ok {ε α β : Type} {x : Except ε α} {f : α → Except ε β}
    {v : β} : (x >>= f) = .ok v ↔ ∃ a, x = .ok a ∧ f a = .ok v := by
  cases x with
  | error e => simp [bind, Except.bind]
  | ok a => simp [bind, Except.bind]

/-! ## Lists and conditions -/

/-- A list is read if it is not blank and none of its entries is. -/
theorem commaList_eq_ok_iff {body : Text} {entries : List Text} :
    commaList clause body = .ok entries ↔ body.trim ≠ [] ∧
    entries = (split [','] body.trim).pieces ∧ ∀ e ∈ entries, e ≠ [] := by
  simp only [commaList]
  by_cases h₀ : body.trim = []
  · simp [h₀]
  · rw [if_neg (by simpa using h₀)]
    by_cases he : (split [','] body.trim).pieces.any List.isEmpty = true
    · rw [if_pos he]
      obtain ⟨e, hm, h⟩ := List.any_eq_true.1 he
      simp only [reduceCtorEq, false_iff, not_and]
      rintro - rfl hne
      exact hne e hm (by simpa using h)
    · rw [if_neg he]
      simp only [Except.ok.injEq]
      constructor
      · rintro rfl
        refine ⟨h₀, rfl,
          fun e hm h => he (List.any_eq_true.2 ⟨e, hm, by simp [h]⟩)⟩
      · rintro ⟨-, h, -⟩
        exact h.symm

/-- The predicates that a text is divided into, trimmed. -/
def predicates (body : Text) : List Text :=
  (regroup (split "and".toList body).first (split "and".toList body).rest).map
    Text.trim

/-- Conditions are read if their text is not blank and none of the predicates
is. Each is joined by `and`. -/
theorem conditions_eq_ok_iff {body : Text} {conds : List Condition} :
    conditions clause body = .ok conds ↔
      body.trim ≠ [] ∧ (∀ p ∈ predicates body.trim, p ≠ []) ∧
        conds = (predicates body.trim).map fun p => ⟨.and, p⟩ := by
  simp only [conditions]
  by_cases h₀ : body.trim = []
  · simp [h₀]
  · rw [if_neg (by simpa using h₀)]
    change (if (predicates body.trim).any List.isEmpty = true then _ else _) =
      _ ↔ _
    by_cases he : (predicates body.trim).any List.isEmpty = true
    · rw [if_pos he]
      obtain ⟨e, hm, h⟩ := List.any_eq_true.1 he
      simp only [reduceCtorEq, false_iff, not_and]
      intro _ hne
      exact absurd (by simpa using h) (hne e hm)
    · rw [if_neg he]
      simp only [Except.ok.injEq]
      constructor
      · rintro rfl
        refine ⟨h₀, fun e hm h => he (List.any_eq_true.2 ⟨e, hm, by simp [h]⟩),
          rfl⟩
      · rintro ⟨-, -, h⟩
        exact h.symm

/-! ## Clauses at the end -/

/-- A clause that may end a text: `P` is asked where its keyword is absent, `Q`
of the parts around the last place of the keyword where it is not. -/
theorem aroundLast?_match_iff {P : Prop} {Q : Text → Text → Prop} :
    (match aroundLast? clause.phrase t with
      | none => P
      | some (a, c) => Q a c) ↔
    (Absent clause.phrase t ∧ P) ∨ ∃ a m c, t = a ++ m ++ c ∧
      Stands clause.phrase a m c ∧ Absent clause.phrase c ∧ Q a c := by
  have hp := isPhrase_phrase clause
  cases h : aroundLast? clause.phrase t with
  | none =>
    have ha := (aroundLast?_eq_none_iff hp).1 h
    refine ⟨fun hP => .inl ⟨ha, hP⟩, ?_⟩
    rintro (⟨-, hP⟩ | ⟨a, m, c, e, hs, -⟩)
    · exact hP
    · exact absurd hs (ha a m c e)
  | some cut =>
    obtain ⟨a, c⟩ := cut
    obtain ⟨m, e, hs, hc⟩ := (aroundLast?_eq_some_iff hp).1 h
    refine ⟨fun hQ => .inr ⟨a, m, c, e, hs, hc, hQ⟩, ?_⟩
    rintro (⟨ha, -⟩ | ⟨a', m', c', e', hs', hc', hQ⟩)
    · exact absurd hs (ha a m c e)
    · -- the keyword has one last place
      have h' := (aroundLast?_eq_some_iff hp).2 ⟨m', e', hs', hc'⟩
      rw [h] at h'
      cases h'
      exact hQ

/-- A clause at the end is what follows the last place of its keyword, if there
is one. -/
theorem readTrailing_eq_ok_iff {v : Option Text} :
    readTrailing clause t = .ok (v, rest) ↔
    (Absent clause.phrase t ∧ v = none ∧ rest = t) ∨ ∃ a m c, t = a ++ m ++ c ∧
      Stands clause.phrase a m c ∧ Absent clause.phrase c ∧
      c.trim ≠ [] ∧ v = some c.trim ∧ rest = a.trim := by
  rw [← aroundLast?_match_iff, readTrailing]
  cases aroundLast? clause.phrase t with
  | none => simp [eq_comm]
  | some cut =>
    obtain ⟨a, c⟩ := cut
    by_cases h₀ : c.trim = []
    · simp [h₀]
    · simpa [h₀] using and_congr eq_comm eq_comm

/-- The ordering is the list behind the last `order by`, if there is one. -/
theorem readOrderBy_eq_ok_iff {entries : List Text} :
    readOrderBy t = .ok (entries, rest) ↔
    (Absent Clause.orderBy.phrase t ∧ entries = [] ∧ rest = t) ∨
    ∃ a m c, t = a ++ m ++ c ∧ Stands Clause.orderBy.phrase a m c ∧
      Absent Clause.orderBy.phrase c ∧ commaList .orderBy c = .ok entries ∧
      rest = a.trim := by
  rw [← aroundLast?_match_iff, readOrderBy]
  cases aroundLast? Clause.orderBy.phrase t with
  | none => simp [eq_comm]
  | some cut =>
    simp only [bind_eq_ok, Except.ok.injEq, Prod.mk.injEq]
    constructor
    · rintro ⟨_, hl, rfl, rfl⟩
      exact ⟨hl, rfl⟩
    · rintro ⟨hl, rfl⟩
      exact ⟨entries, hl, rfl, rfl⟩

/-! ## Clauses at the start -/

/-- The text `x` runs up to the first of several words: `y` starts with one of
them, or is empty. -/
structure UpTo (words : List Text) (x y : Text) : Prop where
  absent : ∀ w ∈ words, AbsentIn w x y
  stop : y = [] ∨ ∃ w ∈ words, ∃ m c, y = m ++ c ∧ Stands w x m c

theorem UpTo.cut {words : List Text} {x y : Text} (h : UpTo words x y) :
    Cut x y := by
  rcases h.stop with rfl | ⟨w, -, m, c, -, hs⟩
  · exact cut_nil_right x
  · exact .inl hs.left

/-- The phrases of clauses are phrases. -/
theorem isPhrase_of_mem_phrases {ends : List Clause} :
    ∀ w ∈ ends.map Clause.phrase, isPhrase w = true := by
  intro w hw
  obtain ⟨clause, -, rfl⟩ := List.mem_map.1 hw
  exact isPhrase_phrase clause

/-- The first of several words stands where the text that runs up to it ends. -/
theorem firstPosition?_of_upTo {words : List Text}
    (hw : ∀ w ∈ words, isPhrase w = true) {x y : Text} (h : UpTo words x y) :
    firstPosition? words (x ++ y) = if y = [] then none else some x.length := by
  rcases h.stop with rfl | ⟨w, hm, m, c, rfl, hs⟩
  · rw [if_pos rfl, List.append_nil, firstPosition?_eq_none_iff]
    intro w hm
    exact (absentIn_nil_iff (hw w hm)).1 (h.absent w hm)
  · have h₀ : m ++ c ≠ [] := by
      simp [spelling_ne_nil (hw w hm) hs.spelled]
    rw [if_neg h₀, firstPosition?_eq_some_iff]
    exact ⟨x, m, c, by simp, rfl, ⟨w, hm, hs⟩, h.absent⟩

/-- A text is cut before the first of several words. -/
theorem cutBefore_eq_iff {words : List Text}
    (hw : ∀ w ∈ words, isPhrase w = true) {x y : Text} :
    cutBefore words t = (x, y) ↔ t = x ++ y ∧ UpTo words x y := by
  constructor
  · intro h
    unfold cutBefore at h
    split at h
    · next pos hp =>
      obtain ⟨a, m, c, rfl, rfl, ⟨w, hm, hs⟩, habs⟩ :=
        firstPosition?_eq_some_iff.1 hp
      simp only [List.append_assoc, List.take_left, List.drop_left,
        Prod.mk.injEq] at h
      obtain ⟨rfl, rfl⟩ := h
      exact ⟨by simp, habs, .inr ⟨w, hm, m, c, rfl, hs⟩⟩
    · next hp =>
      cases h
      refine ⟨by simp, fun w hm => ?_, .inl rfl⟩
      exact (absentIn_nil_iff (hw w hm)).2
        (firstPosition?_eq_none_iff.1 hp w hm)
  · rintro ⟨rfl, h⟩
    rw [cutBefore, firstPosition?_of_upTo hw h]
    by_cases h₀ : y = []
    · simp [h₀]
    · simp [h₀]

/-- A clause at the start has its keyword first, and its body runs up to the
first of the clauses that may follow. -/
theorem bodyOf?_eq_some_iff {ends : List Clause} {body : Text} :
    bodyOf? clause ends t = some (body, rest) ↔
    ∃ m tail, t = m ++ (body ++ tail) ∧
      Stands clause.phrase [] m (body ++ tail) ∧
      UpTo (ends.map Clause.phrase) body tail ∧ rest = tail.trim := by
  unfold bodyOf?
  rw [Option.map_eq_some_iff]
  constructor
  · rintro ⟨behind, hb, h⟩
    obtain ⟨m, rfl, hs⟩ := stripWord?_eq_some_iff.1 hb
    cases hc : cutBefore (ends.map Clause.phrase) behind with
    | mk x y =>
      obtain ⟨rfl, hu⟩ := (cutBefore_eq_iff isPhrase_of_mem_phrases).1 hc
      simp only [hc, Prod.mk.injEq] at h
      obtain ⟨rfl, rfl⟩ := h
      exact ⟨m, y, rfl, hs, hu, rfl⟩
  · rintro ⟨m, tail, rfl, hs, hu, rfl⟩
    refine ⟨body ++ tail, stripWord?_eq_some_iff.2 ⟨m, rfl, hs⟩, ?_⟩
    simp only [(cutBefore_eq_iff isPhrase_of_mem_phrases).2 ⟨rfl, hu⟩]

/-- There is no clause at the start if its keyword is not there. -/
theorem bodyOf?_eq_none_iff {ends : List Clause} :
    bodyOf? clause ends t = none ↔ stripWord? clause.phrase t = none := by
  simp [bodyOf?]

/-- A clause that may be absent: where it is, its reader answers `v₀` and leaves
the text alone. -/
theorem optional_eq_ok_iff {α : Type} {o : Option (Text × Text)} {v₀ v : α}
    {read : Text → Except ParseError α} :
    (match o with
      | none => Except.ok (v₀, t)
      | some (body, rest') =>
        (read body >>= fun v => Except.ok (v, rest'))) = .ok (v, rest) ↔
      (o = none ∧ v = v₀ ∧ rest = t) ∨ ∃ body, o = some (body, rest) ∧
          read body = .ok v := by
  cases o with
  | none =>
    simp only [Except.ok.injEq, Prod.mk.injEq, true_and, reduceCtorEq,
      false_and, exists_false, or_false]
    exact and_congr eq_comm eq_comm
  | some cut =>
    obtain ⟨body, rest'⟩ := cut
    simp only [bind_eq_ok, Except.ok.injEq, Prod.mk.injEq, reduceCtorEq,
      false_and, false_or, Option.some.injEq]
    constructor
    · rintro ⟨_, hl, rfl, rfl⟩
      exact ⟨body, ⟨rfl, rfl⟩, hl⟩
    · rintro ⟨_, ⟨rfl, rfl⟩, hl⟩
      exact ⟨v, hl, rfl, rfl⟩

/-- The grouping is the list behind `group by`, if the text starts with it. -/
theorem readGroupBy_eq_ok_iff {entries : List Text} :
    readGroupBy t = .ok (entries, rest) ↔
    (bodyOf? .groupBy [.having, .orderBy, .limit] t = none ∧ entries = [] ∧
      rest = t) ∨
    ∃ body, bodyOf? .groupBy [.having, .orderBy, .limit] t = some (body, rest) ∧
      commaList .groupBy body = .ok entries :=
  optional_eq_ok_iff

/-- The filter has the conditions behind `where`, if the text starts with it. -/
theorem readFilter_eq_ok_iff {conds : List Condition} :
    readFilter t = .ok (conds, rest) ↔
    (bodyOf? .filter [.groupBy, .having, .orderBy, .limit] t = none ∧
      conds = [] ∧ rest = t) ∨
    ∃ body, bodyOf? .filter [.groupBy, .having, .orderBy, .limit] t =
      some (body, rest) ∧ conditions .filter body = .ok conds :=
  optional_eq_ok_iff

/-- The filter of groups has the conditions behind `having`, if the text starts
with it. It needs a grouping. -/
theorem readHaving_eq_ok_iff {grouped : Bool} {conds : List Condition} :
    readHaving grouped t = .ok (conds, rest) ↔
      (bodyOf? .having [.orderBy, .limit] t = none ∧ conds = [] ∧ rest = t) ∨
        ∃ body, bodyOf? .having [.orderBy, .limit] t = some (body, rest) ∧
          grouped = true ∧ conditions .having body = .ok conds := by
  cases grouped with
  | true =>
    simp only [true_and]
    exact optional_eq_ok_iff
  | false =>
    unfold readHaving
    cases bodyOf? .having [.orderBy, .limit] t with
    | none => simp [eq_comm]
    | some cut => simp

end SqlRiver
