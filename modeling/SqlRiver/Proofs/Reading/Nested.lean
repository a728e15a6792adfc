import SqlRiver.Proofs.Reading.Joins
import SqlRiver.Query.Read

/-!
# Queries inside a query that is read

A query in brackets comes from the reader of such queries, whatever stands
around it. So what holds of every query at one level, given that it holds of the
queries inside it, holds at all levels.

Main definitions and statements:

* `Source.From`: the query in a source was read by the given reader.
* `from_readClauses`: the sources of a query that is read.
* `readQuery_induction`: induction over the levels of a query that is read.
-/

namespace SqlRiver

variable {nested : Nested} {literals : LiteralTable} {t rest : Text}

/-- The query in a source, if it is one, was read by `nested`. -/
def Source.From (nested : Nested) : Source → Prop
  | .table _ _ => True
  | .subquery query _ => ∃ t, nested t = .ok query

theorem Source.From.withAlias {s : Source} (h : s.From nested) (name : Text) :
    (s.withAlias name).From nested := by
  cases s with
  | table n a => trivial
  | subquery q a => exact h

/-- The query in a source that is read comes from the nested reader. -/
theorem from_readSource {ends : List Text} {clause : Clause}
    (hw : ∀ w ∈ ends, isPhrase w = true) {s : Source}
    (h : readSource nested literals ends clause t = .ok (s, rest)) :
    s.From nested := by
  obtain ⟨s₀, x, y, v, hb, -, -, rfl, -⟩ := (readSource_eq_ok_iff hw).1 h
  have h₀ : s₀.From nested := by
    rcases readBare_eq_ok_iff.1 hb with
      ⟨inside, _, q, _, _, hq, rfl, _⟩ | ⟨_, _, _, _, _, _, _, rfl, _⟩
    · exact ⟨_, hq⟩
    · trivial
  cases v with
  | none => exact h₀
  | some name => exact h₀.withAlias name

/-- The queries in sources behind a comma come from the nested reader. -/
theorem from_readMore :
    ∀ {bound : Nat} {t rest : Text} {js : List Join},
      readMore nested literals bound t = .ok (js, rest) →
      ∀ j ∈ js, j.source.From nested
  | 0, t, rest, js, h => by
    rw [readMore] at h
    cases h
    simp
  | bound + 1, t, rest, js, h => by
    rw [readMore] at h
    split at h
    · cases h
      simp
    · obtain ⟨⟨s, u⟩, hs, h⟩ := bind_eq_ok.1 h
      obtain ⟨⟨more, v⟩, hm, h⟩ := bind_eq_ok.1 h
      cases h
      intro j hj
      rcases List.mem_cons.1 hj with rfl | hj
      · exact from_readSource isPhrase_of_mem_sourceEnds hs
      · exact from_readMore hm j hj

/-- The query in a join comes from the nested reader. -/
theorem from_readJoin {kind : JoinKind} {body : Text} {j : Join}
    (h : readJoin nested literals kind body = .ok j) :
    j.source.From nested := by
  obtain ⟨s, rest, hs, hc⟩ := readJoin_eq_ok_iff.1 h
  have hfrom := from_readSource isPhrase_of_mem_joinSourceEnds hs
  cases hc <;> exact hfrom

/-- The queries in joins come from the nested reader, by induction on the
pieces. -/
theorem from_joinsOf :
    ∀ {pieces : List Text} {mods : Text} {js : List Join},
      joinsOf nested literals mods pieces = .ok js →
      ∀ j ∈ js, j.source.From nested
  | [], mods, js, h => by
    rw [joinsOf] at h
    cases h
    simp
  | [piece], mods, js, h => by
    simp only [joinsOf, bind_eq_ok] at h
    obtain ⟨kind, -, j, hj, h⟩ := h
    cases h
    intro j' hj'
    obtain rfl := List.mem_singleton.1 hj'
    exact from_readJoin hj
  | piece :: piece' :: more, mods, js, h => by
    simp only [joinsOf, bind_eq_ok] at h
    obtain ⟨kind, -, j, hj, js', hjs, h⟩ := h
    cases h
    intro j' hj'
    rcases List.mem_cons.1 hj' with rfl | hj'
    · exact from_readJoin hj
    · exact from_joinsOf hjs j' hj'

/-- The queries in the joins of a text come from the nested reader. -/
theorem from_readJoins {js : List Join}
    (h : readJoins nested literals t = .ok (js, rest)) :
    ∀ j ∈ js, j.source.From nested := by
  obtain ⟨region, tail, -, -, ⟨-, rfl, -⟩ | ⟨-, mods, p, ps, -, hj, -⟩⟩ :=
    readJoins_eq_ok_iff.1 h
  · simp
  · exact from_joinsOf hj

/-- What is known of a query from its reader alone. -/
structure ReadWith (nested : Nested) (literals : LiteralTable) (depth : Nat)
    (q : Query) : Prop where
  columns : q.columns ≠ []
  source : q.source.From nested
  joins : ∀ j ∈ q.joins, j.source.From nested
  literals : q.literals = literals
  depth : q.depth = depth

theorem columns_readSelect {d : Bool} {columns : List Column}
    (h : readSelect literals t = .ok ((d, columns), rest)) : columns ≠ [] := by
  obtain ⟨m, list, m', tail, l, entries, -, -, -, -, -, -, hl, rfl, -⟩ :=
    readSelect_eq_ok_iff.1 h
  obtain ⟨-, rfl, -⟩ := commaList_eq_ok_iff.1 hl
  simp [Split.pieces, Split.parts]

/-- A query that is read has the table and the depth of the reader, and its
sources come from the nested one. -/
theorem readWith_readClauses {depth : Nat} {q : Query}
    (h : readClauses nested literals depth t = .ok q) :
    ReadWith nested literals depth q := by
  simp only [readClauses, bind_eq_ok] at h
  obtain ⟨⟨limit, t₁⟩, -, ⟨offset, t₂⟩, -, ⟨orderBy, t₃⟩, -,
      ⟨⟨distinct, columns⟩, t₄⟩, h₄, ⟨⟨source, listed⟩, t₅⟩, h₅, ⟨joined, t₆⟩,
      h₆, ⟨filter, t₇⟩, -, ⟨groupBy, t₈⟩, -, ⟨having, t₉⟩, -, ⟨⟩, -, h⟩ := h
  cases h
  simp only [readSources, bind_eq_ok] at h₅
  obtain ⟨⟨s, u⟩, hs, ⟨js, v⟩, hm, h₅⟩ := h₅
  cases h₅
  refine ⟨columns_readSelect h₄, from_readSource isPhrase_of_mem_sourceEnds hs,
    ?_, rfl, rfl⟩
  intro j hj
  rcases List.mem_append.1 hj with hj | hj
  · exact from_readMore hm j hj
  · exact from_readJoins h₆ j hj

/-- A statement that is read is read by its clauses. -/
theorem readStatement_eq_ok {depth : Nat} {q : Query}
    (h : readStatement nested literals depth t = .ok q) :
    readClauses nested literals depth t = .ok q := by
  unfold readStatement at h
  split at h
  · cases h
  · split at h
    · split at h
      · exact h
      · split at h <;> cases h
    · cases h

/-- What holds of a query if it holds of the queries inside it holds of every
query that is read. -/
theorem readQuery_induction {P : Nat → Query → Prop} (step : ∀ room q,
    ReadWith (readQuery literals room) literals (maxDepth - (room + 1)) q →
    (∀ t q, readQuery literals room t = .ok q → P room q) → P (room + 1) q)
    (base : ∀ q, ReadWith (fun _ => .error .tooDeep) literals maxDepth q →
    P 0 q) : ∀ room t q, readQuery literals room t = .ok q → P room q
  | 0, _, q, h => base q (readWith_readClauses (readStatement_eq_ok h))
  | room + 1, _, q, h =>
    step room q (readWith_readClauses (readStatement_eq_ok h))
      (readQuery_induction step base room)

end SqlRiver
