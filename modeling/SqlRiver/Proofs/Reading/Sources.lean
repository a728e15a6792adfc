import SqlRiver.Clause.Source
import SqlRiver.Proofs.Reading.Clauses
import SqlRiver.Proofs.Text.Blank

/-!
# When select lists and sources are read

The readers of the select list and of what follows `from`, a comma or `join`,
described in the same way as those of the other clauses.

Main statements:

* `readSelect_eq_ok_iff`: the select list.
* `readBare_eq_ok_iff`, `sourceAlias_eq_ok_iff`: a source and its alias.
* `UpToComma`, `aliasPosition_eq_iff`: where the alias of a source ends.
* `readSource_eq_ok_iff`, `readMore_succ`: a source with its alias, and sources
  behind commas.
-/

namespace SqlRiver

variable {nested : Nested} {literals : LiteralTable} {clause : Clause}
  {t rest : Text}

/-! ## The select list -/

theorem isPhrase_as : isPhrase "as".toList = true := by decide

theorem isPhrase_distinct : isPhrase "distinct".toList = true := by decide

/-- The columns are the list between `select` and the first `from`, without
`distinct`. -/
theorem readSelect_eq_ok_iff {d : Bool} {columns : List Column} :
    readSelect literals t = .ok ((d, columns), rest) ↔
    ∃ m list m' tail l entries, t = m ++ (list ++ m' ++ tail) ∧
      Stands Clause.select.phrase [] m (list ++ m' ++ tail) ∧
      Stands Clause.source.phrase list m' tail ∧
      AbsentIn Clause.source.phrase list (m' ++ tail) ∧
      stripDistinct list.trim = (d, l) ∧ l ≠ [] ∧
      commaList .select l = .ok entries ∧
      columns = entries.map (columnOf literals) ∧ rest = tail.trim := by
  unfold readSelect
  constructor
  · intro h
    split at h
    · cases h
    · next behind hb =>
      obtain ⟨m, rfl, hs⟩ := stripWord?_eq_some_iff.1 hb
      split at h
      · cases h
      · next list tail hf =>
        obtain ⟨m', rfl, hs', habs⟩ :=
          (aroundFirst?_eq_some_iff (isPhrase_phrase .source)).1 hf
        cases hd : stripDistinct list.trim with
        | mk d' l =>
          simp only [hd] at h
          split at h
          · cases h
          · next h₀ =>
            obtain ⟨entries, he, h⟩ := bind_eq_ok.1 h
            cases h
            exact ⟨m, list, m', tail, l, entries, rfl, hs, hs', habs, hd,
              by simpa using h₀, he, rfl, rfl⟩
  · rintro ⟨m, list, m', tail, l, entries, rfl, hs, hs', habs, hd, h₀, he, rfl,
      rfl⟩
    have hb := stripWord?_eq_some_iff.2 ⟨m, rfl, hs⟩
    have hf := (aroundFirst?_eq_some_iff (isPhrase_phrase .source)).2
      ⟨m', rfl, hs', habs⟩
    simp only [hb, hf, hd]
    rw [if_neg (by simpa using h₀), bind_eq_ok]
    exact ⟨entries, he, rfl⟩

/-- An alias stands behind the last `as`, with an expression before it. -/
theorem explicitAlias?_eq_some_iff {entry e n : Text} :
    explicitAlias? entry = some (e, n) ↔ ∃ a m c, entry = a ++ m ++ c ∧
      Stands "as".toList a m c ∧ Absent "as".toList c ∧
      a.trim ≠ [] ∧ isAlias c.trim = true ∧ e = a.trim ∧ n = c.trim := by
  unfold explicitAlias?
  constructor
  · intro h
    split at h
    · cases h
    · next a c hc =>
      obtain ⟨m, rfl, hs, habs⟩ := (aroundLast?_eq_some_iff isPhrase_as).1 hc
      simp only at h
      split at h
      · next hn =>
        cases h
        obtain ⟨h₀, hn⟩ : a.trim ≠ [] ∧ isAlias c.trim = true := by
          simpa using hn
        exact ⟨a, m, c, rfl, hs, habs, h₀, hn, rfl, rfl⟩
      · cases h
  · rintro ⟨a, m, c, rfl, hs, habs, h₀, hn, rfl, rfl⟩
    rw [(aroundLast?_eq_some_iff isPhrase_as).2 ⟨m, rfl, hs, habs⟩]
    simp only
    rw [if_pos (by simp [h₀, hn])]

/-- An alias without `as` is the last word, behind an expression that does not
go on. A closing bracket is no end of an alias. -/
theorem implicitAlias?_eq_some_iff {entry e n : Text} :
    implicitAlias? entry = some (e, n) ↔ entry.getLast? ≠ some ')' ∧
    ∃ a, entry = a ++ ' ' :: n ∧ ' ' ∉ n ∧ e = Text.trimEnd a ∧
      e ≠ [] ∧ isAlias n = true ∧ continues e = false := by
  unfold implicitAlias? Text.endsWith
  constructor
  · intro h
    split at h
    · cases h
    · next hl =>
      refine ⟨by simpa using hl, ?_⟩
      split at h
      · cases h
      · next a name hc =>
        obtain ⟨rfl, hn⟩ := Text.cutLast_eq_some_iff.1 hc
        simp only at h
        split at h
        · cases h
        · next hcond =>
          cases h
          obtain ⟨⟨h₀, ha⟩, hcont⟩ : (Text.trimEnd a ≠ [] ∧ isAlias n = true) ∧
              continues (Text.trimEnd a) = false := by
            simpa [Bool.or_eq_true, not_or] using hcond
          exact ⟨a, rfl, hn, rfl, h₀, ha, hcont⟩
  · rintro ⟨hl, a, rfl, hn, rfl, h₀, ha, hcont⟩
    rw [if_neg (by simpa using hl), Text.cutLast_append hn]
    simp only
    rw [if_neg (by simp [h₀, ha, hcont])]

/-- An alias without `as` is looked for only if there is none behind `as`. -/
theorem splitAlias_eq_some_iff {entry e n : Text} :
    splitAlias entry = (e, some n) ↔ explicitAlias? entry = some (e, n) ∨
      explicitAlias? entry = none ∧ implicitAlias? entry = some (e, n) := by
  unfold splitAlias
  cases explicitAlias? entry <;> cases implicitAlias? entry <;>
    simp [Prod.ext_iff]

/-- An entry without an alias is left as it is. -/
theorem splitAlias_eq_none {entry e : Text} (h : splitAlias entry = (e, none)) :
    e = entry := by
  unfold splitAlias at h
  split at h
  · cases h
  · exact (Prod.mk.inj h).1.symm

/-- A column is the whole entry, or the entry divided at its alias. -/
theorem columnOf_cases (literals : LiteralTable) (entry : Text) :
    columnOf literals entry = ⟨entry, none⟩ ∨
      ∃ e n, splitAlias entry = (e, some n) ∧ isApostrophed literals n = false ∧
        columnOf literals entry = ⟨e, some n⟩ := by
  unfold columnOf
  split
  · next e n h =>
    split
    · exact .inl rfl
    · next hq => exact .inr ⟨e, n, h, by simpa using hq, rfl⟩
  · exact .inl rfl

/-! ## A source -/

/-- The name of a table runs up to the first space or comma of the top level, or
up to the end. -/
structure NameEnds (name tail : Text) : Prop where
  inside : NoTop endsName name
  stop : ∀ c ∈ tail.head?, depth name = 0 ∧ endsName c = true

/-- A name that ends before the rest of a text is found. -/
theorem namePosition_append {name tail : Text} (h : NameEnds name tail) :
    namePosition (name ++ tail) = name.length := by
  unfold namePosition
  cases tail with
  | nil =>
    rw [List.append_nil, topPosition?_eq_none_iff.2 h.inside, Option.getD_none]
  | cons c tail =>
    obtain ⟨hd, hc⟩ := h.stop c rfl
    rw [topPosition?_append h.inside hd hc, Option.getD_some]

/-- The name at the start of a text ends where it is cut off. -/
theorem nameEnds_namePosition (t : Text) :
    NameEnds (t.take (namePosition t)) (t.drop (namePosition t)) := by
  unfold namePosition
  cases h : topPosition? endsName t with
  | none =>
    rw [Option.getD_none, List.take_length, List.drop_length]
    exact ⟨topPosition?_eq_none_iff.1 h, by simp⟩
  | some pos =>
    obtain ⟨a, c, b, rfl, rfl, hd, hc, hn⟩ := topPosition?_eq_some h
    rw [Option.getD_some, List.take_left, List.drop_left]
    exact ⟨hn, by rintro _ ⟨⟩; exact ⟨hd, hc⟩⟩

/-- A source without an alias is a query in brackets, or a name that is not
reserved. -/
theorem readBare_eq_ok_iff {s : Source} :
    readBare nested clause t = .ok (s, rest) ↔ (∃ inside tail q,
      t = '(' :: inside ++ ')' :: tail ∧ isBalanced inside = true ∧
      nested (Text.trim inside) = .ok q ∧ s = .subquery q none ∧
      rest = Text.trim tail) ∨ ∃ name tail, t = name ++ tail ∧
      name.head? ≠ some '(' ∧ name ≠ [] ∧ NameEnds name tail ∧
      isReserved name = false ∧ s = .table name none ∧ rest = tail.trim := by
  unfold readBare
  constructor
  · intro h
    split at h
    · cases h
    · next h₀ =>
      split at h
      · next ho =>
        split at h
        · cases h
        · next inside tail hu =>
          obtain ⟨rfl, hb⟩ := unwrap?_eq_some_iff.1 hu
          obtain ⟨q, hq, h⟩ := bind_eq_ok.1 h
          cases h
          exact .inl ⟨inside, tail, q, rfl, hb, hq, rfl, rfl⟩
      · next ho =>
        simp only at h
        split at h
        · cases h
        · next hr =>
          cases h
          obtain ⟨hn, hr⟩ : t.take (namePosition t) ≠ [] ∧
              isReserved (t.take (namePosition t)) = false := by
            simpa using hr
          refine .inr ⟨_, _, (List.take_append_drop _ t).symm, ?_, hn,
            nameEnds_namePosition t, hr, rfl, rfl⟩
          intro hh
          refine ho ?_
          rw [← List.take_append_drop (namePosition t) t,
            List.head?_append_of_ne_nil _ hn, hh]
          rfl
  · rintro (⟨inside, tail, q, rfl, hb, hq, rfl, rfl⟩ |
      ⟨name, tail, rfl, ho, h₀, hn, hr, rfl, rfl⟩)
    · rw [if_neg (by simp), if_pos (by simp), unwrap?_eq_some_iff.2 ⟨rfl, hb⟩]
      simp only [bind_eq_ok]
      exact ⟨q, hq, rfl⟩
    · have hne : name ++ tail ≠ [] := by simp [h₀]
      rw [if_neg (by simpa using hne), if_neg]
      · simp only [namePosition_append hn, List.take_left, List.drop_left]
        rw [if_neg (by simp [h₀, hr])]
      · rw [List.head?_append_of_ne_nil _ h₀]
        simpa using ho

/-! ## The alias of a source -/

/-- The text that may name a source, less a leading `as`. -/
theorem sourceAlias_eq_ok_iff {region : Text} {v : Option Text} :
    sourceAlias literals region = .ok v ↔ (region.trim = [] ∧ v = none) ∨
    (region.trim ≠ [] ∧ ∃ name, v = some name ∧ isAlias name = true ∧
      ((stripWord? "as".toList region.trim = none ∧ name = region.trim) ∨
      ∃ m c, region.trim = m ++ c ∧ Stands "as".toList [] m c ∧
      name = c.trim)) := by
  simp only [sourceAlias]
  by_cases h₀ : region.trim = []
  · rw [if_pos (by simp [h₀])]
    constructor
    · rintro ⟨⟩
      exact .inl ⟨h₀, rfl⟩
    · rintro (⟨-, rfl⟩ | ⟨h, -⟩)
      · rfl
      · exact absurd h₀ h
  · rw [if_neg (by simpa using h₀), or_iff_right fun h => h₀ h.1,
      and_iff_right h₀]
    have hname : ∀ name,
        ((stripWord? "as".toList region.trim).map Text.trim).getD region.trim =
        name ↔
        (stripWord? "as".toList region.trim = none ∧ name = region.trim) ∨
        ∃ m c, region.trim = m ++ c ∧ Stands "as".toList [] m c ∧
        name = Text.trim c := by
      intro name
      cases h : stripWord? "as".toList region.trim with
      | none =>
        simp only [Option.map_none, Option.getD_none, true_and]
        constructor
        · exact fun h => .inl h.symm
        · rintro (h | ⟨m, c, e, hs, -⟩)
          · exact h.symm
          · exact absurd hs (stripWord?_eq_none_iff.1 h m c e)
      | some c =>
        obtain ⟨m, e, hs⟩ := stripWord?_eq_some_iff.1 h
        simp only [Option.map_some, Option.getD_some, reduceCtorEq, false_and,
          false_or]
        constructor
        · rintro rfl
          exact ⟨m, c, e, hs, rfl⟩
        · rintro ⟨m', c', e', hs', rfl⟩
          have h' := stripWord?_eq_some_iff.2 ⟨m', e', hs'⟩
          rw [h] at h'
          cases h'
          rfl
    constructor
    · intro h
      split at h
      · next ha =>
        cases h
        exact ⟨_, rfl, ha, (hname _).1 rfl⟩
      · cases h
    · rintro ⟨name, rfl, ha, h⟩
      rw [(hname name).2 h, if_pos ha]

/-- The text `x` runs up to the first of several words or commas of the top
level, and `y` starts with it or is empty. -/
structure UpToComma (ends : List Text) (x y : Text) : Prop where
  absent : ∀ w ∈ ends, AbsentIn w x y
  noComma : NoTop isComma x
  stop : y = [] ∨ (depth x = 0 ∧ y.head? = some ',') ∨
    ∃ w ∈ ends, ∃ m c, y = m ++ c ∧ Stands w x m c

/-- The least of two positions that are not before `n`, one of them at `n`. -/
theorem getD_min? {p q : Option Nat} {n : Nat} (k : Nat)
    (hp : ∀ i, p = some i → n ≤ i) (hq : ∀ i, q = some i → n ≤ i)
    (h : p = some n ∨ q = some n) : (p.toList ++ q.toList).min?.getD k = n := by
  cases p with
  | none =>
    obtain rfl : q = some n := by simpa using h
    rfl
  | some i =>
    have hi := hp i rfl
    cases q with
    | none =>
      obtain rfl : i = n := by simpa using h
      rfl
    | some j =>
      have hj := hq j rfl
      have hij : i = n ∨ j = n := by simpa using h
      change min i j = n
      omega

section AliasPosition

variable {ends : List Text} (hw : ∀ w ∈ ends, isPhrase w = true)
include hw

/-- Every text has a part that runs up to the first of several words or
commas. -/
theorem exists_upToComma (t : Text) :
    ∃ x y, t = x ++ y ∧ UpToComma ends x y := by
  cases hf : firstPosition? ends t with
  | none =>
    have habs := firstPosition?_eq_none_iff.1 hf
    cases hc : topPosition? isComma t with
    | none =>
      refine ⟨t, [], by simp, fun w hm => ?_, topPosition?_eq_none_iff.1 hc,
        .inl rfl⟩
      exact (absentIn_nil_iff (hw w hm)).2 (habs w hm)
    | some pos =>
      obtain ⟨a, c, b, rfl, -, hd, hc, hn⟩ := topPosition?_eq_some hc
      obtain rfl : c = ',' := by simpa [isComma] using hc
      exact ⟨a, ',' :: b, rfl, fun w hm => (habs w hm).absentIn_left, hn,
        .inr (.inl ⟨hd, rfl⟩)⟩
  | some pos =>
    obtain ⟨a, m, c, rfl, -, ⟨w, hm, hs⟩, habs⟩ :=
      firstPosition?_eq_some_iff.1 hf
    cases hc : topPosition? isComma (a ++ m ++ c) with
    | none =>
      refine ⟨a, m ++ c, by simp, habs, ?_, .inr (.inr ⟨w, hm, m, c, rfl, hs⟩)⟩
      have hn := topPosition?_eq_none_iff.1 hc
      rw [List.append_assoc] at hn
      exact hn.left
    | some pos' =>
      obtain ⟨a', d, b, e, -, hd, hc, hn⟩ := topPosition?_eq_some hc
      obtain rfl : d = ',' := by simpa [isComma] using hc
      -- the word or the comma, whichever comes first
      rw [List.append_assoc] at e
      rcases List.append_eq_append_iff.1 e with ⟨z, rfl, -⟩ | ⟨z, rfl, hz⟩
      · exact ⟨a, m ++ c, by simp, habs, hn.left,
          .inr (.inr ⟨w, hm, m, c, rfl, hs⟩)⟩
      · refine ⟨a', ',' :: b, by rw [hz]; simp, fun w hm => ?_, hn,
          .inr (.inl ⟨hd, rfl⟩)⟩
        rw [hz]
        exact (habs w hm).left

/-- A text that runs up to a word or a comma ends where the alias may be cut
off. -/
theorem aliasPosition_append {x y : Text} (h : UpToComma ends x y) :
    aliasPosition ends (x ++ y) = x.length := by
  -- neither a word nor a comma comes before the end of `x`
  have hword : ∀ pos, firstPosition? ends (x ++ y) = some pos →
      x.length ≤ pos := by
    intro pos hp
    obtain ⟨a, m, c, e, rfl, ⟨w, hm, hs⟩, -⟩ := firstPosition?_eq_some_iff.1 hp
    rw [List.append_assoc] at e
    rcases List.append_eq_append_iff.1 e with ⟨z, rfl, -⟩ | ⟨z, rfl, hz⟩
    · simp
    · by_cases h₀ : z = []
      · simp [h₀]
      · exact absurd hs (h.absent w hm a z m c rfl h₀ hz.symm)
  have hcomma : ∀ pos, topPosition? isComma (x ++ y) = some pos →
      x.length ≤ pos := by
    intro pos hp
    obtain ⟨a, d, b, e, rfl, hd, hc, -⟩ := topPosition?_eq_some hp
    rcases List.append_eq_append_iff.1 e with ⟨z, rfl, -⟩ | ⟨z, rfl, hz⟩
    · simp
    · cases z with
      | nil => simp
      | cons d' z =>
        obtain ⟨rfl, -⟩ := List.cons.inj hz
        have := h.noComma a d z rfl hd
        rw [hc] at this
        cases this
  change ((firstPosition? ends (x ++ y)).toList ++
    (topPosition? isComma (x ++ y)).toList).min?.getD (x ++ y).length = x.length
  rcases h.stop with rfl | ⟨hd, hh⟩ | ⟨w, hm, m, c, rfl, hs⟩
  · have hf : firstPosition? ends x = none :=
      firstPosition?_eq_none_iff.2 fun w hm =>
      (absentIn_nil_iff (hw w hm)).1 (h.absent w hm)
    rw [List.append_nil, hf, topPosition?_eq_none_iff.2 h.noComma]
    rfl
  · obtain ⟨b, rfl⟩ := List.head?_eq_some_iff.1 hh
    exact getD_min? _ hword hcomma
      (.inr (topPosition?_append h.noComma hd rfl b))
  · have hfirst : firstPosition? ends (x ++ (m ++ c)) = some x.length :=
      firstPosition?_eq_some_iff.2
        ⟨x, m, c, by simp, rfl, ⟨w, hm, hs⟩, h.absent⟩
    exact getD_min? _ hword hcomma (.inl hfirst)

end AliasPosition

/-- A source with its alias: what stands behind it runs up to a phrase of `ends`
or a comma. -/
theorem readSource_eq_ok_iff {ends : List Text}
    (hw : ∀ w ∈ ends, isPhrase w = true) {s : Source} :
    readSource nested literals ends clause t = .ok (s, rest) ↔
    ∃ s₀ x y v, readBare nested clause t = .ok (s₀, x ++ y) ∧
      UpToComma ends x y ∧ sourceAlias literals x = .ok v ∧
      s = v.elim s₀ s₀.withAlias ∧ rest = y.trim := by
  simp only [readSource, bind_eq_ok]
  constructor
  · rintro ⟨⟨s₀, behind⟩, hb, v, hv, h⟩
    obtain ⟨x, y, rfl, hu⟩ := exists_upToComma hw behind
    simp only [aliasPosition_append hw hu, List.take_left, List.drop_left]
      at hv h
    cases h
    refine ⟨s₀, x, y, v, hb, hu, hv, ?_, rfl⟩
    cases v <;> rfl
  · rintro ⟨s₀, x, y, v, hb, hu, hv, rfl, rfl⟩
    refine ⟨(s₀, x ++ y), hb, v, ?_, ?_⟩
    · simpa only [aliasPosition_append hw hu, List.take_left] using hv
    · simp only [aliasPosition_append hw hu, List.drop_left]
      cases v <;> rfl

/-- A leading comma is taken off with the spaces behind it. -/
theorem stripComma?_eq_some_iff {c : Text} :
    Text.stripComma? t = some c ↔
    ∃ tail : Text, t = ',' :: tail ∧ c = tail.trim := by
  unfold Text.stripComma?
  split
  · simp [eq_comm]
  · next hne => simpa using fun tail e => absurd e (hne tail)

/-- No more sources are read where no comma stands. -/
theorem readMore_of_head {nested : Nested} {literals : LiteralTable}
    (bound : Nat) (ht : t.head? ≠ some ',') :
    readMore nested literals bound t = .ok ([], t) := by
  cases bound with
  | zero => rfl
  | succ bound =>
    have hnone : t.stripComma? = none := by
      cases hs : t.stripComma? with
      | none => rfl
      | some c =>
        obtain ⟨tail, rfl, -⟩ := stripComma?_eq_some_iff.1 hs
        exact absurd rfl ht
    rw [readMore, hnone]

theorem isPhrase_of_mem_sourceEnds : ∀ w ∈ sourceEnds, isPhrase w = true := by
  decide

end SqlRiver
