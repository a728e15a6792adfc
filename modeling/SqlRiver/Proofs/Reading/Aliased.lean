import SqlRiver.Proofs.Reading.Orderly

/-!
# Entries with an alias

An entry of the select list names its expression behind the word `as` or by its
bare last word. However it does so, the entry is the expression and the name
with spaces between them, and at most one `as` among the spaces. The layout
writes the word in any case. Read again, the `as` before the name is the last
one of the entry, whatever stands in the expression, so the same name is found,
and the same expression before it.

Main definitions and statements:

* `AliasGap`, `Aliased`: an entry made of an expression, its alias and what is
  between them.
* `aliased_splitAlias`: an entry is divided in this way.
* `collapse_columnText`: a column with an alias, laid out and with single spaces
  again.
* `splitAlias_stable`: dividing an entry is stable under the spelling of its
  alias.
-/

namespace SqlRiver

open Text

variable {entry a b e n : Text}

/-! ## Spaces -/

theorem exists_spaces {g : Text} (hg : Blank g) (hs : SpaceOnly g) :
    ∃ i, g = spaces i :=
  ⟨g.length, List.eq_replicate_iff.2 ⟨rfl, fun c hc => hs c hc (hg c hc)⟩⟩

/-- What is trimmed off the first part of a trimmed text are spaces behind
it. -/
theorem exists_spaces_behind (ht : Trimmed (a ++ b)) (hs : SpaceOnly (a ++ b)) :
    ∃ i, a = a.trim ++ spaces i := by
  obtain ⟨l, r, hl, hr, ha⟩ := exists_trim a
  have hr' : SpaceOnly r := hs.of_subset fun c hc => by rw [ha]; simp [hc]
  obtain ⟨i, rfl⟩ := exists_spaces hr hr'
  cases l with
  | nil => exact ⟨i, ha⟩
  | cons d l =>
    have := ht.start d (by rw [ha]; rfl)
    rw [hl d (by simp)] at this
    cases this

/-- What is trimmed off the last part of a trimmed text are spaces before it. -/
theorem exists_spaces_before (ht : Trimmed (a ++ b)) (hs : SpaceOnly (a ++ b)) :
    ∃ i, b = spaces i ++ b.trim := by
  obtain ⟨l, r, hl, hr, hb⟩ := exists_trim b
  have hl' : SpaceOnly l := hs.of_subset fun c hc => by rw [hb]; simp [hc]
  obtain ⟨i, rfl⟩ := exists_spaces hl hl'
  rcases List.eq_nil_or_concat' r with rfl | ⟨r, d, rfl⟩
  · exact ⟨i, by rwa [List.append_nil] at hb⟩
  · have := ht.stop d (by rw [hb]; simp [List.getLast?_append])
    rw [hr d (by simp)] at this
    cases this

/-! ## Expression and alias -/

/-- Between an expression and its alias there are spaces, and at most one whole
word `as` among them. -/
inductive AliasGap (e n : Text) : Text → Prop
  /-- Spaces only. -/
  | bare (i : Nat) : AliasGap e n (spaces (i + 1))
  /-- The word `as`, which may stand right behind a bracket. -/
  | named (i j : Nat) {m : Text} (h : Stands "as".toList (e ++ spaces i) m
    (spaces (j + 1) ++ n)) : AliasGap e n (spaces i ++ m ++ spaces (j + 1))

/-- An entry is an expression, its alias, and what may be between them. -/
structure Aliased (entry e n : Text) : Prop where
  tidy : Tidy e
  name : isAlias n = true
  written : ∃ gap, AliasGap e n gap ∧ entry = e ++ gap ++ n

variable (hs : entry.Spaced) (hb : isBalanced entry = true)
include hs hb

theorem orderly_of_spaced : Orderly entry :=
  ⟨thin_of_spaced hs, hb⟩

/-- An entry that is divided at its `as` has the shape of one with an alias. -/
theorem aliased_explicitAlias? (h : explicitAlias? entry = some (e, n)) :
    Aliased entry e n := by
  have ho := orderly_of_spaced hs hb
  have htrim := trimmed_of_spaced hs
  obtain ⟨a, m, c, rfl, has, -, ha, hn, rfl, rfl⟩ :=
    explicitAlias?_eq_some_iff.1 h
  have htidy := (ho.stands isPhrase_as has).1.tidy ha
  obtain ⟨j, hj⟩ := exists_spaces_before htrim ho.thin.spaceOnly
  rw [List.append_assoc] at htrim ho
  obtain ⟨i, hi⟩ := exists_spaces_behind htrim ho.thin.spaceOnly
  generalize a.trim = e at *
  generalize c.trim = n at *
  subst hi hj
  cases j with
  | zero =>
    -- no word ends right before a letter of the alias
    obtain ⟨d, n, rfl⟩ := List.exists_cons_of_ne_nil (ne_nil_of_isAlias hn)
    have hright : isEdge d = true := has.right
    rw [isEdge_of_isAlias hn d (by simp)] at hright
    cases hright
  | succ j => exact ⟨htidy, hn, _, .named i j has, by simp⟩

/-- An entry that is divided before its last word has the shape of one with an
alias. -/
theorem aliased_implicitAlias? (h : implicitAlias? entry = some (e, n)) :
    Aliased entry e n := by
  have ho := orderly_of_spaced hs hb
  have htrim := trimmed_of_spaced hs
  obtain ⟨-, a, rfl, -, rfl, ha, hn, -⟩ := implicitAlias?_eq_some_iff.1 h
  -- an alias holds no bracket, so the space before it is at the top level
  have hd : depth a = 0 := by
    have := depth_of_isBalanced hb
    simpa [depth_of_isAlias hn, depthStep] using this
  obtain ⟨i, hi⟩ := exists_spaces_behind htrim ho.thin.spaceOnly
  have htrimEnd : a.trimEnd = a.trim := by
    rw [hi, trimEnd_pad (blank_spaces i) (trimmed_trim a).stop,
      trim_padEnd (trimmed_trim a) (blank_spaces i)]
  rw [htrimEnd] at ha ⊢
  refine ⟨(ho.append hd).1.tidy ha, hn, _, .bare i, ?_⟩
  have hspaces : spaces (i + 1) = spaces i ++ [' '] := List.replicate_succ'
  conv => lhs; rw [hi]
  simp [hspaces]

/-- An entry that is divided consists of the two parts and what may be between
them. -/
theorem aliased_splitAlias (h : splitAlias entry = (e, some n)) :
    Aliased entry e n := by
  rcases splitAlias_eq_some_iff.1 h with h | ⟨-, h⟩
  · exact aliased_explicitAlias? hs hb h
  · exact aliased_implicitAlias? hs hb h

omit hs hb

/-! ## Reading again -/

/-- A column with an alias, laid out in any width and with single spaces
again. -/
theorem collapse_columnText (o : Options) (width : Nat) (he : Tidy e)
    (hn : isAlias n = true) :
    collapse (columnText o width ⟨e, some n⟩) = Column.line o ⟨e, some n⟩ := by
  have has : Tidy (o.keyword "as".toList) :=
    tidy_keyword o (by simp) (by decide)
  have hparts : ∀ k ∈ Column.chunks o ⟨e, some n⟩, Tidy k := by
    simp only [Column.chunks, List.forall_mem_cons]
    exact ⟨he, has, tidy_alias hn, by simp⟩
  rw [collapse_woven (woven_columnText o width _)]
  exact spaced_join (fun k hk => (hparts k hk).spaced) fun k hk =>
    (hparts k hk).ne_nil

/-- An entry that is divided is made of a tidy expression and an alias, and it
is divided in the same way with `as` between them. An entry that is not divided
is left as it is. So the column that an entry stands for is laid out as an entry
that stands for the same column. -/
theorem splitAlias_stable {entry : Text} (hs : entry.Spaced)
    (hb : isBalanced entry = true) :
    (∀ e n, splitAlias entry = (e, some n) →
      Aliased entry e n ∧ splitAlias (e ++ " as ".toList ++ n) = (e, some n)) ∧
    (∀ e, splitAlias entry = (e, none) → e = entry) ∧
    ∀ literals o width, columnOf literals
      (collapse (columnText o width (columnOf literals entry))) =
      columnOf literals entry := by
  refine ⟨fun e n h => ?_, fun e => splitAlias_eq_none,
    fun literals o width => ?_⟩
  · have hal := aliased_splitAlias hs hb h
    refine ⟨hal, splitAlias_eq_some_iff.2 (.inl ?_)⟩
    have happ : e ++ " as ".toList ++ n =
        e ++ ' ' :: ("as".toList ++ ' ' :: n) := by simp
    rw [happ, explicitAlias?_named hal.tidy hal.name rfl]
  · rcases columnOf_cases literals entry with h | ⟨e, n, hx, hq, h⟩
    · have hbare : collapse (columnText o width ⟨entry, none⟩) = entry := hs
      rw [h, hbare, h]
    · have hal := aliased_splitAlias hs hb hx
      rw [h, collapse_columnText o width hal.tidy hal.name,
        columnOf_named hal.tidy hal.name hq]

/-- What follows the last `as` of the top level is no alias, so the bare last
word is the alias. -/
theorem splitAlias_stable_bare :
    let e : Text := "f(x as y) as z case when a then b end As t1".toList
    Aliased (e ++ " total".toList) e "total".toList ∧
        splitAlias (e ++ " as ".toList ++ "total".toList) =
        (e, some "total".toList) := by
  intro e
  have hs : (e ++ " total".toList).Spaced := by rfl
  have hsplit : splitAlias (e ++ " total".toList) = (e, some "total".toList) :=
    by decide
  exact (splitAlias_stable hs (by decide)).1 _ _ hsplit

end SqlRiver
