import SqlRiver.Proofs.Comma.Clauses
import SqlRiver.Proofs.Reading.Divided

/-!
# Sources of loosened texts

The name of a source and its alias end at a comma, so neither of them holds a
comma that a space could be put behind, and a query in brackets is below the top
level. The sources of a loosened text are those of the text, and as many are
read.

Main statements:

* `alike_readBare`, `alike_readSource`: one source, without its alias and with
  it.
* `alike_readSources`: the sources behind `from`.
-/

namespace SqlRiver

open Text

variable {t u p : Text} {clause : Clause} {nested : Nested}
  {literals : LiteralTable}

/-! ## Names and aliases -/

/-- A name ends at the same place of a loosened text: it has no comma. -/
theorem Loosened.nameEnds {name tail : Text} (hn : NameEnds name tail)
    (h : Loosened 0 (name ++ tail) u) :
    ∃ tail', u = name ++ tail' ∧ NameEnds name tail' ∧
      Loosened 0 tail tail' := by
  have hcomma : NoTop isComma name := fun a c b e hd => by
    have := hn.inside a c b e hd
    simp only [endsName, Bool.or_eq_false_iff] at this
    exact this.2
  obtain ⟨name', tail', rfl, hname, htail⟩ := h.exists_append
  obtain rfl := eq_of_noTop hname hcomma
  refine ⟨tail', rfl,
    ⟨hn.inside, fun c hc => hn.stop c (by rwa [htail.head?_eq] at hc)⟩, ?_⟩
  cases tail with
  | nil => cases htail; exact .nil 0
  | cons c tail => rwa [(hn.stop c rfl).1] at htail

/-- A word that stands before the first comma stands at the same place of the
loosened text. -/
theorem Loosened.upToComma {ends : List Text}
    (hw : ∀ w ∈ ends, isPhrase w = true) {x y : Text}
    (hu : UpToComma ends x y) (h : Loosened 0 (x ++ y) u) :
    ∃ y', u = x ++ y' ∧ UpToComma ends x y' ∧ Loosened 0 y y' := by
  obtain ⟨x', y', rfl, hx, hy⟩ := h.exists_append
  obtain rfl := eq_of_noTop hx hu.noComma
  rw [Int.zero_add] at hy
  refine ⟨y', rfl, ⟨?_, hu.noComma, ?_⟩, ?_⟩
  · rintro w hmem a z n e rfl hz hne hs
    rw [depth_append, hs.top] at hy
    have hbehind : Loosened 0 (z ++ y) (n ++ e) := by
      rw [← hne]
      exact (Spread.refl ',' _ 0 z).append hy
    obtain ⟨e₀, he, hle⟩ := hbehind.exists_spelled (hw w hmem) hs.spelled
    refine hu.absent w hmem a z n e₀ rfl hz he ⟨hs.spelled, hs.top, hs.left, ?_⟩
    rw [← hle.head?_eq, hs.right]
  · rcases hu.stop with rfl | ⟨hd, hcomma⟩ | ⟨w, hmem, m, c, rfl, hs⟩
    · cases hy
      exact .inl rfl
    · exact .inr (.inl ⟨hd, by rw [hy.head?_eq, hcomma]⟩)
    · rw [hs.top] at hy
      obtain ⟨m', c', rfl, hm, hc⟩ := hy.exists_append
      obtain rfl :=
        hm.eq_of_not_mem (Sign.not_mem_spelling ',' (hw w hmem) hs.spelled)
      refine .inr (.inr ⟨w, hmem, m', c', rfl, hs.spelled, hs.top, hs.left, ?_⟩)
      rw [hc.head?_eq, hs.right]
  · rcases hu.stop with rfl | ⟨hd, -⟩ | ⟨w, -, m, c, rfl, hs⟩
    · cases hy
      exact .nil 0
    · rwa [hd] at hy
    · rwa [hs.top] at hy

/-! ## One source -/

section Source

variable (hp : depth p = 0) (ho : Overt (p ++ t)) (h : Loosened 0 t u)
include hp ho h

/-- A source without an alias is that of the loosened text. -/
theorem alike_readBare :
    Alike (Leaves Eq) (readBare nested clause t)
      (readBare nested clause u) := by
  simp only [readBare, h.isEmpty_eq, h.head?_eq]
  split
  · trivial
  · split
    · rcases h.unwrap?_cases with
        ⟨ht, hu⟩ | ⟨inside, tail, tail', v, rfl, -, ht, hu, hv, htail⟩
      · simp only [ht, hu]
        trivial
      · obtain rfl : tail' = v := hv.resolve_right fun hv => by cases hv.1
        simp only [ht, hu]
        refine (alike_refl (fun _ => rfl) _).bind ?_
        rintro query _ rfl
        have hi := (unwrap?_eq_some_iff.1 ht).2
        exact ⟨rfl, (inherited_overt.brackets ho hp hi).trim,
          htail.trim kept_true⟩
    · have hn := nameEnds_namePosition t
      have e := List.take_append_drop (namePosition t) t
      generalize t.take (namePosition t) = name at *
      generalize t.drop (namePosition t) = tail at *
      subst e
      obtain ⟨tail', rfl, hn', htail⟩ := Loosened.nameEnds hn h
      simp only [namePosition_append hn', List.take_left, List.drop_left]
      split
      · trivial
      · exact ⟨rfl, (inherited_overt.nameEnds ho hp hn).trim,
          htail.trim kept_true⟩

/-- A source is that of the loosened text, with its alias. -/
theorem alike_readSource {ends : List Text}
    (he : ∀ w ∈ ends, isPhrase w = true) :
    Alike (Leaves Eq) (readSource nested literals ends clause t)
      (readSource nested literals ends clause u) := by
  refine (alike_readBare hp ho h).bind ?_
  rintro ⟨source, behind⟩ ⟨_, behind'⟩ ⟨rfl, hb, hl⟩
  obtain ⟨x, y, e, hu⟩ := exists_upToComma he behind
  simp only at hb hl
  subst e
  obtain ⟨y', rfl, hu', hy⟩ := Loosened.upToComma he hu hl
  simp only [aliasPosition_append he hu, aliasPosition_append he hu',
    List.take_left, List.drop_left]
  refine (alike_refl (fun _ => rfl) _).bind ?_
  rintro name _ rfl
  exact ⟨rfl, (inherited_overt.upToComma hb hu).trim, hy.trim kept_true⟩

end Source

/-! ## Sources behind commas -/

/-- The sources of an overt text are those of the loosened text. -/
theorem alike_readSources (ho : Overt t) (h : Loosened 0 t u) :
    Alike (Leaves Eq) (readSources nested literals t)
      (readSources nested literals u) := by
  have he := isPhrase_of_mem_sourceEnds
  refine Alike.readSources (R := fun t u => Overt t ∧ Loosened 0 t u)
    (fun h => h.2.head?_eq) ?_ (alike_readSource (p := []) rfl ho h he)
  rintro tail tail' ⟨ho, h⟩
  obtain ⟨l, hl, hbehind⟩ := inherited_overt.behindComma ho
  refine alike_readSource hl hbehind ?_ he
  cases h with
  | keep h => exact h.trim kept_true
  | @space _ _ v _ _ h =>
    have htrim : Text.trim (' ' :: v) = Text.trim v :=
      trim_blank_append (l := [' ']) (blank_spaces 1) v
    rw [htrim]
    exact h.trim kept_true

end SqlRiver
