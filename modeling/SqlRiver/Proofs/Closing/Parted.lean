import SqlRiver.Proofs.Spread.Joins

/-!
# Texts with spaces behind closing brackets

A bracket that closes the top level may touch a keyword. A text is parted by
putting a space between them. Since a bracket ends a word for every search as
a space does, such a space is of no account to a search for keywords; it is to
what looks for spaces only.

Main definitions and statements:

* `Stuck`: a keyword stands at the start of a text.
* `Parted`: a text with spaces put between closing brackets and keywords.
* `kept_stuck`: a keyword stays whole where a text is cut.
* `not_detached_bracket`: no keyword is detached from a bracket.
* `Spread.parts_comma`: the entries of a list.
* `Spread.cutLast_cases`: the last space.
-/

namespace SqlRiver

open Text

/-- A keyword stands at the start of the text, unless the text is empty. -/
def Stuck (t : Text) : Prop := t = [] ∨ ∃ k ∈ Keyword.all, Led k.text t

/-- The text `u` is `t` with a space put behind some of the brackets that close
down to depth zero and have a keyword behind them, when `t` starts at depth
`d`. -/
abbrev Parted : Int → Text → Text → Prop := Spread ')' Stuck

/-! ## Keywords -/

theorem space_not_mem_keyword : ∀ k ∈ Keyword.all, ' ' ∉ k.text := by decide

/-- The letters of a keyword as it is spelled. -/
theorem isLower_of_mem_spelling {k : Keyword} (hk : k ∈ Keyword.all) {m : Text}
    (hm : m.lower = k.text.lower) : ∀ c ∈ m, c.toLower.isLower = true := by
  intro c hc
  have hmem : c.toLower ∈ k.text := by
    rw [← lower_of_isPhrase (isPhrase_keyword k hk), ← hm]
    exact List.mem_map_of_mem hc
  refine (mem_of_isPhrase (isPhrase_keyword k hk) _ hmem).resolve_right
    fun hsp => ?_
  exact space_not_mem_keyword k hk (hsp ▸ hmem)

/-- A keyword at the start of a text stays whole where the text is cut, or is
cut off. -/
theorem kept_stuck : Kept Stuck where
  nil := .inl rfl
  left {x b} hcut h := by
    by_cases h₀ : x = []
    · exact .inl h₀
    obtain ⟨k, hk, m, c, e, hs⟩ := h.resolve_left (by simp [h₀])
    have hletters := isLower_of_mem_spelling hk hs.spelled
    refine .inr ⟨k, hk, ?_⟩
    rcases List.append_eq_append_iff.1 e with ⟨n, rfl, rfl⟩ | ⟨n, rfl, rfl⟩
    · -- the cut is inside the keyword or right behind it
      by_cases hn : n = []
      · subst hn
        exact ⟨x, [], by simp, by simpa using hs.spelled, rfl, rfl, rfl⟩
      · exfalso
        obtain ⟨d, x, rfl⟩ := (List.eq_nil_or_concat' x).resolve_left h₀
        obtain ⟨d', n, rfl⟩ := List.exists_cons_of_ne_nil hn
        rcases hcut with hcut | hcut
        · have := hletters x (by simp)
          rw [hcut x (by simp)] at this
          cases this
        · have := hletters d' (by simp)
          rw [hcut d' (by simp)] at this
          cases this
    · refine ⟨m, n, rfl, hs.spelled, rfl, rfl, ?_⟩
      cases n with
      | nil => rfl
      | cons d n => exact hs.right

/-- A closing bracket is an edge of words. -/
theorem not_detached_bracket {w t : Text} : ¬ Detached ')' w t := fun h => by
  cases h.1

theorem not_detachedFirst_bracket {words : List Text} {t : Text} :
    ¬ DetachedFirst ')' words t := fun h => by
  cases h.1

/-- A closing bracket leaves the depth at zero where it is one before it. -/
theorem depth_bracket {d : Int} (hd : d + depthStep ')' = 0) : d = 1 := by
  have hstep : depthStep ')' = -1 := rfl
  omega

namespace Spread

variable {G : Text → Prop} {t u : Text}

/-! ## Entries -/

/-- The parts between commas are parted each by itself. -/
theorem parts_comma (hG : Kept G) (h : Spread ')' G 0 t u) :
    List.Forall₂ (Spread ')' G 0) (split [','] t).parts
      (split [','] u).parts := by
  refine split_comma_induction
    (P := fun t s => ∀ u, Spread ')' G 0 t u →
      List.Forall₂ (Spread ')' G 0) s.parts (split [','] u).parts)
    ?_ ?_ t u h
  · intro t hn u h
    rw [split_of_noTop (h.noTop rfl hn)]
    exact .cons h .nil
  · intro a c s hn hd ih u h
    obtain ⟨a', v, rfl, ha, hv⟩ := h.cut hG (apart_sign ',' a c)
    rw [hd] at hv
    cases hv with
    | @keep _ _ _ w hv =>
      rw [split_comma (ha.noTop rfl hn) (by rw [ha.depth_eq, hd])]
      exact .cons ha (ih w hv)

/-! ## The last space -/

/-- The last space of the parted text: it stands in the text as well, with the
same word behind it, or it was put behind a bracket. -/
theorem cutLast_cases {d : Int} (h : Spread ')' G d t u) :
    (u = t ∧ ' ' ∉ t) ∨
      (∃ a a' w, t = a ++ ' ' :: w ∧ u = a' ++ ' ' :: w ∧ ' ' ∉ w ∧
        Spread ')' (fun x => G (x ++ ' ' :: w)) d a a') ∨
      ∃ a a' w, t = a ++ ')' :: w ∧ u = a' ++ ')' :: ' ' :: w ∧ ' ' ∉ w ∧
        d + depth a = 1 ∧ G w := by
  induction h with
  | nil => exact .inl ⟨rfl, by simp⟩
  | @keep d c t u h ih =>
    rcases ih with
      ⟨rfl, hsp⟩ | ⟨a, a', w, rfl, rfl, hsp, ha⟩ |
      ⟨a, a', w, rfl, rfl, hsp, hd, hg⟩
    · by_cases hc : c = ' '
      · exact .inr (.inl
          ⟨[], [], u, by rw [hc]; rfl, by rw [hc]; rfl, hsp, .nil d⟩)
      · exact .inl ⟨rfl, by simp [Ne.symm hc, hsp]⟩
    · exact .inr (.inl ⟨c :: a, c :: a', w, rfl, rfl, hsp, .keep ha⟩)
    · rw [Int.add_assoc, ← depth_cons] at hd
      exact .inr (.inr ⟨c :: a, c :: a', w, rfl, rfl, hsp, hd, hg⟩)
  | @space d t u hd hg h ih =>
    rcases ih with
      ⟨rfl, hsp⟩ | ⟨a, a', w, rfl, rfl, hsp, ha⟩ |
      ⟨a, a', w, rfl, rfl, hsp, hd', hg'⟩
    · have hd : d + depth [] = 1 := by simpa using depth_bracket hd
      exact .inr (.inr ⟨[], [], u, rfl, rfl, hsp, hd, hg⟩)
    · exact .inr (.inl
        ⟨')' :: a, ')' :: ' ' :: a', w, rfl, rfl, hsp, .space hd hg ha⟩)
    · rw [← depth_behind hd] at hd'
      exact .inr (.inr
        ⟨')' :: a, ')' :: ' ' :: a', w, rfl, rfl, hsp, hd', hg'⟩)

end Spread

end SqlRiver
