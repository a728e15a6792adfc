import SqlRiver.Proofs.Keyword.Standing

/-!
# Where keywords do not stand

A layout puts texts together, and a reader cuts them apart. A word that stands
in neither of two texts stands nowhere in both together, as long as it is not
spelled across the place where they meet. The other way round, a cut next to an
edge makes no whole word that was none before.

Main definitions and statements:

* `Cut`: two texts meet next to an edge.
* `Parts`: a text does not complete a phrase that the text before it has begun.
* `AbsentIn.append`, `absent_append`, `Absent.absentIn`: from the parts to the
  whole.
* `Absent.left`, `Absent.right`, `AbsentIn.right`: from the whole to the parts.
-/

namespace SqlRiver

variable {word t a b c : Text}

/-- Two texts meet next to an edge. -/
def Cut (a b : Text) : Prop := atEdge a.getLast? = true ∨ atEdge b.head? = true

theorem cut_nil_right (a : Text) : Cut a [] := .inr rfl

theorem cut_of_head {d : Char} (h : isEdge d = true) (a b : Text) :
    Cut a (d :: b) :=
  .inr h

/-! ## From the parts to the whole -/

/-- A word is absent from a text if it is with nothing behind it. -/
theorem absentIn_nil_iff (hw : isPhrase word = true) :
    AbsentIn word t [] ↔ Absent word t := by
  constructor
  · rintro h a m c rfl hs
    refine h a (m ++ c) m c (by simp) ?_ (by simp) hs
    simp [spelling_ne_nil hw hs.spelled]
  · rintro h a x m c rfl - hmc hs
    rw [List.append_nil] at hmc
    subst hmc
    exact h a m c (by simp) hs

theorem absentIn_nil_left (word b : Text) : AbsentIn word [] b := by
  intro a x m c h hx
  exact absurd (List.append_eq_nil_iff.1 h.symm).2 hx

/-- A word that starts in neither of two texts does not start in both
together. -/
theorem AbsentIn.append (ha : AbsentIn word a (b ++ c)) (hd : depth a = 0)
    (hb : AbsentIn word b c) : AbsentIn word (a ++ b) c := by
  intro u x m v hux hx hmv hs
  rcases List.append_eq_append_iff.1 hux with ⟨z, rfl, rfl⟩ | ⟨z, rfl, rfl⟩
  · -- the word starts in `b`
    refine hb z x m v rfl hx hmv ⟨hs.spelled, ?_, ?_, hs.right⟩
    · have := hs.top
      rwa [depth_append, hd, Int.zero_add] at this
    · cases z with
      | nil => rfl
      | cons e z =>
        have := hs.left
        rwa [List.getLast?_append_of_ne_nil _ (by simp)] at this
  · by_cases hz : z = []
    · subst hz
      refine hb [] b m v rfl (by simpa using hx) (by simpa using hmv) ?_
      exact ⟨hs.spelled, rfl, rfl, hs.right⟩
    · exact ha u z m v rfl hz (by simpa using hmv) hs

/-- A word is absent from two texts if it neither starts in the first nor stands
in the second. -/
theorem absent_append (hw : isPhrase word = true) (ha : AbsentIn word a b)
    (hd : depth a = 0) (hb : Absent word b) : Absent word (a ++ b) := by
  rw [← absentIn_nil_iff hw] at hb ⊢
  exact AbsentIn.append (by simpa using ha) hd hb

theorem absent_nil (hw : isPhrase word = true) : Absent word [] :=
  (absentIn_nil_iff hw).1 (absentIn_nil_left word [])

/-- The text does not complete the word when a part of the word is before it. -/
def Parts (word b : Text) : Prop :=
  ∀ u v m c, word = u ++ v → u ≠ [] → v ≠ [] → b = m ++ c → m.lower = v.lower →
    atEdge c.head? = false

/-- A word that stands nowhere in a text does not start there, whatever follows,
unless what follows completes it. -/
theorem Absent.absentIn (h : Absent word a) (hp : Parts word b) :
    AbsentIn word a b := by
  rintro u x m c rfl hx hmc hs
  rcases List.append_eq_append_iff.1 hmc with ⟨z, rfl, rfl⟩ | ⟨z, rfl, rfl⟩
  · -- the word is spelled across the place where the texts meet, or ends there
    by_cases hz : z = []
    · subst hz
      refine h u x [] (by simp)
        ⟨by simpa using hs.spelled, hs.top, hs.left, rfl⟩
    · have hlower : Text.lower x ++ Text.lower z = word.lower := by
        simpa using hs.spelled
      have hlen : x.length ≤ word.length := by
        rw [← Text.length_lower word, ← hlower]
        simp
      have hsplit : word = word.take x.length ++ word.drop x.length :=
        (List.take_append_drop _ _).symm
      have hparts : Text.lower (word.take x.length) = Text.lower x ∧
          Text.lower (word.drop x.length) = Text.lower z := by
        refine List.append_inj ?_ (by simp [hlen])
        rw [← Text.lower_append, List.take_append_drop, hlower]
      have hright := hs.right
      rw [hp _ _ z c hsplit ?_ ?_ rfl hparts.2.symm] at hright
      · cases hright
      · intro h₀
        rw [h₀] at hparts
        exact hx (List.map_eq_nil_iff.1 hparts.1.symm)
      · intro h₀
        rw [h₀] at hparts
        exact hz (List.map_eq_nil_iff.1 hparts.2.symm)
  · refine h u m z (by simp) ⟨hs.spelled, hs.top, hs.left, ?_⟩
    cases z with
    | nil => rfl
    | cons d z => exact hs.right

/-- A text that does not start with a letter or a space completes no phrase. -/
theorem parts_of_head (hw : isPhrase word = true)
    (h : ∀ d ∈ b.head?, d.toLower.isLower = false ∧ d ≠ ' ') :
    Parts word b := by
  rintro u v m c rfl - hv rfl hm
  obtain ⟨d, v, rfl⟩ := List.exists_cons_of_ne_nil hv
  cases m with
  | nil => cases hm
  | cons e m =>
    exfalso
    obtain ⟨hl, he⟩ := h e rfl
    have hed : e.toLower = d.toLower := (List.cons.inj hm).1
    rcases mem_of_isPhrase hw d (by simp) with hd | rfl
    · rw [hed, toLower_of_isLower hd, hd] at hl
      cases hl
    · exact he ((toLower_eq_iff rfl).1 hed)

/-- Behind a space, only a word that starts with `b` completes a phrase. -/
theorem parts_space (hw : isPhrase word = true)
    (h : ∀ d ∈ b.head?, d.toLower ≠ 'b') : Parts word (' ' :: b) := by
  rintro u v m c rfl - hv hmc hm
  obtain ⟨d, v, rfl⟩ := List.exists_cons_of_ne_nil hv
  cases m with
  | nil => cases hm
  | cons e m =>
    exfalso
    obtain ⟨rfl, rfl⟩ := List.cons.inj hmc
    obtain ⟨hd, hmv⟩ := List.cons.inj hm
    obtain rfl : d = ' ' := (toLower_eq_iff rfl).1 hd.symm
    obtain ⟨v', rfl⟩ : ∃ v', v = 'b' :: v' :=
      List.head?_eq_some_iff.1 (of_space_isPhrase hw)
    cases m with
    | nil => cases hmv
    | cons e m => exact h e rfl (List.cons.inj hmv).1

theorem parts_nil (hw : isPhrase word = true) : Parts word [] :=
  parts_of_head hw (by simp)

/-! ## From the whole to the parts -/

theorem Absent.absentIn_left (h : Absent word (a ++ b)) :
    AbsentIn word a b := by
  rintro u x m c rfl - hmc hs
  exact h u m c (by simp [hmc]) hs

theorem AbsentIn.left (h : AbsentIn word (a ++ b) c) :
    AbsentIn word a (b ++ c) := by
  rintro u x m v rfl hx hmv hs
  exact h u (x ++ b) m v (by simp) (by simp [hx]) (by simpa using hmv) hs

/-- A word that does not start in a text does not start behind a cut in it. -/
theorem AbsentIn.right (hw : isPhrase word = true)
    (h : AbsentIn word (a ++ b) c) (hd : depth a = 0) (hcut : Cut a (b ++ c)) :
    AbsentIn word b c := by
  rintro u x m v rfl hx hmv hs
  refine h (a ++ u) x m v (by simp) hx hmv
    ⟨hs.spelled, by simp [hd, hs.top], ?_, hs.right⟩
  cases u with
  | nil =>
    rcases hcut with hcut | hcut
    · simpa using hcut
    · have hhead := isEdge_head_spelling hw hs.spelled
      rw [List.nil_append, hmv,
        List.head?_append_of_ne_nil _ (spelling_ne_nil hw hs.spelled), hhead]
        at hcut
      cases hcut
  | cons e u =>
    rw [List.getLast?_append_of_ne_nil _ (by simp)]
    exact hs.left

/-- A cut next to an edge makes no new whole word behind it. -/
theorem Absent.right (hw : isPhrase word = true) (h : Absent word (a ++ b))
    (hd : depth a = 0) (hcut : Cut a b) : Absent word b := by
  rw [← absentIn_nil_iff hw] at h ⊢
  exact h.right hw hd (by simpa using hcut)

/-- A cut next to an edge makes no new whole word before it. -/
theorem AbsentIn.absent (hw : isPhrase word = true) (h : AbsentIn word a b)
    (hcut : Cut a b) : Absent word a := by
  rintro u m c rfl hs
  have hm := spelling_ne_nil hw hs.spelled
  refine h u (m ++ c) m (c ++ b) (by simp) (by simp [hm]) (by simp)
    ⟨hs.spelled, hs.top, hs.left, ?_⟩
  cases c with
  | nil =>
    rcases hcut with hcut | hcut
    · have hlast := isEdge_last_spelling hw hs.spelled
      rw [List.append_nil, List.getLast?_append_of_ne_nil _ hm, hlast] at hcut
      cases hcut
    · exact hcut
  | cons e c => exact hs.right

/-- A word that is absent from a text is absent from what stands before a
cut. -/
theorem Absent.left (hw : isPhrase word = true) (h : Absent word (a ++ b))
    (hcut : Cut a b) : Absent word a :=
  h.absentIn_left.absent hw hcut

end SqlRiver
