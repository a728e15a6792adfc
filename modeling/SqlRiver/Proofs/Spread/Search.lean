import SqlRiver.Proofs.Keyword.Marks
import SqlRiver.Proofs.Spread.Basic

/-!
# Searches in spread texts

A keyword that touches a comma is no whole word. It becomes one when a space
is put between them, so a search finds the same in a text and in the spread
text only if the space *detaches* no keyword that is searched for. Where it
does not, every search cuts both texts at the same places. A search for the
first keyword is not misled by what is detached behind that keyword. A
bracket ends a word as a space does, and so detaches none.

Main definitions and statements:

* `Led`, `Detached`, `DetachedFirst`: a word stands at the start, right
  behind a sign of the top level, and there before a search has found
  anything.
* `Spread.exists_stands`, `Spread.stands_or`: from the text to the spread
  text, and back.
* `Spread.aroundFirst?_cases`, `Spread.aroundLast?_cases`,
  `Spread.stripWord?_cases`, `Spread.cutBefore_cases`: searches.
* `Spread.split_induction`: induction along the splits of both texts at a
  keyword.
* `Spread.countTop_eq`, `Spread.isOpen_eq`: counts, and open predicates.
-/

namespace SqlRiver

open Text

/-- The word stands at the start of a text. -/
def Led (w t : Text) : Prop := ∃ m c, t = m ++ c ∧ Stands w [] m c

/-- The word stands right behind a sign that leaves the depth at zero. Where
the sign is an edge of words, nothing is detached from it. -/
def Detached (s : Char) (w t : Text) : Prop :=
  isEdge s = false ∧
    ∃ a b, t = a ++ s :: b ∧ depth a + depthStep s = 0 ∧ Led w b

/-- One of several words stands right behind a sign that leaves the depth at
zero, and none of them before it. -/
def DetachedFirst (s : Char) (words : List Text) (t : Text) : Prop :=
  isEdge s = false ∧ ∃ a b, t = a ++ s :: b ∧ depth a + depthStep s = 0 ∧
    (∀ v ∈ words, Absent v (a ++ [s])) ∧ ∃ w ∈ words, Led w b

variable {s : Char} {w t u a b m c : Text}

/-! ## Words at the start and behind signs -/

/-- A keyword stands where it did when more follows behind an edge. -/
theorem Stands.append_right (hs : Stands w a m c) (hw : isPhrase w = true)
    (hcut : Cut (m ++ c) b) : Stands w a m (c ++ b) := by
  refine ⟨hs.spelled, hs.top, hs.left, ?_⟩
  cases c with
  | cons d c => exact hs.right
  | nil =>
    refine hcut.resolve_left fun hl => ?_
    rw [List.append_nil, isEdge_last_spelling hw hs.spelled] at hl
    cases hl

theorem Led.ne_nil (h : Led w t) (hw : isPhrase w = true) : t ≠ [] := by
  obtain ⟨m, c, rfl, hs⟩ := h
  simp [spelling_ne_nil hw hs.spelled]

theorem Led.append_right (h : Led w a) (hw : isPhrase w = true)
    (hcut : Cut a b) : Led w (a ++ b) := by
  obtain ⟨m, c, rfl, hs⟩ := h
  exact ⟨m, c ++ b, by simp, hs.append_right hw hcut⟩

/-- A cut behind a sign is a cut of what follows the sign. -/
theorem Cut.behind {x y : Text} (hcut : Cut (x ++ s :: y) b) (h₀ : y ≠ []) :
    Cut y b := by
  refine hcut.imp_left fun hl => ?_
  rwa [List.getLast?_append_of_ne_nil _ (by simp),
    List.getLast?_cons_of_ne_nil h₀] at hl

theorem Detached.append_left (h : Detached s w b) (hd : depth a = 0) :
    Detached s w (a ++ b) := by
  obtain ⟨he, x, y, rfl, hx, hled⟩ := h
  refine ⟨he, a ++ x, y, by simp, ?_, hled⟩
  rw [depth_append, hd, Int.zero_add, hx]

theorem Detached.append_right (h : Detached s w a) (hw : isPhrase w = true)
    (hcut : Cut a b) : Detached s w (a ++ b) := by
  obtain ⟨he, x, y, rfl, hx, hled⟩ := h
  have hled' := hled.append_right hw (hcut.behind (hled.ne_nil hw))
  exact ⟨he, x, y ++ b, by simp, hx, hled'⟩

/-- What stands behind a keyword is behind a part of depth zero. -/
theorem Stands.not_detached {v : Text} (hs : Stands v a m c)
    (hv : isPhrase v = true) (hd : ¬ Detached s w (a ++ m ++ c)) :
    ¬ Detached s w c :=
  fun h => hd (h.append_left (hs.depth_eq hv))

theorem not_detachedFirst (h : ¬ Detached s w t) : ¬ DetachedFirst s [w] t := by
  rintro ⟨he, a, b, e, hd, -, v, hv, hled⟩
  obtain rfl : v = w := by simpa using hv
  exact h ⟨he, a, b, e, hd, hled⟩

/-- A spelling starts with a letter and not with a space. -/
theorem head?_append_spelling (hw : isPhrase w = true)
    (hm : m.lower = w.lower) (c : Text) : (m ++ c).head? ≠ some ' ' := by
  rw [List.head?_append_of_ne_nil _ (spelling_ne_nil hw hm)]
  intro h
  have he := isEdge_head_spelling hw hm
  rw [h] at he
  cases he

theorem Led.head?_ne (h : Led w t) (hw : isPhrase w = true) :
    t.head? ≠ some ' ' := by
  obtain ⟨m, c, rfl, hs⟩ := h
  exact head?_append_spelling hw hs.spelled c

/-- A text that ends with a sign ends with no keyword. -/
theorem AbsentIn.absent_sign [Sign s] (hw : isPhrase w = true)
    (h : AbsentIn w (a ++ [s]) b) : Absent w (a ++ [s]) := by
  intro u m c e hs
  have hm := spelling_ne_nil hw hs.spelled
  refine h u (m ++ c) m (c ++ b) (by simp [e]) (by simp [hm]) (by simp)
    ⟨hs.spelled, hs.top, hs.left, ?_⟩
  cases c with
  | cons d c => exact hs.right
  | nil =>
    have hlast := congrArg List.getLast? e
    rw [List.getLast?_concat, List.append_nil,
      List.getLast?_append_of_ne_nil _ hm, eq_comm] at hlast
    exact absurd (List.mem_of_getLast? hlast)
      (Sign.not_mem_spelling s hw hs.spelled)

namespace Spread

variable [Sign s] {G G' : Text → Prop}

section Standing

variable (hw : isPhrase w = true)
include hw

/-- What is spelled in the spread text is spelled in the text. -/
theorem exists_spelled {d : Int} (h : Spread s G d b (m ++ c))
    (hm : m.lower = w.lower) : ∃ c₀, b = m ++ c₀ ∧ Spread s G d c₀ c := by
  have hnot := Sign.not_mem_spelling s hw hm
  obtain ⟨m₀, c₀, rfl, hm₀, hc⟩ :=
    h.exists_parts (.inl fun hl => hnot (List.mem_of_getLast? hl))
  obtain rfl := hm₀.eq_of_not_mem fun hmem =>
    hnot ((hm₀.mem_iff (Sign.ne_space s)).2 hmem)
  rw [depth_spelling hw hm, Int.add_zero] at hc
  exact ⟨c₀, rfl, hc⟩

omit hw [Sign s] in
/-- A keyword of the text stands in the spread text. -/
theorem stands {a' c' : Text} (hs : Stands w a m c) (ha : Spread s G 0 a a')
    (hc : Spread s G' 0 c c') : Stands w a' m c' := by
  refine ⟨hs.spelled, by rw [ha.depth_eq, hs.top], ?_,
    by rw [hc.head?_eq, hs.right]⟩
  rcases ha.getLast?_cases with hl | ⟨-, hl, -⟩
  · rw [hl, hs.left]
  · rw [hl]
    rfl

/-- A part in which a keyword is spelled stays as it is. -/
theorem exists_spelling {d : Int} (hm : m.lower = w.lower)
    (h : Spread s G d (m ++ c) u) :
    ∃ c', u = m ++ c' ∧ Spread s G d c c' := by
  obtain ⟨m', c', rfl, hm', hc⟩ := h.exists_append
  obtain rfl := hm'.eq_of_not_mem (Sign.not_mem_spelling s hw hm)
  rw [depth_spelling hw hm, Int.add_zero] at hc
  exact ⟨c', rfl, hc⟩

/-- A text in which a keyword stands is spread before and behind it. -/
theorem exists_stands (hG : Kept G) (hs : Stands w a m c)
    (h : Spread s G 0 (a ++ m ++ c) u) :
    ∃ a' c', u = a' ++ m ++ c' ∧ Spread s G 0 a a' ∧ Spread s G 0 c c' ∧
      Stands w a' m c' := by
  rw [List.append_assoc] at h
  obtain ⟨a', v, rfl, ha, hv⟩ := h.cut hG (Cut.apart (.inl hs.left))
  obtain ⟨c', rfl, hc⟩ := exists_spelling hw hs.spelled hv
  rw [hs.top] at hc
  exact ⟨a', c', by simp, ha, hc, stands hs ha hc⟩

/-- A keyword of the spread text stands in the text, unless a space was put
before it. -/
theorem stands_or {a' c' : Text} (ha : Spread s G 0 a a')
    (hb : Spread s G' 0 b (m ++ c')) (hs : Stands w a' m c') :
    ∃ c, b = m ++ c ∧ (Stands w a m c ∨
      isEdge s = false ∧ ∃ x, a = x ++ [s] ∧ depth x + depthStep s = 0 ∧
        Led w b) := by
  obtain ⟨c, rfl, hc⟩ := exists_spelled hw hb hs.spelled
  have htop : depth a = 0 := by rw [← ha.depth_eq, hs.top]
  have hright : atEdge c.head? = true := by rw [← hc.head?_eq, hs.right]
  refine ⟨c, rfl, ?_⟩
  rcases ha.getLast?_cases with hl | ⟨hl, -⟩
  · exact .inl ⟨hs.spelled, htop, by rw [← hl, hs.left], hright⟩
  · by_cases he : isEdge s = true
    · exact .inl ⟨hs.spelled, htop, by rw [hl, atEdge, he], hright⟩
    · obtain ⟨x, rfl⟩ := List.getLast?_eq_some_iff.1 hl
      rw [depth_append, depth_cons, depth_nil, Int.add_zero] at htop
      have hled : Led w (m ++ c) := ⟨m, c, rfl, hs.spelled, rfl, rfl, hright⟩
      exact .inr ⟨by simpa using he, x, rfl, htop, hled⟩

omit hw in
/-- Before the first of several words, none of them is detached. -/
theorem absentIn {words : List Text} (hw : ∀ w ∈ words, isPhrase w = true)
    {a' b' : Text} (habs : ∀ w ∈ words, AbsentIn w a b)
    (hd : ¬ DetachedFirst s words (a ++ b)) (ha : Spread s G 0 a a')
    (hb : Spread s G' (depth a) b b') : ∀ w ∈ words, AbsentIn w a' b' := by
  rintro w hmem v x n e rfl hx hne hs
  have hhead : x.head? ≠ some ' ' := by
    have := head?_append_spelling (hw w hmem) hs.spelled e
    rwa [← hne, List.head?_append_of_ne_nil _ hx] at this
  obtain ⟨a₀, x₀, rfl, ha₀, hx₀⟩ := ha.anyhow.exists_parts (.inr hhead)
  have htop : depth a₀ = 0 := by rw [← ha₀.depth_eq, hs.top]
  rw [htop] at hx₀
  have hbehind : Spread s (fun _ => True) 0 (x₀ ++ b) (n ++ e) := by
    rw [← hne]
    refine hx₀.append ?_
    have hb := hb.anyhow
    rwa [depth_append, htop] at hb
  obtain ⟨e₀, he, hs' | ⟨hedge, y, rfl, hy, hled⟩⟩ :=
    stands_or (hw w hmem) ha₀ hbehind hs
  · have hx₀' : x₀ ≠ [] := fun h => hx (hx₀.eq_nil_iff.2 h)
    exact habs w hmem a₀ x₀ n e₀ rfl hx₀' he hs'
  · refine hd ⟨hedge, y, x₀ ++ b, by simp, hy, fun v hv => ?_, w, hmem, hled⟩
    exact (habs v hv).left.absent_sign (hw v hv)

/-- A word does not stand before its first place in the spread text either,
unless a sign hides one there. -/
theorem absentIn_stands {a' c' : Text} (hs : Stands w a m c)
    (habs : AbsentIn w a (m ++ c)) (hd : ¬ DetachedFirst s [w] (a ++ m ++ c))
    (ha : Spread s G 0 a a') (hc : Spread s G 0 c c') :
    AbsentIn w a' (m ++ c') := by
  have hmc : Spread s (fun _ => True) (depth a) (m ++ c) (m ++ c') := by
    rw [hs.top]
    refine (refl s _ 0 m).append ?_
    rw [depth_spelling hw hs.spelled]
    exact hc.anyhow
  have hword : ∀ v ∈ [w], isPhrase v = true := by simpa using hw
  exact absentIn hword (by simpa using habs) (by simpa using hd) ha hmc w
    (by simp)

/-- A keyword that is absent from the text is absent from the spread text,
unless a space detaches it. -/
theorem absent (habs : Absent w t) (hd : ¬ DetachedFirst s [w] t)
    (h : Spread s G 0 t u) : Absent w u := by
  rw [← absentIn_nil_iff hw] at habs ⊢
  have hword : ∀ v ∈ [w], isPhrase v = true := by simpa using hw
  have hnil : Spread s G (depth t) [] [] := .nil _
  exact absentIn hword (by simpa using habs) (by simpa using hd) h hnil w
    (by simp)

/-! ## Searches -/

/-- A word stands first at the same place of a spread text, or in neither. -/
theorem aroundFirst?_cases (hG : Kept G) (hd : ¬ DetachedFirst s [w] t)
    (h : Spread s G 0 t u) :
    aroundFirst? w t = none ∧ aroundFirst? w u = none ∨
      ∃ a m c a' c', t = a ++ m ++ c ∧ Stands w a m c ∧
        Spread s G 0 a a' ∧ Spread s G 0 c c' ∧
        aroundFirst? w t = some (a, c) ∧ aroundFirst? w u = some (a', c') := by
  cases hf : aroundFirst? w t with
  | none =>
    refine .inl ⟨rfl, (aroundFirst?_eq_none_iff hw).2 ?_⟩
    exact absent hw ((aroundFirst?_eq_none_iff hw).1 hf) hd h
  | some cut =>
    obtain ⟨a, c⟩ := cut
    obtain ⟨m, rfl, hs, habs⟩ := (aroundFirst?_eq_some_iff hw).1 hf
    obtain ⟨a', c', rfl, ha, hc, hs'⟩ := exists_stands hw hG hs h
    have habs' := absentIn_stands hw hs habs hd ha hc
    exact .inr ⟨a, m, c, a', c', rfl, hs, ha, hc, rfl,
      (aroundFirst?_eq_some_iff hw).2 ⟨m, rfl, hs', habs'⟩⟩

/-- A word stands last at the same place of a spread text, or in neither. -/
theorem aroundLast?_cases (hG : Kept G) (hd : ¬ Detached s w t)
    (h : Spread s G 0 t u) :
    aroundLast? w t = none ∧ aroundLast? w u = none ∨
      ∃ a m c a' c', t = a ++ m ++ c ∧ Stands w a m c ∧
        Spread s G 0 a a' ∧ Spread s G 0 c c' ∧
        aroundLast? w t = some (a, c) ∧ aroundLast? w u = some (a', c') := by
  cases hf : aroundLast? w t with
  | none =>
    refine .inl ⟨rfl, (aroundLast?_eq_none_iff hw).2 ?_⟩
    exact absent hw ((aroundLast?_eq_none_iff hw).1 hf) (not_detachedFirst hd) h
  | some cut =>
    obtain ⟨a, c⟩ := cut
    obtain ⟨m, rfl, hs, habs⟩ := (aroundLast?_eq_some_iff hw).1 hf
    obtain ⟨a', c', rfl, ha, hc, hs'⟩ := exists_stands hw hG hs h
    have habs' :=
      absent hw habs (not_detachedFirst (hs.not_detached hw hd)) hc
    exact .inr ⟨a, m, c, a', c', rfl, hs, ha, hc, rfl,
      (aroundLast?_eq_some_iff hw).2 ⟨m, rfl, hs', habs'⟩⟩

/-- A word at the start has no sign before it. -/
theorem stripWord?_cases (h : Spread s G 0 t u) :
    stripWord? w t = none ∧ stripWord? w u = none ∨
      ∃ m c c', t = m ++ c ∧ Stands w [] m c ∧ Spread s G 0 c c' ∧
        stripWord? w t = some c ∧ stripWord? w u = some c' := by
  cases hu : stripWord? w u with
  | none =>
    refine .inl ⟨stripWord?_eq_none_iff.2 ?_, rfl⟩
    rintro m c rfl hs
    obtain ⟨c', rfl, hc⟩ := exists_spelling hw hs.spelled h
    exact stripWord?_eq_none_iff.1 hu m c' rfl (stands hs (refl s G 0 []) hc)
  | some c' =>
    obtain ⟨m, rfl, hs⟩ := stripWord?_eq_some_iff.1 hu
    obtain ⟨c, rfl, hc⟩ := exists_spelled hw h hs.spelled
    have hs' : Stands w [] m c :=
      ⟨hs.spelled, rfl, rfl, by rw [← hc.head?_eq, hs.right]⟩
    exact .inr ⟨m, c, c', rfl, hs', hc, stripWord?_eq_some_iff.2 ⟨m, rfl, hs'⟩,
      rfl⟩

end Standing

/-- The first of several words ends the same part of both texts. -/
theorem upTo (hG : Kept G) {words : List Text}
    (hw : ∀ w ∈ words, isPhrase w = true) {x y : Text}
    (hd : ¬ DetachedFirst s words (x ++ y)) (hu : UpTo words x y)
    (h : Spread s G 0 (x ++ y) u) :
    ∃ x' y', u = x' ++ y' ∧ Spread s G 0 x x' ∧ Spread s G 0 y y' ∧
      UpTo words x' y' := by
  obtain ⟨x', y', rfl, hx, hy⟩ := h.cut hG hu.cut.apart
  rw [Int.zero_add] at hy
  have habs := absentIn hw hu.absent hd hx hy
  rcases hu.stop with rfl | ⟨w, hmem, m, c, rfl, hs⟩
  · cases hy
    exact ⟨x', [], rfl, hx, .nil 0, habs, .inl rfl⟩
  · rw [hs.top] at hy
    obtain ⟨c', rfl, hc⟩ := exists_spelling (hw w hmem) hs.spelled hy
    exact ⟨x', m ++ c', rfl, hx, hy, habs,
      .inr ⟨w, hmem, m, c', rfl, stands hs hx hc⟩⟩

/-- A spread text is cut before the first of several words at the same place. -/
theorem cutBefore_cases (hG : Kept G) {words : List Text}
    (hw : ∀ w ∈ words, isPhrase w = true) (hd : ¬ DetachedFirst s words t)
    (h : Spread s G 0 t u) :
    ∃ x y x' y', t = x ++ y ∧ UpTo words x y ∧
      Spread s G 0 x x' ∧ Spread s G 0 y y' ∧
      cutBefore words t = (x, y) ∧ cutBefore words u = (x', y') := by
  obtain ⟨x, y, e⟩ : ∃ x y, cutBefore words t = (x, y) := ⟨_, _, rfl⟩
  obtain ⟨rfl, hu⟩ := (cutBefore_eq_iff hw).1 e
  obtain ⟨x', y', rfl, hx, hy, hu'⟩ := upTo hG hw hd hu h
  exact ⟨x, y, x', y', rfl, hu, hx, hy, e, (cutBefore_eq_iff hw).2 ⟨rfl, hu'⟩⟩

/-! ## Splits -/

/-- Induction along the splits of a text and of the spread text at a
keyword. -/
theorem split_induction (hG : Kept G) (hw : isPhrase w = true)
    {P : Text → Text → Split → Split → Prop}
    (last : ∀ t u, Absent w t → Absent w u → Spread s G 0 t u →
      P t u ⟨t, []⟩ ⟨u, []⟩)
    (cut : ∀ a m c a' c' p q, Stands w a m c → AbsentIn w a (m ++ c) →
      AbsentIn w a' (m ++ c') → Spread s G 0 a a' → Spread s G 0 c c' →
      P c c' p q →
      P (a ++ m ++ c) (a' ++ m ++ c') ⟨a, (m, p.first) :: p.rest⟩
        ⟨a', (m, q.first) :: q.rest⟩)
    (hd : ¬ Detached s w t) (h : Spread s G 0 t u) :
    P t u (split w t) (split w u) := by
  refine split_phrase_induction hw (P := fun t p =>
    ¬ Detached s w t → ∀ u, Spread s G 0 t u → P t u p (split w u))
    ?_ ?_ t hd u h
  · intro t habs hd u h
    have habs' := absent hw habs (not_detachedFirst hd) h
    rw [split_of_absent hw habs']
    exact last t u habs habs' h
  · intro a m c p hs habs ih hd u h
    obtain ⟨a', c', rfl, ha, hc, hs'⟩ := exists_stands hw hG hs h
    have habs' := absentIn_stands hw hs habs (not_detachedFirst hd) ha hc
    rw [split_of_stands hw hs' habs']
    exact cut a m c a' c' p _ hs habs habs' ha hc
      (ih (hs.not_detached hw hd) c' hc)

/-- A mark occurs as often in a spread text. -/
theorem countTop_eq (k : Mark) (hd : ¬ Detached s k.word t)
    (h : Spread s G 0 t u) : countTop k.word u = countTop k.word t := by
  refine split_induction kept_true k.isPhrase_word (P :=
    fun t u _ _ => countTop k.word u = countTop k.word t) ?_ ?_ hd h.anyhow
  · intro t u habs habs' _
    rw [(countTop_eq_zero_iff k.isPhrase_word).2 habs,
      (countTop_eq_zero_iff k.isPhrase_word).2 habs']
  · intro a m c a' c' _ _ hs habs habs' ha hc ih
    rw [countTop_stands k hs habs, countTop_stands k (stands hs ha hc) habs',
      ih]

/-- A predicate is open if the spread predicate is. -/
theorem isOpen_eq (hd : ∀ k : Mark, ¬ Detached s k.word t)
    (h : Spread s G 0 t u) : isOpen u = isOpen t :=
  isOpen_congr fun k => countTop_eq k (hd k) h

end Spread

end SqlRiver
