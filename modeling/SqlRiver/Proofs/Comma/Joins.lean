import SqlRiver.Proofs.Comma.Sources

/-!
# Joins of loosened texts

The joins of a text are divided at `join`, and the words that choose its kind
are taken off the end of what stands before it. No comma hides such words in
an overt text, so the same words are taken off the loosened text. A comma
before the first `join` is refused with a space behind it and without one.

Main definitions and statements:

* `Pieces`: the pieces between the places of `join`.
* `readJoins_comma`: a comma before the first `join`.
* `alike_readJoin`, `Pieces.joinedAlike`, `alike_readJoins`: joins.
-/

namespace SqlRiver

open Text

variable {t u : Text} {nested : Nested} {literals : LiteralTable}

/-! ## One join -/

/-- A join of an overt piece is that of the loosened piece, but for the blanks
of its predicate. -/
theorem alike_readJoin {kind : JoinKind} (ho : Overt t) (h : Loosened 0 t u) :
    Alike (fun j j' => j'.squeezedOn = j.squeezedOn)
      (readJoin nested literals kind t) (readJoin nested literals kind u) := by
  refine Spread.alike_readJoin (s := ',') kept_true kind ?_
  refine (alike_readSource (p := []) rfl ho.trim (h.trim kept_true)
    isPhrase_of_mem_joinSourceEnds).imp ?_
  exact fun _ _ hleft => ⟨hleft.1, hleft.2.2⟩

/-! ## All joins -/

/-- The pieces between the places of `join`: no tight comma hides the words
before it. -/
inductive Pieces : List Text → List Text → Prop
  | last {t u : Text} (ho : Overt t) (h : Loosened 0 t u) : Pieces [t] [u]
  | cons {t u : Text} {ts us : List Text} (ho : Overt t) (h : Loosened 0 t u)
    (hj : Unjoined ',' t) (hmore : Pieces ts us) : Pieces (t :: ts) (u :: us)

/-- Between the places of `join` stand loosened pieces of an overt text. -/
theorem pieces_split (ho : Overt t) (hj : Unled t) (h : Loosened 0 t u) :
    Pieces (split Clause.join.phrase t).pieces
      (split Clause.join.phrase u).pieces := by
  have hw := isPhrase_phrase .join
  refine h.split_induction kept_true hw (P := fun t _ s s' => Overt t →
    Unled t → Pieces s.pieces s'.pieces) ?_ ?_ hj.not_detached ho hj
  · intro t u _ _ h ho _
    exact .last ho.trim (h.trim kept_true)
  · intro a m c a' c' s s' hs _ _ ha hc ih ho hj
    obtain ⟨hoa, hoc⟩ := ho.stands hw hs
    exact .cons hoa.trim (ha.trim kept_true) (hj.unjoined hs).trim
      (ih hoc (hj.right (hs.depth_eq hw)))

/-- Loosened pieces are read alike. -/
theorem Pieces.joinedAlike {ts us : List Text} (h : Pieces ts us) :
    JoinedAlike nested literals ts us := by
  induction h with
  | last ho h => exact .last fun _ => alike_readJoin ho h
  | cons ho h hj _ ih =>
    obtain ⟨hnext, x, x', hx, e, e'⟩ := h.trailingModifiers kept_true hj
    have hbody := hx.trim kept_true
    rw [← e, ← e'] at hbody
    refine .cons hnext (fun _ => alike_readJoin ?_ hbody) ih
    exact inherited_overt.trailingModifiers ho

/-- Where a word stands that does not stand before a comma, the comma stands
before it. -/
theorem AbsentIn.exists_comma {w x y a m c : Text} (hw : isPhrase w = true)
    (habs : AbsentIn w x (',' :: y)) (e : x ++ ',' :: y = a ++ m ++ c)
    (hs : Stands w a m c) : ∃ r, a = x ++ ',' :: r := by
  have hhead : (m ++ c).head? ≠ some ',' := by
    rw [List.head?_append_of_ne_nil _ (spelling_ne_nil hw hs.spelled)]
    exact fun hh =>
      Sign.not_mem_spelling ',' hw hs.spelled (List.mem_of_head? hh)
  rw [List.append_assoc] at e
  rcases List.append_eq_append_iff.1 e with ⟨z, rfl, hz⟩ | ⟨z, rfl, hz⟩
  · cases z with
    | nil => exact absurd (by rw [← List.nil_append (m ++ c), ← hz]; rfl) hhead
    | cons d z =>
      obtain ⟨rfl, -⟩ := List.cons.inj hz
      exact ⟨z, rfl⟩
  · cases z with
    | nil => exact absurd (by rw [hz]; rfl) hhead
    | cons d z => exact absurd hs (habs a (d :: z) m c rfl (by simp) hz.symm)

theorem mem_trim {d : Char} (hd : d ∈ t) (hb : isBlank d = false) :
    d ∈ t.trim := by
  obtain ⟨l, r, hl, hr, e⟩ := exists_trim t
  rw [e, List.mem_append, List.mem_append] at hd
  rcases hd with (hd | hd) | hd
  · rw [hl d hd] at hb
    cases hb
  · exact hd
  · rw [hr d hd] at hb
    cases hb

/-- A comma before the first `join` is refused. -/
theorem readJoins_comma (nested : Nested) (literals : LiteralTable) {x y : Text}
    (hu : UpToComma (Clause.join.phrase :: joinEnds) x (',' :: y)) :
    ∃ e, readJoins nested literals (x ++ ',' :: y) = .error e := by
  have hw := isPhrase_phrase .join
  obtain ⟨region, rest, e⟩ : ∃ region rest,
      cutBefore joinEnds (x ++ ',' :: y) = (region, rest) :=
    ⟨_, _, rfl⟩
  obtain ⟨hcut, hup⟩ := (cutBefore_eq_iff isPhrase_of_mem_joinEnds).1 e
  obtain ⟨r, rfl⟩ : ∃ r, region = x ++ ',' :: r := by
    rcases hup.stop with rfl | ⟨w, hmem, m, c, rfl, hs⟩
    · exact ⟨y, by simpa using hcut.symm⟩
    · exact (hu.absent w (by simp [hmem])).exists_comma
        (isPhrase_of_mem_joinEnds w hmem) (by simp [hcut]) hs
  have hne : (Text.trim (x ++ ',' :: r)).isEmpty = false := by
    have hmem : ',' ∈ Text.trim (x ++ ',' :: r) := mem_trim (by simp) rfl
    simpa using List.ne_nil_of_mem hmem
  simp only [readJoins, e, hne]
  rcases split_phrase_cases hw (x ++ ',' :: r) with
    ⟨-, es⟩ | ⟨a, m, c, es, hs, -, es'⟩
  · rw [es]
    exact ⟨_, rfl⟩
  · -- the comma is one of the words that should choose the kind
    have hs' : Stands Clause.join.phrase a m (c ++ rest) := by
      refine hs.append_right hw (hup.cut.imp_left fun hl => ?_)
      have hmc : m ++ c ≠ [] := by simp [spelling_ne_nil hw hs.spelled]
      rwa [es, List.append_assoc, List.getLast?_append_of_ne_nil _ hmc] at hl
    obtain ⟨r', rfl⟩ := (hu.absent _ (List.mem_cons_self ..)).exists_comma hw
      (by simp [hcut, es]) hs'
    have hmem : ',' ∈ Text.trim (x ++ ',' :: r') := mem_trim (by simp) rfl
    obtain ⟨err, hk⟩ := joinKind_of_mem hmem
    refine ⟨err, ?_⟩
    rw [es']
    cases (split Clause.join.phrase c).rest with
    | nil =>
      simp only [Split.pieces, Split.parts, List.map_cons, List.map_nil,
        joinsOf, hk]; rfl
    | cons p ps =>
      simp only [Split.pieces, Split.parts, List.map_cons, joinsOf, hk]; rfl

/-- A comma behind a text without a comma. -/
theorem exists_behind {p q r s : Text} (e : p ++ q = r ++ ',' :: s)
    (hn : ∀ z, p ≠ r ++ ',' :: z) : ∃ z, r = p ++ z ∧ q = z ++ ',' :: s := by
  rcases List.append_eq_append_iff.1 e with ⟨z, hr, hq⟩ | ⟨z, hp, hs⟩
  · exact ⟨z, hr, hq⟩
  · cases z with
    | nil => exact ⟨[], by simpa using hp.symm, by simpa using hs.symm⟩
    | cons d z =>
      obtain ⟨rfl, -⟩ := List.cons.inj hs
      exact absurd hp (hn z)

/-- The clauses that end joins. -/
def joinClauses : List Clause := [.filter, .groupBy, .having, .orderBy, .limit]

/-- A comma of the joins stands behind a `join`, unless one stands before the
first `join`. -/
theorem UpToComma.lasts {x y a b : Text}
    (hu : UpToComma (Clause.join.phrase :: joinEnds) x y)
    (hy : y.head? ≠ some ',') (e : x ++ y = a ++ ',' :: b) (hd : depth a = 0)
    (habs : ∀ w ∈ joinEnds, Absent w (a ++ [','])) :
    Lasts .join joinClauses a := by
  have hwords : ∀ w ∈ Clause.join.phrase :: joinEnds, isPhrase w = true :=
    by decide
  obtain ⟨z, rfl, rfl⟩ :=
    exists_behind e fun z hz => by cases hu.noComma a ',' z hz hd
  rcases hu.stop with h₀ | ⟨-, hcomma⟩ | ⟨w, hmem, m, c, em, hs⟩
  · simp at h₀
  · exact absurd hcomma hy
  · have hw := hwords w hmem
    obtain ⟨v, rfl, rfl⟩ := exists_behind em.symm fun z hz =>
      Sign.not_mem_spelling ',' hw hs.spelled (by rw [hz]; simp)
    have hright : atEdge (v ++ [',']).head? = true := by
      have := hs.right
      cases v <;> exact this
    have e' : x ++ (m ++ v) ++ [','] = x ++ m ++ (v ++ [',']) := by simp
    rw [e'] at habs
    rcases List.mem_cons.1 hmem with rfl | hmem
    · rw [← List.append_assoc]
      refine hs.lasts fun e he => ?_
      have he' : e.phrase ∈ joinEnds := List.mem_map_of_mem he
      exact (habs e.phrase he').right (isPhrase_phrase e) (hs.depth_eq hw)
        (.inr hright)
    · exact absurd ⟨hs.spelled, hs.top, hs.left, hright⟩ (habs w hmem x m _ rfl)

/-- The joins of an overt text are those of the loosened text, but for the
blanks of their predicates. -/
theorem alike_readJoins (ho : Overt t) (h : Loosened 0 t u) :
    Alike (Leaves fun js js' =>
      js'.map Join.squeezedOn = js.map Join.squeezedOn)
      (readJoins nested literals t) (readJoins nested literals u) := by
  have hwords : ∀ w ∈ Clause.join.phrase :: joinEnds, isPhrase w = true :=
    by decide
  have hmem : (Clause.join, joinClauses) ∈ clauseEnds := by decide
  obtain ⟨x, y, rfl, hux⟩ := exists_upToComma hwords t
  by_cases hy : y.head? = some ','
  · obtain ⟨y', rfl, hux', hy'⟩ := Loosened.upToComma hwords hux h
    obtain ⟨z, rfl⟩ := List.head?_eq_some_iff.1 hy
    obtain ⟨z', rfl⟩ : ∃ z', y' = ',' :: z' :=
      List.head?_eq_some_iff.1 hy'.head?_eq
    obtain ⟨e, ht⟩ := readJoins_comma nested literals hux
    obtain ⟨e', hu⟩ := readJoins_comma nested literals hux'
    rw [ht, hu]
    trivial
  · have hfirst : ¬ DetachedFirst ',' joinEnds (x ++ y) := by
      rintro ⟨-, a, b, e, hd, habs, w, hw, hled⟩
      have hd := depth_comma hd
      obtain ⟨clause, hclause, rfl⟩ : ∃ clause ∈ joinClauses,
          clause.phrase = w :=
        List.mem_map.1 hw
      exact ho.overt a b e hd (.ends hmem (hux.lasts hy e hd habs) hclause hled)
    obtain ⟨region, rest, region', rest', e, hup, hregion, hrest, ht, hu⟩ :=
      h.cutBefore_cases kept_true isPhrase_of_mem_joinEnds hfirst
    have hled : Unled region := by
      rintro a b rfl hd hled
      have e' : x ++ y = a ++ ',' :: (b ++ rest) := by simp [e]
      refine ho.overt a (b ++ rest) e' hd
        (.divides hmem (hux.lasts hy e' hd fun w hw => ?_) (.join ?_))
      · have habs := hup.absent w hw
        rw [show a ++ ',' :: b = (a ++ [',']) ++ b by simp] at habs
        exact habs.left.absent_sign (isPhrase_of_mem_joinEnds w hw)
      · exact hled.append_right (hup.cut.behind hled.ne_nil)
    rw [e] at ho
    obtain ⟨hor, hot⟩ := ho.upTo hup
    simp only [readJoins, ht, hu, (hregion.trim kept_true).isEmpty_eq]
    split
    · exact ⟨rfl, e ▸ ho, h⟩
    · have hpieces := pieces_split hor hled hregion
      generalize (split Clause.join.phrase region).pieces = ts at hpieces
      generalize (split Clause.join.phrase region').pieces = us at hpieces
      cases hpieces with
      | last => trivial
      | cons hop hp hj hmore =>
        have hmore : JoinedAlike nested literals _ _ := hmore.joinedAlike
        obtain ⟨p, more, p', more', rfl, rfl⟩ := hmore.exists_cons
        refine (hmore.alike_joinsOf hp.alike_joinKind).bind fun js js' hjs => ?_
        exact ⟨hjs, hot.trim, hrest.trim kept_true⟩

end SqlRiver
