import SqlRiver.Proofs.Reading.Inherited

/-!
# Words that do not stand in what is read

A reader divides a text at keywords, and keeps or leaves what stands between
them. A word that does not stand in the text does not stand in what is kept or
left either, since nothing is cut off inside a word. The keywords that a reader
looks for do not stand in what it keeps.

Main definitions and statements:

* `Without`: an orderly text in which a word does not stand.
* `inherited_without`: the parts of such a text.
* `without_readTrailing`, ..., `without_readJoins`: what the readers keep and
  leave of such a text.
-/

namespace SqlRiver

open Text

variable {w t rest : Text} {clause : Clause} {nested : Nested}
  {literals : LiteralTable}

/-- An orderly text in which a word does not stand. -/
structure Without (w t : Text) : Prop where
  orderly : Orderly t
  absent : Absent w t

/-! ## Parts of a text -/

section Parts

variable {a b m c v : Text} (hw : isPhrase w = true)
include hw

theorem Without.cut (h : Without w (a ++ b)) (hd : depth a = 0) (hc : Cut a b) :
    Without w a ∧ Without w b := by
  obtain ⟨ha, hb⟩ := h.orderly.append hd
  exact ⟨⟨ha, h.absent.left hw hc⟩, hb, h.absent.right hw hd hc⟩

/-- What a comma starts. -/
theorem Without.comma (h : Without w (a ++ ',' :: b)) (hd : depth a = 0) :
    Without w (',' :: b) := by
  refine ⟨(h.orderly.append hd).2, fun x m c e hs => ?_⟩
  -- the word starts behind the comma
  cases x with
  | nil =>
    obtain ⟨d, hd, hlow⟩ := head?_spelling hw hs.spelled
    have e' : (',' :: b).head? = m.head? := by
      rw [e, List.nil_append,
        List.head?_append_of_ne_nil _ (spelling_ne_nil hw hs.spelled)]
    rw [hd] at e'
    cases e'
    cases hlow
  | cons d x =>
    refine h.absent (a ++ d :: x) m c (by rw [e]; simp)
      ⟨hs.spelled, ?_, ?_, hs.right⟩
    · rw [depth_append, hd, hs.top]
      rfl
    · rw [List.getLast?_append_of_ne_nil _ (by simp)]
      exact hs.left

theorem inherited_without : Inherited (Without w) where
  orderly h := h.orderly
  nil := ⟨⟨thin_of_noBlank (by simp), rfl⟩, absent_nil hw⟩
  cut h hd hc := h.cut hw hd hc
  comma h hd := h.comma hw hd

theorem Without.stands (h : Without w (a ++ m ++ c)) (hv : isPhrase v = true)
    (hs : Stands v a m c) : Without w a ∧ Without w c :=
  (inherited_without hw).stands h hv hs

/-- Neither part of a text that is cut before a word has a word that the text
has not. -/
theorem Without.upTo {words : List Text} (h : Without w (a ++ b))
    (hu : UpTo words a b) : Without w a ∧ Without w b :=
  (inherited_without hw).upTo h hu

theorem Without.trim (h : Without w t) : Without w t.trim :=
  (inherited_without hw).trim h

end Parts

/-- A text that runs up to the first of several words has none of them. -/
theorem without_of_upTo {words : List Text} {a b : Text}
    (hw : isPhrase w = true) (ho : Orderly (a ++ b))
    (hu : UpTo words a b) (hmem : w ∈ words) : Without w a :=
  ⟨(ho.upTo hu).1, (hu.absent w hmem).absent hw hu.cut⟩

/-- A text that stands before a word ends at an edge, if what stands before it
does not run on. -/
theorem atEdge_getLast?_append {v u a m c : Text} (hs : Stands v a m c)
    (h : u = [] ∨ atEdge (a ++ m ++ c).head? = true) (hv : isPhrase v = true) :
    atEdge (u ++ a).getLast? = true := by
  cases a with
  | cons d a =>
    rw [List.getLast?_append_of_ne_nil _ (by simp)]
    exact hs.left
  | nil =>
    rcases h with rfl | h
    · rfl
    · rw [List.nil_append,
        List.head?_append_of_ne_nil _ (spelling_ne_nil hv hs.spelled),
        isEdge_head_spelling hv hs.spelled] at h
      cases h

/-! ## Clauses -/

/-- The texts between `and`, regrouped behind `u`. -/
theorem without_regroup (hw : isPhrase w = true) (t : Text) :
    ∀ u : Text, depth u = 0 →
      (u = [] ∨ atEdge t.head? = true) → Without w (u ++ t) →
      ∀ p ∈ regroup (u ++ (split "and".toList t).first) (split "and".toList
      t).rest, Without w p := by
  refine split_phrase_induction isPhrase_and (P := fun t s => ∀ u : Text,
    depth u = 0 → (u = [] ∨ atEdge t.head? = true) → Without w (u ++ t) →
    ∀ p ∈ regroup (u ++ s.first) s.rest, Without w p) ?_ ?_ t
  · intro t _ u _ _ h p hp
    obtain rfl : p = u ++ t := by simpa [regroup] using hp
    exact h
  · intro a m c s hs _ ih u hu hedge h p hp
    have hm := depth_spelling isPhrase_and hs.spelled
    have hua : depth (u ++ a) = 0 := by rw [depth_append, hu, hs.top]; rfl
    simp only [regroup] at hp
    split at hp
    · refine ih (u ++ a ++ m)
        ?_ (.inr hs.right) (by simpa using h) p (by simpa using hp)
      rw [depth_append, hua, hm]
      rfl
    · have hleft := atEdge_getLast?_append hs hedge isPhrase_and
      have e : u ++ (a ++ m ++ c) = (u ++ a) ++ (m ++ c) := by simp
      rw [e] at h
      obtain ⟨hfirst, hmc⟩ := h.cut hw hua (.inl hleft)
      rcases List.mem_cons.1 hp with rfl | hp
      · exact hfirst
      · exact ih [] rfl (.inl rfl) (hmc.cut hw hm (.inr hs.right)).2 p hp

section Clauses

variable (hw : isPhrase w = true) (h : Without w t)
include hw h

/-- Neither a clause at the end nor what it leaves has a word that the text has
not. -/
theorem without_readTrailing {v : Option Text}
    (hr : readTrailing clause t = .ok (v, rest)) :
    (∀ p ∈ v, Absent w p) ∧ Without w rest := by
  rcases readTrailing_eq_ok_iff.1 hr with
    ⟨-, rfl, rfl⟩ | ⟨a, m, c, rfl, hs, -, -, rfl, rfl⟩
  · exact ⟨by simp, h⟩
  · obtain ⟨ha, hc⟩ := h.stands hw (isPhrase_phrase _) hs
    exact ⟨by simpa using (hc.trim hw).absent, ha.trim hw⟩

theorem without_readOrderBy {entries : List Text}
    (hr : readOrderBy t = .ok (entries, rest)) : Without w rest := by
  rcases readOrderBy_eq_ok_iff.1 hr with
    ⟨-, rfl, rfl⟩ | ⟨a, m, c, rfl, hs, -, -, rfl⟩
  · exact h
  · exact (h.stands hw (isPhrase_phrase _) hs).1.trim hw

/-- What the columns leave has no word that the text has not. -/
theorem without_readSelect {d : Bool} {columns : List Column}
    (hr : readSelect literals t = .ok ((d, columns), rest)) :
    Without w rest := by
  obtain ⟨m, list, m', tail, l, entries, rfl, hs, hs', -, -, -, -, -, rfl⟩ :=
    readSelect_eq_ok_iff.1 hr
  obtain ⟨-, hbehind⟩ := Without.stands (a := []) hw h (isPhrase_phrase _) hs
  exact (hbehind.stands hw (isPhrase_phrase _) hs').2.trim hw

/-- Neither the body of a clause nor what it leaves has a word that the text has
not. -/
theorem without_bodyOf {ends : List Clause} {body : Text}
    (hb : bodyOf? clause ends t = some (body, rest)) :
    Without w body ∧ Without w rest := by
  obtain ⟨m, tail, rfl, hs, hu, rfl⟩ := bodyOf?_eq_some_iff.1 hb
  obtain ⟨-, hbehind⟩ := Without.stands (a := []) hw h (isPhrase_phrase _) hs
  obtain ⟨hbody, htail⟩ := hbehind.upTo hw hu
  exact ⟨hbody, htail.trim hw⟩

/-- No predicate has a word that the conditions have not. -/
theorem without_conditions {conds : List Condition}
    (hc : conditions clause t = .ok conds) :
    ∀ cond ∈ conds, Absent w cond.predicate := by
  obtain ⟨-, -, rfl⟩ := conditions_eq_ok_iff.1 hc
  intro cond hcond
  obtain ⟨p, hp, rfl⟩ := List.mem_map.1 hcond
  obtain ⟨p', hp', rfl⟩ := List.mem_map.1 hp
  exact ((without_regroup hw _ [] rfl (.inl rfl) (h.trim hw) p' hp').trim
    hw).absent

/-- Neither the predicates of the filter nor what it leaves has a word that the
text has not. -/
theorem without_readFilter {conds : List Condition}
    (hr : readFilter t = .ok (conds, rest)) :
    (∀ cond ∈ conds, Absent w cond.predicate) ∧ Without w rest := by
  rcases readFilter_eq_ok_iff.1 hr with ⟨-, rfl, rfl⟩ | ⟨body, hb, hc⟩
  · exact ⟨by simp, h⟩
  · obtain ⟨hbody, hrest⟩ := without_bodyOf hw h hb
    exact ⟨without_conditions hw hbody hc, hrest⟩

theorem without_readGroupBy {entries : List Text}
    (hr : readGroupBy t = .ok (entries, rest)) : Without w rest := by
  rcases readGroupBy_eq_ok_iff.1 hr with ⟨-, rfl, rfl⟩ | ⟨body, hb, -⟩
  · exact h
  · exact (without_bodyOf hw h hb).2

/-- No predicate of the filter of groups has a word that the text has not. -/
theorem without_readHaving {grouped : Bool} {conds : List Condition}
    (hr : readHaving grouped t = .ok (conds, rest)) :
    ∀ cond ∈ conds, Absent w cond.predicate := by
  rcases readHaving_eq_ok_iff.1 hr with ⟨-, rfl, rfl⟩ | ⟨body, hb, -, hc⟩
  · simp
  · exact without_conditions hw (without_bodyOf hw h hb).1 hc

end Clauses

/-! ## Sources and joins -/

section Sources

variable (hw : isPhrase w = true)
include hw

/-- A source is read whatever stands before it, also where the text before it
runs on into its name. -/
theorem without_readBare {u : Text} {s : Source} (hu : depth u = 0)
    (h : Without w (u ++ t)) (hr : readBare nested clause t = .ok (s, rest)) :
    Without w rest := by
  have hP := inherited_without hw
  rcases readBare_eq_ok_iff.1 hr with ⟨inside, tail, q, rfl, hi, -, -, rfl⟩ |
    ⟨name, tail, rfl, -, -, hn, -, -, rfl⟩
  · exact hP.trim (hP.brackets h hu hi)
  · exact hP.trim (hP.nameEnds h hu hn)

/-- What a source leaves has no word that the text has not. -/
theorem without_readSource {ends : List Text}
    (he : ∀ v ∈ ends, isPhrase v = true) {u : Text} {s : Source}
    (hu : depth u = 0) (h : Without w (u ++ t))
    (hr : readSource nested literals ends clause t = .ok (s, rest)) :
    Without w rest := by
  have hP := inherited_without hw
  obtain ⟨s₀, x, y, v, hbare, hx, -, -, rfl⟩ := (readSource_eq_ok_iff he).1 hr
  exact hP.trim (hP.upToComma (without_readBare hw hu h hbare) hx)

/-- What the sources behind a comma leave has no word that the text has not. -/
theorem without_readMore :
    ∀ {bound : Nat} {t rest : Text} {js : List Join}, Without w t →
      readMore nested literals bound t = .ok (js, rest) → Without w rest
  | 0, t, rest, js, h, hr => by
    cases hr
    exact h
  | bound + 1, t, rest, js, h, hr => by
    rw [readMore] at hr
    split at hr
    · cases hr
      exact h
    · next behind hb =>
      simp only [bind_eq_ok] at hr
      obtain ⟨⟨s, v⟩, hs, ⟨more, v'⟩, hm, hr⟩ := hr
      cases hr
      obtain ⟨c, rfl, rfl⟩ := stripComma?_eq_some_iff.1 hb
      obtain ⟨l, hl, hbehind⟩ := (inherited_without hw).behindComma h
      exact without_readMore
        (without_readSource hw isPhrase_of_mem_sourceEnds hl hbehind hs) hm

/-- What the sources leave has no word that the text has not. -/
theorem without_readSources {s : Source} {js : List Join} (h : Without w t)
    (hr : readSources nested literals t = .ok ((s, js), rest)) :
    Without w rest := by
  simp only [readSources, bind_eq_ok] at hr
  obtain ⟨⟨s', u⟩, hs, ⟨js', v⟩, hm, hr⟩ := hr
  cases hr
  exact without_readMore hw
    (without_readSource hw isPhrase_of_mem_sourceEnds (u := []) rfl h hs) hm

/-- No predicate of a join has a word that its text has not. -/
theorem without_readJoin {kind : JoinKind} {j : Join} (h : Without w t)
    (hr : readJoin nested literals kind t = .ok j) :
    ∀ p ∈ j.onPredicate, Absent w p := by
  obtain ⟨s, rest, hs, hc⟩ := readJoin_eq_ok_iff.1 hr
  have hrest := without_readSource hw isPhrase_of_mem_joinSourceEnds (u :=
    []) rfl (h.trim hw) hs
  cases hc with
  | bare => simp
  | predicate hon _ =>
    have hc := (Without.stands (a := []) hw hrest (isPhrase_phrase _) hon).2
    simpa using (hc.trim hw).absent
  | columns _ _ _ => simp

/-- No predicate of joins has a word that their pieces have not. -/
theorem without_joinsOf : ∀ {pieces : List Text} {mods : Text} {js : List Join},
    (∀ p ∈ pieces, Without w p) → joinsOf nested literals mods pieces = .ok js →
      ∀ j ∈ js, ∀ p ∈ j.onPredicate, Absent w p
  | [], mods, js, _, h => by
    cases h
    simp
  | [piece], mods, js, hp, h => by
    simp only [joinsOf, bind_eq_ok] at h
    obtain ⟨kind, -, j, hj, h⟩ := h
    cases h
    simpa using without_readJoin hw (hp piece (by simp)) hj
  | piece :: piece' :: more, mods, js, hp, h => by
    simp only [joinsOf, bind_eq_ok] at h
    obtain ⟨kind, -, j, hj, js', hjs, h⟩ := h
    cases h
    refine List.forall_mem_cons.2 ⟨?_, ?_⟩
    · exact without_readJoin hw
        ((inherited_without hw).trailingModifiers (hp piece (by simp))) hj
    · exact without_joinsOf
        (fun p hmem => hp p (List.mem_cons_of_mem _ hmem)) hjs

/-- No part between the places of another word has a word that the text has
not. -/
theorem without_split {word : Text} (hword : isPhrase word = true) (t : Text) :
    Without w t → ∀ p ∈ (split word t).parts, Without w p := by
  refine split_phrase_induction hword (P := fun t s => Without w t →
    ∀ p ∈ s.parts, Without w p) ?_ ?_ t
  · intro t _ h p hp
    obtain rfl : p = t := by simpa [Split.parts] using hp
    exact h
  · intro a m c s hs _ ih h p hp
    obtain ⟨ha, hc⟩ := h.stands hw hword hs
    rcases List.mem_cons.1 hp with rfl | hp
    · exact ha
    · exact ih hc p hp

/-- The parts of a text between the places of a word do not hold the word. -/
theorem without_split_self (t : Text) :
    Orderly t → ∀ p ∈ (split w t).parts, Without w p := by
  refine split_phrase_induction hw (P := fun t s => Orderly t →
    ∀ p ∈ s.parts, Without w p) ?_ ?_ t
  · intro t habs ho p hp
    obtain rfl : p = t := by simpa [Split.parts] using hp
    exact ⟨ho, habs⟩
  · intro a m c s hs habs ih ho p hp
    rcases List.mem_cons.1 hp with rfl | hp
    · exact ⟨(ho.stands hw hs).1, habs.absent hw (.inl hs.left)⟩
    · exact ih (ho.stands hw hs).2 p hp

/-- The joins run up to the next clause, and are divided at `join`. -/
theorem without_readJoins {js : List Join} (ho : Orderly t)
    (hr : readJoins nested literals t = .ok (js, rest)) :
    (w ∈ Clause.join.phrase :: joinEnds ∨ Without w t →
      ∀ j ∈ js, ∀ p ∈ j.onPredicate, Absent w p) ∧
    (Without w t → Without w rest) := by
  obtain ⟨region, tail, rfl, hu,
      ⟨-, rfl, rfl⟩ | ⟨-, mods, p, ps, hp, hj, rfl⟩⟩ :=
    readJoins_eq_ok_iff.1 hr
  · simp
  · refine ⟨fun hcase => without_joinsOf hw (fun piece hpiece => ?_) hj,
      fun h => (h.upTo hw hu).2.trim hw⟩
    have hmem : piece ∈ (split Clause.join.phrase region).pieces := by
      rw [hp]
      exact List.mem_cons_of_mem _ hpiece
    obtain ⟨part, hpart, rfl⟩ := List.mem_map.1 hmem
    refine Without.trim hw ?_
    have hjoin := isPhrase_phrase .join
    rcases hcase with hcase | h
    · rcases List.mem_cons.1 hcase with rfl | hend
      · exact without_split_self hw region (ho.upTo hu).1 part hpart
      · exact without_split hw hjoin region
          (without_of_upTo hw ho hu hend) part hpart
    · exact without_split hw hjoin region (h.upTo hw hu).1 part hpart

end Sources

end SqlRiver
