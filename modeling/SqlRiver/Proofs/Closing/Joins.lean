import SqlRiver.Proofs.Closing.Sources

/-!
# Joins of parted texts

The words before `join` that choose its kind are looked for from the end of a
piece, one after the other, as far back as spaces part them from what stands
before. Where no bracket holds these words, the same words are taken off the
parted text, and the joins are those of the text.

Main statements:

* `Respaced.trailingModifiers`: the words before `join`.
* `Respaced.alike_readJoin`, `Respaced.alike_readJoins`: one join, and all of
  them.
-/

namespace SqlRiver

open Text

variable {t u : Text} {nested : Nested} {literals : LiteralTable}

/-! ## Words before `join` -/

/-- A bracket that a word before `join` touches, with more such words behind it,
holds them. -/
theorem modifiersHeld_append {a v : Text} (hd : depth a = 1) (h₀ : v ≠ [])
    (hv : v.head? ≠ some ' ') (hw : ∀ w ∈ words v, isJoinModifier w = true) :
    modifiersHeld (a ++ ')' :: v) = true := by
  refine List.any_eq_true.2 ⟨(a, v), mem_closings hd v, ?_⟩
  have hne : v.isEmpty = false := by simpa using h₀
  rw [hne, bne_iff_ne.2 hv, List.all_eq_true.2 hw]
  rfl

/-- Where no bracket holds words before `join`, no such words touch one. -/
theorem unjoined_of_modifiersHeld (h : modifiersHeld t = false) :
    Unjoined ')' t := by
  rintro x y rfl hd hy h₀ hw
  rw [modifiersHeld_append (depth_bracket hd) h₀ hy hw] at h
  cases h

/-- The same words are taken off a text and the parted text. -/
theorem Respaced.trailingModifiers (h : Respaced t u)
    (hh : modifiersHeld t = false) :
    (SqlRiver.trailingModifiers u).2 = (SqlRiver.trailingModifiers t).2 ∧
      Respaced (SqlRiver.trailingModifiers t).1
        (SqlRiver.trailingModifiers u).1 := by
  obtain ⟨hnext, x, x', hx, e, e'⟩ :=
    h.parted.trailingModifiers kept_stuck (unjoined_of_modifiersHeld hh)
  rw [e, e']
  exact ⟨hnext, hx.respaced⟩

/-! ## Joins -/

/-- A join of a piece is that of the parted piece, but for the blanks of its
predicate, if no name holds a keyword. -/
theorem Respaced.alike_readJoin {kind : JoinKind} (h : Respaced t u)
    (hh : nameHeld t = false) :
    Alike (fun j j' => j'.squeezedOn = j.squeezedOn)
      (readJoin nested literals kind t) (readJoin nested literals kind u) := by
  refine Spread.alike_readJoin (s := ')') kept_stuck kind ?_
  rw [trim_of_trimmed h.left, trim_of_trimmed h.trimmed]
  refine (h.alike_readSource isPhrase_of_mem_joinSourceEnds hh).imp ?_
  exact fun _ _ hrest => ⟨hrest.1, hrest.2.parted⟩

/-- The pieces between the places of `join` are parted each by itself. -/
theorem Spread.pieces_phrase {w : Text} (hw : isPhrase w = true)
    (h : Parted 0 t u) :
    List.Forall₂ Respaced (split w t).pieces (split w u).pieces := by
  rw [Split.pieces, Split.pieces, List.forall₂_map_left_iff,
    List.forall₂_map_right_iff]
  refine split_induction kept_stuck hw (P := fun _ _ s s' =>
    List.Forall₂ (fun p q => Respaced p.trim q.trim) s.parts s'.parts) ?_
    ?_ not_detached_bracket h
  · intro t u _ _ h
    exact .cons h.respaced .nil
  · intro a m c a' c' s s' _ _ _ ha _ ih
    exact .cons ha.respaced ih

/-- Respaced pieces are read alike, if no keyword is held in them. -/
theorem joinedAlike_of_respaced {p q : Text} {ts us : List Text}
    (h : Respaced p q) (hmore : List.Forall₂ Respaced ts us)
    (hh : joinsHeld (p :: ts) = false) :
    JoinedAlike nested literals (p :: ts) (q :: us) := by
  induction hmore generalizing p q with
  | nil => exact .last fun _ => h.alike_readJoin hh
  | @cons p' q' ts us hp _ ih =>
    obtain ⟨⟨hmod, hname⟩, hrest⟩ : (modifiersHeld p = false ∧
        nameHeld (trailingModifiers p).1 = false) ∧
        joinsHeld (p' :: ts) = false := by
      simpa only [joinsHeld, Bool.or_eq_false_iff] using hh
    obtain ⟨hnext, hbody⟩ := h.trailingModifiers hmod
    exact .cons hnext (fun _ => hbody.alike_readJoin hname) (ih hp hrest)

/-- The joins are those of the parted text, if no bracket holds a keyword in the
pieces behind each `join`. -/
theorem Respaced.alike_readJoins (h : Respaced t u)
    (hh : joinsHeld (joinTexts t) = false) :
    Alike (Rests fun js js' => js'.map Join.squeezedOn = js.map Join.squeezedOn)
      (readJoins nested literals t) (readJoins nested literals u) := by
  obtain ⟨region, rest, region', rest', -, -, hregion, hrest, ht, hu⟩ :=
    h.parted.cutBefore_cases kept_stuck isPhrase_of_mem_joinEnds
      not_detachedFirst_bracket
  simp only [joinTexts, ht] at hh
  simp only [readJoins, ht, hu, hregion.respaced.isEmpty_eq]
  split
  · exact ⟨rfl, h⟩
  · have hpieces := hregion.pieces_phrase (isPhrase_phrase .join)
    generalize (split Clause.join.phrase region).pieces = ts at hpieces hh
    generalize (split Clause.join.phrase region').pieces = us at hpieces
    cases hpieces with
    | nil => trivial
    | cons hm hmore =>
      cases hmore with
      | nil => trivial
      | cons hp hmore =>
        have hjoined : JoinedAlike nested literals _ _ :=
          joinedAlike_of_respaced hp hmore hh
        refine (hjoined.alike_joinsOf hm.parted.alike_joinKind).bind
          fun js js' hjs => ?_
        exact ⟨hjs, hrest.respaced⟩

end SqlRiver
