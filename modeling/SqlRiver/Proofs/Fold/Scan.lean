import SqlRiver.Clause.Join
import SqlRiver.Proofs.Bracket
import SqlRiver.Proofs.Text.Blank
import SqlRiver.Proofs.Text.Case

/-!
# Scans ignore letter case

Folding a text to lower case moves letters only, and no scan tells a letter from
its lower case: blanks, brackets, edges and commas are no letters, and keywords
are compared with their case ignored. So every scan of a folded text is the
folded scan of the text.

Main definitions and statements:

* `lowerPair`, `Place.lower`, `Split.lower`: folded results of scans.
* `trim_lower`, `collapse_lower`, `normalize_lower`: blanks.
* `isBalanced_lower`, `unwrap?_lower`, `topPosition?_lower`: brackets.
* `places_lower`, `topOccurrences_lower`, `cutBefore_lower`: keywords.
* `split_lower`: separators.
-/

namespace SqlRiver

/-- Both parts of a cut text in lower case. -/
def lowerPair (p : Text × Text) : Text × Text := (p.1.lower, p.2.lower)

@[simp] theorem lowerPair_mk (t u : Text) :
    lowerPair (t, u) = (t.lower, u.lower) :=
  rfl

/-! ## Blanks -/

namespace Text

@[simp] theorem isEmpty_lower (t : Text) : (lower t).isEmpty = t.isEmpty := by
  cases t <;> rfl

@[simp] theorem head?_lower (t : Text) :
    (lower t).head? = t.head?.map Char.toLower :=
  List.head?_map

@[simp] theorem getLast?_lower (t : Text) :
    (lower t).getLast? = t.getLast?.map Char.toLower :=
  List.getLast?_map

@[simp] theorem take_lower (n : Nat) (t : Text) :
    (lower t).take n = lower (t.take n) :=
  List.map_take.symm

@[simp] theorem drop_lower (n : Nat) (t : Text) :
    (lower t).drop n = lower (t.drop n) :=
  List.map_drop.symm

/-- A character that is no letter stands where it stands in the folded text. -/
theorem map_toLower_beq {c : Option Char} {d : Char} (h : d.isAlpha = false) :
    (c.map Char.toLower == some d) = (c == some d) := by
  cases c with
  | none => rfl
  | some c => simpa using toLower_beq h

/-- Whether a text ends with a character that is no letter does not depend on
the case. -/
@[simp] theorem endsWith_lower {c : Char} (h : c.isAlpha = false) (t : Text) :
    (lower t).endsWith c = t.endsWith c := by
  rw [endsWith, endsWith, getLast?_lower, map_toLower_beq h]

theorem trimStart_lower (t : Text) :
    trimStart (lower t) = lower (trimStart t) := by
  have h : isBlank ∘ Char.toLower = isBlank := funext isBlank_toLower
  rw [trimStart, trimStart, lower, List.dropWhile_map, h]
  rfl

theorem trimEnd_lower (t : Text) : trimEnd (lower t) = lower (trimEnd t) := by
  have h : (lower t).reverse = lower t.reverse := List.map_reverse.symm
  rw [trimEnd_eq_reverse, trimEnd_eq_reverse, h, trimStart_lower]
  exact List.map_reverse.symm

@[simp] theorem trim_lower (t : Text) : trim (lower t) = lower (trim t) := by
  rw [trim, trim, trimStart_lower, trimEnd_lower]

/-- The parts of a joined text and the separator are lowered one by one. -/
theorem lower_join (sep : Text) : ∀ parts : List Text,
    lower (join sep parts) = join (lower sep) (parts.map lower)
  | [] => rfl
  | [part] => rfl
  | part :: part' :: parts => by
    simp only [join, List.map_cons, lower_append,
      lower_join sep (part' :: parts)]

theorem collapse_lower (t : Text) :
    collapse (lower t) = lower (collapse t) := by
  rw [collapse, collapse, words_lower, lower_join]
  rfl

/-- The normal form of a text in lower case is the normal form in lower case. -/
theorem normalize_lower (t : Text) :
    normalize (lower t) = lower (normalize t) := by
  have hrev : (lower (collapse t)).reverse = lower (collapse t).reverse :=
    List.map_reverse.symm
  rw [normalize, normalize, collapse_lower, hrev]
  cases h : (collapse t).reverse with
  | nil => rfl
  | cons c before =>
    rw [lower_cons]
    by_cases hc : c = ';'
    · subst hc
      have hback : (lower before).reverse = lower before.reverse :=
        List.map_reverse.symm
      show trimEnd (lower before).reverse = lower (trimEnd before.reverse)
      rw [hback, trimEnd_lower]
    · have hc' : c.toLower ≠ ';' := mt (toLower_eq_iff rfl).1 hc
      split
      · next heq => exact absurd (List.cons.inj heq).1 hc'
      · split
        · next heq => exact absurd (List.cons.inj heq).1 hc
        · rfl

/-- A character that is no letter stands last at the same place in lower
case. -/
theorem cutLast_lower {c : Char} (hc : c.isAlpha = false) : ∀ t : Text,
    cutLast c (lower t) = (cutLast c t).map lowerPair
  | [] => rfl
  | d :: t => by
    rw [lower_cons, cutLast, cutLast, cutLast_lower hc t]
    cases cutLast c t with
    | some p => rfl
    | none =>
      simp only [Option.map_none, toLower_beq hc]
      split <;> rfl

theorem afterLast_lower {c : Char} (hc : c.isAlpha = false) (t : Text) :
    afterLast c (lower t) = lower (afterLast c t) := by
  rw [afterLast, afterLast, cutLast_lower hc]
  cases cutLast c t <;> rfl

theorem stripComma?_lower (t : Text) :
    (lower t).stripComma? = t.stripComma?.map lower := by
  cases t with
  | nil => rfl
  | cons c t =>
    by_cases hc : c = ','
    · subst hc
      exact congrArg some (trim_lower t)
    · have hc' : c.toLower ≠ ',' := mt (toLower_eq_iff rfl).1 hc
      rw [lower_cons, stripComma?, stripComma?]
      · rfl
      · exact fun rest h => hc (List.cons.inj h).1
      · exact fun rest h => hc' (List.cons.inj h).1

end Text

open Text

/-! ## Brackets -/

theorem balancedFrom_lower :
    ∀ (n : Nat) (t : Text), balancedFrom n (lower t) = balancedFrom n t
  | n, [] => rfl
  | n, c :: t => by
    cases n <;> simp only [lower_cons, balancedFrom, toLower_beq (d := '(') rfl,
      toLower_beq (d := ')') rfl, balancedFrom_lower]

@[simp] theorem isBalanced_lower (t : Text) :
    isBalanced (lower t) = isBalanced t :=
  balancedFrom_lower 0 t

/-- The bracket that closes stands at the same position in lower case. -/
theorem closeFrom_lower :
    ∀ (n : Nat) (t : Text), closeFrom n (lower t) = closeFrom n t
  | n, [] => rfl
  | n, c :: t => by
    cases n <;> simp only [lower_cons, closeFrom, toLower_beq (d := '(') rfl,
      toLower_beq (d := ')') rfl, closeFrom_lower]

/-- A text in brackets is unwrapped to the same content and rest. -/
theorem unwrap?_lower (t : Text) :
    unwrap? (lower t) = (unwrap? t).map lowerPair := by
  cases t with
  | nil => rfl
  | cons c t =>
    by_cases hc : c = '('
    · subst hc
      show (closeFrom 0 (lower t)).map _ = _
      rw [closeFrom_lower, unwrap?]
      cases closeFrom 0 t with
      | none => rfl
      | some pos =>
        exact congrArg some (Prod.ext (take_lower _ _) (drop_lower _ _))
    · have hc' : c.toLower ≠ '(' := mt (toLower_eq_iff rfl).1 hc
      rw [lower_cons, unwrap?, unwrap?]
      · rfl
      · exact fun rest h => hc (List.cons.inj h).1
      · exact fun rest h => hc' (List.cons.inj h).1

/-- The first character of a kind outside brackets stands at the same place, if
the kind does not depend on case. -/
theorem topFrom_lower {p : Char → Bool} (hp : ∀ c, p c.toLower = p c) :
    ∀ (d : Int) (t : Text), topFrom p d (lower t) = topFrom p d t
  | d, [] => rfl
  | d, c :: t => by
    simp only [lower_cons, topFrom, hp, depthStep_toLower, topFrom_lower hp]

theorem topPosition?_lower {p : Char → Bool} (hp : ∀ c, p c.toLower = p c)
    (t : Text) : topPosition? p (lower t) = topPosition? p t :=
  topFrom_lower hp 0 t

theorem namePosition_lower (t : Text) :
    namePosition (lower t) = namePosition t := by
  have hp (c : Char) : endsName c.toLower = endsName c := by
    simp only [endsName, toLower_beq (d := ' ') rfl, toLower_beq (d := ',') rfl]
  rw [namePosition, namePosition, topPosition?_lower hp, length_lower]

/-! ## Keywords -/

theorem leads_lower : ∀ word t : Text, leads word (lower t) = leads word t
  | [], t => by rw [leads, leads]
  | w :: word, [] => rfl
  | w :: word, c :: t => by
    simp only [lower_cons, leads, toLower_toLower, leads_lower]

@[simp] theorem atEdge_map_toLower (c : Option Char) :
    atEdge (c.map Char.toLower) = atEdge c := by
  cases c with
  | none => rfl
  | some c => exact isEdge_toLower c

/-- A place of the folded text. -/
def Place.lower (p : Place) : Place :=
  { p with before := p.before.map Char.toLower, ahead := p.ahead.lower }

@[simp] theorem Place.pos_lower (p : Place) : p.lower.pos = p.pos := rfl

@[simp] theorem Place.isTop_lower (p : Place) : p.lower.isTop = p.isTop := rfl

@[simp] theorem Place.spells_lower (word : Text) (p : Place) :
    p.lower.spells word = p.spells word :=
  leads_lower word p.ahead

theorem isWhole_lower (word : Text) (before : Option Char) (ahead : Text) :
    isWhole word (before.map Char.toLower) ahead.lower =
      isWhole word before ahead := by
  simp [isWhole]

@[simp] theorem Place.isWhole_lower (word : Text) (p : Place) :
    p.lower.isWhole word = p.isWhole word :=
  SqlRiver.isWhole_lower word p.before p.ahead

@[simp] theorem Place.holds_lower (word : Text) (p : Place) :
    p.lower.holds word = p.holds word := by
  rw [Place.holds, Place.holds, Place.spells_lower, Place.isWhole_lower]

/-- The places of a folded text are its folded places. -/
theorem placesFrom_lower :
    ∀ (pos : Nat) (before : Option Char) (d : Int) (t : Text),
      placesFrom pos (before.map Char.toLower) d (lower t) =
      (placesFrom pos before d t).map Place.lower
  | pos, before, d, [] => rfl
  | pos, before, d, c :: t => by
    have ih := placesFrom_lower (pos + 1) (some c) (d + depthStep c) t
    rw [lower_cons, placesFrom, placesFrom, depthStep_toLower, List.map_cons,
      ← ih]
    rfl

theorem places_lower (t : Text) :
    places (lower t) = (places t).map Place.lower :=
  placesFrom_lower 0 none 0 t

/-- The places kept apart are the same in lower case: the choice looks at
positions only. -/
theorem apart_lower (n : Nat) : ∀ (least : Nat) (ps : List Place),
    apart n least (ps.map Place.lower) = (apart n least ps).map Place.lower
  | least, [] => rfl
  | least, p :: ps => by
    simp only [List.map_cons, apart, Place.pos_lower, apart_lower n]
    split <;> rfl

/-- A test that folding keeps picks the same places. -/
theorem filter_map_lower {P : Place → Bool} (hP : ∀ p : Place, P p.lower = P p)
    (ps : List Place) :
    (ps.map Place.lower).filter P = (ps.filter P).map Place.lower := by
  have h : P ∘ Place.lower = P := funext hP
  rw [List.filter_map, h]

/-- A word is found at the same places of a text in lower case. -/
theorem topOccurrences_lower (word t : Text) :
    topOccurrences word (lower t) =
      (topOccurrences word t).map Place.lower := by
  have hspell :
      spellings word (lower t) = (spellings word t).map Place.lower := by
    unfold spellings
    split
    · rfl
    · rw [places_lower, filter_map_lower (Place.spells_lower word), apart_lower]
  rw [topOccurrences, topOccurrences, occurrences, occurrences, hspell,
    filter_map_lower (Place.isWhole_lower word),
    filter_map_lower Place.isTop_lower]

theorem around_lower (word t : Text) (p : Place) :
    around word (lower t) p.lower = lowerPair (around word t p) := by
  simp [around, Place.lower]

/-- The first occurrence of a word divides a text at the same place in either
case. -/
theorem aroundFirst?_lower (word t : Text) :
    aroundFirst? word (lower t) = (aroundFirst? word t).map lowerPair := by
  rw [aroundFirst?, aroundFirst?, topOccurrences_lower, List.head?_map,
    Option.map_map, Option.map_map]
  exact congrArg (Option.map · _) (funext (around_lower word t))

/-- The last occurrence of a word divides a text at the same place in either
case. -/
theorem aroundLast?_lower (word t : Text) :
    aroundLast? word (lower t) = (aroundLast? word t).map lowerPair := by
  rw [aroundLast?, aroundLast?, topOccurrences_lower, List.getLast?_map,
    Option.map_map, Option.map_map]
  exact congrArg (Option.map · _) (funext (around_lower word t))

theorem countTop_lower (word t : Text) :
    countTop word (lower t) = countTop word t := by
  rw [countTop, countTop, topOccurrences_lower, List.length_map]

/-- The first of several words stands at the same position in lower case. -/
theorem firstPosition?_lower (words : List Text) (t : Text) :
    firstPosition? words (lower t) = firstPosition? words t := by
  have h : (fun p : Place => p.isTop && words.any fun word => p.holds word) ∘
      Place.lower = fun p => p.isTop && words.any fun word => p.holds word := by
    funext p
    simp
  rw [firstPosition?, firstPosition?, places_lower, List.find?_map, h,
    Option.map_map]
  rfl

/-- A text is cut before the first of several words at the same place in either
case. -/
theorem cutBefore_lower (words : List Text) (t : Text) :
    cutBefore words (lower t) = lowerPair (cutBefore words t) := by
  rw [cutBefore, cutBefore, firstPosition?_lower]
  cases firstPosition? words t with
  | some pos => simp
  | none => rfl

theorem stripWord?_lower (word t : Text) :
    stripWord? word (lower t) = (stripWord? word t).map lower := by
  unfold stripWord?
  rw [leads_lower, drop_lower, head?_lower, atEdge_map_toLower]
  split <;> rfl

theorem ofWord?_lower (word : Text) :
    Keyword.ofWord? (lower word) = Keyword.ofWord? word := by
  rw [Keyword.ofWord?, Keyword.ofWord?, lower_lower]

@[simp] theorem isReserved_lower (word : Text) :
    isReserved (lower word) = isReserved word := by
  rw [isReserved, isReserved, ofWord?_lower]

@[simp] theorem isJoinModifier_lower (word : Text) :
    isJoinModifier (lower word) = isJoinModifier word := by
  rw [isJoinModifier, isJoinModifier, ofWord?_lower]

/-! ## Separators -/

/-- A split of the folded text. -/
def Split.lower (s : Split) : Split := ⟨s.first.lower, s.rest.map lowerPair⟩

theorem separates_lower (sep : Text) (before : Option Char) (ahead : Text) :
    separates sep (before.map Char.toLower) ahead.lower =
      separates sep before ahead := by
  rw [separates, separates, leads_lower, isWhole_lower]

/-- A folded text is split at the same places, by induction on the text. -/
theorem splitFrom_lower (sep : Text) :
    ∀ (inside : Nat) (before : Option Char) (d : Int) (t : Text),
      splitFrom sep inside (before.map Char.toLower) d (lower t) =
      (splitFrom sep inside before d t).lower
  | _, _, _, [] => by simp [splitFrom, Split.lower]
  | inside + 1, before, d, c :: t => by
    have ih := splitFrom_lower sep inside (some c) d t
    simpa only [lower_cons, splitFrom, Option.map_some] using ih
  | 0, before, d, c :: t => by
    have hsep := separates_lower sep before (c :: t)
    have hcut := splitFrom_lower sep (sep.length - 1) (some c) d t
    have hgo := splitFrom_lower sep 0 (some c) (d + depthStep c) t
    simp only [lower_cons, Option.map_some] at hsep hcut hgo
    rw [lower_cons, splitFrom, splitFrom, hsep, hcut, depthStep_toLower, hgo]
    split
    · rw [← lower_cons, take_lower]
      rfl
    · rfl

/-- The split of a folded text is the folded split. -/
theorem split_lower (sep t : Text) :
    split sep (lower t) = (split sep t).lower :=
  splitFrom_lower sep 0 none 0 t

theorem pieces_lower (s : Split) : s.lower.pieces = s.pieces.map lower := by
  have h :
      (Text.trim ∘ Prod.snd) ∘ lowerPair = lower ∘ Text.trim ∘ Prod.snd := by
    funext p
    exact trim_lower p.2
  simp only [Split.pieces, Split.parts, Split.lower, List.map_cons,
    List.map_map, trim_lower]
  rw [← Function.comp_assoc, h]

end SqlRiver
