import SqlRiver.Proofs.Spread.Joins

/-!
# Keywords that commas hide

A keyword right behind a tight comma is hidden: no search finds it. Which
keywords a search would find there depends on the clause. Those of the clauses
at the end are looked for everywhere. In any other clause these are the phrases
that end it, and the words that divide it: `join`, behind the words that choose
its kind, or the words that divide predicates. A text is *overt* if its commas
hide none of these. So are the parts that a reader cuts it into, since a cut
next to an edge makes no new whole word.

Main definitions and statements:

* `tightCommas`, `hidesKeyword`, `isOvert`: the test.
* `Hidden`, `Overt`: what it decides.
* `Overt.left`, `Overt.right`, `Overt.comma`, `inherited_overt`: the parts of an
  overt text.
* `Overt.not_detached`, `Overt.not_detachedFirst`, `Overt.not_detached_body`:
  what is not hidden there.
* `Unled`, `Unjoined`: texts in which the words before `join` are not hidden.
-/

namespace SqlRiver

open Text

/-! ## The test -/

/-- What stands before and behind each tight comma of the top level. -/
def tightCommas (t : Text) : List (Text × Text) :=
  (places t).filterMap fun p =>
    match p.ahead with
    | ',' :: behind =>
      if p.isTop && behind.head? != some ' ' then
        some (t.take p.pos, behind) else none
    | _ => none

/-- Does one of several words stand at the start of a text? -/
def leadsAny (words : List Text) (t : Text) : Bool :=
  words.any fun w => (stripWord? w t).isSome

/-- Does a text start with `join`, or with words that choose its kind and then
`join`? -/
def leadsJoin (t : Text) : Bool :=
  match aroundFirst? Clause.join.phrase t with
  | some (before, _) => (Text.words before).all isJoinModifier
  | none => false

/-- The clauses that are taken off the end of a query. -/
def trailingClauses : List Clause := [.orderBy, .limit, .offset]

/-- The clauses that are taken off the start of a query, each with the clauses
that end it. -/
def clauseEnds : List (Clause × List Clause) :=
  [(.select, [.source]),
    (.join, [.filter, .groupBy, .having, .orderBy, .limit]),
    (.filter, [.groupBy, .having, .orderBy, .limit]),
    (.groupBy, [.having, .orderBy, .limit]), (.having, [.orderBy, .limit])]

/-- Does a clause start somewhere in a text, with none of its ends behind it? -/
def lastsIn (clause : Clause) (ends : List Clause) (t : Text) : Bool :=
  (topOccurrences clause.phrase t).any fun p =>
    ends.all fun e => countTop e.phrase (p.ahead.drop clause.phrase.length) == 0

/-- Does a text start with a word that divides what a clause holds? -/
def divides (clause : Clause) (t : Text) : Bool :=
  match clause with
  | .join => leadsJoin t
  | .filter | .having => leadsAny (Mark.all.map Mark.word) t
  | _ => false

/-- Does a comma between two texts hide a keyword that is looked for there? -/
def hidesKeyword (before behind : Text) : Bool :=
  leadsAny (trailingClauses.map Clause.phrase) behind || clauseEnds.any
    fun (clause, ends) => lastsIn clause ends (before ++ [',']) &&
    (leadsAny (ends.map Clause.phrase) behind || divides clause behind)

/-- Does no tight comma of the top level hide a keyword? -/
def isOvert (t : Text) : Bool :=
  (tightCommas t).all fun (before, behind) => !hidesKeyword before behind

/-! ## What the test decides -/

/-- A comma behind the text is one of a clause: the clause starts in the text,
and none of its ends stands behind its start. -/
def Lasts (clause : Clause) (ends : List Clause) (x : Text) : Prop :=
  ∃ a m c, x ++ [','] = a ++ m ++ c ∧ Stands clause.phrase a m c ∧
    ∀ e ∈ ends, Absent e.phrase c

/-- A text starts with `join`, or with words that choose its kind and then
`join`. -/
def JoinLed (y : Text) : Prop :=
  ∃ g m c, y = g ++ m ++ c ∧ y.head? ≠ some ' ' ∧
    (∀ w ∈ words g, isJoinModifier w = true) ∧ Stands Clause.join.phrase g m c

/-- A text starts with a word that divides what a clause holds. -/
inductive Divides : Clause → Text → Prop
  | join {y : Text} (h : JoinLed y) : Divides .join y
  | filter {y : Text} (k : Mark) (h : Led k.word y) : Divides .filter y
  | having {y : Text} (k : Mark) (h : Led k.word y) : Divides .having y

/-- A comma between two texts hides a keyword. -/
inductive Hidden (x y : Text) : Prop
  | trailing {clause : Clause} (hmem : clause ∈ trailingClauses)
    (h : Led clause.phrase y)
  | ends {clause e : Clause} {ends : List Clause} (hmem : (clause, ends) ∈
    clauseEnds) (hx : Lasts clause ends x) (he : e ∈ ends) (h : Led e.phrase y)
  | divides {clause : Clause} {ends : List Clause} (hmem : (clause, ends) ∈
    clauseEnds) (hx : Lasts clause ends x) (h : Divides clause y)

/-- An orderly text whose commas hide no keyword. -/
structure Overt (t : Text) : Prop where
  orderly : Orderly t
  overt : ∀ x y, t = x ++ ',' :: y → depth x = 0 → ¬ Hidden x y

variable {t a b m c w x y : Text} {clause : Clause} {ends : List Clause}

theorem mem_tightCommas (hd : depth x = 0) (hy : y.head? ≠ some ' ') :
    (x, y) ∈ tightCommas (x ++ ',' :: y) := by
  refine List.mem_filterMap.2 ⟨placeAt x (',' :: y),
    mem_places.2 ⟨x, _, rfl, rfl⟩, ?_⟩
  simp only [placeAt, Place.isTop, hd]
  rw [if_pos (by simpa using hy), List.take_left]

theorem leadsAny_of_led {words : List Text} (hmem : w ∈ words) (h : Led w y) :
    leadsAny words y = true := by
  obtain ⟨m, c, e, hs⟩ := h
  refine List.any_eq_true.2 ⟨w, hmem, ?_⟩
  rw [stripWord?_eq_some_iff.2 ⟨m, e, hs⟩]
  rfl

/-- The test finds a clause that goes on up to the comma. -/
theorem lastsIn_of_lasts (h : Lasts clause ends x) :
    lastsIn clause ends (x ++ [',']) = true := by
  obtain ⟨a, m, c, e, hs, habs⟩ := h
  have hdrop : (placeAt a (m ++ c)).ahead.drop clause.phrase.length = c := by
    simp [placeAt, ← length_eq_of_lower_eq hs.spelled]
  rw [e]
  refine List.any_eq_true.2 ⟨placeAt a (m ++ c), ?_,
    List.all_eq_true.2 fun e he => ?_⟩
  · rw [topOccurrences_eq (isPhrase_phrase clause), List.mem_filter]
    exact ⟨mem_places.2 ⟨a, m ++ c, by simp, rfl⟩,
      holds_placeAt.2 ⟨m, c, rfl, hs⟩⟩
  · rw [hdrop, beq_iff_eq, countTop_eq_zero_iff (isPhrase_phrase e)]
    exact habs e he

/-- The test finds a `join` that a text starts with. -/
theorem leadsJoin_of_joinLed (h : JoinLed y) : leadsJoin y = true := by
  obtain ⟨g, m, c, rfl, -, hg, hs⟩ := h
  have habs : AbsentIn Clause.join.phrase g (m ++ c) := by
    rintro u x n e rfl hx hne hs'
    -- the `j` would be one of a word that chooses a kind
    obtain ⟨d, n, rfl⟩ := List.exists_cons_of_ne_nil
      (spelling_ne_nil (isPhrase_phrase .join) hs'.spelled)
    obtain ⟨d', x, rfl⟩ := List.exists_cons_of_ne_nil hx
    obtain ⟨rfl, -⟩ := List.cons.inj hne
    have hj : d'.toLower = 'j' := (List.cons.inj hs'.spelled).1
    have hblank : isBlank d' = false := by
      rw [← isBlank_toLower, hj]
      decide
    obtain ⟨v, hv, hdv⟩ := mem_words_of_mem (t := u ++ d' :: x) (by simp) hblank
    exact (isLower_of_isJoinModifier (hg v hv) d' hdv).2 hj
  rw [leadsJoin,
    (aroundFirst?_eq_some_iff (isPhrase_phrase .join)).2 ⟨m, rfl, hs, habs⟩]
  simpa using hg

/-- The test finds a word that divides what a clause holds. -/
theorem divides_of_divides (h : Divides clause y) :
    divides clause y = true := by
  have hmark (k : Mark) : k.word ∈ Mark.all.map Mark.word :=
    List.mem_map_of_mem (by cases k <;> decide)
  cases h with
  | join h => exact leadsJoin_of_joinLed h
  | filter k h => exact leadsAny_of_led (hmark k) h
  | having k h => exact leadsAny_of_led (hmark k) h

/-- The test finds every hidden keyword. -/
theorem hidesKeyword_of_hidden (h : Hidden x y) : hidesKeyword x y = true := by
  rw [hidesKeyword, Bool.or_eq_true]
  cases h with
  | trailing hmem h => exact .inl (leadsAny_of_led (List.mem_map_of_mem hmem) h)
  | ends hmem hx he h =>
    refine .inr (List.any_eq_true.2 ⟨_, hmem, ?_⟩)
    simp [lastsIn_of_lasts hx, leadsAny_of_led (List.mem_map_of_mem he) h]
  | divides hmem hx h =>
    refine .inr (List.any_eq_true.2 ⟨_, hmem, ?_⟩)
    simp [lastsIn_of_lasts hx, divides_of_divides h]

/-- A keyword is hidden by a tight comma only. -/
theorem Hidden.head?_ne (h : Hidden x y) : y.head? ≠ some ' ' := by
  cases h with
  | trailing hmem h => exact h.head?_ne (isPhrase_phrase _)
  | ends hmem hx he h => exact h.head?_ne (isPhrase_phrase _)
  | divides hmem hx h =>
    cases h with
    | join h =>
      obtain ⟨-, -, -, -, hy, -, -⟩ := h
      exact hy
    | filter k h => exact h.head?_ne k.isPhrase_word
    | having k h => exact h.head?_ne k.isPhrase_word

/-- An orderly text that passes the test hides no keyword. -/
theorem overt_of_isOvert (ho : Orderly t) (h : isOvert t = true) : Overt t := by
  refine ⟨ho, ?_⟩
  rintro x y rfl hd hidden
  have := List.all_eq_true.1 h _ (mem_tightCommas hd hidden.head?_ne)
  simp [hidesKeyword_of_hidden hidden] at this

/-! ## Parts of an overt text -/

/-- A keyword stands behind another text, unless that text runs on into it. -/
theorem Stands.append_left (hs : Stands w b m c) (hw : isPhrase w = true)
    (hd : depth a = 0) (hcut : atEdge a.getLast? = true ∨
    ∀ d ∈ (b ++ m ++ c).head?, d.toLower.isLower = false) :
    Stands w (a ++ b) m c := by
  refine ⟨hs.spelled, by rw [depth_append, hd, hs.top]; rfl, ?_, hs.right⟩
  cases b with
  | cons d b =>
    rw [List.getLast?_append_of_ne_nil _ (by simp)]
    exact hs.left
  | nil =>
    rw [List.append_nil]
    refine hcut.resolve_right fun h => ?_
    obtain ⟨d, hd, hl⟩ := head?_spelling hw hs.spelled
    have hhead : ([] ++ m ++ c).head? = some d := by
      rw [List.nil_append,
        List.head?_append_of_ne_nil _ (spelling_ne_nil hw hs.spelled), hd]
    rw [h d hhead] at hl
    cases hl

/-- A clause that goes on up to a comma does so behind another text. -/
theorem Lasts.append_left (h : Lasts clause ends x) (hd : depth a = 0)
    (hcut : atEdge a.getLast? = true ∨ ∀ d ∈ (x ++ [',']).head?,
    d.toLower.isLower = false) : Lasts clause ends (a ++ x) := by
  obtain ⟨p, m, c, e, hs, habs⟩ := h
  rw [e] at hcut
  exact ⟨a ++ p, m, c, by simp [e],
    hs.append_left (isPhrase_phrase clause) hd hcut, habs⟩

/-- A keyword that is hidden stays hidden behind another text. -/
theorem Hidden.append_left (h : Hidden x y) (hd : depth a = 0)
    (hcut : atEdge a.getLast? = true ∨ ∀ d ∈ (x ++ [',']).head?,
    d.toLower.isLower = false) : Hidden (a ++ x) y := by
  cases h with
  | trailing hmem h => exact .trailing hmem h
  | ends hmem hx he h => exact .ends hmem (hx.append_left hd hcut) he h
  | divides hmem hx h => exact .divides hmem (hx.append_left hd hcut) h

theorem JoinLed.ne_nil (h : JoinLed y) : y ≠ [] := by
  obtain ⟨g, m, c, rfl, -, -, hs⟩ := h
  simp [spelling_ne_nil (isPhrase_phrase .join) hs.spelled]

/-- A text that starts with a `join` does so whatever follows a cut. -/
theorem JoinLed.append_right (h : JoinLed y) (hcut : Cut y b) :
    JoinLed (y ++ b) := by
  have h₀ := h.ne_nil
  obtain ⟨g, m, c, rfl, hy, hg, hs⟩ := h
  have hmc : m ++ c ≠ [] := by
    simp [spelling_ne_nil (isPhrase_phrase .join) hs.spelled]
  have hcut' : Cut (m ++ c) b := by
    refine hcut.imp_left fun hl => ?_
    rwa [List.append_assoc, List.getLast?_append_of_ne_nil _ hmc] at hl
  refine ⟨g, m, c ++ b, by simp, ?_, hg,
    hs.append_right (isPhrase_phrase .join) hcut'⟩
  rwa [List.head?_append_of_ne_nil _ h₀]

/-- A keyword that is hidden stays hidden whatever follows a cut. -/
theorem Hidden.append_right (h : Hidden x y) (hcut : Cut (x ++ ',' :: y) b) :
    Hidden x (y ++ b) := by
  have hled {w : Text} (hw : isPhrase w = true) (h : Led w y) :
      Led w (y ++ b) :=
    h.append_right hw (hcut.behind (h.ne_nil hw))
  cases h with
  | trailing hmem h => exact .trailing hmem (hled (isPhrase_phrase _) h)
  | ends hmem hx he h => exact .ends hmem hx he (hled (isPhrase_phrase _) h)
  | divides hmem hx h =>
    refine .divides hmem hx ?_
    cases h with
    | join h => exact .join (h.append_right (hcut.behind h.ne_nil))
    | filter k h => exact .filter k (hled k.isPhrase_word h)
    | having k h => exact .having k (hled k.isPhrase_word h)

theorem Overt.left (h : Overt (a ++ b)) (hd : depth a = 0) (hcut : Cut a b) :
    Overt a := by
  refine ⟨(h.orderly.append hd).1, ?_⟩
  rintro x y rfl hx hidden
  exact h.overt x (y ++ b) (by simp) hx (hidden.append_right hcut)

/-- The second part of an overt text that is cut is overt. -/
theorem Overt.right (h : Overt (a ++ b)) (hd : depth a = 0) (hcut : Cut a b) :
    Overt b := by
  refine ⟨(h.orderly.append hd).2, ?_⟩
  rintro x y rfl hx hidden
  refine h.overt (a ++ x) y (by simp) (by rw [depth_append, hd, hx]; rfl)
    (hidden.append_left hd ?_)
  refine hcut.imp_right fun hedge d hmem => ?_
  have hhead : (x ++ ',' :: y).head? = (x ++ [',']).head? := by cases x <;> rfl
  rw [hhead, hmem] at hedge
  rw [Bool.eq_false_iff]
  intro hl
  have := isEdge_of_isLower hl
  rw [isEdge_toLower] at this
  rw [atEdge, this] at hedge
  cases hedge

/-- What a comma starts. -/
theorem Overt.comma (h : Overt (a ++ ',' :: b)) (hd : depth a = 0) :
    Overt (',' :: b) := by
  refine ⟨(h.orderly.append hd).2, fun x y e hx hidden => ?_⟩
  refine h.overt (a ++ x) y (by simp [e]) (by rw [depth_append, hd, hx]; rfl)
    (hidden.append_left hd ?_)
  -- no keyword starts with the comma
  refine .inr fun d hmem => ?_
  obtain rfl : d = ',' := by
    cases x with
    | nil => simpa using hmem.symm
    | cons d' x =>
      obtain ⟨rfl, -⟩ := List.cons.inj e
      simpa using hmem.symm
  rfl

/-- The parts of an overt text are overt. -/
theorem inherited_overt : Inherited Overt where
  orderly h := h.orderly
  nil := ⟨⟨thin_of_noBlank (by simp), rfl⟩, fun x y e => by simp at e⟩
  cut h hd hcut := ⟨h.left hd hcut, h.right hd hcut⟩
  comma h hd := h.comma hd

theorem Overt.stands (h : Overt (a ++ m ++ c)) (hw : isPhrase w = true)
    (hs : Stands w a m c) : Overt a ∧ Overt c :=
  inherited_overt.stands h hw hs

theorem Overt.upTo {words : List Text} (h : Overt (a ++ b))
    (hu : UpTo words a b) : Overt a ∧ Overt b :=
  inherited_overt.upTo h hu

theorem Overt.trim (h : Overt t) : Overt t.trim := inherited_overt.trim h

/-! ## Keywords that are not hidden -/

/-- The depth behind a comma is the depth before it. -/
theorem depth_comma {x : Text} (hd : depth x + depthStep ',' = 0) :
    depth x = 0 := by
  have hstep : depthStep ',' = 0 := rfl
  rwa [hstep, Int.add_zero] at hd

/-- No clause that is taken off the end is detached in an overt text. -/
theorem Overt.not_detached (h : Overt t) (hmem : clause ∈ trailingClauses) :
    ¬ Detached ',' clause.phrase t := by
  rintro ⟨-, x, y, rfl, hd, hled⟩
  exact h.overt x y rfl (depth_comma hd) (.trailing hmem hled)

/-- A comma behind the start of a clause is one of the clause, as long as none
of its ends stands before the comma. -/
theorem Stands.lasts (hs : Stands clause.phrase a m (x ++ ',' :: y))
    (habs : ∀ e ∈ ends, Absent e.phrase (x ++ [','])) :
    Lasts clause ends (a ++ m ++ x) := by
  refine ⟨a, m, x ++ [','], by simp, ⟨hs.spelled, hs.top, hs.left, ?_⟩, habs⟩
  have := hs.right
  cases x <;> exact this

/-- The ends of a clause are not hidden in it. -/
theorem Overt.not_detachedFirst (hmem : (clause, ends) ∈ clauseEnds)
    (h : Overt (a ++ m ++ c)) (hs : Stands clause.phrase a m c) :
    ¬ DetachedFirst ',' (ends.map Clause.phrase) c := by
  rintro ⟨-, x, y, rfl, hx, habs, w, hw, hled⟩
  have hx := depth_comma hx
  obtain ⟨e, he, rfl⟩ := List.mem_map.1 hw
  have hm := depth_spelling (isPhrase_phrase clause) hs.spelled
  refine h.overt (a ++ m ++ x) y (by simp)
    (by rw [depth_append, depth_append, hs.top, hm, hx]; rfl) ?_
  exact .ends hmem (hs.lasts fun e he =>
    habs e.phrase (List.mem_map_of_mem he)) he hled

/-- The words that divide predicates are not hidden in them. -/
theorem Overt.not_detached_body {body tail : Text}
    (hmem : (clause, ends) ∈ clauseEnds)
    (hclause : clause = .filter ∨ clause = .having)
    (h : Overt (m ++ (body ++ tail)))
    (hs : Stands clause.phrase [] m (body ++ tail))
    (hu : UpTo (ends.map Clause.phrase) body tail) (k : Mark) :
    ¬ Detached ',' k.word body := by
  rintro ⟨-, x, y, rfl, hd, hled⟩
  have hd := depth_comma hd
  have hm := depth_spelling (isPhrase_phrase clause) hs.spelled
  have hled' := hled.append_right k.isPhrase_word
    (hu.cut.behind (hled.ne_nil k.isPhrase_word))
  have hs' : Stands clause.phrase [] m (x ++ ',' :: (y ++ tail)) := by
    simpa using hs
  have hlasts : Lasts clause ends ([] ++ m ++ x) := hs'.lasts fun e he => by
    have habs := hu.absent e.phrase (List.mem_map_of_mem he)
    rw [show x ++ ',' :: y = (x ++ [',']) ++ y by simp] at habs
    exact habs.left.absent_sign (isPhrase_phrase e)
  refine h.overt (m ++ x) (y ++ tail) (by simp)
    (by rw [depth_append, hm, hd]; rfl) (.divides hmem hlasts ?_)
  rcases hclause with rfl | rfl
  · exact .filter k hled'
  · exact .having k hled'

/-- No tight comma of the text is followed by `join`, or by words that choose
its kind and then `join`. -/
def Unled (t : Text) : Prop :=
  ∀ x y, t = x ++ ',' :: y → depth x = 0 → ¬ JoinLed y

/-- Where no `join` follows a tight comma none is detached. -/
theorem Unled.not_detached (h : Unled t) :
    ¬ Detached ',' Clause.join.phrase t := by
  rintro ⟨-, x, y, rfl, hd, hled⟩
  refine h x y rfl (depth_comma hd) ?_
  have hy := hled.head?_ne (isPhrase_phrase .join)
  obtain ⟨m, c, rfl, hs⟩ := hled
  exact ⟨[], m, c, rfl, hy, by simp, hs⟩

theorem Unled.right (h : Unled (a ++ b)) (hd : depth a = 0) : Unled b := by
  rintro x y rfl hx
  exact h (a ++ x) y (by simp) (by rw [depth_append, hd, hx]; rfl)

/-- Before a `join` no comma hides the words that choose its kind. -/
theorem Unled.unjoined (h : Unled (a ++ m ++ c))
    (hs : Stands Clause.join.phrase a m c) : Unjoined ',' a := by
  rintro x y rfl hx hy h₀ hg
  have hx := depth_comma hx
  refine h x (y ++ m ++ c) (by simp) hx ⟨y, m, c, rfl, ?_, hg, hs.spelled, ?_,
    ?_, hs.right⟩
  · rwa [List.append_assoc, List.head?_append_of_ne_nil _ h₀]
  · simpa [hx, depthStep] using hs.top
  · have := hs.left
    rwa [List.getLast?_append_of_ne_nil _ (by simp),
      List.getLast?_cons_of_ne_nil h₀] at this

end SqlRiver
