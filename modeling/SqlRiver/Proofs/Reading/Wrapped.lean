import SqlRiver.Proofs.Literal.Framed
import SqlRiver.Proofs.Reading.Deeper

/-!
# Queries in brackets

A text is put on lines of its own in the brackets of `select * from (…) x`. What
is outside of the brackets has no part in reading it, and none of the clauses
outside looks into the brackets. So the outer text is read exactly if the text
itself is and does not reach the last level, and then as the query that selects
everything from it, one level further down.

Main definitions and statements:

* `isBalanced_of_words_eq`: blanks play no part in the balance of brackets.
* `Query.selectAll`: the query around a query.
* `readClauses_around`: reading the text around brackets.
* `parse_around`: a text in brackets is read like a text of its own.
-/

namespace SqlRiver

open Text

/-! ## Blanks -/

/-- A blank is no bracket. -/
theorem depthStep_of_isBlank {c : Char} (h : isBlank c = true) :
    (c == '(') = false ∧ (c == ')') = false := by
  constructor
  · by_contra hc
    obtain rfl : c = '(' := by simpa using hc
    cases h
  · by_contra hc
    obtain rfl : c = ')' := by simpa using hc
    cases h

/-- Whether brackets are balanced does not depend on the blanks. -/
theorem balancedFrom_filter : ∀ (n : Nat) (t : Text),
    balancedFrom n (t.filter fun c => !isBlank c) = balancedFrom n t
  | n, [] => rfl
  | n, c :: t => by
    cases hc : isBlank c with
    | true =>
      obtain ⟨ho, hcl⟩ := depthStep_of_isBlank hc
      simp [hc, balancedFrom, ho, hcl, balancedFrom_filter n t]
    | false =>
      rw [List.filter_cons_of_pos (by simpa using hc)]
      cases n <;> simp only [balancedFrom, balancedFrom_filter]

/-- The words of a text together are the text without its blanks. -/
theorem flatten_words (t : Text) :
    t.words.flatten = t.filter fun c => !isBlank c := by
  refine words_induction (P := fun t => t.words.flatten = t.filter fun c =>
    !isBlank c) ?_ ?_ t
  · intro v hv
    have hfilter : v.filter (fun c => !isBlank c) = v :=
      List.filter_eq_self.2 (by simpa using hv)
    rw [words_of_noBlank hv, hfilter]
    split
    · next h₀ => simp [h₀]
    · simp
  · intro v c u hv hc ih
    have hfilter : v.filter (fun c => !isBlank c) = v :=
      List.filter_eq_self.2 (by simpa using hv)
    rw [words_append hc, List.flatten_append, ih, words_of_noBlank hv,
      List.filter_append, hfilter, List.filter_cons_of_neg (by simpa using hc)]
    split
    · next h₀ => simp [h₀]
    · simp

/-- Texts with the same words have the same brackets. -/
theorem isBalanced_of_words_eq {t u : Text} (h : t.words = u.words) :
    isBalanced t = isBalanced u := by
  rw [isBalanced, isBalanced, ← balancedFrom_filter, ← flatten_words, h,
    flatten_words, balancedFrom_filter]

/-- A character behind a text continues its last word or is a word of its
own. -/
theorem exists_words_concat {c : Char} (hc : isBlank c = false) (t : Text) :
    ∃ ws w, words (t ++ [c]) = ws ++ [w ++ [c]] := by
  refine words_induction (P :=
    fun t => ∃ ws w, words (t ++ [c]) = ws ++ [w ++ [c]]) ?_ ?_ t
  · intro v hv
    refine ⟨[], v, words_of_solid ⟨by simp, ?_⟩⟩
    intro d hd
    rcases List.mem_append.1 hd with hd | hd
    · exact hv d hd
    · rwa [List.mem_singleton.1 hd]
  · rintro v d u - hd ⟨ws, w, ih⟩
    exact ⟨words v ++ ws, w, by rw [List.append_assoc, List.cons_append,
      words_append hd, ih, List.append_assoc]⟩

/-- The words of a text do not depend on the spaces around it. -/
theorem words_trim (t : Text) : words t.trim = words t := by
  obtain ⟨l, r, hl, hr, e⟩ := exists_trim t
  conv => rhs; rw [e]
  rw [List.append_assoc, words_blank_append hl]
  cases r with
  | nil => rw [List.append_nil]
  | cons c r =>
    obtain ⟨hc, hr⟩ := blank_cons.1 hr
    rw [words_append hc, words_blank hr, List.append_nil]

/-- A text ends as it does without the blanks around it. -/
theorem getLast?_collapse (t : Text) :
    (collapse t).getLast? = t.trim.getLast? := by
  rcases t.trim.eq_nil_or_concat' with h | ⟨x, c, h⟩
  · rw [collapse, ← words_trim, h]
    rfl
  · have hc : isBlank c = false := (trimmed_trim t).stop c (by rw [h]; simp)
    obtain ⟨ws, w, hw⟩ := exists_words_concat hc x
    rw [collapse, ← words_trim, h, hw]
    by_cases h₀ : ws = []
    · simp [h₀, join]
    · rw [join_append [' '] h₀ (by simp),
        List.getLast?_append_of_ne_nil _ (by simp [join])]
      simp [join]

/-! ## The text around brackets -/

/-- The query that selects everything from a query. -/
def Query.selectAll (literals : LiteralTable) (level : Nat) (q : Query) :
    Query :=
  { columns := [⟨['*'], none⟩], source := .subquery q (some ['x']), literals,
    depth := level }

section Around

variable {nested : Nested} {literals : LiteralTable} {g : Text}

/-- A text in brackets, with its alias. -/
def bracketText (g : Text) : Text :=
  '(' :: (g ++ [')']) ++ aliasText (some ['x'])

theorem clear_bracketText {w : Text} (hw : Keyed w) (hg : isBalanced g = true) :
    Clear w (bracketText g) := by
  have hbrackets := clear_brackets hw.phrase hg
  exact clear_aliased hw hbrackets.top
    (fun y _ => absentIn_brackets hw.phrase hg y) (by decide)

theorem trimmed_bracketText (g : Text) : (bracketText g).Trimmed := by
  refine ⟨?_, ?_⟩
  · rintro c ⟨⟩
    rfl
  · intro c hc
    rw [bracketText, List.getLast?_append_of_ne_nil _ (by simp [aliasText])]
      at hc
    obtain rfl : 'x' = c := by simpa [aliasText] using hc
    rfl

/-- The text around brackets, from its first word on. -/
def aroundText (g : Text) : Text := "select * from ".toList ++ bracketText g

/-- No clause but `select` and `from` starts in the text around a query in
brackets. -/
theorem absent_aroundText {clause : Clause} (hg : isBalanced g = true)
    (hs : ¬ ("select".toList ++ [' ']) <+: clause.phrase ++ [' '])
    (hf : ¬ ("from".toList ++ [' ']) <+: clause.phrase ++ [' ']) :
    Absent clause.phrase (aroundText g) := by
  have hw := isPhrase_phrase clause
  have hbracket := clear_bracketText (keyed_phrase clause) hg
  have hfrom := Clear.led (o := {}) hw (by decide) hf hbracket
  have hstar : Clear clause.phrase ['*'] :=
    ⟨rfl, fun y _ => absentIn_char hw (by decide) y⟩
  have hbody :=
    hstar.append hfrom (sequel_keyword {} ⟨'f', _, rfl, by decide⟩ _)
  exact (Clear.keyword (o := {}) hw (by decide) hs hbody).absent hw

/-- Around a query in brackets the only column is the star. -/
theorem readSelect_around (g : Text) :
    readSelect literals (aroundText g) =
      .ok ((false, [⟨['*'], none⟩]), bracketText g) := by
  have hfrom : isPhrase Clause.source.phrase = true := isPhrase_phrase _
  have habsent : AbsentIn Clause.source.phrase " * ".toList
      ("from".toList ++ ' ' :: bracketText g) :=
    AbsentIn.append (a := [' ']) (b := "* ".toList) (absentIn_space hfrom _) rfl
      (AbsentIn.append (a := ['*']) (b :=
      [' ']) (absentIn_char hfrom (by decide) _) rfl (absentIn_space hfrom _))
  refine readSelect_eq_ok_iff.2 ⟨"select".toList, " * ".toList, "from".toList,
    ' ' :: bracketText g, ['*'], [['*']], rfl, ⟨rfl, rfl, rfl, rfl⟩,
    ⟨rfl, by decide, rfl, rfl⟩, habsent, by decide, by simp, by decide, ?_, ?_⟩
  · have : columnOf literals ['*'] = ⟨['*'], none⟩ := by
      have hsplit : splitAlias ['*'] = (['*'], none) := by decide
      rw [columnOf, hsplit]
    rw [List.map_singleton, this]
  · exact (trim_padStart (l := [' ']) (by simp [Blank, isBlank, blankRanges])
      (trimmed_bracketText g)).symm

/-- Around a query in brackets it is the only source, and named `x`. -/
theorem readSources_around (hg : isBalanced g = true)
    {v : (Source × List Join) × Text} :
    readSources nested literals (bracketText g) = .ok v ↔
    ∃ q, nested g.trim = .ok q ∧ v = ((.subquery q (some ['x']), []), []) := by
  have hunwrap : unwrap? (bracketText g) = some (g, " x".toList) :=
    unwrap?_eq_some_iff.2 ⟨by simp [bracketText, aliasText], hg⟩
  have hbare : readBare nested .source (bracketText g) =
      nested g.trim >>= fun q => .ok (.subquery q none, ['x']) := by
    rw [readBare, if_neg (by simp [bracketText]),
      if_pos (by simp [bracketText]), hunwrap]
    rfl
  have hposition : aliasPosition sourceEnds ['x'] = 1 := by decide
  have halias : sourceAlias literals (List.take 1 ['x']) = .ok (some ['x']) :=
    sourceAlias_eq_ok_iff.2
    (.inr ⟨by decide, ['x'], rfl, by decide, .inl ⟨by decide, by decide⟩⟩)
  have hsource : readListed nested literals (bracketText g) =
      nested g.trim >>= fun q => .ok (.subquery q (some ['x']), []) := by
    rw [readListed, readSource, hbare]
    cases nested g.trim with
    | error e => rfl
    | ok q =>
      simp only [bind, Except.bind, hposition, halias]
      rfl
  rw [readSources, hsource]
  cases nested g.trim with
  | error e =>
    constructor
    · rintro ⟨⟩
    · rintro ⟨_, ⟨⟩, -⟩
  | ok q =>
    constructor
    · rintro ⟨⟩
      exact ⟨q, rfl, rfl⟩
    · rintro ⟨_, ⟨⟩, rfl⟩
      rfl

/-- The text around brackets is read if the text inside them is. -/
theorem readClauses_around {level : Nat} {q' : Query}
    (hg : isBalanced g = true) :
    readClauses nested literals level (aroundText g) = .ok q' ↔
    ∃ q, nested g.trim = .ok q ∧ q' = q.selectAll literals level := by
  have hlimit : readTrailing .limit (aroundText g) = .ok (none, aroundText g) :=
    readTrailing_eq_ok_iff.2
    (.inl ⟨absent_aroundText hg (by decide) (by decide), rfl, rfl⟩)
  have hoffset :
      readTrailing .offset (aroundText g) = .ok (none, aroundText g) :=
    readTrailing_eq_ok_iff.2
      (.inl ⟨absent_aroundText hg (by decide) (by decide), rfl, rfl⟩)
  have horder : readOrderBy (aroundText g) = .ok ([], aroundText g) :=
    readOrderBy_eq_ok_iff.2
    (.inl ⟨absent_aroundText hg (by decide) (by decide), rfl, rfl⟩)
  simp only [readClauses, bind_eq_ok, hlimit, hoffset, horder, readSelect_around
    g, Except.ok.injEq, exists_eq_left', readSources_around hg]
  constructor
  · rintro ⟨_, ⟨q, hq, rfl⟩, ⟨_, _⟩, ⟨⟩, ⟨_, _⟩, ⟨⟩, ⟨_, _⟩, ⟨⟩, ⟨_, _⟩, ⟨⟩, _,
      ⟨⟩, rfl⟩
    exact ⟨q, hq, rfl⟩
  · rintro ⟨q, hq, rfl⟩
    exact ⟨_, ⟨q, hq, rfl⟩, ([], []), rfl, ([], []), rfl, ([], []), rfl,
      ([], []), rfl, (), rfl, rfl⟩

/-- The text around a query is read if the query is read with one level less to
go. -/
theorem readQuery_around {room : Nat} {q' : Query} (hg : isBalanced g = true) :
    readQuery literals (room + 1) (aroundText g) = .ok q' ↔
    ∃ q, readQuery literals room g.trim = .ok q ∧
      q' = q.selectAll literals (maxDepth - (room + 1)) := by
  rw [readQuery, readStatement_eq_ok_iff, readClauses_around hg]
  have hne : aroundText g ≠ [] := List.cons_ne_nil _ _
  have hword : Keyword.ofWord? (firstWord (aroundText g)) =
      some ⟨"select".toList, .ordinary⟩ := by
    have : firstWord (aroundText g) = "select".toList := rfl
    rw [this]
    decide
  rw [hword]
  exact ⟨fun h => h.2.2, fun h => ⟨hne, ⟨_, rfl, rfl⟩, h⟩⟩

end Around

/-- The words of a text, in brackets. -/
theorem collapse_around (t : Text) :
    collapse ("select * from (".toList ++ '\n' :: (t ++ '\n' :: ") x".toList)) =
      aroundText (led t.words ++ [' ']) := by
  have ha : words "select * from (".toList =
      ["select".toList, ['*'], "from".toList, ['(']] := by decide
  have hb : words ") x".toList = [[')'], ['x']] := by decide
  have hlast :
      led [[')'], ['x']] = [' '] ++ ([')'] ++ aliasText (some ['x'])) := rfl
  rw [collapse, words_append rfl, words_append rfl, ha, hb,
    join_append_led (List.cons_ne_nil _ _), led_append, hlast,
    ← List.append_assoc (led t.words),
    ← List.append_assoc (led t.words ++ [' '])]
  rfl

theorem getLast?_aroundText (g : Text) :
    (aroundText g).getLast? = some 'x' := by
  have hbracket : bracketText g ≠ [] := List.cons_ne_nil _ _
  have hname : aliasText (some ['x']) ≠ [] := List.cons_ne_nil _ _
  calc (aroundText g).getLast? = (bracketText g).getLast? :=
    List.getLast?_append_of_ne_nil _ hbracket
    _ = (aliasText (some ['x'])).getLast? :=
      List.getLast?_append_of_ne_nil _ hname
    _ = some 'x' := rfl

/-- The words of solid chunks with spaces around them are the chunks. -/
theorem words_led_space {ws : List Text} (h : ∀ w ∈ ws, Solid w) :
    words (led ws ++ [' ']) = ws := by
  cases ws with
  | nil => rfl
  | cons w ws =>
    rw [led_eq_cons (List.cons_ne_nil _ _), words_append rfl, words_nil,
      List.append_nil, words_cons rfl, words_join h]

theorem trim_led_space (t : Text) :
    (led t.words ++ [' ']).trim = collapse t := by
  have hspace : Blank [' '] := by simp [Blank, isBlank, blankRanges]
  by_cases h₀ : t.words = []
  · rw [collapse, h₀]
    rfl
  · rw [led_eq_cons h₀]
    exact trim_pad (l :=
      [' ']) hspace (trimmed_of_spaced (spaced_collapse t)) hspace

/-! ## Quoted spans -/

mutual

/-- Restoring the columns commutes with putting a query one level deeper. -/
theorem Query.restoreColumns_deeper :
    ∀ q : Query, q.deeper.restoreColumns = q.restoreColumns.deeper
  | { source, joins, .. } => by
    rw [Query.deeper, Query.restoreColumns, Query.restoreColumns, Query.deeper,
      Source.restoreColumns_deeper source, Join.restoreAll_allDeeper joins]

theorem Source.restoreColumns_deeper :
    ∀ s : Source, s.deeper.restoreColumns = s.restoreColumns.deeper
  | .table _ _ => by simp only [Source.deeper, Source.restoreColumns]
  | .subquery query _ => by
    simp only [Source.deeper, Source.restoreColumns,
      Query.restoreColumns_deeper query]

theorem Join.restoreAll_allDeeper : ∀ js : List Join,
    Join.restoreAll (Join.allDeeper js) = Join.allDeeper (Join.restoreAll js)
  | [] => rfl
  | { source, .. } :: js => by
    simp only [Join.allDeeper, Join.restoreAll, Join.deeper,
      Join.restoreColumns, Source.restoreColumns_deeper source,
      Join.restoreAll_allDeeper js]

end

/-- The queries inside a restored query are the restored queries inside it. -/
theorem Within.restoreColumns {n : Nat} {q inner : Query}
    (h : Within n q inner) :
    Within n q.restoreColumns inner.restoreColumns := by
  induction h with
  | self q => exact .self _
  | @source n q inner query aliasName hmem _ ih =>
    have hmem' : .subquery query.restoreColumns aliasName ∈
        q.restoreColumns.sources := by
      rw [sources_restoreColumns]
      exact List.mem_map.2 ⟨_, hmem, by rw [Source.restoreColumns]⟩
    exact .source hmem' ih

/-- Whether a query is spare does not depend on restoring its columns. -/
theorem spare_restoreColumns {q : Query} :
    q.restoreColumns.Spare ↔ q.Spare := by
  constructor
  · intro h n inner hw
    have := h n _ hw.restoreColumns
    rwa [depth_restoreColumns] at this
  · intro h n inner hw
    obtain ⟨unrestored, hw', rfl⟩ := within_restoreColumns hw
    rw [depth_restoreColumns]
    exact h n unrestored hw'

theorem restoreColumns_selectAll (literals : LiteralTable) (level : Nat)
    (q : Query) :
    (q.selectAll literals level).restoreColumns =
      q.restoreColumns.selectAll literals level := by
  have hstar : literals.restore ['*'] = ['*'] :=
    LiteralTable.restore_of_not_mem (by decide)
  simp [Query.selectAll, Query.restoreColumns, Column.restore,
    Source.restoreColumns, Join.restoreAll, hstar]

/-! ## Texts -/

/-- A masked text is read if its normal form is not blank, has balanced brackets
and is a query. -/
theorem readMasked_eq_ok_iff {literals : LiteralTable} {masked : Text}
    {q : Query} :
    readMasked literals masked = .ok q ↔
    masked.normalize ≠ [] ∧ isBalanced masked.normalize = true ∧
    readQuery literals maxDepth masked.normalize.trim = .ok q := by
  simp only [readMasked]
  split
  · next h => simp_all
  · next h =>
    split
    · next hb => simp_all
    · next hb => simp_all

/-- A text is read if its masked text is. The columns of the query are restored
then. -/
theorem parse_eq_ok_iff {t masked : Text} {table : LiteralTable}
    (h : protect t = .ok (masked, table)) {q : Query} :
    parse t = .ok q ↔
    ∃ q₀, readMasked table masked = .ok q₀ ∧ q = q₀.restoreColumns := by
  have e : parse t = readMasked table masked >>= fun q =>
      .ok q.restoreColumns := by
    rw [parse, h]
    rfl
  rw [e, bind_eq_ok]
  refine exists_congr fun q₀ => and_congr_right fun _ => ?_
  rw [Except.ok.injEq, eq_comm]

/-- Around a masked text the spare queries are read, one level deeper. -/
theorem readMasked_around {literals : LiteralTable} {masked : Text}
    (hb : isBalanced masked = true)
    (hend : masked.trim.getLast? ≠ some ';') {q' : Query} :
    readMasked literals ("select * from (".toList ++ '\n' ::
      (masked ++ '\n' :: ") x".toList)) = .ok q' ↔
    ∃ q, readMasked literals masked = .ok q ∧ q.Spare ∧
      q' = q.deeper.selectAll literals 0 := by
  generalize hg : led masked.words ++ [' '] = g
  have hcollapse := collapse_around masked
  have htrim := trim_led_space masked
  have hbalanced : isBalanced g = true := by
    rw [← hb, ← hg]
    exact isBalanced_of_words_eq (words_led_space fun w hw =>
      solid_of_mem_words hw)
  have hbrackets := isBalanced_brackets hbalanced
  rw [hg] at hcollapse htrim
  -- the text outside of the brackets
  have hnormal : normalize ("select * from (".toList ++ '\n' ::
      (masked ++ '\n' :: ") x".toList)) = aroundText g := by
    rw [normalize_eq_collapse, hcollapse]
    rw [hcollapse, getLast?_aroundText]
    decide
  have houter : (aroundText g).trim = aroundText g := by
    rw [← hcollapse]
    exact trim_of_trimmed (trimmed_of_spaced (spaced_collapse _))
  have hbalanced' : isBalanced (aroundText g) = true :=
    (isBalanced_append rfl).2 ⟨rfl,
    (isBalanced_append (depth_of_isBalanced hbrackets)).2 ⟨hbrackets, rfl⟩⟩
  -- the text inside them
  have hinner : masked.normalize = collapse masked := by
    refine normalize_eq_collapse ?_
    rwa [getLast?_collapse]
  have hinner' : isBalanced (collapse masked) = true := by
    rw [← hb]
    exact isBalanced_of_words_eq (words_collapse masked)
  have htrim' : (collapse masked).trim = collapse masked :=
    trim_of_trimmed (trimmed_of_spaced (spaced_collapse masked))
  have hlift := lifts_readQuery literals (show 63 < maxDepth by decide)
  rw [readMasked_eq_ok_iff, hnormal, houter]
  constructor
  · rintro ⟨-, -, h⟩
    obtain ⟨q₁, hq₁, rfl⟩ := (readQuery_around hbalanced).1 h
    rw [htrim] at hq₁
    obtain ⟨q, hq, hspare, rfl⟩ := (hlift _ _).1 hq₁
    refine ⟨q, readMasked_eq_ok_iff.2 ?_, hspare, rfl⟩
    rw [hinner, htrim']
    exact ⟨(readStatement_eq_ok_iff.1 hq).1, hinner', hq⟩
  · rintro ⟨q, hq, hspare, rfl⟩
    obtain ⟨-, -, hq⟩ := readMasked_eq_ok_iff.1 hq
    rw [hinner, htrim', ← htrim] at hq
    have hq₁ := (hlift _ _).2 ⟨q, hq, hspare, rfl⟩
    exact ⟨List.cons_ne_nil _ _, hbalanced',
      (readQuery_around hbalanced).2 ⟨_, hq₁, rfl⟩⟩

/-- A text in brackets is read like a text of its own: exactly if it can be read
and does not reach the last level, and then as the query of that text with each
depth greater by one. -/
theorem parse_around {t masked : Text} {table : LiteralTable}
    (h : protect t = .ok (masked, table)) (hb : isBalanced masked = true)
    (hend : masked.trim.getLast? ≠ some ';') (q' : Query) :
    parse ("select * from (\n".toList ++ t ++ "\n) x".toList) = .ok q' ↔
    ∃ q, parse t = .ok q ∧ q.Spare ∧ q' = q.deeper.selectAll q.literals 0 := by
  have hframe := protect_framed (a := "select * from (".toList) (b :=
    ") x".toList) (by decide) (by decide) (by decide) (by decide) h
  have e : "select * from (\n".toList ++ t ++ "\n) x".toList =
      "select * from (".toList ++ '\n' :: (t ++ '\n' :: ") x".toList) := by
    rw [List.append_assoc]
    rfl
  have hliterals {q₀ : Query} (hq₀ : readMasked table masked = .ok q₀) :
      q₀.literals = table :=
    (sound_readMasked hq₀ 0 q₀ (.self q₀)).literals
  rw [e, parse_eq_ok_iff hframe]
  constructor
  · rintro ⟨q₀', hq₀', rfl⟩
    obtain ⟨q₀, hq₀, hspare, rfl⟩ := (readMasked_around hb hend).1 hq₀'
    refine ⟨q₀.restoreColumns, (parse_eq_ok_iff h).2 ⟨q₀, hq₀, rfl⟩,
      spare_restoreColumns.2 hspare, ?_⟩
    rw [restoreColumns_selectAll, Query.restoreColumns_deeper,
      literals_restoreColumns, hliterals hq₀]
  · rintro ⟨q, hq, hspare, rfl⟩
    obtain ⟨q₀, hq₀, rfl⟩ := (parse_eq_ok_iff h).1 hq
    refine ⟨_, (readMasked_around hb hend).2
      ⟨q₀, hq₀, spare_restoreColumns.1 hspare, rfl⟩, ?_⟩
    rw [restoreColumns_selectAll, Query.restoreColumns_deeper,
      literals_restoreColumns, hliterals hq₀]

/-- A text with a comment at its end, a quoted span and a query of its own is
read in brackets so. -/
theorem parse_around_comment :
    ∃ q', parse ("select * from (\n".toList ++
      "select 'a' from (select 1 from t) s -- b".toList ++ "\n) x".toList) =
      .ok q' ∧
      ∃ q, parse "select 'a' from (select 1 from t) s -- b".toList = .ok q ∧
      q.Spare ∧ q' = q.deeper.selectAll q.literals 0 := by
  have hprotect : protect "select 'a' from (select 1 from t) s -- b".toList =
      .ok ("select __sqlfmt_lit_0__ from (select 1 from t) s  ".toList,
      ⟨0, ["'a'".toList]⟩) := by
    decide +kernel
  have hok : (parse ("select * from (\n".toList ++
      "select 'a' from (select 1 from t) s -- b".toList ++
      "\n) x".toList)).isOk = true := by
    decide +kernel
  cases h : parse ("select * from (\n".toList ++
    "select 'a' from (select 1 from t) s -- b".toList ++ "\n) x".toList) with
  | error e =>
    rw [h] at hok
    cases hok
  | ok q' =>
    exact ⟨q', rfl,
      (parse_around hprotect (by decide +kernel) (by decide +kernel) q').1 h⟩

end SqlRiver
