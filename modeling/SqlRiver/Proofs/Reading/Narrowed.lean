import SqlRiver.Proofs.Reading.Divided
import SqlRiver.Proofs.Text.Bytes

/-!
# What readers leave

A reader of one clause takes a trimmed text and leaves a part of it, which is
trimmed again. The readers at the end leave the start of the text, all others
leave its end. Where a reader finds nothing it leaves all of the text, and where
it finds something it leaves less. The select list and the first source are
never absent, so less is left behind these in any case.

This needs no balance of brackets and no normal form of the text: each reader
cuts the text at a word that it has found there, and trims what is left.

Main definitions and statements:

* `Shrunk`, `Narrows`: what is left of a text, and readers that leave such a
  part of every text.
* `CutsOff`: readers that cut the text once, trimmed or not.
* `length_readSource_lt`: a source takes something off, whatever is inside its
  brackets.
* `StagesNarrow`, `stagesNarrow`: the readers of all clauses.
-/

namespace SqlRiver

open Text

variable {t u rest : Text} {nested : Nested} {literals : LiteralTable}
  {clause : Clause}

/-! ## Parts of a text -/

/-- What is left of a text: a trimmed part of it, which is all of the text if
nothing was found, and shorter than the text if something was. -/
structure Shrunk (part : Text → Text → Prop) (nothing : Prop) (t rest : Text) :
    Prop where
  trimmed : rest.Trimmed
  part : part rest t
  unchanged : nothing → rest = t
  shorter : ¬ nothing → rest.byteSize < t.byteSize

/-- A reader leaves such a part of every trimmed text that it reads. -/
def Narrows {α : Type} (part : Text → Text → Prop) (nothing : α → Prop)
    (reader : Reader α) : Prop :=
  ∀ t a rest, t.Trimmed → reader t = .ok (a, rest) →
    Shrunk part (nothing a) t rest

theorem shrunk_self {part : Text → Text → Prop} {nothing : Prop}
    (ht : t.Trimmed) (hself : part t t) (hn : nothing) :
    Shrunk part nothing t t :=
  ⟨ht, hself, fun _ => rfl, fun hne => absurd hn hne⟩

/-- A shorter part of a text has fewer bytes. -/
theorem byteSize_lt_of_isInfix (h : u <:+: t) (hlt : u.length < t.length) :
    u.byteSize < t.byteSize := by
  obtain ⟨x, y, rfl⟩ := h
  have hxy : x ++ y ≠ [] := by
    intro h₀
    obtain ⟨rfl, rfl⟩ := List.append_eq_nil_iff.1 h₀
    simp at hlt
  have := byteSize_pos hxy
  simp only [byteSize_append] at this ⊢
  omega

/-- The start of a trimmed text has blanks at its end only. -/
theorem isPrefix_trim (ht : t.Trimmed) (h : u <+: t) : u.trim <+: t := by
  obtain ⟨l, r, hl, -, e⟩ := exists_trim u
  cases l with
  | nil => exact List.IsPrefix.trans ⟨r, e.symm⟩ h
  | cons c l =>
    -- a blank at the start would be one of the text
    obtain ⟨x, rfl⟩ := h
    have hc := ht.start c (by rw [e]; rfl)
    rw [hl c List.mem_cons_self] at hc
    cases hc

/-! ## One cut -/

/-- A reader leaves all of a text if it finds nothing. If it finds something, it
cuts a proper part of this kind off, and trims that. -/
def CutsOff {α : Type} (part : Text → Text → Prop) (nothing : α → Prop)
    (reader : Reader α) : Prop :=
  ∀ t a rest, reader t = .ok (a, rest) → (nothing a ∧ rest = t) ∨
    (¬ nothing a ∧ ∃ u : Text, part u t ∧ u.length < t.length ∧ rest = u.trim)

section CutsOff

variable {α : Type} {part : Text → Text → Prop} {nothing : α → Prop}
  {reader : Reader α} {a : α}

/-- A reader that trims what it cuts off leaves a trimmed part, which is shorter
unless nothing was read. -/
theorem CutsOff.narrows (h : CutsOff part nothing reader)
    (hself : ∀ t, part t t) (hparts : ∀ {u t}, part u t → u <:+: t)
    (htrim : ∀ {u t : Text}, t.Trimmed → part u t → part u.trim t) :
    Narrows part nothing reader := by
  intro t a rest ht hr
  rcases h t a rest hr with ⟨hn, rfl⟩ | ⟨hn, u, hu, hlt, rfl⟩
  · exact shrunk_self ht (hself rest) hn
  · have hless := byteSize_lt_of_isInfix ((isInfix_trim u).trans (hparts hu))
      ((length_trim_le u).trans_lt hlt)
    exact ⟨trimmed_trim u, htrim ht hu, fun hnothing => absurd hnothing hn,
      fun _ => hless⟩

theorem CutsOff.narrows_start (h : CutsOff (· <+: ·) nothing reader) :
    Narrows (· <+: ·) nothing reader :=
  h.narrows (fun _ => List.prefix_rfl) List.IsPrefix.isInfix isPrefix_trim

theorem CutsOff.narrows_end (h : CutsOff (· <:+ ·) nothing reader) :
    Narrows (· <:+ ·) nothing reader :=
  h.narrows (fun _ => List.suffix_rfl) List.IsSuffix.isInfix isSuffix_trim

/-- What is left is a part of a text that has blanks at its ends, too. -/
theorem CutsOff.isInfix (h : CutsOff part nothing reader)
    (hparts : ∀ {u t}, part u t → u <:+: t) (hr : reader t = .ok (a, rest)) :
    rest <:+: t := by
  rcases h t a rest hr with ⟨-, rfl⟩ | ⟨-, u, hu, -, rfl⟩
  · exact List.infix_rfl
  · exact (isInfix_trim u).trans (hparts hu)

end CutsOff

/-! ## Clauses at the end -/

/-- A clause at the end leaves the start of the text. -/
theorem cutsOff_readTrailing (clause : Clause) :
    CutsOff (· <+: ·) (· = none) (readTrailing clause) := by
  intro t v rest h
  rcases readTrailing_eq_ok_iff.1 h with
    ⟨-, rfl, rfl⟩ | ⟨a, m, c, rfl, hs, -, -, rfl, rfl⟩
  · exact .inl ⟨rfl, rfl⟩
  · have hm := List.length_pos_iff.2
      (spelling_ne_nil (isPhrase_phrase clause) hs.spelled)
    refine .inr ⟨by simp, a, ⟨m ++ c, by simp⟩, ?_, rfl⟩
    simp only [List.length_append]
    omega

/-- The ordering leaves the start of the text. -/
theorem cutsOff_readOrderBy : CutsOff (· <+: ·) (· = []) readOrderBy := by
  intro t entries rest h
  rcases readOrderBy_eq_ok_iff.1 h with
    ⟨-, rfl, rfl⟩ | ⟨a, m, c, rfl, hs, -, hlist, rfl⟩
  · exact .inl ⟨rfl, rfl⟩
  · have hm := List.length_pos_iff.2
      (spelling_ne_nil (isPhrase_phrase .orderBy) hs.spelled)
    refine .inr ⟨commaList_ne_nil hlist, a, ⟨m ++ c, by simp⟩, ?_, rfl⟩
    simp only [List.length_append]
    omega

/-! ## Clauses at the start -/

/-- The columns leave the end of the text, and are never missing. -/
theorem cutsOff_readSelect (literals : LiteralTable) :
    CutsOff (· <:+ ·) (fun _ => False) (readSelect literals) := by
  rintro t ⟨d, columns⟩ rest h
  obtain ⟨m, list, m', tail, l, entries, rfl, hs, -, -, -, -, -, -, rfl⟩ :=
    readSelect_eq_ok_iff.1 h
  have hm :=
    List.length_pos_iff.2 (spelling_ne_nil (isPhrase_phrase .select) hs.spelled)
  refine .inr ⟨id, tail, ⟨m ++ (list ++ m'), by simp⟩, ?_, rfl⟩
  simp only [List.length_append]
  omega

/-- What follows the body of a clause is an end of the text, and the phrase of
the clause is taken off. -/
theorem exists_of_bodyOf? {ends : List Clause} {body : Text}
    (h : bodyOf? clause ends t = some (body, rest)) :
    ∃ tail : Text, tail <:+ t ∧ tail.length < t.length ∧ rest = tail.trim := by
  obtain ⟨m, tail, rfl, hs, -, rfl⟩ := bodyOf?_eq_some_iff.1 h
  have hm :=
    List.length_pos_iff.2 (spelling_ne_nil (isPhrase_phrase clause) hs.spelled)
  refine ⟨tail, ⟨m ++ body, by simp⟩, ?_, rfl⟩
  simp only [List.length_append]
  omega

theorem conditions_ne_nil {body : Text} {conds : List Condition}
    (h : conditions clause body = .ok conds) : conds ≠ [] := by
  obtain ⟨-, -, rfl⟩ := conditions_eq_ok_iff.1 h
  simpa [predicates] using regroup_ne_nil _ _

/-- The grouping leaves the end of the text. -/
theorem cutsOff_readGroupBy : CutsOff (· <:+ ·) (· = []) readGroupBy := by
  intro t entries rest h
  rcases readGroupBy_eq_ok_iff.1 h with ⟨-, rfl, rfl⟩ | ⟨body, hbody, hlist⟩
  · exact .inl ⟨rfl, rfl⟩
  · exact .inr ⟨commaList_ne_nil hlist, exists_of_bodyOf? hbody⟩

/-- The filter leaves the end of the text. -/
theorem cutsOff_readFilter : CutsOff (· <:+ ·) (· = []) readFilter := by
  intro t conds rest h
  rcases readFilter_eq_ok_iff.1 h with ⟨-, rfl, rfl⟩ | ⟨body, hbody, hconds⟩
  · exact .inl ⟨rfl, rfl⟩
  · exact .inr ⟨conditions_ne_nil hconds, exists_of_bodyOf? hbody⟩

/-- The filter of groups leaves the end of the text. -/
theorem cutsOff_readHaving (grouped : Bool) :
    CutsOff (· <:+ ·) (· = []) (readHaving grouped) := by
  intro t conds rest h
  rcases readHaving_eq_ok_iff.1 h with ⟨-, rfl, rfl⟩ | ⟨body, hbody, -, hconds⟩
  · exact .inl ⟨rfl, rfl⟩
  · exact .inr ⟨conditions_ne_nil hconds, exists_of_bodyOf? hbody⟩

/-- The joins leave the end of the text. -/
theorem cutsOff_readJoins (nested : Nested) (literals : LiteralTable) :
    CutsOff (· <:+ ·) (· = []) (readJoins nested literals) := by
  intro t joins rest h
  obtain ⟨region, tail, rfl, -, h⟩ := readJoins_eq_ok_iff.1 h
  rcases h with
    ⟨-, rfl, rfl⟩ | ⟨hregion, modifiers, piece, more, -, hjoins, rfl⟩
  · exact .inl ⟨rfl, rfl⟩
  · have hne : region ≠ [] := by
      rintro rfl
      exact hregion rfl
    have hpos := List.length_pos_iff.2 hne
    refine .inr ⟨joinsOf_ne_nil hjoins, tail, List.suffix_append region tail,
      ?_, rfl⟩
    rw [List.length_append]
    omega

/-! ## Sources -/

/-- What is behind a bare source is an end of the text, and a bracket or a name
is taken off. -/
theorem exists_of_readBare {s : Source} {behind : Text}
    (h : readBare nested clause t = .ok (s, behind)) :
    ∃ tail : Text, tail <:+ t ∧ tail.length < t.length ∧
      behind = tail.trim := by
  rcases readBare_eq_ok_iff.1 h with
    ⟨inside, tail, q, rfl, -, -, -, e⟩ | ⟨name, tail, rfl, -, hname, -, -, -, e⟩
  · refine ⟨tail, ⟨'(' :: inside ++ [')'], by simp⟩, ?_, e⟩
    simp only [List.length_append, List.length_cons]
    omega
  · have hpos := List.length_pos_iff.2 hname
    refine ⟨tail, List.suffix_append name tail, ?_, e⟩
    rw [List.length_append]
    omega

/-- A source takes something off a text. -/
theorem length_readSource_lt {ends : List Text}
    (he : ∀ v ∈ ends, isPhrase v = true) {s : Source}
    (h : readSource nested literals ends clause t = .ok (s, rest)) :
    rest.length < t.length := by
  obtain ⟨s₀, x, y, v, hbare, -, -, -, rfl⟩ := (readSource_eq_ok_iff he).1 h
  obtain ⟨tail, -, hlt, e⟩ := exists_of_readBare hbare
  have hy := length_trim_le y
  have htail := length_trim_le tail
  rw [← e, List.length_append] at htail
  omega

/-- A source leaves a part of the text. -/
theorem isInfix_readSource {ends : List Text}
    (he : ∀ v ∈ ends, isPhrase v = true) {s : Source}
    (h : readSource nested literals ends clause t = .ok (s, rest)) :
    rest <:+: t := by
  obtain ⟨s₀, x, y, v, hbare, -, -, -, rfl⟩ := (readSource_eq_ok_iff he).1 h
  obtain ⟨tail, hsuffix, -, e⟩ := exists_of_readBare hbare
  have hbehind : x ++ y <:+: t := by
    rw [e]
    exact (isInfix_trim tail).trans hsuffix.isInfix
  exact (isInfix_trim y).trans ((List.suffix_append x y).isInfix.trans hbehind)

theorem trimmed_readSource {ends : List Text}
    (he : ∀ v ∈ ends, isPhrase v = true) {s : Source}
    (h : readSource nested literals ends clause t = .ok (s, rest)) :
    rest.Trimmed := by
  obtain ⟨s₀, x, y, v, -, -, -, -, rfl⟩ := (readSource_eq_ok_iff he).1 h
  exact trimmed_trim y

/-- Every source behind a comma takes something off, and so does the comma. -/
theorem narrows_readMore (nested : Nested) (literals : LiteralTable)
    (bound : Nat) :
    Narrows (· <:+ ·) (· = []) (readMore nested literals bound) := by
  induction bound with
  | zero =>
    intro t joins rest ht h
    cases h
    exact shrunk_self ht List.suffix_rfl rfl
  | succ bound ih =>
    intro t joins rest ht h
    rw [readMore] at h
    split at h
    · cases h
      exact shrunk_self ht List.suffix_rfl rfl
    · next behind hcomma =>
      obtain ⟨tail, rfl, rfl⟩ := stripComma?_eq_some_iff.1 hcomma
      simp only [bind_eq_ok] at h
      obtain ⟨⟨source, middle⟩, hsource, ⟨more, rest'⟩, hmore, h⟩ := h
      cases h
      have hmiddle := trimmed_readSource isPhrase_of_mem_sourceEnds hsource
      have hleft := ih middle more rest' hmiddle hmore
      have htail : tail.trim <:+ ',' :: tail :=
        isSuffix_trim ht (List.suffix_cons ',' tail)
      have hsuffix : rest' <:+ tail.trim :=
        hleft.part.trans (isSuffix_readSource isPhrase_of_mem_sourceEnds
          (trimmed_trim tail) hsource)
      refine ⟨hleft.trimmed, hsuffix.trans htail, by simp, fun _ => ?_⟩
      refine byteSize_lt_of_isInfix (hsuffix.trans htail).isInfix ?_
      exact Nat.lt_succ_of_le (hsuffix.length_le.trans (length_trim_le tail))

/-- The sources leave the end of the text, and are never missing. -/
theorem narrows_readSources (nested : Nested) (literals : LiteralTable) :
    Narrows (· <:+ ·) (fun _ => False) (readSources nested literals) := by
  rintro t ⟨source, joins⟩ rest ht h
  simp only [readSources, bind_eq_ok] at h
  obtain ⟨⟨source', middle⟩, hsource, ⟨joins', rest'⟩, hmore, h⟩ := h
  cases h
  have hmiddle := trimmed_readSource isPhrase_of_mem_sourceEnds hsource
  have hleft :=
    narrows_readMore nested literals _ middle joins' rest' hmiddle hmore
  have hsuffix :=
    hleft.part.trans (isSuffix_readSource isPhrase_of_mem_sourceEnds ht hsource)
  refine ⟨hleft.trimmed, hsuffix, False.elim,
    fun _ => byteSize_lt_of_isInfix hsuffix.isInfix ?_⟩
  exact hleft.part.length_le.trans_lt
    (length_readSource_lt isPhrase_of_mem_sourceEnds hsource)

/-! ## All clauses -/

/-- The readers at the end of a query leave its start, and those at its start
leave its end. Only the select list and the sources are never absent. -/
structure StagesNarrow (nested : Nested) (literals : LiteralTable) : Prop where
  limit : Narrows (· <+: ·) (· = none) (readTrailing .limit)
  offset : Narrows (· <+: ·) (· = none) (readTrailing .offset)
  orderBy : Narrows (· <+: ·) (· = []) readOrderBy
  select : Narrows (· <:+ ·) (fun _ => False) (readSelect literals)
  sources : Narrows (· <:+ ·) (fun _ => False) (readSources nested literals)
  joins : Narrows (· <:+ ·) (· = []) (readJoins nested literals)
  filter : Narrows (· <:+ ·) (· = []) readFilter
  groupBy : Narrows (· <:+ ·) (· = []) readGroupBy
  having (grouped : Bool) : Narrows (· <:+ ·) (· = []) (readHaving grouped)

/-- Every stage of reading leaves a part of the text, and a shorter one unless
it reads nothing. -/
theorem stagesNarrow (nested : Nested) (literals : LiteralTable) :
    StagesNarrow nested literals where
  limit := (cutsOff_readTrailing .limit).narrows_start
  offset := (cutsOff_readTrailing .offset).narrows_start
  orderBy := cutsOff_readOrderBy.narrows_start
  select := (cutsOff_readSelect literals).narrows_end
  sources := narrows_readSources nested literals
  joins := (cutsOff_readJoins nested literals).narrows_end
  filter := cutsOff_readFilter.narrows_end
  groupBy := cutsOff_readGroupBy.narrows_end
  having grouped := (cutsOff_readHaving grouped).narrows_end

/-- Brackets that are not balanced divide a text where their depth is zero. -/
example :
    (readTrailing .limit
      "select )a(, b from t) limit 1 ( limit (".toList).toOption =
      some (some "(".toList, "select )a(, b from t) limit 1 (".toList) ∧
    (readSelect .empty "select )a(, b from t) limit 1 (".toList).toOption =
      some ((false, [⟨")a(".toList, none⟩, ⟨"b".toList, none⟩]),
      "t) limit 1 (".toList) := by
  decide

end SqlRiver
