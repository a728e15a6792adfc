import SqlRiver.Proofs.Literal.Spans

/-!
# Layouts under different options

Two layouts of one query write the same tokens in the same order. What differs
is the letter case of the keywords, if the options choose different ones, and
the blanks between the tokens, if the options choose different widths.
`Recast o o' ks t u` says that the texts `t` and `u` write the tokens `ks` in
that way, and that no piece and no keyword runs on into a word. The last
condition makes the relation stable under putting quoted spans back.

Main definitions and statements:

* `Recast`: the texts that two options write for the same tokens.
* `Recast.words_eq`, `Recast.lower_eq`: what texts have in common if one of the
  two choices is the same.
* `Recast.restore`: quoted spans change the pieces and nothing else.
* `recast_query`: the lines of a query.
* `render_recast`: layouts differ in blanks and in the letter case of keywords
  only.
-/

namespace SqlRiver

open Text

/-! ## The relation -/

/-- The keywords that a layout writes, in lower case. -/
def writtenWords : List Text := "or".toList :: fillerWords

/-- The texts write the same tokens under two options: with the same commas and
brackets, with the same keywords in the letter case of the options, and with
blanks between them that are the same if the widths are. No piece and no keyword
runs on into a word. -/
inductive Recast (o o' : Options) : List Token → Text → Text → Prop
  /-- Nothing is left. -/
  | nil : Recast o o' [] [] []
  /-- A text of the query. -/
  | piece {p : Text} {ks : List Token} {t u : Text} : offWord t.head? = true →
    offWord u.head? = true →
    Recast o o' ks t u → Recast o o' (.piece p :: ks) (p ++ t) (p ++ u)
  /-- A keyword. -/
  | word {w : Text} {ks : List Token} {t u : Text} : w ∈ writtenWords →
    offWord t.head? = true → offWord u.head? = true → Recast o o' ks t u →
    Recast o o' ks (o.keyword w ++ t) (o'.keyword w ++ u)
  /-- A comma. -/
  | comma {ks : List Token} {t u : Text} : Recast o o' ks t u →
    Recast o o' ks (',' :: t) (',' :: u)
  /-- The bracket that opens a query or a list. -/
  | opening {ks : List Token} {t u : Text} : Recast o o' ks t u →
    Recast o o' (.opening :: ks) ('(' :: t) ('(' :: u)
  /-- The bracket that closes it. -/
  | closing {ks : List Token} {t u : Text} : Recast o o' ks t u →
    Recast o o' (.closing :: ks) (')' :: t) (')' :: u)
  /-- Blanks between all these. -/
  | gap {g g' : Text} {ks : List Token} {t u : Text} : Blank g → Blank g' →
    g ≠ [] → g' ≠ [] → (o.maxWidth = o'.maxWidth → g = g') →
    Recast o o' ks t u → Recast o o' ks (g ++ t) (g' ++ u)

/-- A token with the quoted spans for the placeholders of its text. -/
def Token.restore (table : LiteralTable) : Token → Token
  | .piece t => .piece (table.restore t)
  | .opening => .opening
  | .closing => .closing

theorem isLower_of_mem_writtenWords {w : Text} (h : w ∈ writtenWords) :
    ∀ c ∈ w, c.isLower = true := by
  revert w
  decide

theorem offWord_append {t u : Text} (ht : offWord t.head? = true)
    (hu : offWord u.head? = true) : offWord (t ++ u).head? = true := by
  cases t with
  | nil => exact hu
  | cons c t => exact ht

namespace LiteralTable

variable {table : LiteralTable}

theorem restore_cons {c : Char} (hc : isWordChar c = false) (t : Text) :
    table.restore (c :: t) = c :: table.restore t :=
  restore_append_cons hc [] t

/-- A character that is not part of a word stays at the start of a text. -/
theorem offWord_restore {t : Text} (h : offWord t.head? = true) :
    offWord (table.restore t).head? = true := by
  cases t with
  | nil => rfl
  | cons c t =>
    rw [restore_cons (by simpa [offWord] using h)]
    exact h

/-- No placeholder is found in a keyword. -/
theorem restore_keyword (o : Options) {w : Text} (h : w ∈ writtenWords) :
    table.restore (o.keyword w) = o.keyword w := by
  have hletters :=
    lettered_keyword o fun c hc => .inl (isLower_of_mem_writtenWords h c hc)
  exact restore_of_not_mem (hletters.not_mem rfl (by decide))

end LiteralTable

namespace Recast

variable {o o' : Options} {ks ls : List Token} {t u t' u' g p w : Text}

/-! ## What the texts have in common -/

/-- Texts with keywords of the same letter case have the same words. -/
theorem words_eq (h : Recast o o' ks t u)
    (hcase : o.keywordCase = o'.keywordCase) : words t = words u := by
  -- a word may have started before the two texts
  suffices key : ∀ x : Text, words (x ++ t) = words (x ++ u) from key []
  induction h with
  | nil => exact fun _ => rfl
  | piece _ _ _ ih =>
    intro x
    rw [← List.append_assoc, ← List.append_assoc]
    exact ih _
  | word _ _ _ _ ih =>
    intro x
    rw [Options.keyword, Options.keyword, ← hcase, ← List.append_assoc,
      ← List.append_assoc]
    exact ih _
  | @comma _ t u _ ih | @opening _ t u _ ih | @closing _ t u _ ih =>
    intro x
    rw [List.append_cons x _ t, List.append_cons x _ u]
    exact ih _
  | gap hg hg' h₀ h₀' _ _ ih =>
    intro x
    rw [← List.append_assoc, ← List.append_assoc, words_append_blank hg h₀,
      words_append_blank hg' h₀']
    exact congrArg (words x ++ ·) (ih [])

/-- Texts of the same width are spelled in the same way, character by
character. -/
theorem lower_eq (h : Recast o o' ks t u) (hwidth : o.maxWidth = o'.maxWidth) :
    lower t = lower u := by
  induction h with
  | nil => rfl
  | piece _ _ _ ih => rw [lower_append, lower_append, ih]
  | word _ _ _ _ ih =>
    rw [lower_append, lower_append, ih, lower_keyword, lower_keyword]
  | comma _ ih | opening _ ih | closing _ ih => rw [lower_cons, lower_cons, ih]
  | gap _ _ _ _ hg _ ih => rw [lower_append, lower_append, ih, hg hwidth]

/-! ## Quoted spans -/

/-- Quoted spans change the pieces and nothing else. -/
theorem restore (table : LiteralTable) (h : Recast o o' ks t u) :
    Recast o o' (ks.map (Token.restore table)) (table.restore t)
      (table.restore u) := by
  have hgap {g : Text} (hg : Blank g) (t : Text) :
      table.restore (g ++ t) = g ++ table.restore t := by
    rw [LiteralTable.restore_append (runsOn_of_left (offWord_of_blank hg).1 _),
      LiteralTable.restore_of_not_mem
      (LiteralTable.underscore_not_mem_blank hg)]
  induction h with
  | nil => exact .nil
  | piece ht hu _ ih =>
    rw [LiteralTable.restore_append (runsOn_of_right ht _),
      LiteralTable.restore_append (runsOn_of_right hu _)]
    exact .piece (LiteralTable.offWord_restore ht)
      (LiteralTable.offWord_restore hu) ih
  | word hw ht hu _ ih =>
    rw [LiteralTable.restore_append (runsOn_of_right ht _),
      LiteralTable.restore_append (runsOn_of_right hu _),
      LiteralTable.restore_keyword o hw, LiteralTable.restore_keyword o' hw]
    exact .word hw (LiteralTable.offWord_restore ht)
      (LiteralTable.offWord_restore hu) ih
  | comma _ ih =>
    rw [LiteralTable.restore_cons rfl, LiteralTable.restore_cons rfl]
    exact .comma ih
  | opening _ ih =>
    rw [LiteralTable.restore_cons rfl, LiteralTable.restore_cons rfl]
    exact .opening ih
  | closing _ ih =>
    rw [LiteralTable.restore_cons rfl, LiteralTable.restore_cons rfl]
    exact .closing ih
  | gap hg hg' h₀ h₀' heq _ ih =>
    rw [hgap hg, hgap hg']
    exact .gap hg hg' h₀ h₀' heq ih

/-! ## Texts one behind the other -/

/-- Texts that write the same tokens one behind the other write all of them, if
no word runs on between them. -/
theorem append (h : Recast o o' ks t u) (h' : Recast o o' ls t' u')
    (ht : offWord t'.head? = true) (hu : offWord u'.head? = true) :
    Recast o o' (ks ++ ls) (t ++ t') (u ++ u') := by
  induction h with
  | nil => exact h'
  | piece hp hq _ ih =>
    rw [List.append_assoc, List.append_assoc]
    exact .piece (offWord_append hp ht) (offWord_append hq hu) ih
  | word hw hp hq _ ih =>
    rw [List.append_assoc, List.append_assoc]
    exact .word hw (offWord_append hp ht) (offWord_append hq hu) ih
  | comma _ ih => exact .comma ih
  | opening _ ih => exact .opening ih
  | closing _ ih => exact .closing ih
  | gap hg hg' h₀ h₀' heq _ ih =>
    rw [List.append_assoc, List.append_assoc]
    exact .gap hg hg' h₀ h₀' heq ih

theorem single (o o' : Options) (p : Text) : Recast o o' [.piece p] p p := by
  have h : Recast o o' [.piece p] (p ++ []) (p ++ []) := .piece rfl rfl .nil
  rwa [List.append_nil] at h

/-- The same blanks before both texts. -/
theorem pad (hg : Blank g) (h : Recast o o' ks t u) :
    Recast o o' ks (g ++ t) (g ++ u) := by
  by_cases h₀ : g = []
  · rw [h₀]
    exact h
  · exact .gap hg hg h₀ h₀ (fun _ => rfl) h

theorem space (h : Recast o o' ks t u) : Recast o o' ks (' ' :: t) (' ' :: u) :=
  h.pad blank_space

theorem length_keyword (o : Options) (w : Text) :
    (o.keyword w).length = w.length := by
  rw [← length_lower, lower_keyword, length_lower]

/-- A keyword at the river. -/
theorem lead {base : Text} (hb : Blank base) (hw : w ∈ writtenWords)
    (ht : offWord t.head? = true)
    (hu : offWord u.head? = true) (h : Recast o o' ks t u) :
    Recast o o' ks (lead o base w ++ t) (SqlRiver.lead o' base w ++ u) := by
  have hword := ((Recast.word hw ht hu h).pad
    (blank_spaces (keywordWidth - w.length))).pad hb
  simpa [SqlRiver.lead, padStart, length_keyword] using hword

/-- An alias behind a source. -/
theorem withAlias (h : Recast o o' ks t u) (aliasName : Option Text) :
    Recast o o' (ks ++ aliasName.toList.map .piece) (t ++ aliasText aliasName)
      (u ++ aliasText aliasName) := by
  cases aliasName with
  | none => simpa [aliasText] using h
  | some name => exact h.append (single o o' name).space rfl rfl

end Recast

/-! ## Lists -/

section Rows

variable {o o' : Options} {α : Type} {group : α → List Token}
  {text text' : α → Text} {indent : Text}

/-- One row of a list. -/
theorem recast_rowText (h : ∀ a, Recast o o' (group a) (text a) (text' a)) :
    ∀ row : List α, Recast o o' (row.flatMap group) (rowText (row.map text))
      (rowText (row.map text'))
  | [] => .nil
  | [a] => by simpa [rowText, join] using h a
  | a :: b :: row => by
    have ih := recast_rowText h (b :: row)
    have hrow := (h a).append ih.space.comma rfl rfl
    simpa [rowText, join] using hrow

/-- What stands before the first row stands before them all. -/
theorem join_rowLines (lead indent : Text) {rows : List (List Text)}
    (h : rows ≠ []) :
    join ['\n'] (rowLines lead indent rows) =
      lead ++ join ['\n'] (rowLines [] indent rows) := by
  obtain ⟨row, rows, rfl⟩ := List.exists_cons_of_ne_nil h
  cases rows with
  | nil => simp [rowLines, join]
  | cons row' rows =>
    simp only [rowLines]
    rw [join_cons, join_cons]
    simp

/-- The same rows of entries. -/
theorem recast_rowLines (h : ∀ a, Recast o o' (group a) (text a) (text' a))
    (hi : Blank indent) :
    ∀ {rows : List (List α)}, rows ≠ [] →
      Recast o o' (rows.flatten.flatMap group)
      (join ['\n'] (rowLines [] indent (rows.map (List.map text))))
      (join ['\n'] (rowLines [] indent (rows.map (List.map text'))))
  | [], hr => absurd rfl hr
  | [row], _ => by simpa [rowLines, join] using recast_rowText h row
  | row :: row' :: rows, _ => by
    have ih := recast_rowLines h hi (List.cons_ne_nil row' rows)
    have hgap : Blank ('\n' :: indent) := blank_cons.2 ⟨rfl, hi⟩
    have hlines (f : α → Text) : join ['\n']
        (rowLines [] indent ((row :: row' :: rows).map (List.map f))) =
        rowText (row.map f) ++ ',' :: ('\n' :: indent ++ join ['\n']
        (rowLines [] indent ((row' :: rows).map (List.map f)))) := by
      have hrows : rowLines [] indent ((row :: row' :: rows).map (List.map f)) =
          [rowText (row.map f) ++ [',']] ++
          rowLines indent indent ((row' :: rows).map (List.map f)) := rfl
      rw [hrows, join_append _ (by simp) (rowLines_ne_nil _ _ (by simp)),
        join_rowLines indent indent (by simp)]
      simp [join]
    rw [hlines, hlines, List.flatten_cons, List.flatMap_append]
    exact (recast_rowText h row).append (ih.pad hgap).comma rfl rfl

/-- A space before a woven text leaves no gap empty. -/
theorem Woven.spaced {ks : List Text} {t : Text} (h : Woven ks t)
    (h₀ : ks ≠ []) :
    ∃ gs : List Text, gs.length = ks.length ∧ (∀ g ∈ gs, Blank g ∧ g ≠ []) ∧
      ' ' :: t = weave gs ks := by
  obtain ⟨gs, hlen, hgs, rfl⟩ := h
  obtain ⟨k, ks, rfl⟩ := List.exists_cons_of_ne_nil h₀
  cases gs with
  | nil => cases hlen
  | cons g gs =>
    refine ⟨(' ' :: g) :: gs, hlen,
      List.forall_mem_cons.2 ⟨⟨?_, List.cons_ne_nil _ _⟩, ?_⟩, rfl⟩
    · exact blank_cons.2 ⟨rfl, hgs.blank g List.mem_cons_self⟩
    · exact fun x hx =>
        ⟨hgs.blank x (List.mem_cons_of_mem _ hx), hgs.apart x hx⟩

/-- Entries with commas behind them, between blanks that may differ if the
widths do. -/
theorem recast_weave (hwidth : o.maxWidth ≠ o'.maxWidth) {entries : List Text} :
    ∀ {gs gs' : List Text}, (∀ g ∈ gs, Blank g ∧ g ≠ []) →
      (∀ g ∈ gs', Blank g ∧ g ≠ []) → gs.length = (entryChunks entries).length →
      gs'.length = (entryChunks entries).length →
      Recast o o' (entries.map .piece) (weave gs (entryChunks entries))
      (weave gs' (entryChunks entries)) := by
  induction entries with
  | nil =>
    intro gs gs' _ _ hl hl'
    rw [List.length_eq_zero_iff.1 hl, List.length_eq_zero_iff.1 hl']
    exact .nil
  | cons e entries ih =>
    rintro (_ | ⟨g, gs⟩) (_ | ⟨g', gs'⟩) hg hg' hl hl'
    · cases entries <;> cases hl
    · cases entries <;> cases hl
    · cases entries <;> cases hl'
    obtain ⟨⟨hb, h₀⟩, hgs⟩ := List.forall_mem_cons.1 hg
    obtain ⟨⟨hb', h₀'⟩, hgs'⟩ := List.forall_mem_cons.1 hg'
    cases entries with
    | nil =>
      have hentry : Recast o o' [.piece e] (g ++ e) (g' ++ e) :=
        .gap hb hb' h₀ h₀' (absurd · hwidth) (.single o o' e)
      simpa [entryChunks, commaChunks, weave] using hentry
    | cons f entries =>
      have hrest := ih hgs hgs' (Nat.succ.inj hl) (Nat.succ.inj hl')
      have hentry := Recast.gap hb hb' h₀ h₀' (absurd · hwidth)
        (.piece (p := e) (t := ',' :: _) (u := ',' :: _) rfl rfl hrest.comma)
      have hchunks : entryChunks (e :: f :: entries) =
          (e ++ [',']) :: entryChunks (f :: entries) := rfl
      rw [hchunks, weave, weave]
      simpa using hentry

/-- The entries of a list in rows behind a space, when the rows are the same if
the widths are. -/
theorem recast_entryRows (hi : Blank indent) {rows rows' : List (List Text)}
    {entries : List Text} (h₀ : entries ≠ [])
    (hrows : rows.flatten = entries ∧ rows ≠ [] ∧ ∀ row ∈ rows, row ≠ [])
    (hrows' : rows'.flatten = entries ∧ rows' ≠ [] ∧ ∀ row ∈ rows', row ≠ [])
    (hwidth : o.maxWidth = o'.maxWidth → rows = rows') :
    Recast o o' (entries.map .piece)
      (' ' :: join ['\n'] (rowLines [] indent rows))
      (' ' :: join ['\n'] (rowLines [] indent rows')) := by
  obtain ⟨hflat, hne, hrow⟩ := hrows
  obtain ⟨hflat', hne', hrow'⟩ := hrows'
  by_cases hw : o.maxWidth = o'.maxWidth
  · have hsame := recast_rowLines (fun e =>
      show Recast o o' [.piece e] (id e) (id e) from .single o o' e) hi hne
    rw [← List.map_eq_flatMap, hflat, List.map_id_fun, List.map_id] at hsame
    rw [← hwidth hw]
    exact hsame.space
  · obtain ⟨t, ht, hwoven⟩ := woven_entryRows hi [] hne hrow
    obtain ⟨t', ht', hwoven'⟩ := woven_entryRows hi [] hne' hrow'
    rw [hflat] at hwoven
    rw [hflat'] at hwoven'
    obtain ⟨gs, hlen, hgs, e⟩ := hwoven.spaced (entryChunks_ne_nil h₀)
    obtain ⟨gs', hlen', hgs', e'⟩ := hwoven'.spaced (entryChunks_ne_nil h₀)
    rw [ht, ht', List.nil_append, List.nil_append, e, e']
    exact recast_weave hw hgs hgs' hlen hlen'

end Rows

/-! ## Lines of clauses -/

/-- The lines of two layouts write the same tokens, unless there are none of
either. -/
def LinesRecast (o o' : Options) (ks : List Token) (ls ls' : List Text) :
    Prop :=
  (ks = [] ∧ ls = [] ∧ ls' = []) ∨
    (ls ≠ [] ∧ ls' ≠ [] ∧ Recast o o' ks (join ['\n'] ls) (join ['\n'] ls'))

section Lines

variable {o o' : Options} {ks ks' : List Token} {ls ls' ms ms' : List Text}
  {t u : Text}

theorem linesRecast_nil : LinesRecast o o' [] [] [] := .inl ⟨rfl, rfl, rfl⟩

theorem linesRecast_single (h : Recast o o' ks t u) :
    LinesRecast o o' ks [t] [u] :=
  .inr ⟨by simp, by simp, h⟩

/-- Lines of the same tokens behind lines of the same tokens. -/
theorem LinesRecast.append (h : LinesRecast o o' ks ls ls')
    (h' : LinesRecast o o' ks' ms ms') :
    LinesRecast o o' (ks ++ ks') (ls ++ ms) (ls' ++ ms') := by
  rcases h with ⟨rfl, rfl, rfl⟩ | ⟨h₀, h₀', h⟩
  · exact h'
  · refine .inr ⟨by simp [h₀], by simp [h₀'], ?_⟩
    rcases h' with ⟨rfl, rfl, rfl⟩ | ⟨hm, hm', h'⟩
    · simpa using h
    · have hgap : Blank ['\n'] := blank_cons.2 ⟨rfl, blank_nil⟩
      rw [join_append _ h₀ hm, join_append _ h₀' hm', List.append_assoc,
        List.append_assoc]
      exact h.append (h'.pad hgap) rfl rfl

theorem linesRecast_flatMap {α : Type} {tokens : α → List Token}
    {lines lines' : α → List Text}
    (h : ∀ a, LinesRecast o o' (tokens a) (lines a) (lines' a)) (as : List α) :
    LinesRecast o o' (as.flatMap tokens) (as.flatMap lines)
      (as.flatMap lines') := by
  induction as with
  | nil => exact linesRecast_nil
  | cons a as ih => exact (h a).append ih

end Lines

/-- A column is written with the same tokens under two options. -/
theorem recast_column (o o' : Options) (width : Nat) (column : Column) :
    Recast o o' column.tokens (columnText o width column)
      (columnText o' width column) := by
  obtain ⟨expression, _ | name⟩ := column
  · exact .single o o' expression
  · have has : "as".toList ∈ writtenWords := by decide
    have hname :=
      (Recast.word has rfl rfl (Recast.single o o' name).space).space
    have hpad := blank_spaces (width - expression.length)
    have hcolumn := (Recast.single o o' expression).append (hname.pad hpad)
      (offWord_append (offWord_of_blank hpad).2 rfl)
      (offWord_append (offWord_of_blank hpad).2 rfl)
    simpa [columnText, padEnd, Column.tokens] using hcolumn

/-- What stands between `select` and the columns. -/
def selectGap (o : Options) (distinct : Bool) : Text :=
  (if distinct then [' '] ++ o.keyword "distinct".toList else []) ++ [' ']

/-- What stands between `select` and the columns is as long under two
options. -/
theorem length_selectGap (o o' : Options) (distinct : Bool) :
    (selectGap o distinct).length = (selectGap o' distinct).length := by
  cases distinct with
  | false => rfl
  | true =>
    rw [selectGap, selectGap]
    simp only [if_true, List.length_append, Recast.length_keyword]

/-- What stands between `select` and the columns may be put before the same
tokens. -/
theorem recast_selectGap {o o' : Options} {ks : List Token} {t u : Text}
    (distinct : Bool) (h : Recast o o' ks t u) :
    offWord (selectGap o distinct ++ t).head? = true ∧ Recast o o' ks
      (selectGap o distinct ++ t) (selectGap o' distinct ++ u) := by
  cases distinct with
  | false => exact ⟨rfl, h.space⟩
  | true =>
    have hword :=
      (Recast.word (w := "distinct".toList) (by decide) rfl rfl h.space).space
    refine ⟨rfl, ?_⟩
    rw [selectGap, selectGap, if_pos rfl, if_pos rfl, List.append_assoc,
      List.append_assoc, List.append_assoc, List.append_assoc]
    exact hword

/-- The word `select` is as wide as the column of keywords. -/
theorem lead_select (o : Options) (base : Text) :
    lead o base "select".toList = base ++ o.keyword "select".toList := by
  rw [lead, padStart, Recast.length_keyword]
  rfl

/-- Without its indentation, a line that starts with `select` has no blanks
before it. -/
theorem trimStart_select (o : Options) {base : Text} (hb : Blank base)
    (t : Text) :
    trimStart (base ++ (o.keyword "select".toList ++ t)) =
      o.keyword "select".toList ++ t := by
  have hword : ∀ c ∈ o.keyword "select".toList, isBlank c = false :=
    noBlank_keyword o (by decide)
  refine trimStart_pad hb ?_
  rw [List.head?_append_of_ne_nil _ (keyword_ne_nil o (by simp))]
  exact fun c hc => hword c (List.mem_of_head? hc)

/-- The lines of a select list: the columns stand in one row or in a row for
each of them. -/
theorem selectLines_eq (o : Options) (base : Text) (distinct : Bool)
    (columns : List Column) :
    selectLines o base distinct columns = if (aliasedWidths columns).length ≤
      1 then rowLines (base ++ o.keyword "select".toList ++
      selectGap o distinct) [] ([columns].map (List.map (columnText o 0)))
      else rowLines (base ++ o.keyword "select".toList ++ selectGap o distinct)
      (spaces (base ++ o.keyword "select".toList ++
      selectGap o distinct).length) ((columns.map fun column => [column]).map
      (List.map (columnText o ((aliasedWidths columns).foldl max 0)))) := by
  simp only [selectLines, lead_select, selectGap, List.append_assoc,
    List.map_map, List.map_cons, List.map_nil, Function.comp_def]

/-- The lines of two layouts start with `select` behind the same blanks, and
write the same tokens behind it. -/
def SelectRecast (o o' : Options) (base : Text) (ks : List Token)
    (ls ls' : List Text) : Prop :=
  ∃ x x' : Text, join ['\n'] ls = base ++ (o.keyword "select".toList ++ x) ∧
    join ['\n'] ls' = base ++ (o'.keyword "select".toList ++ x') ∧
    offWord x.head? = true ∧ offWord x'.head? = true ∧ Recast o o' ks x x'

section Select

variable {o o' : Options} {base : Text} {ks ks' : List Token}
  {ls ls' ms ms' : List Text}

/-- The lines behind `select` write the same tokens when they are joined. -/
theorem SelectRecast.recast (h : SelectRecast o o' base ks ls ls')
    (hb : Blank base) : Recast o o' ks (join ['\n'] ls) (join ['\n'] ls') := by
  obtain ⟨x, x', e, e', hx, hx', h⟩ := h
  rw [e, e']
  exact (Recast.word (by decide) hx hx' h).pad hb

theorem SelectRecast.ne_nil (h : SelectRecast o o' base ks ls ls') :
    ls ≠ [] ∧ ls' ≠ [] := by
  have key : ∀ {o : Options} {x : Text},
      [] ≠ base ++ (o.keyword "select".toList ++ x) := by
    intro o x hx
    have h₀ := (List.append_eq_nil_iff.1 (List.append_eq_nil_iff.1 hx.symm).2).1
    exact keyword_ne_nil o (by simp) h₀
  obtain ⟨x, x', e, e', -⟩ := h
  constructor
  · rintro rfl
    exact key e
  · rintro rfl
    exact key e'

theorem SelectRecast.append (h : SelectRecast o o' base ks ls ls')
    (h' : LinesRecast o o' ks' ms ms') :
    SelectRecast o o' base (ks ++ ks') (ls ++ ms) (ls' ++ ms') := by
  obtain ⟨h₀, h₀'⟩ := h.ne_nil
  rcases h' with ⟨rfl, rfl, rfl⟩ | ⟨hm, hm', h'⟩
  · simpa using h
  · obtain ⟨x, x', e, e', hx, hx', h⟩ := h
    have hgap : Blank ['\n'] := blank_cons.2 ⟨rfl, blank_nil⟩
    refine ⟨x ++ (['\n'] ++ join ['\n'] ms), x' ++ (['\n'] ++ join ['\n'] ms'),
      ?_, ?_, offWord_append hx rfl, offWord_append hx' rfl,
      h.append (h'.pad hgap) rfl rfl⟩
    · rw [join_append _ h₀ hm, e]
      simp only [List.append_assoc]
    · rw [join_append _ h₀' hm', e']
      simp only [List.append_assoc]

/-- Rows of columns behind `select`. -/
theorem selectRecast_rows (o o' : Options) (base : Text) (distinct : Bool)
    (width : Nat) {indent : Text}
    (hi : Blank indent) {rows : List (List Column)} (h₀ : rows ≠ []) :
    SelectRecast o o' base (rows.flatten.flatMap Column.tokens)
      (rowLines (base ++ o.keyword "select".toList ++ selectGap o distinct)
      indent (rows.map (List.map (columnText o width))))
      (rowLines (base ++ o'.keyword "select".toList ++ selectGap o' distinct)
      indent (rows.map (List.map (columnText o' width)))) := by
  have hne : ∀ o : Options, rows.map (List.map (columnText o width)) ≠ [] :=
    fun o => by simpa using h₀
  obtain ⟨hoff, hrows⟩ :=
    recast_selectGap distinct (recast_rowLines (recast_column o o' width) hi h₀)
  obtain ⟨hoff', -⟩ :=
    recast_selectGap distinct (recast_rowLines (recast_column o' o width) hi h₀)
  refine ⟨_, _, ?_, ?_, hoff, hoff', hrows⟩
  · rw [join_rowLines _ _ (hne o), List.append_assoc, List.append_assoc]
  · rw [join_rowLines _ _ (hne o'), List.append_assoc, List.append_assoc]

/-- The lines of `select` write the same tokens under two options. -/
theorem selectRecast_select (distinct : Bool) (columns : List Column) :
    SelectRecast o o' base (columns.flatMap Column.tokens)
      (selectLines o base distinct columns)
      (selectLines o' base distinct columns) := by
  have hlength :
      (base ++ o.keyword "select".toList ++ selectGap o distinct).length =
      (base ++ o'.keyword "select".toList ++ selectGap o' distinct).length := by
    simp only [List.length_append, Recast.length_keyword,
      length_selectGap o o' distinct]
  rw [selectLines_eq, selectLines_eq, hlength]
  generalize (base ++ o'.keyword "select".toList ++
    selectGap o' distinct).length = n
  split
  · have hrow := selectRecast_rows o o' base distinct 0 blank_nil
      (List.cons_ne_nil columns [])
    rwa [List.flatten_singleton] at hrow
  · next hwidths =>
    have h₀ : (columns.map fun column => [column]) ≠ [] := by
      rintro h₀
      exact hwidths (by simp [List.map_eq_nil_iff.1 h₀, aliasedWidths])
    have hrows := selectRecast_rows o o' base distinct
      ((aliasedWidths columns).foldl max 0) (blank_spaces n) h₀
    rwa [← List.flatMap_def, List.flatMap_singleton'] at hrows

end Select

section Clauses

variable {o o' : Options} {base : Text} (hb : Blank base)
include hb

/-- A keyword at the river, and the text it leads. -/
theorem recast_led {word : Text} (hw : word ∈ writtenWords) (text : Text) :
    Recast o o' [.piece text] (lead o base word ++ [' '] ++ text)
      (lead o' base word ++ [' '] ++ text) := by
  rw [List.append_assoc, List.append_assoc]
  exact (Recast.single o o' text).space.lead hb hw rfl rfl

/-- The lines of the conditions write the same tokens under two options. -/
theorem linesRecast_conditions {word : Text} (hw : word ∈ writtenWords) :
    ∀ conds : List Condition, LinesRecast o o' (conds.flatMap Condition.tokens)
      (conditionLines o base word conds) (conditionLines o' base word conds)
  | [] => linesRecast_nil
  | first :: more => by
    have hword : ∀ c : Condition, c.combinator.word ∈ writtenWords :=
      fun c => by
      cases c.combinator <;> decide
    have hmore := linesRecast_flatMap
      (fun c : Condition => show LinesRecast o o' c.tokens _ _ from
      linesRecast_single (recast_led hb (hword c) c.predicate)) more
    have hall :=
      (linesRecast_single (recast_led hb hw first.predicate)).append hmore
    rwa [← List.map_eq_flatMap, ← List.map_eq_flatMap] at hall

/-- The line of a single expression writes the same tokens under two options. -/
theorem linesRecast_expression {word : Text} (hw : word ∈ writtenWords)
    (expression : Option Text) :
    LinesRecast o o' (expression.toList.map .piece)
      (expressionLines o base word expression)
      (expressionLines o' base word expression) := by
  cases expression with
  | none => exact linesRecast_nil
  | some text => exact linesRecast_single (recast_led hb hw text)

/-- The lines of a list write the same tokens under two options, however they
are wrapped. -/
theorem linesRecast_list {word : Text} (hw : word ∈ writtenWords)
    (literals : LiteralTable) (entries : List Text) :
    LinesRecast o o' (entries.map .piece)
      (listLines o base literals word entries)
      (listLines o' base literals word entries) := by
  by_cases h₀ : entries = []
  · subst h₀
    exact linesRecast_nil
  have hby : "by".toList ∈ writtenWords := by decide
  simp only [listLines]
  -- both heads are as wide as each other
  have hlength :
      (lead o base word ++ [' '] ++ o.keyword "by".toList ++ [' ']).length =
        (lead o' base word ++ [' '] ++ o'.keyword "by".toList ++
          [' ']).length := by
    simp [lead, padStart, Recast.length_keyword]
  rw [hlength]
  generalize (lead o' base word ++ [' '] ++ o'.keyword "by".toList ++
    [' ']).length = n
  generalize (fun entry => (literals.restore entry).length) = measure
  have hrows := wrap_spec n o.maxWidth measure h₀
  have hrows' := wrap_spec n o'.maxWidth measure h₀
  refine .inr ⟨rowLines_ne_nil _ _ hrows.2.1, rowLines_ne_nil _ _ hrows'.2.1,
    ?_⟩
  rw [join_rowLines _ _ hrows.2.1, join_rowLines _ _ hrows'.2.1]
  have hrest :=
    recast_entryRows (blank_spaces n) h₀ hrows hrows' fun h => by rw [h]
  have hhead := (Recast.word hby rfl rfl hrest).space.lead hb hw rfl rfl
  simpa using hhead

/-- The words of a join may be put before the same tokens. -/
theorem recast_joinLead (kind : JoinKind) {ks : List Token} {t u : Text}
    (ht : offWord t.head? = true)
    (hu : offWord u.head? = true) (h : Recast o o' ks t u) :
    Recast o o' ks (joinLead o base kind ++ t)
      (joinLead o' base kind ++ u) := by
  have hjoin : "join".toList ∈ writtenWords := by decide
  have key : ∀ word ∈ writtenWords, Recast o o' ks
      (lead o base word ++ [' '] ++ o.keyword "join".toList ++ t)
      (lead o' base word ++ [' '] ++ o'.keyword "join".toList ++ u) := by
    intro word hw
    simpa using (Recast.word hjoin ht hu h).space.lead hb hw rfl rfl
  cases kind with
  | plain => exact h.lead hb hjoin ht hu
  | left => exact key _ (by decide)
  | right => exact key _ (by decide)
  | inner => exact key _ (by decide)
  | outer => exact key _ (by decide)
  | full => exact key _ (by decide)
  | cross => exact key _ (by decide)

end Clauses

/-- The lines of a join's condition write the same tokens under two options. -/
theorem linesRecast_joinCondition (o o' : Options) {base : Text}
    (hb : Blank base) (onPredicate : Option Text) (usingColumns : List Text) :
    LinesRecast o o' (onPredicate.toList.map .piece ++
      if usingColumns.isEmpty then [] else .opening :: usingColumns.map
      .piece ++ [.closing]) (joinConditionLines o base onPredicate usingColumns)
      (joinConditionLines o' base onPredicate usingColumns) := by
  refine (linesRecast_expression hb (by decide) onPredicate).append ?_
  split
  · exact linesRecast_nil
  · have hrow :=
      recast_rowText (fun e => show Recast o o' [.piece e] (id e) (id e)
        from .single o o' e) usingColumns
    rw [List.map_id, ← List.map_eq_flatMap] at hrow
    have hlist := (hrow.append (Recast.closing .nil) rfl rfl).opening.space.lead
      hb (w := "using".toList) (by decide) rfl rfl
    exact linesRecast_single (by simpa using hlist)

/-! ## Queries -/

/-- A query in brackets, given the lines of the query. -/
theorem recast_subquery {o o' : Options} {root : Nat} {q : Query}
    {ks : List Token} (h : SelectRecast o o' (baseOf root q.depth) ks
    (queryLines o root q) (queryLines o' root q))
    (aliasName : Option Text) (start start' : Text) :
    ∃ t t', join ['\n'] (sourceLines o root start (.subquery q aliasName)) =
      start ++ t ∧
      join ['\n'] (sourceLines o' root start' (.subquery q aliasName)) =
      start' ++ t' ∧ Recast o o'
      (.opening :: ks ++ .closing :: aliasName.toList.map .piece) t t' := by
  have hopen : ∀ {o : Options} {x start : Text},
      join ['\n'] (queryLines o root q) =
      baseOf root q.depth ++ (o.keyword "select".toList ++ x) →
      join ['\n'] (sourceLines o root start (.subquery q aliasName)) =
        start ++ ('(' :: (o.keyword "select".toList ++ x) ++
          ')' :: aliasText aliasName) := by
    intro o x start e
    obtain ⟨first, more, hq, hfirst⟩ := exists_cons_queryLines o root q
    rw [sourceLines, hq, join_enclose _ _ _ hfirst, ← hq, e,
      trimStart_select o (blank_baseOf _ _)]
    simp only [List.append_assoc, List.cons_append, List.nil_append]
  obtain ⟨x, x', e, e', hx, hx', h⟩ := h
  refine ⟨_, _, hopen e, hopen e', ?_⟩
  have hquery :
      Recast o o' (.opening :: ks) ('(' :: (o.keyword "select".toList ++ x))
      ('(' :: (o'.keyword "select".toList ++ x')) :=
    (Recast.word (by decide) hx hx' h).opening
  exact hquery.append (Recast.closing .nil |>.withAlias aliasName) rfl rfl

mutual

/-- The lines of a query. -/
theorem recast_query (o o' : Options) (root : Nat) :
    ∀ q : Query, SelectRecast o o' (baseOf root q.depth) q.tokens
      (queryLines o root q) (queryLines o' root q)
  | { distinct, columns, source, joins, filter, groupBy, having, orderBy, limit,
      offset, literals, depth } => by
    have hb := blank_baseOf root depth
    rw [Query.tokens, queryLines, queryLines]
    have hsource : LinesRecast o o' source.tokens
        (sourceLines o root
          (lead o (baseOf root depth) "from".toList ++ [' ']) source)
        (sourceLines o' root
          (lead o' (baseOf root depth) "from".toList ++ [' ']) source) := by
      obtain ⟨t, t', e, e', h⟩ := recast_source o o' root source
        (lead o (baseOf root depth) "from".toList ++ [' '])
        (lead o' (baseOf root depth) "from".toList ++ [' '])
      refine .inr ⟨sourceLines_ne_nil _ _ _ _, sourceLines_ne_nil _ _ _ _, ?_⟩
      rw [e, e', List.append_assoc, List.append_assoc]
      exact h.space.lead hb (by decide) rfl rfl
    exact ((((((((selectRecast_select distinct columns).append hsource).append
      (recast_joins o o' root hb joins)).append
      (linesRecast_conditions hb (by decide) filter)).append
      (linesRecast_list hb (by decide) literals groupBy)).append
      (linesRecast_conditions hb (by decide) having)).append
      (linesRecast_list hb (by decide) literals orderBy)).append
      (linesRecast_expression hb (by decide) offset)).append
      (linesRecast_expression hb (by decide) limit)

/-- A source, behind any texts. -/
theorem recast_source (o o' : Options) (root : Nat) :
    ∀ (s : Source) (start start' : Text), ∃ t t',
      join ['\n'] (sourceLines o root start s) = start ++ t ∧
      join ['\n'] (sourceLines o' root start' s) = start' ++ t' ∧
      Recast o o' s.tokens t t'
  | .table name aliasName, start, start' => by
    refine ⟨_, _, ?_, ?_, (Recast.single o o' name).withAlias aliasName⟩
    · rw [sourceLines, join, List.append_assoc]
    · rw [sourceLines, join, List.append_assoc]
  | .subquery query aliasName, start, start' =>
    recast_subquery (recast_query o o' root query) aliasName start start'

/-- The lines of joins write the same tokens under two options. -/
theorem recast_joins (o o' : Options) (root : Nat) {base : Text}
    (hb : Blank base) :
    ∀ joins : List Join, LinesRecast o o' (Join.allTokens joins)
      (joinsLines o root base joins) (joinsLines o' root base joins)
  | [] => linesRecast_nil
  | { kind, source, onPredicate, usingColumns } :: more => by
    have hcondition :=
      linesRecast_joinCondition o o' hb onPredicate usingColumns
    rw [Join.allTokens, joinsLines, joinsLines, Join.tokens]
    refine LinesRecast.append ?_ (recast_joins o o' root hb more)
    rw [List.append_assoc]
    cases source with
    | table name aliasName =>
      obtain ⟨t, t', e, e', h⟩ :=
        recast_source o o' root (.table name aliasName)
          (joinLead o base kind ++ [' ']) (joinLead o' base kind ++ [' '])
      rw [joinLines, joinLines]
      refine LinesRecast.append (.inr ⟨sourceLines_ne_nil _ _ _ _,
        sourceLines_ne_nil _ _ _ _, ?_⟩) hcondition
      rw [e, e', List.append_assoc, List.append_assoc]
      exact recast_joinLead hb kind rfl rfl h.space
    | subquery query aliasName =>
      -- the query starts on a line of its own
      obtain ⟨t, t', e, e', h⟩ :=
        recast_source o o' root (.subquery query aliasName)
          (base ++ spaces (nestIndent - 1)) (base ++ spaces (nestIndent - 1))
      have hjoin : LinesRecast o o' [] [joinLead o base kind ++ []]
          [joinLead o' base kind ++ []] :=
        linesRecast_single (recast_joinLead hb kind rfl rfl .nil)
      have hindent : Blank (base ++ spaces (nestIndent - 1)) :=
        blank_append.2 ⟨hb, blank_spaces _⟩
      rw [List.append_nil, List.append_nil] at hjoin
      rw [joinLines, joinLines]
      refine (hjoin.append (.inr ⟨sourceLines_ne_nil _ _ _ _,
        sourceLines_ne_nil _ _ _ _, ?_⟩)).append hcondition
      rw [e, e']
      exact h.pad hindent

end

/-- Layouts differ in blanks and in the letter case of keywords only. Under any
two options they write the same tokens of the query in the same order, with the
quoted spans in place; layouts with the same letter case have the same words,
whatever the width; and layouts of the same width are spelled in the same way,
character by character. -/
theorem render_recast (q : Query) :
    (∀ o o' : Options, Recast o o' (q.tokens.map (.restore q.literals))
      (render o q) (render o' q)) ∧ (∀ (case : KeywordCase) (w w' : Nat),
      words (render ⟨case, w⟩ q) = words (render ⟨case, w'⟩ q)) ∧
    ∀ w : Nat, lower (render ⟨.upper, w⟩ q) = lower (render ⟨.lower, w⟩ q) := by
  have h : ∀ o o' : Options, Recast o o' (q.tokens.map (.restore q.literals))
      (render o q) (render o' q) := fun o o' =>
    ((recast_query o o' q.depth q).recast (blank_baseOf _ _)).restore q.literals
  refine ⟨h, fun case w w' => ?_, fun w => ?_⟩
  · exact (h ⟨case, w⟩ ⟨case, w'⟩).words_eq rfl
  · exact (h ⟨.upper, w⟩ ⟨.lower, w⟩).lower_eq rfl

end SqlRiver
