import SqlRiver.Proofs.Reading.Laid
import SqlRiver.Proofs.Reading.Joins
import SqlRiver.Query.Read

/-!
# What readers take

A reader takes tokens off the two ends of a text and leaves the rest.
`Takes front back t rest` says so: if what is left is laid out of some tokens,
the whole text is laid out of these tokens with `front` before and `back` behind
them. Readers that follow each other take the tokens of both.

Main definitions and statements:

* `Query.tokens`: the tokens of a query, in the order of its text.
* `Takes`, `Takes.trans`: what a reader takes, and readers one after the other.
* `laid_commaList`, `laid_conditions`: lists and conditions.
* `takes_bodyOf`: a clause at the start of a text.
* `takes_readTrailing`, `takes_readOrderBy`, `takes_readFilter`,
  `takes_readGroupBy`, `takes_readHaving`: the clauses without a source.
-/

namespace SqlRiver

/-! ## Tokens of queries -/

/-- The expression of a column and its alias. -/
def Column.tokens (column : Column) : List Token :=
  .piece column.expression :: column.aliasName.toList.map .piece

/-- The predicate of a condition. -/
def Condition.tokens (condition : Condition) : List Token :=
  [.piece condition.predicate]

mutual

/-- The tokens of a query, in the order of its text. -/
def Query.tokens : Query → List Token
  | { columns, source, joins, filter, groupBy, having, orderBy, limit, offset,
      .. } =>
    columns.flatMap Column.tokens ++ Source.tokens source ++
      Join.allTokens joins ++ filter.flatMap Condition.tokens ++
      groupBy.map .piece ++ having.flatMap Condition.tokens ++
      orderBy.map .piece ++ offset.toList.map .piece ++ limit.toList.map .piece

/-- The name of a source, or the tokens of a query in its brackets, and the
alias. -/
def Source.tokens : Source → List Token
  | .table name aliasName => .piece name :: aliasName.toList.map .piece
  | .subquery query aliasName =>
    .opening :: Query.tokens query ++ .closing :: aliasName.toList.map .piece

/-- The tokens of a source that is joined, and those of the condition of the
join. -/
def Join.tokens : Join → List Token
  | { source, onPredicate, usingColumns, .. } =>
    Source.tokens source ++ onPredicate.toList.map .piece ++
      if usingColumns.isEmpty then
      [] else .opening :: usingColumns.map .piece ++ [.closing]

/-- The tokens of several joins. -/
def Join.allTokens : List Join → List Token
  | [] => []
  | join :: more => Join.tokens join ++ Join.allTokens more

end

theorem Join.allTokens_append (js ks : List Join) :
    Join.allTokens (js ++ ks) = Join.allTokens js ++ Join.allTokens ks := by
  induction js with
  | nil => rfl
  | cons j js ih => simp [Join.allTokens, ih]

/-! ## Readers one after the other -/

/-- Reading takes `front` off the start of a text and `back` off its end, and
leaves `rest`. -/
structure Takes (front back : List Token) (t rest : Text) : Prop where
  subset : rest ⊆ t
  laid : ∀ ks, Laid none ks rest none → Laid none (front ++ ks ++ back) t none

theorem takes_self (t : Text) : Takes [] [] t t :=
  ⟨List.Subset.refl t, fun ks h => by simpa using h⟩

/-- Two readers one after the other take the tokens of both. -/
theorem Takes.trans {front front' back back' : List Token} {t u v : Text}
    (h : Takes front back t u) (h' : Takes front' back' u v) :
    Takes (front ++ front') (back' ++ back) t v := by
  refine ⟨List.Subset.trans h'.subset h.subset, fun ks hks => ?_⟩
  simpa [List.append_assoc] using h.laid _ (h'.laid ks hks)

/-! ## Clauses at the end -/

section Trailing

variable {clause : Clause} {t a m c : Text} {ks : List Token}

/-- A text cut at a phrase: the tokens behind the phrase are taken off its
end. -/
theorem takes_behind (ht : Text.SpaceOnly (a ++ m ++ c))
    (hs : Stands clause.phrase a m c) (hc : Laid none ks c none) :
    Takes [] ks (a ++ m ++ c) a.trim := by
  have hsub : a ⊆ a ++ m ++ c := by simp
  refine ⟨List.Subset.trans (Text.trim_subset a) hsub, fun ls hls => ?_⟩
  exact .stands (isFiller_phrase clause) (isPhrase_phrase clause) hs
    (.of_trim (ht.of_subset hsub) hls) hc

/-- The expression of a clause at the end is taken off the end. -/
theorem takes_readTrailing {v : Option Text} {rest : Text} (ht : t.SpaceOnly)
    (h : readTrailing clause t = .ok (v, rest)) :
    Takes [] (v.toList.map .piece) t rest := by
  rcases readTrailing_eq_ok_iff.1 h with
    ⟨-, rfl, rfl⟩ | ⟨a, m, c, rfl, hs, -, h₀, rfl, rfl⟩
  · exact takes_self _
  · refine takes_behind ht hs
      (laid_piece_trim (ht.of_subset (by simp)) h₀ rfl ?_)
    exact runsOn_of_right rfl _

end Trailing

/-! ## Lists -/

/-- A text is laid out of the tokens between any two characters that are not
part of a word. -/
def Free (ks : List Token) (t : Text) : Prop :=
  ∀ b a, offWord b = true → offWord a = true → Laid b ks t a

theorem free_piece {t : Text} (h₀ : t ≠ []) : Free [.piece t] t := by
  intro b a hb ha
  have h : Laid b [.piece t] (t ++ []) a := Laid.token (k :=
    .piece t) h₀ (runsOn_of_left hb _) (runsOn_of_right ha _) .nil
  rwa [List.append_nil] at h

/-- Two texts with blanks between them. -/
theorem Free.gap {ks ls : List Token} {x g y : Text} (hx : Free ks x)
    (hg : g.Blank) (hg' : g.SpaceOnly) (h₀ : g ≠ []) (hy : Free ls y) :
    Free (ks ++ ls) (x ++ (g ++ y)) := by
  intro b a hb ha
  obtain ⟨c, g', rfl⟩ := List.exists_cons_of_ne_nil h₀
  have hc : c = ' ' := hg' c (by simp) (hg c (by simp))
  have hl : offWord ((c :: g').getLast?.or none) = true := by
    rw [Option.or_none]
    cases h : (c :: g').getLast? with
    | none => rfl
    | some d =>
      have hd := List.mem_of_getLast? h
      rw [hg' d hd (hg d hd)]
      rfl
  have hgy :=
    (laid_blank (b := none) (a := y.head?.or a) hg hg').append (hy _ _ hl ha)
  refine (hx b _ hb ?_).append (hgy.before (.inr ?_))
  · rw [List.cons_append, hc]
    rfl
  · rw [List.cons_append, hc]
    rfl

/-- Tokens that are laid in a trimmed text are laid in the text, whatever stands
around it. -/
theorem Free.of_trim {ks : List Token} {t : Text} (ht : t.SpaceOnly)
    (h : Free ks t.trim) : Free ks t := by
  intro b a hb ha
  refine .of_trim_between ht fun b' a' hb' ha' => h b' a' ?_ ?_
  · rcases hb' with rfl | rfl
    · exact hb
    · rfl
  · rcases ha' with rfl | rfl
    · exact ha
    · rfl

/-- Entries between commas, when each entry is laid out of its tokens. -/
theorem free_split {f : Text → List Token}
    (hf : ∀ e, Text.SpaceOnly e → e ≠ [] → Free (f e) e) (t : Text) :
    t.SpaceOnly → (∀ e ∈ (split [','] t).pieces, e ≠ []) →
    Free ((split [','] t).pieces.flatMap f) t := by
  have hpart : ∀ part : Text, part.SpaceOnly → part.trim ≠ [] →
      Free (f part.trim) part := fun part hp h₀ =>
    .of_trim hp (hf _ (hp.of_subset (Text.trim_subset part)) h₀)
  refine split_comma_induction (P := fun t s => t.SpaceOnly →
    (∀ e ∈ s.pieces, e ≠ []) → Free (s.pieces.flatMap f) t) ?_ ?_ t
  · intro t _ ht he
    simpa [Split.pieces, Split.parts]
      using hpart t ht (he _ (by simp [Split.pieces, Split.parts]))
  · intro x c s _ _ ih ht he b a hb ha
    have hpieces :
        Split.pieces ⟨x, ([','], s.first) :: s.rest⟩ = x.trim :: s.pieces := rfl
    rw [hpieces] at he ⊢
    have hx :=
      hpart x (ht.of_subset (by simp)) (he _ (by simp)) b (some ',') hb rfl
    have hc := ih (ht.of_subset (by simp))
      (fun e h => he e (by simp [h])) (some ',') a rfl ha
    exact hx.append (a := a) (u := ',' :: c) (.comma hc)

/-- The tokens of the entries are laid in their list, if those of each entry
are. -/
theorem laid_commaList {clause : Clause} {body : Text} {entries : List Text}
    {f : Text → List Token} (hf : ∀ e, Text.SpaceOnly e → e ≠ [] → Free (f e) e)
    (hbody : body.SpaceOnly) (h : commaList clause body = .ok entries) :
    Laid none (entries.flatMap f) body none := by
  obtain ⟨-, rfl, hne⟩ := commaList_eq_ok_iff.1 h
  refine .of_trim hbody (free_split hf _ ?_ hne none none rfl rfl)
  exact hbody.of_subset (Text.trim_subset body)

/-- The entries of a list that are kept as they are. -/
theorem laid_entries {clause : Clause} {body : Text} {entries : List Text}
    (hbody : body.SpaceOnly) (h : commaList clause body = .ok entries) :
    Laid none (entries.map .piece) body none := by
  have hl := laid_commaList (f := fun e => [.piece e])
    (fun e _ h₀ => free_piece h₀) hbody h
  rwa [← List.map_eq_flatMap] at hl

/-- The entries of the ordering are laid out at the end of what is read. -/
theorem takes_readOrderBy {t rest : Text} {entries : List Text}
    (ht : t.SpaceOnly) (h : readOrderBy t = .ok (entries, rest)) :
    Takes [] (entries.map .piece) t rest := by
  rcases readOrderBy_eq_ok_iff.1 h with
    ⟨-, rfl, rfl⟩ | ⟨a, m, c, rfl, hs, -, hl, rfl⟩
  · exact takes_self _
  · exact takes_behind ht hs (laid_entries (ht.of_subset (by simp)) hl)

/-! ## Conditions -/

theorem isPhrase_and : isPhrase "and".toList = true := by decide

theorem isFiller_and : isFiller "and".toList = true := by decide

/-- The predicates of a text, when the first of them has started with `u`. -/
theorem laid_regroup (t : Text) :
    ∀ u : Text, (u = [] ∨ atEdge t.head? = true) → Text.SpaceOnly (u ++ t) →
      (∀ p ∈ regroup (u ++ (split "and".toList t).first) (split "and".toList
      t).rest, p.trim ≠ []) →
      Laid none ((regroup (u ++ (split "and".toList t).first)
      (split "and".toList t).rest).map (.piece ·.trim)) (u ++ t) none := by
  refine split_phrase_induction isPhrase_and (P := fun t s =>
    ∀ u : Text, (u = [] ∨ atEdge t.head? = true) → Text.SpaceOnly (u ++ t) →
    (∀ p ∈ regroup (u ++ s.first) s.rest, p.trim ≠ []) → Laid none
    ((regroup (u ++ s.first) s.rest).map (.piece ·.trim)) (u ++ t) none) ?_ ?_ t
  · intro t _ u _ ht hne
    exact laid_piece_trim ht (hne _ (by simp [regroup])) rfl
      (runsOn_of_right rfl _)
  · intro a m c s hs _ ih u hu ht hne
    simp only [regroup] at hne ⊢
    split
    · -- the predicate is open: it takes the separator and the next piece in
      next hopen =>
      rw [if_pos hopen] at hne
      have h := ih (u ++ a ++ m) (.inr hs.right) (by simpa using ht) hne
      simpa using h
    · next hopen =>
      rw [if_neg hopen] at hne
      have hsub : u ++ a ⊆ u ++ (a ++ m ++ c) := by simp
      have hhead : Laid none [.piece (u ++ a).trim] (u ++ a) none :=
        laid_piece_trim (ht.of_subset hsub) (hne _ (by simp)) rfl
          (runsOn_of_right rfl _)
      have hc : c ⊆ u ++ (a ++ m ++ c) := fun d hd => by simp [hd]
      have hrest := ih [] (.inl rfl) (ht.of_subset hc) fun p hp =>
        hne p (List.mem_cons_of_mem _ hp)
      -- an `and` right behind `u` would be the start of the text, which has an
      -- edge there
      have hleft : atEdge (u ++ a).getLast? = true := by
        by_cases ha : a = []
        · subst ha
          rcases hu with rfl | hu
          · rfl
          · rw [List.nil_append, List.head?_append_of_ne_nil
              _ (spelling_ne_nil isPhrase_and hs.spelled),
              isEdge_head_spelling isPhrase_and hs.spelled] at hu
            cases hu
        · rw [List.getLast?_append_of_ne_nil _ ha]
          exact hs.left
      have hm := hhead.append_cut
        (laid_spelling isFiller_and isPhrase_and hs.spelled) (.inl hleft)
      have := hm.append_cut hrest (.inr hs.right)
      simpa using this

/-- The predicates are laid out in the text of the conditions. -/
theorem laid_conditions {clause : Clause} {body : Text} {conds : List Condition}
    (hbody : body.SpaceOnly) (h : conditions clause body = .ok conds) :
    Laid none (conds.flatMap Condition.tokens) body none := by
  obtain ⟨-, hne, rfl⟩ := conditions_eq_ok_iff.1 h
  have hl := laid_regroup body.trim [] (.inl rfl)
    (hbody.of_subset (Text.trim_subset body)) (by
    intro p hp
    exact hne p.trim (List.mem_map_of_mem hp))
  refine .of_trim hbody ?_
  simpa [predicates, List.flatMap_map, Condition.tokens, ← List.map_eq_flatMap]
    using hl

/-! ## Clauses at the start -/

section Leading

variable {clause : Clause} {ends : List Clause} {t body rest : Text}
  {ks : List Token}

theorem subset_of_bodyOf (h : bodyOf? clause ends t = some (body, rest)) :
    body ⊆ t := by
  obtain ⟨m, tail, rfl, -⟩ := bodyOf?_eq_some_iff.1 h
  simp

/-- A clause at the start of a text takes the tokens of its body. -/
theorem takes_bodyOf (ht : t.SpaceOnly)
    (h : bodyOf? clause ends t = some (body, rest))
    (hbody : Laid none ks body none) : Takes ks [] t rest := by
  obtain ⟨m, tail, rfl, hs, hu, rfl⟩ := bodyOf?_eq_some_iff.1 h
  have hsub : tail ⊆ m ++ (body ++ tail) := by simp
  refine ⟨List.Subset.trans (Text.trim_subset tail) hsub, fun ls hls => ?_⟩
  have hrest := hbody.append_cut (.of_trim (ht.of_subset hsub) hls) hu.cut
  simpa using Laid.stands (isFiller_phrase clause)
    (isPhrase_phrase clause) hs .nil hrest

/-- The predicates of the filter are laid out at the start of what is read. -/
theorem takes_readFilter {conds : List Condition} (ht : t.SpaceOnly)
    (h : readFilter t = .ok (conds, rest)) :
    Takes (conds.flatMap Condition.tokens) [] t rest := by
  rcases readFilter_eq_ok_iff.1 h with ⟨-, rfl, rfl⟩ | ⟨body, hb, hc⟩
  · exact takes_self _
  · exact takes_bodyOf ht hb
      (laid_conditions (ht.of_subset (subset_of_bodyOf hb)) hc)

/-- The predicates of the filter of groups are laid out at the start of what is
read. -/
theorem takes_readHaving {grouped : Bool} {conds : List Condition}
    (ht : t.SpaceOnly) (h : readHaving grouped t = .ok (conds, rest)) :
    Takes (conds.flatMap Condition.tokens) [] t rest := by
  rcases readHaving_eq_ok_iff.1 h with ⟨-, rfl, rfl⟩ | ⟨body, hb, -, hc⟩
  · exact takes_self _
  · exact takes_bodyOf ht hb
      (laid_conditions (ht.of_subset (subset_of_bodyOf hb)) hc)

/-- The entries of the grouping are laid out at the start of what is read. -/
theorem takes_readGroupBy {entries : List Text} (ht : t.SpaceOnly)
    (h : readGroupBy t = .ok (entries, rest)) :
    Takes (entries.map .piece) [] t rest := by
  rcases readGroupBy_eq_ok_iff.1 h with ⟨-, rfl, rfl⟩ | ⟨body, hb, hl⟩
  · exact takes_self _
  · exact takes_bodyOf ht hb
      (laid_entries (ht.of_subset (subset_of_bodyOf hb)) hl)

end Leading

end SqlRiver
